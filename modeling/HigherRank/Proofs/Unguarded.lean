import HigherRank.Proofs.Guard
import HigherRank.Proofs.Soundness

set_option autoImplicit false

/-!
# Prenex programs need no guard

While a prenex program is checked, no quantifier is opened whose identifier is declared, and no
solution is captured: the quantified variables of all types at hand are not declared, and solutions
have no quantifier. So the guarded checker does what the checker does, whatever the outcome.
-/
namespace HigherRank

open Judgment
open Opening (own)

theorem Ty.captures_of_quantifierFree {g : TypeId → Ty} {ty : Ty} (h : ty.quantifierFree = true) :
    ty.captures g [] = false := by
  induction ty with
  | void => rfl
  | var a => rfl
  | placeholder p => rfl
  | forAll a body _ => cases h
  | arrow parameter result ihp ihr =>
    simp only [quantifierFree, Bool.and_eq_true] at h
    simp only [captures, ihp h.1, ihr h.2, Bool.or_false]

/-- Simple types in scope are not captured by quantifiers that are not declared. -/
theorem Ty.captures_of_apart {Γ : Context} {g : TypeId → Ty} {quantified : List TypeId} {ty : Ty}
    (hg : ∀ p ∈ ty.placeholders, (g p).quantifierFree = true ∧ Γ.wellFormed (g p) = true)
    (hq : ∀ a, a ∈ quantified ∨ a ∈ ty.quantifiers → a ∉ Γ.rigid) :
    ty.captures g quantified = false := by
  induction ty generalizing quantified with
  | void => rfl
  | var a => rfl
  | placeholder p =>
    obtain ⟨hfree, hw⟩ := hg p (by simp [placeholders])
    simp only [captures, Bool.not_eq_eq_eq_not, Bool.not_false, clearOf, List.all_eq_true]
    intro a ha
    have hocc : a ∉ (g p).occurrences := fun hocc => by
      rw [← free_eq_occurrences_of_quantifierFree hfree] at hocc
      exact hq a (.inl ha) ((Context.wellFormed_iff.1 hw).1 a hocc)
    simp [hocc, quantifiers_eq_nil_of_quantifierFree hfree]
  | forAll a body ih =>
    refine ih hg fun b hb => hq b ?_
    simp only [quantifiers, List.mem_cons] at hb ⊢
    rcases hb with (rfl | hb) | hb
    · exact .inr (.inl rfl)
    · exact .inl hb
    · exact .inr (.inr hb)
  | arrow parameter result ihp ihr =>
    simp only [placeholders, quantifiers, List.mem_append] at hg hq
    have hp : parameter.captures g quantified = false :=
      ihp (fun p hp => hg p (.inl hp)) fun a ha => hq a (ha.imp_right .inl)
    have hr : result.captures g quantified = false :=
      ihr (fun p hp => hg p (.inr hp)) fun a ha => hq a (ha.imp_right .inr)
    simp only [captures, hp, hr, Bool.or_false]

namespace Context

theorem resolveCaptures_eq_false {Γ : Context} (hs : Γ.SimplySolved) (n : Nat) (p : TypeId) :
    Γ.resolveCaptures n p = false := by
  induction n generalizing p with
  | zero => rfl
  | succ n ih =>
    rw [resolveCaptures]
    split
    · rename_i solution hsolution
      have hfree := hs p solution (solution?_mem hsolution)
      simp [Ty.captures_of_quantifierFree hfree, ih]
    · rfl

theorem captures_eq_false {Γ : Context} {ty : Ty} (hs : Γ.SimplySolved) (ho : Γ.Ordered)
    (hty : ty.PrenexIn Γ) : Γ.captures ty = false := by
  have hcaptures : ty.captures (Γ.resolve Γ.length) [] = false := by
    refine Ty.captures_of_apart (Γ := Γ) (fun p hp => ⟨hs.resolve p, ?_⟩) fun a ha => ?_
    · have hmem := (wellFormed_iff.1 hty.wellFormed).2 p hp
      exact ho.wellFormed_apply (wellFormed_placeholder.2 hmem)
    · rw [Ty.quantifiers_of_prenex hty.prenex] at ha
      exact hty.apart a (ha.resolve_left (by simp))
  simp [captures, hcaptures, resolveCaptures_eq_false hs]

end Context

namespace Judgment

variable {ε α β : Type} [SearchError ε] {x y : Search ε α} {x' y' : Judgment α} {s : State}

theorem bind_eq_widen {f : α → Search ε β} {f' : α → Judgment β} (hx : x s = widen x' s)
    (hf : ∀ a s₁, x' s = (.accepted a, s₁) → f a s₁ = widen (f' a) s₁) :
    (x >>= f) s = widen (x' >>= f') s := by
  rcases hr : x' s with ⟨a | _ | error, s₁⟩ <;> rw [widen, hr] at hx
  · rw [bind_of_accepted hx, widen, bind_of_accepted hr]
    exact hf a s₁ hr
  · rw [bind_of_rejected hx, widen, bind_of_rejected hr]
    rfl
  · rw [bind_of_aborted hx, widen, bind_of_aborted hr]
    rfl

theorem orElse_eq_widen (hx : x s = widen x' s)
    (hy : ∀ s₁, x' s = (.rejected, s₁) → y s₁ = widen y' s₁) :
    (x <|> y) s = widen (x' <|> y') s := by
  rcases hr : x' s with ⟨a | _ | error, s₁⟩ <;> rw [widen, hr] at hx
  · rw [orElse_of_accepted hx, widen, orElse_of_accepted hr]
    rfl
  · rw [orElse_of_rejected hx, widen, orElse_of_rejected hr]
    exact hy s₁ hr
  · rw [orElse_of_aborted hx, widen, orElse_of_aborted hr]
    rfl

theorem atomically_eq_widen (hx : x s = widen x' s) : atomically x s = widen (atomically x') s := by
  rcases hr : x' s with ⟨a | _ | error, s₁⟩ <;> rw [widen, hr] at hx <;>
    simp only [widen, atomically, hr, hx] <;> rfl

theorem nested_eq_widen
    (hx : x { s with depth := s.depth + 1 } = widen x' { s with depth := s.depth + 1 }) :
    nested x s = widen (nested x') s := by
  simp only [widen, nested, hx]

theorem closeScope_widen (s : State) (m : Marker) (r : Outcome α) :
    s.closeScope m (r.widen : Outcome α ε) =
      ((s.closeScope m r).1.widen, (s.closeScope m r).2) := by
  unfold State.closeScope
  split <;> rfl

theorem inChildScope_eq_widen (hx : x s.openScope.2 = widen x' s.openScope.2) :
    inChildScope x s = widen (inChildScope x') s := by
  rw [inChildScope_eq, hx]
  exact closeScope_widen ..

theorem flexibly_eq_widen {a : TypeId} {body : Ty} {f : Ty → Search ε Unit}
    {f' : Ty → Judgment Unit}
    (hf : ∀ label, f (body.subst a (.placeholder ⟨s.supply.types.size⟩)) (s.scopeWithNew label) =
      widen (f' (body.subst a (.placeholder ⟨s.supply.types.size⟩))) (s.scopeWithNew label)) :
    flexibly a body f s = widen (flexibly a body f') s :=
  atomically_eq_widen (inChildScope_eq_widen (hf _))

end Judgment

namespace Opening

variable {s : State}

theorem guarded_resolve {ty : Ty} (hs : s.Valid) (hsolved : s.context.SimplySolved)
    (hty : ty.PrenexIn s.context) :
    guarded.resolve ty s = widen (own.resolve ty) s := by
  have hcaptures := Context.captures_eq_false hsolved hs.ordered hty
  exact if_neg (by simp [hcaptures])

theorem guarded_resolve_bind {α : Type} {ty : Ty} {f : Ty → Search Halt α} {f' : Ty → Judgment α}
    (hs : s.Valid) (hsolved : s.context.SimplySolved) (hty : ty.PrenexIn s.context)
    (hf : f (s.context.apply ty) s = widen (f' (s.context.apply ty)) s) :
    (guarded.resolve ty >>= f) s = widen (own.resolve ty >>= f') s := by
  refine bind_eq_widen (guarded_resolve hs hsolved hty) fun _ _ hr => ?_
  cases hr
  exact hf

theorem guarded_rigidly {a : TypeId} {body : Ty} {f : Ty → Search Halt Unit}
    {f' : Ty → Judgment Unit} (ha : a ∉ s.context.rigid)
    (hf : f body (s.scopeWith (.var a)) = widen (f' body) (s.scopeWith (.var a))) :
    guarded.rigidly a body f s = widen (own.rigidly a body f') s := by
  have hrun : guarded.rigidly a body f s = Judgment.rigidly a (f body) s :=
    if_neg fun hmem => ha (Context.mem_rigid.2 hmem)
  rw [hrun]
  exact atomically_eq_widen (inChildScope_eq_widen hf)

end Opening

/-- From states in which only prenex types are at hand, the guarded judgment runs as the other. -/
def InstantiationUnguarded (guarded : Variance → TypeId → Ty → Search Halt Unit)
    (own : Variance → TypeId → Ty → Judgment Unit) : Prop :=
  ∀ v p ty s, s.Valid → Instantiable s.context p ty → guarded v p ty s = widen (own v p ty) s

section Instantiation

variable {guarded : Variance → TypeId → Ty → Search Halt Unit}
  {next : Variance → TypeId → Ty → Judgment Unit}
  (hn : ∀ v p ty, Atomic .nothing (next v p ty)) (hsound : InstantiationSound next)
  (ih : InstantiationUnguarded guarded next)
include hn hsound ih

theorem instantiateStep_unguarded :
    InstantiationUnguarded (Opening.guarded.instantiateStep guarded)
      (own.instantiateStep next) := by
  intro v p ty s hs hinst
  refine Opening.guarded_resolve_bind hs hinst.solved hinst.prenex ?_
  have hinst := hinst.apply hs.ordered
  generalize s.context.apply ty = ty' at hinst
  by_cases hsame : ty' = .placeholder p
  · rw [if_pos hsame, if_pos hsame]
    rfl
  rw [if_neg hsame, if_neg hsame]
  by_cases hmentions : ty'.mentions p = true
  · rw [if_pos hmentions, if_pos hmentions]
    rfl
  rw [if_neg hmentions, if_neg hmentions]
  refine orElse_eq_widen (congrFun (widen_instantiateMonotype p ty') s).symm fun s₁ hrejected => ?_
  rw [instantiateMonotype_rejected hrejected]
  cases ty' with
  | arrow parameter result =>
    refine atomically_eq_widen
      (bind_eq_widen (congrFun (widen_articulate p) s).symm fun ps s₁ ha => ?_)
    obtain ⟨p₁, p₂⟩ := ps
    obtain ⟨before, after, -, hafter⟩ := articulate_accepted ha
    have he₁ := (atomic_articulate p).evolves.result hs ha
    have hp₂ : p₂ ∈ s₁.context.placeholders := by simp [hafter, Entry.placeholder?]
    obtain ⟨hparameter, hresult⟩ := hinst.prenex.parts
    have hinst₁ : Instantiable s₁.context p₁ parameter :=
      ⟨articulate_simplySolved ha hinst.solved, by simp [hafter, Entry.placeholder?],
        hparameter.grows (he₁.of_nothing .placeholders).context⟩
    refine bind_eq_widen (ih _ _ _ _ he₁.valid hinst₁) fun _ s₂ h₁ => ?_
    have he₂ := (hn _ _ _).evolves.result he₁.valid h₁
    have hinst₂ : Instantiable s₂.context p₂ result :=
      ⟨(hsound _ _ _ _ _ he₁.valid hinst₁ h₁).simplySolved, he₂.context.placeholders hp₂,
        hresult.grows ((he₁.trans he₂).of_nothing .placeholders).context⟩
    refine Opening.guarded_resolve_bind he₂.valid hinst₂.solved hinst₂.prenex ?_
    exact ih _ _ _ _ he₂.valid (hinst₂.apply he₂.valid.ordered)
  | forAll a body =>
    cases v with
    | covariant =>
      exact Opening.guarded_rigidly (hinst.prenex.apart a (by simp [Ty.leading]))
        (ih _ _ _ _ (hs.scopeWith rfl (by simp)) (hinst.body_rigid _))
    | contravariant =>
      exact flexibly_eq_widen fun label =>
        ih _ _ _ _ (hs.scopeWithNew label) (hinst.body_flexible label)
  | _ => rfl

end Instantiation

theorem instantiate_unguarded (limit left : Nat) :
    InstantiationUnguarded (Opening.guarded.instantiate limit left)
      (own.instantiate limit left) := by
  induction left with
  | zero => exact fun _ _ _ _ _ _ => rfl
  | succ left ih =>
    intro v p ty s hs hinst
    exact nested_eq_widen (instantiateStep_unguarded (atomic_instantiate limit left)
      (instantiate_sound limit left) ih v p ty _ (hs.withDepth _) hinst)

def SubtypingUnguarded (guarded : Ty → Ty → Search Halt Unit) (own : Ty → Ty → Judgment Unit) :
    Prop :=
  ∀ sub sup s, s.Valid → Comparable s.context sub sup → guarded sub sup s = widen (own sub sup) s

section Subtyping

variable {guarded : Ty → Ty → Search Halt Unit} {next : Ty → Ty → Judgment Unit}
  {guardedInstantiate : Variance → TypeId → Ty → Search Halt Unit}
  {instantiate : Variance → TypeId → Ty → Judgment Unit}
  (hn : ∀ sub sup, Atomic .nothing (next sub sup))
  (hi : ∀ v p ty, Atomic .nothing (instantiate v p ty)) (hsound : SubtypingSound next)
  (ih : SubtypingUnguarded guarded next)
  (ihi : InstantiationUnguarded guardedInstantiate instantiate) {sub sup : Ty} {s : State}

include ih in
theorem subtypeOpeningSub_unguarded (hs : s.Valid) (hcomp : Comparable s.context sub sup) :
    subtypeOpeningSub guarded sub sup s = widen (subtypeOpeningSub next sub sup) s := by
  cases sub with
  | forAll a body =>
    exact flexibly_eq_widen fun label =>
      ih _ _ _ (hs.scopeWithNew label) (hcomp.body_flexible label)
  | _ => rfl

include ih in
theorem subtypeOpeningSup_unguarded (hs : s.Valid) (hcomp : Comparable s.context sub sup) :
    Opening.guarded.subtypeOpeningSup guarded sub sup s =
      widen (own.subtypeOpeningSup next sub sup) s := by
  cases sup with
  | forAll a body =>
    exact Opening.guarded_rigidly (hcomp.upper.apart a (by simp [Ty.leading]))
      (ih _ _ _ (hs.scopeWith rfl (by simp)) (hcomp.body_rigid _))
  | _ => rfl

include ihi in
theorem subtypeSolvingSub_unguarded (hs : s.Valid) (hcomp : Comparable s.context sub sup) :
    subtypeSolvingSub guardedInstantiate sub sup s =
      widen (subtypeSolvingSub instantiate sub sup) s := by
  cases sub with
  | placeholder p =>
    refine bind_eq_widen rfl fun b s₁ hb => ?_
    cases hb
    have heq := ihi .covariant p sup s hs hcomp.instantiable_upper
    split
    · exact heq
    · rfl
  | _ => rfl

include ihi in
theorem subtypeSolvingSup_unguarded (hs : s.Valid) (hcomp : Comparable s.context sub sup) :
    subtypeSolvingSup guardedInstantiate sub sup s =
      widen (subtypeSolvingSup instantiate sub sup) s := by
  cases sup with
  | placeholder p =>
    refine bind_eq_widen rfl fun b s₁ hb => ?_
    cases hb
    have heq := ihi .contravariant p sub s hs hcomp.instantiable_lower
    split
    · exact heq
    · rfl
  | _ => rfl

include hn hi hsound ih ihi in
theorem subtypeStep_unguarded :
    SubtypingUnguarded (Opening.guarded.subtypeStep guarded guardedInstantiate)
      (own.subtypeStep next instantiate) := by
  intro sub sup s hs hcomp
  refine Opening.guarded_resolve_bind hs hcomp.solved hcomp.lower ?_
  refine Opening.guarded_resolve_bind hs hcomp.solved hcomp.upper ?_
  have hcomp := hcomp.apply hs.ordered
  generalize s.context.apply sub = sub at hcomp
  generalize s.context.apply sup = sup at hcomp
  have hrest : Opening.guarded.subtypeOtherwise guarded guardedInstantiate sub sup s =
      widen (own.subtypeOtherwise next instantiate sub sup) s := by
    unfold Opening.subtypeOtherwise
    split
    · rfl
    -- A rule that was tried in vain has left the context alone.
    refine orElse_eq_widen (subtypeOpeningSub_unguarded ih hs hcomp) fun s₁ h₁ => ?_
    have hr₁ := (atomic_subtypeOpeningSub hn _ _).retries hs h₁
    have hs₁ := hr₁.evolves.valid
    rw [← hr₁.context] at hcomp
    refine orElse_eq_widen (subtypeOpeningSup_unguarded ih hs₁ hcomp) fun s₂ h₂ => ?_
    have hr₂ := (atomic_subtypeOpeningSup hn _ _).retries hs₁ h₂
    have hs₂ := hr₂.evolves.valid
    rw [← hr₂.context] at hcomp
    refine orElse_eq_widen (subtypeSolvingSub_unguarded ihi hs₂ hcomp) fun s₃ h₃ => ?_
    have hr₃ := (atomic_subtypeSolvingSub hi _ _).retries hs₂ h₃
    rw [← hr₃.context] at hcomp
    exact subtypeSolvingSup_unguarded ihi hr₃.evolves.valid hcomp
  cases sub with
  | arrow parameter result =>
    cases sup with
    | arrow parameter' result' =>
      obtain ⟨hparameter, hresult⟩ := hcomp.parts
      refine atomically_eq_widen (bind_eq_widen (ih _ _ _ hs hparameter) fun _ s₁ h₁ => ?_)
      have he := (hn _ _).evolves.result hs h₁
      have hsolved := (hsound _ _ _ _ hs hparameter h₁).simplySolved
      exact ih _ _ _ he.valid (hresult (he.of_nothing .placeholders).context hsolved)
    | _ => exact hrest
  | _ => exact hrest

end Subtyping

theorem subtype_unguarded (limit left : Nat) :
    SubtypingUnguarded (Opening.guarded.subtype limit left) (own.subtype limit left) := by
  induction left with
  | zero => exact fun _ _ _ _ _ => rfl
  | succ left ih =>
    intro sub sup s hs hcomp
    exact nested_eq_widen (subtypeStep_unguarded (atomic_subtype limit left)
      (atomic_instantiate limit left) (subtype_sound limit left) ih
      (instantiate_unguarded limit left) sub sup _ (hs.withDepth _) hcomp)

def CheckUnguarded (guarded : Term → Ty → Search Halt Unit) (own : Term → Ty → Judgment Unit) :
    Prop :=
  ∀ term ty s, s.Valid → Checkable s.context term ty → guarded term ty s = widen (own term ty) s

def SynthesisUnguarded (guarded : Term → Search Halt Ty) (own : Term → Judgment Ty) : Prop :=
  ∀ term s, s.Valid → s.context.Prenex → term.PrenexIn s.context →
    guarded term s = widen (own term) s

def ApplicationUnguarded (guarded : Ty → Term → Search Halt Ty) (own : Ty → Term → Judgment Ty) :
    Prop :=
  ∀ functionType argument s, s.Valid → s.context.Prenex → argument.PrenexIn s.context →
    functionType.PrenexIn s.context →
    guarded functionType argument s = widen (own functionType argument) s

section Typing

variable {guardedCheck : Term → Ty → Search Halt Unit} {check : Term → Ty → Judgment Unit}
  {guardedSynthesize : Term → Search Halt Ty} {synthesize : Term → Judgment Ty}
  {guardedApply : Ty → Term → Search Halt Ty} {synthesizeApplication : Ty → Term → Judgment Ty}
  {guardedSubtype : Ty → Ty → Search Halt Unit} {subtype : Ty → Ty → Judgment Unit}
  (hc : ∀ term ty, Atomic .placeholders (check term ty))
  (hy : ∀ term, Atomic .placeholders (synthesize term))
  (hysound : SynthesisSound synthesize)
  (ihc : CheckUnguarded guardedCheck check)
  (ihy : SynthesisUnguarded guardedSynthesize synthesize)
  (iha : ApplicationUnguarded guardedApply synthesizeApplication)
  (ihs : SubtypingUnguarded guardedSubtype subtype) {term : Term} {ty : Ty} {s : State}

include ihc in
theorem checkForAll_unguarded (hs : s.Valid) (hterm : Checkable s.context term ty) :
    Opening.guarded.checkForAll guardedCheck term ty s =
      widen (own.checkForAll check term ty) s := by
  cases ty with
  | forAll a body =>
    exact Opening.guarded_rigidly (hterm.expected.apart a (by simp [Ty.leading]))
      (ihc _ _ _ (hs.scopeWith rfl (by simp)) (hterm.body _))
  | _ => rfl

include ihc in
theorem checkLambda_unguarded (hs : s.Valid) (hterm : Checkable s.context term ty) :
    checkLambda guardedCheck term ty s = widen (checkLambda check term ty) s := by
  cases term with
  | lam x body =>
    cases ty with
    | arrow parameter result =>
      refine atomically_eq_widen (inChildScope_eq_widen ?_)
      exact ihc _ _ _ (hs.scopeWith rfl (by simp))
        (.assume hterm.context hterm.subject hterm.expected _)
    | _ => rfl
  | _ => rfl

include hy hysound ihy ihs in
theorem checkBySynthesis_unguarded (hs : s.Valid) (hterm : Checkable s.context term ty) :
    Opening.guarded.checkBySynthesis guardedSynthesize guardedSubtype term ty s =
      widen (own.checkBySynthesis synthesize subtype term ty) s := by
  refine atomically_eq_widen
    (bind_eq_widen (ihy _ _ hs hterm.context hterm.subject) fun found s₁ hfound => ?_)
  have he := (hy term).evolves.result hs hfound
  have hsynth := hysound _ _ _ _ hs hterm.context hterm.subject hfound
  have hcomp := hterm.comparable he.context hsynth
  refine Opening.guarded_resolve_bind he.valid hcomp.solved hcomp.lower ?_
  refine Opening.guarded_resolve_bind he.valid hcomp.solved hcomp.upper ?_
  exact ihs _ _ _ he.valid (hcomp.apply he.valid.ordered)

include hc hy hysound ihc ihy ihs in
theorem checkStep_unguarded :
    CheckUnguarded (Opening.guarded.checkStep guardedCheck guardedSynthesize guardedSubtype)
      (own.checkStep check synthesize subtype) := by
  intro term ty s hs hterm
  have hrest : Opening.guarded.checkOtherwise guardedCheck guardedSynthesize
        guardedSubtype term ty s =
      widen (own.checkOtherwise check synthesize subtype term ty) s := by
    refine orElse_eq_widen (checkForAll_unguarded ihc hs hterm) fun s₁ h₁ => ?_
    have hr₁ := (atomic_checkForAll hc _ _).retries hs h₁
    have hs₁ := hr₁.evolves.valid
    rw [← hr₁.context] at hterm
    refine orElse_eq_widen (checkLambda_unguarded ihc hs₁ hterm) fun s₂ h₂ => ?_
    have hr₂ := (atomic_checkLambda hc _ _).retries hs₁ h₂
    rw [← hr₂.context] at hterm
    exact checkBySynthesis_unguarded hy hysound ihy ihs hr₂.evolves.valid hterm
  cases term with
  | unit =>
    cases ty with
    | void => rfl
    | _ => exact hrest
  | _ => exact hrest

include ihc in
theorem synthesizeLambda_unguarded {x : BindingId} {body : Term} (hs : s.Valid)
    (hΓ : s.context.Prenex) (hterm : (Term.lam x body).PrenexIn s.context) :
    synthesizeLambda guardedCheck x body s = widen (synthesizeLambda check x body) s := by
  refine atomically_eq_widen (bind_eq_widen rfl fun label s₁ hl => ?_)
  cases hl
  refine bind_eq_widen rfl fun p s₁ hp => bind_eq_widen rfl fun q s₂ hq => ?_
  obtain ⟨he, hΓ₂, hterm₂, hty⟩ := introduce_arrow hs hΓ hterm hp hq
  refine bind_eq_widen (inChildScope_eq_widen ?_) fun _ _ _ => rfl
  exact ihc _ _ _ (he.valid.scopeWith rfl (by simp)) (.assume hΓ₂ hterm₂ hty _)

include ihc in
theorem synthesizeAnnotated_unguarded (hs : s.Valid) (hΓ : s.context.Prenex)
    (hterm : (Term.ann term ty).PrenexIn s.context) :
    synthesizeAnnotated guardedCheck term ty s = widen (synthesizeAnnotated check term ty) s := by
  refine bind_eq_widen rfl fun b s₁ hb => ?_
  cases hb
  split
  · rename_i hw
    obtain ⟨hinner, hty, -, havoids, hapart⟩ := hterm.ann hw
    refine bind_eq_widen (orElse_eq_widen ?_ fun _ _ => rfl) fun _ _ _ => rfl
    exact ihc _ _ _ hs ⟨hΓ, hinner, hty, havoids, hapart⟩
  · rfl

include hy hysound ihc ihy iha in
theorem synthesizeStep_unguarded :
    SynthesisUnguarded
      (Opening.guarded.synthesizeStep guardedCheck guardedSynthesize guardedApply)
      (own.synthesizeStep check synthesize synthesizeApplication) := by
  intro term s hs hΓ hterm
  cases term with
  | unit => rfl
  | ref x => exact (congrFun (widen_lookup x) s).symm
  | lam x body => exact synthesizeLambda_unguarded ihc hs hΓ hterm
  | app function argument =>
    obtain ⟨hfunction, hargument⟩ := hterm.app
    refine atomically_eq_widen (bind_eq_widen (ihy _ _ hs hΓ hfunction) fun found s₁ hf => ?_)
    have he := (hy function).evolves.result hs hf
    have hsynth := hysound _ _ _ _ hs hΓ hfunction hf
    have hsolved := hsynth.typed.simplySolved
    refine Opening.guarded_resolve_bind he.valid hsolved hsynth.prenex ?_
    exact iha _ _ _ he.valid (hΓ.grows he.context hsolved)
      (hargument.mono fun a _ ha => ha.grows he.context)
      (hsynth.prenex.apply hsolved he.valid.ordered)
  | ann term ty => exact synthesizeAnnotated_unguarded ihc hs hΓ hterm

include ihc iha in
theorem synthesizeApplicationStep_unguarded :
    ApplicationUnguarded (synthesizeApplicationStep guardedCheck guardedApply)
      (synthesizeApplicationStep check synthesizeApplication) := by
  intro functionType argument s hs hΓ hargument hfunction
  cases functionType with
  | void => rfl
  | var a => rfl
  | placeholder p =>
    refine atomically_eq_widen
      (bind_eq_widen (congrFun (widen_articulate p) s).symm fun ps s₁ ha => ?_)
    obtain ⟨p₁, p₂⟩ := ps
    obtain ⟨before, after, -, hafter⟩ := articulate_accepted ha
    have he := ((atomic_articulate p).evolves.result hs ha).of_nothing .placeholders
    have hΓ₁ := hΓ.grows he.context (articulate_simplySolved ha hΓ.simplySolved)
    have hp₁ : p₁ ∈ s₁.context.placeholders := by simp [hafter, Entry.placeholder?]
    refine bind_eq_widen (ihc _ _ _ he.valid ?_) fun _ _ _ => rfl
    exact .of_quantifierFree hΓ₁ (hargument.mono fun a _ ha => ha.grows he.context) rfl
      (Context.wellFormed_placeholder.2 hp₁)
  | forAll a body =>
    refine atomically_eq_widen (bind_eq_widen rfl fun label s₁ hl => ?_)
    cases hl
    refine bind_eq_widen rfl fun p s₁ hp => ?_
    have he := (evolves_introduce _).result hs hp
    obtain ⟨hΓ₁, hp₁⟩ := introduce_prenex hs hp hΓ
    exact iha _ _ _ he.valid hΓ₁ (hargument.mono fun a _ ha => ha.grows he.context)
      (hfunction.body_flexible he.context.rigid he.context.placeholders hp₁)
  | arrow parameter result =>
    obtain ⟨hp, -⟩ := hfunction.parts
    obtain ⟨hqp, -⟩ := hfunction.quantifierFree_parts
    exact bind_eq_widen (ihc _ _ _ hs (.of_quantifierFree hΓ hargument hqp hp.wellFormed))
      fun _ _ _ => rfl

end Typing

theorem typing_unguarded (limit left : Nat) :
    CheckUnguarded (Opening.guarded.check limit left) (own.check limit left) ∧
    SynthesisUnguarded (Opening.guarded.synthesize limit left) (own.synthesize limit left) ∧
    ApplicationUnguarded (Opening.guarded.synthesizeApplication limit left)
      (own.synthesizeApplication limit left) := by
  induction left with
  | zero =>
    refine ⟨fun _ _ _ _ _ => ?_, fun _ _ _ _ _ => ?_, fun _ _ _ _ _ _ _ => ?_⟩
    · rw [Opening.check, Opening.check]
      rfl
    · rw [Opening.synthesize, Opening.synthesize]
      rfl
    · rw [Opening.synthesizeApplication, Opening.synthesizeApplication]
      rfl
  | succ left ih =>
    obtain ⟨ihc, ihy, iha⟩ := ih
    obtain ⟨hc, hy, -⟩ := atomic_typing limit left
    obtain ⟨-, hysound, -⟩ := typing_sound limit left
    refine ⟨fun term ty s hs hterm => ?_, fun term s hs hΓ hterm => ?_,
      fun functionType argument s hs hΓ hargument hfunction => ?_⟩
    · rw [Opening.check, Opening.check]
      exact nested_eq_widen (checkStep_unguarded hc hy hysound ihc ihy
        (subtype_unguarded limit left) term ty _ (hs.withDepth _) hterm)
    · rw [Opening.synthesize, Opening.synthesize]
      exact nested_eq_widen (synthesizeStep_unguarded hy hysound ihc ihy iha term _
        (hs.withDepth _) hΓ hterm)
    · rw [Opening.synthesizeApplication, Opening.synthesizeApplication]
      exact nested_eq_widen (synthesizeApplicationStep_unguarded ihc iha functionType argument _
        (hs.withDepth _) hΓ hargument hfunction)

/-- The guarded checker never stops on a prenex program. -/
theorem PrenexProgram.checkBy_guarded {term : Term} {ty : Ty} {s : State} (c : Checker)
    (h : PrenexProgram s.context term ty) :
    c.checkBy .guarded term ty s = widen (c.check term ty) s :=
  (typing_unguarded _ _).1 term ty s h.hygienic.valid h.checkable

end HigherRank
