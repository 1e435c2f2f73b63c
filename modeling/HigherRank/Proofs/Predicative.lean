import HigherRank.Proofs.Budget
import HigherRank.Proofs.Calls
import HigherRank.Proofs.Prenex

set_option autoImplicit false

/-!
# Predicative search

A search for a comparison that stops before a placeholder is solved to a type with a quantifier
inside. As long as it has not stopped it is the search that the checker makes. In such a search
resolution never brings a quantifier into a type, and instantiation by a type without quantifiers uses
up one unsolved placeholder.
-/
namespace HigherRank

open Judgment
open Opening (own)

/-- Would the placeholder be solved to the type, and does that have a quantifier inside? -/
def Context.impredicative (Γ : Context) (p : TypeId) (ty : Ty) : Bool :=
  match Γ.before p with
  | .ok before => ty.isMonotype && !ty.quantifierFree && before.wellFormed ty
  | .error _ => false

/-- Stop if the placeholder would be solved to a type with a quantifier inside. -/
def predicatively (p : TypeId) (ty : Ty) (x : Search Halt Unit) : Search Halt Unit := fun s =>
  if s.context.impredicative p (s.context.apply ty) then stop s else x s

namespace Predicative

def instantiate (limit : Nat) : (left : Nat) → Variance → TypeId → Ty → Search Halt Unit
  | 0, _, _, _ => abort (.depthLimitExceeded limit)
  | left + 1, v, p, ty =>
    nested (predicatively p ty (own.instantiateStep (instantiate limit left) v p ty))

def subtype (limit : Nat) : (left : Nat) → Ty → Ty → Search Halt Unit
  | 0, _, _ => abort (.depthLimitExceeded limit)
  | left + 1, sub, sup =>
    nested (own.subtypeStep (subtype limit left) (instantiate limit left) sub sup)

end Predicative

section Guard

variable {p : TypeId} {ty : Ty} {x : Search Halt Unit} {s s' : State}

theorem predicatively_accepted (h : predicatively p ty x s = (.accepted (), s')) :
    s.context.impredicative p (s.context.apply ty) = false ∧ x s = (.accepted (), s') := by
  unfold predicatively at h
  split at h
  · cases h
  · rename_i hpred
    exact ⟨Bool.not_eq_true _ ▸ hpred, h⟩

theorem atomic_stop {g : Growth} : Atomic g (stop : Search Halt Unit) :=
  fun _ hs => ⟨.refl _ hs, fun _ => rfl⟩

theorem atomic_predicatively {g : Growth} (hx : Atomic g x) : Atomic g (predicatively p ty x) := by
  intro s hs
  unfold predicatively
  split
  · exact atomic_stop s hs
  · exact hx s hs

theorem follows_predicatively {kind : TypeError → Prop} {y : Judgment Unit}
    (h : Follows (· = .stopped) kind x y) :
    Follows (· = .stopped) kind (predicatively p ty x) y := by
  intro s hs
  unfold predicatively
  split
  · exact .gaveUp rfl
  · exact h s hs

end Guard

namespace Predicative

theorem atomic_instantiate (limit left : Nat) (v : Variance) (p : TypeId) (ty : Ty) :
    Atomic .nothing (instantiate limit left v p ty) := by
  induction left generalizing v p ty with
  | zero => exact atomic_abort _
  | succ left ih => exact (atomic_predicatively (atomic_instantiateStep ih v p ty)).nested

theorem atomic_subtype (limit left : Nat) (sub sup : Ty) :
    Atomic .nothing (subtype limit left sub sup) := by
  induction left generalizing sub sup with
  | zero => exact atomic_abort _
  | succ left ih => exact (atomic_subtypeStep ih (atomic_instantiate limit left) sub sup).nested

/-- The search runs as the judgment unless it stops before a solution. -/
abbrev RunsAs (x : Search Halt Unit) (y : Judgment Unit) : Prop :=
  Follows (· = .stopped) (fun _ => False) x y

theorem instantiate_runsAs (limit left : Nat) (v : Variance) (p : TypeId) (ty : Ty) :
    RunsAs (instantiate limit left v p ty) (own.instantiate limit left v p ty) := by
  induction left generalizing v p ty with
  | zero => exact fun _ _ => .aborted id
  | succ left ih =>
    exact (follows_predicatively (follows_instantiateStep (fun _ => id)
      (atomic_instantiate limit left) (HigherRank.atomic_instantiate limit left) ih v p ty)).nested

theorem subtype_runsAs (limit left : Nat) (sub sup : Ty) :
    RunsAs (subtype limit left sub sup) (own.subtype limit left sub sup) := by
  induction left generalizing sub sup with
  | zero => exact fun _ _ => .aborted id
  | succ left ih =>
    exact (follows_subtypeStep (atomic_subtype limit left) (HigherRank.atomic_subtype limit left)
      (HigherRank.atomic_instantiate limit left) ih (instantiate_runsAs limit left) sub sup).nested

theorem instantiate_renames (limit left : Nat) : InstantiationRenames (instantiate limit left) := by
  induction left with
  | zero =>
    intro v p ty s s' _ h
    cases h
  | succ left ih =>
    intro v p ty s s' hsolvable h
    obtain ⟨s₁, hrun, rfl⟩ := nested_accepted h
    exact instantiateStep_renames (atomic_instantiate limit left) ih v p ty
      { s with depth := s.depth + 1 } s₁ (hsolvable.withDepth _) (predicatively_accepted hrun).2

end Predicative

namespace Context

/-- What was unsolved in the first context has no quantifier in the second. -/
def Plain (Γ Δ : Context) : Prop :=
  ∀ q, .unsolved q ∈ Γ → (Δ.apply (.placeholder q)).quantifierFree = true

variable {Γ Δ Θ : Context} {ty : Ty}

theorem Plain.refl (hΓ : Γ.Ordered) : Plain Γ Γ := by
  intro q hq
  rw [hΓ.apply_of_unsolved hq]
  rfl

theorem Plain.quantifiers_apply (h : Plain Γ Δ) (hty : Γ.Resolved ty)
    (hw : Γ.wellFormed ty = true) : (Δ.apply ty).quantifiers = ty.quantifiers :=
  Ty.quantifiers_replace (fun _ _ => rfl) fun q hq =>
    Ty.quantifiers_eq_nil_of_quantifierFree (h q (hty.unsolved hw hq))

theorem Plain.quantifierFree_apply (h : Plain Γ Δ) (hty : Γ.Resolved ty)
    (hw : Γ.wellFormed ty = true) (hq : ty.quantifierFree = true) :
    (Δ.apply ty).quantifierFree = true :=
  Ty.quantifierFree_replace hq (fun _ _ => rfl) fun q hq => h q (hty.unsolved hw hq)

theorem Plain.trans {n n' : Nat} (h : Plain Γ Δ) (h' : Plain Δ Θ) (hΔ : Δ.Ordered) (hΘ : Θ.Ordered)
    (hg : Grows .nothing n Γ Δ) (hg' : Grows .nothing n' Δ Θ) : Plain Γ Θ := by
  intro q hq
  have hw : Δ.wellFormed (.placeholder q) = true :=
    wellFormed_placeholder.2 (hg.placeholders (placeholder_mem_of_unsolved hq))
  rw [← hg'.apply_apply hΔ hΘ]
  exact h'.quantifierFree_apply (hΔ.resolved_apply _) (hΔ.wellFormed_apply hw) (h q hq)

theorem Plain.endsScope {s s' s₁ : State} {m : Marker} {e : Entry} {n : Nat}
    (h : Plain (s.context.childScope m e) s₁.context) (hs₁ : s₁.Valid)
    (hg : Grows .nothing n s.context s'.context) (hend : EndsScope s s' s₁) :
    Plain s.context s'.context := by
  intro q hq
  have hw : s'.context.wellFormed (.placeholder q) = true :=
    wellFormed_placeholder.2 (hg.placeholders (placeholder_mem_of_unsolved hq))
  rw [← hend.apply_eq hs₁ hw]
  exact h q (mem_childScope.2 (.inl hq))

end Context

theorem Solves.quantifierFree {p : TypeId} {ty : Ty} {Γ Δ : Context} (h : Solves p ty Γ Δ)
    (hΔ : Δ.Ordered) (hpred : Γ.impredicative p ty = false) : ty.quantifierFree = true := by
  cases h with
  | same heq =>
    rw [heq]
    rfl
  | @direct before after hmono hw =>
    have hslot : Context.slot (before ++ .unsolved p :: after) p = .ok (before, after) := by
      refine Context.slot_eq_ok.2 ⟨rfl, fun hmem => ?_⟩
      exact hΔ.not_mem_before (e := .solved p ty) rfl (Context.placeholder_mem_of_unsolved hmem)
    simpa [Context.impredicative, Context.before, hslot, Except.map, hmono, hw] using hpred
  | reversed heq _ =>
    rw [heq]
    rfl

theorem Solves.plain {s : State} {p : TypeId} {ty : Ty} {Δ : Context}
    (h : Solves p ty s.context Δ) (hΔ : Δ.Ordered) (hapart : Apart s p ty)
    (hpred : s.context.impredicative p ty = false) : Context.Plain s.context Δ := by
  intro q hq
  have hfree := h.quantifierFree hΔ hpred
  by_cases hne : q = p
  · subst hne
    generalize hΓ : s.context = Γ at h
    cases h with
    | same heq => exact absurd (by simp [heq, Ty.placeholders]) hapart.absent
    | @direct before after hmono hw =>
      have hresolved : (before ++ .solved q ty :: after : Context).Resolved ty := by
        refine hΔ.resolved_of_unsolved fun r hr => ?_
        obtain ⟨hopen, hne⟩ := hapart.unsolved_of_mem hr
        simpa [hΓ, hne] using hopen
      rwa [hΔ.apply_of_solved (τ := ty) (by simp), hresolved.apply_eq]
    | @reversed r before after hty hmem =>
      have hne : q ≠ r := fun heq => hapart.absent (by simp [hty, heq, Ty.placeholders])
      rw [hΔ.apply_of_unsolved (by simpa [hΓ, hne] using hq)]
      rfl
  · obtain ⟨q', heq, -⟩ := h.renames (n := 0) hΔ hapart.unsolved q hq hne
    rw [heq]
    rfl

def InstantiationPlain (next : Variance → TypeId → Ty → Search Halt Unit) : Prop :=
  ∀ v p ty s s', Solvable s p ty → next v p ty s = (.accepted (), s') →
    Context.Plain s.context s'.context

section Instantiation

variable {next : Variance → TypeId → Ty → Search Halt Unit}
  (hn : ∀ v p ty, Atomic .nothing (next v p ty)) (hr : InstantiationRenames next)
  (ih : InstantiationPlain next)
include hn hr ih

theorem instantiateRule_plain {v : Variance} {p : TypeId} {ty : Ty} {s s' : State}
    (h : Apart s p ty) (hpred : s.context.impredicative p ty = false) (he : s.Evolves .nothing s')
    (hrule : InstantiateRule next v p s s' ty) : Context.Plain s.context s'.context := by
  cases hrule with
  | solves hsolves => exact hsolves.plain he.valid.ordered h hpred
  | @arrow τ υ p₁ p₂ s₁ s₂ ha h₁ h₂ =>
    have ha := articulated_of_accepted h.valid ha
    have he₁ := (hn _ _ _).evolves.result ha.evolves.valid h₁
    have he₂ := (hn _ _ _).evolves.result he₁.valid h₂
    have hplain₁ := ih _ _ _ _ _ (h.parameter ha).toSolvable h₁
    have hplain₂ := ih _ _ _ _ _ (h.result hn hr ha h₁).toSolvable h₂
    have hplain : Context.Plain s₁.context s'.context :=
      hplain₁.trans hplain₂ he₁.valid.ordered he.valid.ordered he₁.context he₂.context
    intro q hq
    by_cases hne : q = p
    · have hmem := (he₁.trans he₂).context.solved_mem ha.solved
      rw [hne, he.valid.ordered.apply_of_solved hmem, Context.apply_arrow, Ty.quantifierFree,
        hplain p₁ ha.parameterOpen, hplain p₂ ha.resultOpen]
      rfl
    · exact hplain q (ha.others q hq hne)
  | rigid hv hrun =>
    obtain ⟨s₁, hrun, hend⟩ := rigidly_accepted hrun
    have hbody := h.body_rigid
    exact (ih _ _ _ _ _ hbody.toSolvable hrun).endsScope
      ((hn _ _ _).evolves.result hbody.valid hrun).valid he.context hend
  | flexible hv hrun =>
    obtain ⟨label, s₁, hrun, hend⟩ := flexibly_accepted hrun
    have hbody := h.body_flexible label
    exact (ih _ _ _ _ _ hbody.toSolvable hrun).endsScope
      ((hn _ _ _).evolves.result hbody.valid hrun).valid he.context hend

theorem instantiateStep_plain {v : Variance} {p : TypeId} {ty : Ty} {s s' : State}
    (hsolvable : Solvable s p ty)
    (h : predicatively p ty (own.instantiateStep next v p ty) s = (.accepted (), s')) :
    Context.Plain s.context s'.context := by
  obtain ⟨hpred, h⟩ := predicatively_accepted h
  have he := (atomic_instantiateStep hn v p ty).evolves.result hsolvable.valid h
  rcases instantiateStep_occurs h with ⟨-, rfl⟩ | habsent
  · exact .refl hsolvable.ordered
  · exact instantiateRule_plain hn hr ih (hsolvable.apart habsent) hpred he
      (instantiateStep_accepted h)

end Instantiation

theorem Predicative.instantiate_plain (limit left : Nat) :
    InstantiationPlain (instantiate limit left) := by
  induction left with
  | zero =>
    intro v p ty s s' _ h
    cases h
  | succ left ih =>
    intro v p ty s s' hsolvable h
    obtain ⟨s₁, hrun, rfl⟩ := nested_accepted h
    exact (instantiateStep_plain (atomic_instantiate limit left) (instantiate_renames limit left) ih
      (hsolvable.withDepth (s.depth + 1)) hrun :)

def SubtypingPlain (next : Ty → Ty → Search Halt Unit) : Prop :=
  ∀ sub sup s s', Comparison s sub sup → next sub sup s = (.accepted (), s') →
    Context.Plain s.context s'.context

section Subtyping

variable {next : Ty → Ty → Search Halt Unit}
  {instantiate : Variance → TypeId → Ty → Search Halt Unit}
  (hn : ∀ sub sup, Atomic .nothing (next sub sup))
  (hi : ∀ v p ty, Atomic .nothing (instantiate v p ty)) (ih : SubtypingPlain next)
  (ihi : InstantiationPlain instantiate)
include hn hi ih ihi

theorem subtypeStep_plain : SubtypingPlain (own.subtypeStep next instantiate) := by
  intro sub sup s s' hcomp h
  have he := (atomic_subtypeStep hn hi sub sup).evolves.result hcomp.valid h
  have hrule := subtypeStep_accepted hn hi hcomp.valid h
  have hsub := hcomp.valid.ordered.resolved_apply sub
  have hsup := hcomp.valid.ordered.resolved_apply sup
  replace hcomp := hcomp.apply
  generalize s.context.apply sub = sub at hcomp hrule hsub
  generalize s.context.apply sup = sup at hcomp hrule hsup
  cases hrule with
  | @arrow τ υ τ' υ' s₁ h₁ h₂ =>
    have he₁ := (hn _ _).evolves.result hcomp.valid h₁
    have he₂ := (hn _ _).evolves.result he₁.valid h₂
    exact (ih _ _ _ _ hcomp.parts.1 h₁).trans (ih _ _ _ _ (hcomp.parts.2.later he₁) h₂)
      he₁.valid.ordered he.valid.ordered he₁.context he₂.context
  | atom hatom heq =>
    rw [heq]
    exact .refl hcomp.valid.ordered
  | openSub hr hrun =>
    obtain ⟨label, s₂, hrun, hend⟩ := flexibly_accepted hrun
    have hbody := hcomp.call hn (.openSub label hr)
    rw [← hr.context]
    exact (ih _ _ _ _ hbody hrun).endsScope ((hn _ _).evolves.result hbody.valid hrun).valid
      (hr.context ▸ he.context) hend
  | openSup hr hrun =>
    obtain ⟨s₂, hrun, hend⟩ := rigidly_accepted hrun
    have hbody := hcomp.call hn (.openSup hr)
    rw [← hr.context]
    exact (ih _ _ _ _ hbody hrun).endsScope ((hn _ _).evolves.result hbody.valid hrun).valid
      (hr.context ▸ he.context) hend
  | solveSub hr hrun =>
    have hplain := ihi _ _ _ _ _ (hcomp.instantiates hsub hsup (.sub hr)) hrun
    rwa [hr.context] at hplain
  | solveSup hr hrun =>
    have hplain := ihi _ _ _ _ _ (hcomp.instantiates hsub hsup (.sup hr)) hrun
    rwa [hr.context] at hplain

end Subtyping

theorem Predicative.subtype_plain (limit left : Nat) : SubtypingPlain (subtype limit left) := by
  induction left with
  | zero =>
    intro sub sup s s' _ h
    cases h
  | succ left ih =>
    intro sub sup s s' hcomp h
    obtain ⟨s₁, hrun, rfl⟩ := nested_accepted h
    exact subtypeStep_plain (atomic_subtype limit left) (atomic_instantiate limit left) ih
      (instantiate_plain limit left) sub sup { s with depth := s.depth + 1 } s₁
      (hcomp.withDepth _) hrun

namespace Context

def unknowns (Γ : Context) : Nat :=
  Γ.countP fun
    | .unsolved _ => true
    | _ => false

theorem unknowns_append (Γ Δ : Context) : unknowns (Γ ++ Δ) = Γ.unknowns + Δ.unknowns :=
  List.countP_append

theorem unknowns_unsolved (p : TypeId) (Γ : Context) :
    unknowns (.unsolved p :: Γ) = Γ.unknowns + 1 :=
  List.countP_cons_of_pos rfl

theorem unknowns_solved (p : TypeId) (τ : Ty) (Γ : Context) :
    unknowns (.solved p τ :: Γ) = Γ.unknowns :=
  List.countP_cons_of_neg (by simp)

end Context

theorem Solves.unknowns {p : TypeId} {ty : Ty} {Γ Δ : Context} (h : Solves p ty Γ Δ)
    (hne : ty ≠ .placeholder p) : Δ.unknowns + 1 = Γ.unknowns := by
  cases h with
  | same heq => exact absurd heq hne
  | direct =>
    simp only [Context.unknowns_append, Context.unknowns_unsolved, Context.unknowns_solved]
    omega
  | reversed =>
    simp only [Context.unknowns_append, Context.unknowns_unsolved, Context.unknowns_solved]
    omega

theorem articulate_unknowns {p p₁ p₂ : TypeId} {s s' : State}
    (h : (articulate p : Search Halt (TypeId × TypeId)) s = (.accepted (p₁, p₂), s')) :
    s'.context.unknowns = s.context.unknowns + 1 := by
  obtain ⟨before, after, hbefore, hafter⟩ := articulate_accepted h
  simp only [hbefore, hafter, Context.unknowns_append, Context.unknowns_unsolved,
    Context.unknowns_solved]
  omega

theorem Apart.ne_placeholder {s : State} {p : TypeId} {ty : Ty} (h : Apart s p ty) :
    ty ≠ .placeholder p := by
  rintro rfl
  exact h.absent (by simp [Ty.placeholders])

/-- Instantiation by another type without quantifiers solves one placeholder, on balance. -/
def InstantiationCounts (next : Variance → TypeId → Ty → Search Halt Unit) : Prop :=
  ∀ v p ty s s', Solvable s p ty → (s.context.apply ty).quantifierFree = true →
    next v p ty s = (.accepted (), s') →
    (s.context.apply ty = .placeholder p ∧ s'.context = s.context) ∨
      s'.context.unknowns + 1 = s.context.unknowns

theorem InstantiationCounts.of_apart {next : Variance → TypeId → Ty → Search Halt Unit}
    {v : Variance} {p : TypeId} {ty : Ty} {s s' : State} (h : InstantiationCounts next)
    (hapart : Apart s p ty) (hq : ty.quantifierFree = true)
    (hrun : next v p ty s = (.accepted (), s')) :
    s'.context.unknowns + 1 = s.context.unknowns := by
  have heq := hapart.resolved.apply_eq
  have hcount := h v p ty s s' hapart.toSolvable
  rw [heq] at hcount
  exact (hcount hq hrun).resolve_left fun hsame => hapart.ne_placeholder hsame.1

theorem instantiateStep_counts {next : Variance → TypeId → Ty → Search Halt Unit}
    (hn : ∀ v p ty, Atomic .nothing (next v p ty)) (hr : InstantiationRenames next)
    (ih : InstantiationCounts next) : InstantiationCounts (own.instantiateStep next) := by
  intro v p ty s s' hsolvable hq hrun
  rcases instantiateStep_occurs hrun with ⟨hsame, rfl⟩ | habsent
  · exact .inl ⟨hsame, rfl⟩
  refine .inr ?_
  have h := hsolvable.apart habsent
  have hrule := instantiateStep_accepted hrun
  generalize s.context.apply ty = ty at h hq hrule
  cases hrule with
  | solves hsolves => exact hsolves.unknowns h.ne_placeholder
  | @arrow τ υ p₁ p₂ s₁ s₂ ha h₁ h₂ =>
    have hcount := articulate_unknowns ha
    have ha := articulated_of_accepted h.valid ha
    obtain ⟨hτ, hυ⟩ := Bool.and_eq_true_iff.1 hq
    have hcount₁ := ih.of_apart (h.parameter ha) hτ h₁
    have hresult : (s₂.context.apply υ).quantifierFree = true := by
      refine Ty.quantifierFree_replace hυ (fun _ _ => rfl) fun q hq => ?_
      obtain ⟨q', heq, -⟩ := result_renamed hn hr h ha h₁ hq
      change (s₂.context.apply (.placeholder q)).quantifierFree = true
      rw [heq]
      rfl
    have hcount₂ := ih.of_apart (h.result hn hr ha h₁) hresult h₂
    omega
  | rigid => cases hq
  | flexible => cases hq

theorem Predicative.instantiate_counts (limit left : Nat) :
    InstantiationCounts (instantiate limit left) := by
  induction left with
  | zero =>
    intro v p ty s s' _ _ h
    cases h
  | succ left ih =>
    intro v p ty s s' hsolvable hq h
    obtain ⟨s₁, hrun, rfl⟩ := nested_accepted h
    exact instantiateStep_counts (atomic_instantiate limit left) (instantiate_renames limit left) ih
      v p ty { s with depth := s.depth + 1 } s₁ (hsolvable.withDepth _) hq
      (predicatively_accepted hrun).2

/-- A comparison of types without quantifiers changes nothing, or uses up a placeholder. -/
def SubtypingCounts (next : Ty → Ty → Search Halt Unit) : Prop :=
  ∀ sub sup s s', Comparison s sub sup → (s.context.apply sub).quantifierFree = true →
    (s.context.apply sup).quantifierFree = true → next sub sup s = (.accepted (), s') →
    s'.context = s.context ∨ s'.context.unknowns < s.context.unknowns

theorem subtypeStep_counts {next : Ty → Ty → Search Halt Unit}
    {instantiate : Variance → TypeId → Ty → Search Halt Unit}
    (hn : ∀ sub sup, Atomic .nothing (next sub sup))
    (hi : ∀ v p ty, Atomic .nothing (instantiate v p ty)) (hplain : SubtypingPlain next)
    (ih : SubtypingCounts next) (ihi : InstantiationCounts instantiate) :
    SubtypingCounts (own.subtypeStep next instantiate) := by
  intro sub sup s s' hcomp hq hq' h
  have hrule := subtypeStep_accepted hn hi hcomp.valid h
  have hsub := hcomp.valid.ordered.resolved_apply sub
  have hsup := hcomp.valid.ordered.resolved_apply sup
  replace hcomp := hcomp.apply
  generalize s.context.apply sub = sub at hcomp hrule hsub hq
  generalize s.context.apply sup = sup at hcomp hrule hsup hq'
  have hsolve : ∀ {v p ty s₁}, SubtypeInstantiates s sub sup v p ty s₁ → s.Retries s₁ →
      s.context.Resolved ty → ty.quantifierFree = true →
      instantiate v p ty s₁ = (.accepted (), s') →
      s'.context = s.context ∨ s'.context.unknowns < s.context.unknowns := by
    intro v p ty s₁ hc hr hresolved hq hrun
    have hcount := ihi v p ty s₁ s' (hcomp.instantiates hsub hsup hc)
    rw [hr.context, hresolved.apply_eq] at hcount
    rcases hcount hq hrun with ⟨-, heq⟩ | hlt
    · exact .inl heq
    · exact .inr (by omega)
  cases hrule with
  | @arrow τ υ τ' υ' s₁ h₁ h₂ =>
    obtain ⟨hτ, hυ⟩ := Bool.and_eq_true_iff.1 hq
    obtain ⟨hτ', hυ'⟩ := Bool.and_eq_true_iff.1 hq'
    have he₁ := (hn _ _).evolves.result hcomp.valid h₁
    have hplain₁ := hplain _ _ _ _ hcomp.parts.1 h₁
    have hcount₁ := ih _ _ _ _ hcomp.parts.1 (by rwa [hsup.parts.1.apply_eq])
      (by rwa [hsub.parts.1.apply_eq]) h₁
    have hcount₂ := ih _ _ _ _ (hcomp.parts.2.later he₁)
      (hplain₁.quantifierFree_apply hsub.parts.2 hcomp.parts.2.sub hυ)
      (hplain₁.quantifierFree_apply hsup.parts.2 hcomp.parts.2.sup hυ') h₂
    rcases hcount₁ with heq₁ | hlt₁
    · rwa [heq₁] at hcount₂
    · rcases hcount₂ with heq₂ | hlt₂
      · exact .inr (heq₂ ▸ hlt₁)
      · exact .inr (Nat.lt_trans hlt₂ hlt₁)
  | atom hatom heq => exact .inl (congrArg State.context heq)
  | openSub => cases hq
  | openSup => cases hq'
  | solveSub hr hrun => exact hsolve (.sub hr) hr hsup hq' hrun
  | solveSup hr hrun => exact hsolve (.sup hr) hr hsub hq hrun

theorem Predicative.subtype_counts (limit left : Nat) : SubtypingCounts (subtype limit left) := by
  induction left with
  | zero =>
    intro sub sup s s' _ _ _ h
    cases h
  | succ left ih =>
    intro sub sup s s' hcomp hq hq' h
    obtain ⟨s₁, hrun, rfl⟩ := nested_accepted h
    exact subtypeStep_counts (atomic_subtype limit left) (atomic_instantiate limit left)
      (subtype_plain limit left) ih (instantiate_counts limit left) sub sup
      { s with depth := s.depth + 1 } s₁ (hcomp.withDepth _) hq hq' hrun

end HigherRank
