import HigherRank.Proofs.LockstepSubtyping
import HigherRank.Proofs.Unguarded

set_option autoImplicit false

/-!
# When a quantifier may be opened by its own identifier

Declaring a quantifier's own identifier does the same as declaring a new one in its place, in every
run in which no identifier comes to mean two things at once, and so for every prenex program. That is
not so in all runs: types are copied, and a quantifier of higher rank can be opened again within its
own scope.
-/
namespace HigherRank

open Judgment

/-- The annotations of the term match themselves. -/
def Term.MatchesSelf (names : List TypeId) (Ξ : Twins) (term : Term) : Prop :=
  ∀ σ ∈ term.annotations, Ty.Matches names Ξ [] σ σ

theorem Twins.Grows.matchesSelf {names : List TypeId} {Ξ Ξ' : Twins} {term : Term}
    (hg : Twins.Grows Ξ Ξ') (h : term.MatchesSelf names Ξ) : term.MatchesSelf names Ξ' :=
  fun σ hσ => hg.matches (h σ hσ)

theorem Term.MatchesSelf.app {names : List TypeId} {Ξ : Twins} {function argument : Term}
    (h : (Term.app function argument).MatchesSelf names Ξ) :
    function.MatchesSelf names Ξ ∧ argument.MatchesSelf names Ξ :=
  ⟨fun σ hσ => h σ (List.mem_append_left _ hσ), fun σ hσ => h σ (List.mem_append_right _ hσ)⟩

theorem Term.MatchesSelf.ann {names : List TypeId} {Ξ : Twins} {term : Term} {ty : Ty}
    (h : (Term.ann term ty).MatchesSelf names Ξ) :
    Ty.Matches names Ξ [] ty ty ∧ term.MatchesSelf names Ξ :=
  ⟨h ty (by simp [annotations]), fun σ hσ => h σ (List.mem_cons_of_mem _ hσ)⟩

def matchingTypes (names : List TypeId) : Twins → Ty → Ty → Prop :=
  fun Ξ τ υ => Ty.Matches names Ξ [] τ υ

section Typing

variable {names : List TypeId} {Ξ : Twins} {term : Term} {τ υ : Ty}
  {cg : Term → Ty → Search Halt Unit} {co cf : Term → Ty → Judgment Unit}
  {sg : Term → Search Halt Ty} {so sf : Term → Judgment Ty}
  {ag : Ty → Term → Search Halt Ty} {ao af : Ty → Term → Judgment Ty}
  {bg : Ty → Ty → Search Halt Unit} {bo bf : Ty → Ty → Judgment Unit}
  (hcheck : ∀ Ξ term τ υ, term.MatchesSelf names Ξ → Ty.Matches names Ξ [] τ υ →
    Lockstep names true Ξ anyValue (cg term τ) (co term τ) (cf term υ))
  (hsynthesize : ∀ Ξ term, term.MatchesSelf names Ξ →
    Lockstep names true Ξ (matchingTypes names) (sg term) (so term) (sf term))
  (happly : ∀ Ξ τ υ term, Ty.Matches names Ξ [] τ υ → term.MatchesSelf names Ξ →
    Lockstep names true Ξ (matchingTypes names) (ag τ term) (ao τ term) (af υ term))
  (hsubtype : ∀ Ξ τ υ τ' υ', Ty.Matches names Ξ [] τ υ → Ty.Matches names Ξ [] τ' υ' →
    Lockstep names true Ξ anyValue (bg τ τ') (bo τ τ') (bf υ υ'))

include hcheck in
theorem lockstep_checkForAll (ht : term.MatchesSelf names Ξ) (hm : Ty.Matches names Ξ [] τ υ) :
    Lockstep names true Ξ anyValue (Opening.guarded.checkForAll cg term τ)
      (Opening.own.checkForAll co term τ) (Opening.fresh.checkForAll cf term υ) := by
  cases hm with
  | forAll hn ha hbody =>
    exact lockstep_rigidly (.forAll hn ha hbody) fun Ξ' _ hgrown hm =>
      hcheck Ξ' term _ _ (hgrown.matchesSelf ht) hm
  | _ => exact Lockstep.reject

include hcheck in
theorem lockstep_checkLambda (ht : term.MatchesSelf names Ξ) (hm : Ty.Matches names Ξ [] τ υ) :
    Lockstep names true Ξ anyValue (checkLambda cg term τ) (checkLambda co term τ)
      (checkLambda cf term υ) := by
  cases term with
  | lam x body =>
    cases hm with
    | arrow hparameter hresult =>
      exact Lockstep.atomically (lockstep_assuming x hparameter fun Ξ' hgrown =>
        hcheck Ξ' body _ _ (hgrown.matchesSelf ht) (hgrown.matches hresult))
    | _ => exact Lockstep.reject
  | _ => exact Lockstep.reject

include hsynthesize hsubtype in
theorem lockstep_checkBySynthesis (ht : term.MatchesSelf names Ξ)
    (hm : Ty.Matches names Ξ [] τ υ) :
    Lockstep names true Ξ anyValue (Opening.guarded.checkBySynthesis sg bg term τ)
      (Opening.own.checkBySynthesis so bo term τ)
      (Opening.fresh.checkBySynthesis sf bf term υ) := by
  refine Lockstep.atomically ((hsynthesize Ξ term ht).bind fun Ξ' _ _ hgrown hfound => ?_)
  refine Lockstep.resolve_bind hfound fun _ _ hfound => ?_
  refine Lockstep.resolve_bind (hgrown.matches hm) fun _ _ hexpected => ?_
  exact (hsubtype Ξ' _ _ _ _ hfound hexpected).loosen

include hcheck hsynthesize hsubtype in
theorem lockstep_checkStep (ht : term.MatchesSelf names Ξ) (hm : Ty.Matches names Ξ [] τ υ) :
    Lockstep names true Ξ anyValue (Opening.guarded.checkStep cg sg bg term τ)
      (Opening.own.checkStep co so bo term τ) (Opening.fresh.checkStep cf sf bf term υ) := by
  have hrest : Lockstep names true Ξ anyValue
      (Opening.guarded.checkOtherwise cg sg bg term τ)
      (Opening.own.checkOtherwise co so bo term τ)
      (Opening.fresh.checkOtherwise cf sf bf term υ) :=
    (lockstep_checkForAll hcheck ht hm).orElse ((lockstep_checkLambda hcheck ht hm).orElse
      (lockstep_checkBySynthesis hsynthesize hsubtype ht hm))
  cases term with
  | unit =>
    cases hm with
    | void => exact Lockstep.accept trivial
    | _ => exact hrest
  | _ => exact hrest

theorem Lockstep.bindingLabel_bind {α β : Type} {W : Twins → α → β → Prop} {kept : Bool}
    {gf : String → Search Halt α} {of : String → Judgment α} {ff : String → Judgment β}
    (x : BindingId)
    (hf : ∀ label label', Lockstep names kept Ξ W (gf label) (of label) (ff label')) :
    Lockstep names kept Ξ W (bindingLabel x >>= gf) (bindingLabel x >>= of)
      (bindingLabel x >>= ff) :=
  fun s t hp => hf (s.supply.bindingLabel x) (t.supply.bindingLabel x) s t hp

include hcheck in
theorem lockstep_synthesizeLambda {x : BindingId} {body : Term} (ht : body.MatchesSelf names Ξ) :
    Lockstep names true Ξ (matchingTypes names) (synthesizeLambda cg x body)
      (synthesizeLambda co x body) (synthesizeLambda cf x body) := by
  refine Lockstep.atomically (Lockstep.bindingLabel_bind x fun _ _ => ?_)
  refine (lockstep_introduce _ _).bind fun Ξ₁ p q hgrown₁ hpq => ?_
  refine (lockstep_introduce _ _).bind fun Ξ₂ p' q' hgrown₂ hpq' => ?_
  have hparameter : Ty.Matches names Ξ₂ [] (.placeholder p) (.placeholder q) :=
    .placeholder (hgrown₂.placeholders hpq)
  have hresult : Ty.Matches names Ξ₂ [] (.placeholder p') (.placeholder q') := .placeholder hpq'
  refine (lockstep_assuming x hparameter fun Ξ₃ hgrown₃ => ?_).bind_accept
    fun Ξ₃ _ _ hgrown₃ _ => hgrown₃.matches (.arrow hparameter hresult)
  exact hcheck Ξ₃ body _ _
    (hgrown₃.matchesSelf (hgrown₂.matchesSelf (hgrown₁.matchesSelf ht))) (hgrown₃.matches hresult)

include hcheck in
theorem lockstep_synthesizeAnnotated (ht : (Term.ann term τ).MatchesSelf names Ξ) :
    Lockstep names true Ξ (matchingTypes names) (synthesizeAnnotated cg term τ)
      (synthesizeAnnotated co term τ) (synthesizeAnnotated cf term τ) := by
  obtain ⟨hm, ht⟩ := ht.ann
  -- An annotation that matches itself is in scope on both sides.
  have hrun : ∀ {ε : Type} [SearchError ε] {check : Term → Ty → Search ε Unit} {s : State},
      s.context.wellFormed τ = true → synthesizeAnnotated check term τ s =
        ((check term τ <|> abort (.annotationMismatch term τ)) >>= fun _ => accept τ) s := by
    intro ε _ check s hw
    change (if s.context.wellFormed τ = true then _ else _ : Search ε Ty) s = _
    rw [if_pos hw]
  intro s t hp
  have hwl : s.context.wellFormed τ = true := by
    rw [hp.left, Context.wellFormed_eq_admits]
    exact hm.admits.1
  have hwr : t.context.wellFormed τ = true := by
    rw [hp.right, Context.wellFormed_eq_admits]
    exact hm.admits.2
  rw [hrun hwl, hrun hwl, hrun hwr]
  exact Lockstep.bind_accept ((hcheck Ξ term τ τ ht hm).orElse (.abort (.same _)))
    (fun Ξ' _ _ hgrown _ => hgrown.matches hm) s t hp

include hcheck hsynthesize happly in
theorem lockstep_synthesizeStep (ht : term.MatchesSelf names Ξ) :
    Lockstep names true Ξ (matchingTypes names)
      (Opening.guarded.synthesizeStep cg sg ag term)
      (Opening.own.synthesizeStep co so ao term) (Opening.fresh.synthesizeStep cf sf af term) := by
  cases term with
  | unit => exact Lockstep.accept .void
  | ref x => exact lockstep_lookup x
  | lam x body => exact lockstep_synthesizeLambda hcheck ht
  | app function argument =>
    obtain ⟨hfunction, hargument⟩ := ht.app
    refine Lockstep.atomically
      ((hsynthesize Ξ function hfunction).bind fun Ξ' _ _ hgrown hfound => ?_)
    refine Lockstep.resolve_bind hfound fun _ _ hfound => ?_
    exact (happly Ξ' _ _ argument hfound (hgrown.matchesSelf hargument)).loosen
  | ann term ty => exact lockstep_synthesizeAnnotated hcheck ht

include hcheck happly in
theorem lockstep_synthesizeApplicationStep (hm : Ty.Matches names Ξ [] τ υ)
    (ht : term.MatchesSelf names Ξ) :
    Lockstep names true Ξ (matchingTypes names) (synthesizeApplicationStep cg ag τ term)
      (synthesizeApplicationStep co ao τ term) (synthesizeApplicationStep cf af υ term) := by
  cases hm with
  | bound ha => cases ha
  | void => exact Lockstep.reject
  | free _ _ => exact Lockstep.reject
  | arrow hparameter hresult =>
    exact (hcheck Ξ term _ _ ht hparameter).bind_accept fun _ _ _ hgrown _ => hgrown.matches hresult
  | forAll hn ha hbody =>
    exact Lockstep.atomically (lockstep_introducing (.forAll hn ha hbody)
      fun Ξ' _ _ hgrown hm => happly Ξ' _ _ term hm (hgrown.matchesSelf ht))
  | placeholder hpq =>
    refine Lockstep.atomically ((lockstep_articulate hpq).bind fun Ξ' l r hgrown hlr => ?_)
    refine ((hcheck Ξ' term _ _ (hgrown.matchesSelf ht) (.placeholder hlr.1)).bind_accept
      fun _ _ _ hgrown' _ => ?_).loosen
    exact .placeholder (hgrown'.placeholders hlr.2)

end Typing

structure LockstepTyping (limit : Nat) (names : List TypeId) (left : Nat) : Prop where
  check : ∀ Ξ term τ υ, Term.MatchesSelf names Ξ term → Ty.Matches names Ξ [] τ υ →
    Lockstep names true Ξ anyValue (Opening.guarded.check limit left term τ)
      (Opening.own.check limit left term τ) (Opening.fresh.check limit left term υ)
  synthesize : ∀ Ξ term, Term.MatchesSelf names Ξ term →
    Lockstep names true Ξ (matchingTypes names)
      (Opening.guarded.synthesize limit left term)
      (Opening.own.synthesize limit left term) (Opening.fresh.synthesize limit left term)
  apply : ∀ Ξ τ υ term, Ty.Matches names Ξ [] τ υ → Term.MatchesSelf names Ξ term →
    Lockstep names true Ξ (matchingTypes names)
      (Opening.guarded.synthesizeApplication limit left τ term)
      (Opening.own.synthesizeApplication limit left τ term)
      (Opening.fresh.synthesizeApplication limit left υ term)

theorem lockstepTyping (limit : Nat) (names : List TypeId) (left : Nat) :
    LockstepTyping limit names left := by
  induction left with
  | zero =>
    refine ⟨fun _ _ _ _ _ _ => ?_, fun _ _ _ => ?_, fun _ _ _ _ _ _ => ?_⟩
    · rw [Opening.check, Opening.check, Opening.check]
      exact Lockstep.abort (.same _)
    · rw [Opening.synthesize, Opening.synthesize, Opening.synthesize]
      exact Lockstep.abort (.same _)
    · rw [Opening.synthesizeApplication, Opening.synthesizeApplication,
        Opening.synthesizeApplication]
      exact Lockstep.abort (.same _)
  | succ left ih =>
    refine ⟨fun _ _ _ _ ht hm => ?_, fun _ _ ht => ?_, fun _ _ _ _ hm ht => ?_⟩
    · rw [Opening.check, Opening.check, Opening.check]
      exact (lockstep_checkStep ih.check ih.synthesize
        (fun _ _ _ _ _ hm hm' => lockstep_subtype left hm hm') ht hm).nested
    · rw [Opening.synthesize, Opening.synthesize, Opening.synthesize]
      exact (lockstep_synthesizeStep ih.check ih.synthesize ih.apply ht).nested
    · rw [Opening.synthesizeApplication, Opening.synthesizeApplication,
        Opening.synthesizeApplication]
      exact (lockstep_synthesizeApplicationStep ih.check ih.apply hm ht).nested

theorem Ty.Matches.self {names bound : List TypeId} {Ξ : Twins} {ty : Ty}
    (hn : ty.quantifiers ⊆ names) (hd : ty.quantifiers.Nodup) (hb : ∀ a ∈ ty.quantifiers, a ∉ bound)
    (hf : ∀ a ∈ ty.free, a ∈ bound ∨ (a, a) ∈ Ξ.rigid)
    (hp : ∀ p ∈ ty.placeholders, (p, p) ∈ Ξ.placeholders) : Ty.Matches names Ξ bound ty ty := by
  induction ty generalizing bound with
  | void => exact .void
  | var a =>
    by_cases ha : a ∈ bound
    · exact .bound ha
    · exact .free ha ((hf a (by simp [Ty.free])).resolve_left ha)
  | placeholder p => exact .placeholder (hp p (by simp [Ty.placeholders]))
  | forAll a body ih =>
    simp only [Ty.quantifiers, List.nodup_cons, List.cons_subset, List.mem_cons, forall_eq_or_imp]
      at hn hd hb
    refine .forAll hn.1 hb.1 (ih hn.2 hd.2 (fun b hq => ?_) (fun b hfree => ?_) hp)
    · rw [List.mem_cons, not_or]
      exact ⟨fun heq => hd.1 (heq ▸ hq), hb.2 b hq⟩
    · by_cases hba : b = a
      · exact .inl (by simp [hba])
      · exact (hf b (by simp [Ty.free, hfree, hba])).imp_left (List.mem_cons_of_mem _)
  | arrow parameter result ihp ihr =>
    simp only [Ty.quantifiers, Ty.free, Ty.placeholders, List.mem_append, List.nodup_append,
      List.append_subset] at hn hd hb hf hp
    exact .arrow
      (ihp hn.1 hd.1 (fun a h => hb a (.inl h)) (fun a h => hf a (.inl h)) fun p h => hp p (.inl h))
      (ihr hn.2 hd.2.1 (fun a h => hb a (.inr h)) (fun a h => hf a (.inr h))
        fun p h => hp p (.inr h))

def Entry.twin : Entry → Twin
  | .var a => .var a a
  | .unsolved p => .unsolved p p
  | .solved p τ => .solved p p τ τ
  | .binding x τ => .binding x τ τ
  | .marker m => .marker m

def Context.twins (Γ : Context) : Twins := Γ.map Entry.twin

theorem Context.twins_left (Γ : Context) : Γ.twins.left = Γ := by
  rw [Twins.left, twins, List.map_map, List.map_congr_left (g := id) fun e _ => ?_, List.map_id]
  cases e <;> rfl

theorem Context.twins_right (Γ : Context) : Γ.twins.right = Γ := by
  rw [Twins.right, twins, List.map_map, List.map_congr_left (g := id) fun e _ => ?_, List.map_id]
  cases e <;> rfl

theorem Context.mem_twins {Γ : Context} {e : Twin} (h : e ∈ Γ.twins) :
    e.left ∈ Γ ∧ e = e.left.twin := by
  obtain ⟨e, he, rfl⟩ := List.mem_map.1 h
  cases e <;> exact ⟨he, rfl⟩

/-- The quantifiers of all types written in a program. -/
def writtenQuantifiers (Γ : Context) (term : Term) (ty : Ty) : List TypeId :=
  Γ.bindingTypes.flatMap Ty.quantifiers ++ ty.quantifiers ++ term.quantifiers

/-- A program whose types are in scope and whose identifiers have been given out. -/
structure HygienicProgram (s : State) (term : Term) (ty : Ty) : Prop where
  hygienic : Hygienic s.context term ty
  wellFormed : ∀ σ ∈ s.context.bindingTypes ++ ty :: term.annotations,
    s.context.wellFormed σ = true
  minted : ∀ a ∈ s.context.rigid ++ writtenQuantifiers s.context term ty,
    a.index < s.supply.types.size

namespace HygienicProgram

variable {s : State} {term : Term} {ty : Ty}

theorem matches_self (h : HygienicProgram s term ty) {σ : Ty}
    (hσ : σ ∈ s.context.bindingTypes ++ ty :: term.annotations) :
    Ty.Matches (writtenQuantifiers s.context term ty) s.context.twins [] σ σ := by
  have hwritten : writtenQuantifiers s.context term ty =
      ((s.context.bindingTypes ++ ty :: term.annotations).map Ty.quantifiers).flatten := by
    simp [writtenQuantifiers, Term.quantifiers, List.flatMap_def]
  have hsub : σ.quantifiers.Sublist (writtenQuantifiers s.context term ty) := by
    rw [hwritten]
    exact List.sublist_flatten_of_mem (List.mem_map_of_mem hσ)
  obtain ⟨hfree, hplaceholders⟩ := Context.wellFormed_iff.1 (h.wellFormed σ hσ)
  rw [h.hygienic.placeholders] at hplaceholders
  refine .self hsub.subset (h.hygienic.distinct.sublist hsub) (by simp) (fun a ha => .inr ?_)
    fun p hp => ?_
  · exact Twins.mem_rigid.2 (List.mem_map.2 ⟨.var a, Context.mem_rigid.1 (hfree a ha), rfl⟩)
  · cases hplaceholders p hp

theorem sound (h : HygienicProgram s term ty) :
    s.context.twins.Sound (writtenQuantifiers s.context term ty) := by
  have hrigid : ∀ {a b}, (a, b) ∈ s.context.twins.rigid → b = a ∧ .var a ∈ s.context := by
    intro a b hab
    obtain ⟨hmem, heq⟩ := Context.mem_twins (Twins.mem_rigid.1 hab)
    cases heq
    exact ⟨rfl, hmem⟩
  have hplaceholders : s.context.twins.placeholders = [] := by
    have hnone := h.hygienic.placeholders
    rw [← s.context.twins_left, Twins.placeholders_left] at hnone
    exact List.map_eq_nil_iff.1 hnone
  refine ⟨fun a b a' b' hab hab' => ?_, by simp [hplaceholders, Twins.OneToOne],
    fun a b hab hn => ?_, fun x τ υ hx => ?_, fun before e after heq p q τ υ he => ?_⟩
  · rw [(hrigid hab).1, (hrigid hab').1]
  · obtain ⟨rfl, hmem⟩ := hrigid hab
    exact h.hygienic.undeclared b hn (Context.mem_rigid.2 hmem)
  · obtain ⟨hmem, hself⟩ := Context.mem_twins hx
    cases hself
    exact h.matches_self (List.mem_append_left _ (Context.mem_bindingTypes.2 ⟨x, hmem⟩))
  · have hmem : .solved p q τ υ ∈ s.context.twins := by simp [heq, he]
    have hp := Twins.mem_placeholders.2 (.inr ⟨τ, υ, hmem⟩)
    rw [hplaceholders] at hp
    cases hp

theorem paired (h : HygienicProgram s term ty) :
    Paired (writtenQuantifiers s.context term ty) s.context.twins s s where
  left := s.context.twins_left.symm
  right := s.context.twins_right.symm
  sound := h.sound
  markers := rfl
  marked m hm := by
    obtain ⟨hmem, -⟩ := Context.mem_twins hm
    rcases h.hygienic.plain _ hmem with ⟨a, ha⟩ | ⟨x, σ, ha⟩ <;> cases ha
  placeholders p q hpq := by
    have hp : p ∈ s.context.twins.left.placeholders := by
      rw [Twins.placeholders_left]
      exact List.mem_map.2 ⟨_, hpq, rfl⟩
    rw [s.context.twins_left, h.hygienic.placeholders] at hp
    cases hp
  rigid a b hab := by
    have hb : b ∈ s.context.twins.right.rigid := by
      rw [Twins.rigid_right]
      exact List.mem_map.2 ⟨_, hab, rfl⟩
    rw [s.context.twins_right] at hb
    exact h.minted b (List.mem_append_left _ hb)
  named a ha := h.minted a (List.mem_append_right _ ha)

end HygienicProgram

/-- The outcomes differ at most in the placeholder that an error names. -/
inductive Outcome.Alike : Outcome Unit → Outcome Unit → Prop where
  | accepted : Outcome.Alike (.accepted ()) (.accepted ())
  | rejected : Outcome.Alike .rejected .rejected
  | aborted {error error' : TypeError} : error.Alike error' →
      Outcome.Alike (.aborted error) (.aborted error')

theorem HygienicProgram.alike {term : Term} {ty : Ty} {s : State} (c : Checker)
    (h : HygienicProgram s term ty)
    (hg : (c.checkBy .guarded term ty s).1 ≠ .aborted .stopped) :
    c.checkBy .guarded term ty s = widen (c.check term ty) s ∧
      (c.check term ty s).1.Alike (c.checkBy .fresh term ty s).1 := by
  have hterm : term.MatchesSelf (writtenQuantifiers s.context term ty) s.context.twins :=
    fun σ hσ => h.matches_self (by simp [hσ])
  have hrun := (lockstepTyping c.limits.maxDepth _ (c.limits.maxDepth - s.depth)).check _ term ty ty
    hterm (h.matches_self (by simp)) s s h.paired
  simp only [widen, Checker.checkBy, Checker.check, Checker.withBudget] at hg ⊢
  cases hrun with
  | stopped hguarded _ => exact absurd (congrArg Prod.fst hguarded) hg
  | accepted hguarded hown hfresh _ _ _ =>
    rw [hguarded, hown, hfresh]
    exact ⟨rfl, .accepted⟩
  | rejected hguarded hown hfresh _ _ _ =>
    rw [hguarded, hown, hfresh]
    exact ⟨rfl, .rejected⟩
  | aborted hguarded hown hfresh _ _ _ he =>
    rw [hguarded, hown, hfresh]
    exact ⟨rfl, .aborted he⟩

/-- Opening quantifiers by new identifiers has the same outcome unless the guarded checker stops,
which until then does what the checker does; on a prenex program it never stops. -/
theorem check_alike_fresh (c : Checker) (term : Term) (ty : Ty) (s : State)
    (h : HygienicProgram s term ty) :
    ((c.checkBy .guarded term ty s).1 ≠ .aborted .stopped →
      c.checkBy .guarded term ty s = widen (c.check term ty) s ∧
        (c.check term ty s).1.Alike (c.checkBy .fresh term ty s).1) ∧
    (PrenexProgram s.context term ty →
      (c.check term ty s).1.Alike (c.checkBy .fresh term ty s).1) := by
  refine ⟨h.alike c, fun hprenex => (h.alike c ?_).2⟩
  rw [hprenex.checkBy_guarded c, widen]
  exact Outcome.widen_ne_stopped _

namespace Reopening

def start : State where
  supply := { types := #["a"], bindings := #["f", "x", "z", "y"] }
  context :=
    [.binding ⟨0⟩ (.arrow (.forAll ⟨0⟩ (.arrow (.var ⟨0⟩) (.var ⟨0⟩))) .void)]

def once : Term := .app (.ref ⟨0⟩) (.lam ⟨1⟩ (.ref ⟨1⟩))

/-- The term `f (λx. (λz. x) (f (λy. x)))`. -/
def twice : Term :=
  .app (.ref ⟨0⟩) (.lam ⟨1⟩ (.app (.lam ⟨2⟩ (.ref ⟨1⟩))
    (.app (.ref ⟨0⟩) (.lam ⟨3⟩ (.ref ⟨1⟩)))))

theorem alike_instances :
    (HygienicProgram start once .void ∧
      (({} : Checker).checkBy .guarded once .void start).1 = .accepted () ∧
      (({} : Checker).check once .void start).1.Alike
        (({} : Checker).checkBy .fresh once .void start).1) ∧
    HygienicProgram AppliedIdentity.start AppliedIdentity.term AppliedIdentity.ty ∧
      PrenexProgram AppliedIdentity.start.context AppliedIdentity.term AppliedIdentity.ty ∧
      (({} : Checker).check AppliedIdentity.term AppliedIdentity.ty AppliedIdentity.start).1 =
        .accepted () ∧
      (({} : Checker).check AppliedIdentity.term AppliedIdentity.ty AppliedIdentity.start).1.Alike
        (({} : Checker).checkBy .fresh AppliedIdentity.term AppliedIdentity.ty
          AppliedIdentity.start).1 := by
  have honce : HygienicProgram start once .void := by
    refine ⟨⟨?_, by decide, by decide⟩, by decide, by decide⟩
    simp [start]
  have hguarded : (({} : Checker).checkBy .guarded once .void start).1 = .accepted () := by
    decide +kernel
  have hplain : Hygienic AppliedIdentity.start.context AppliedIdentity.term AppliedIdentity.ty := by
    refine ⟨?_, by decide, by decide⟩
    simp [AppliedIdentity.start]
  have hprenex : PrenexProgram AppliedIdentity.start.context AppliedIdentity.term
      AppliedIdentity.ty := ⟨hplain, by decide, by decide⟩
  have hprogram : HygienicProgram AppliedIdentity.start AppliedIdentity.term
      AppliedIdentity.ty := ⟨hplain, by decide, by decide⟩
  have haccepted : (({} : Checker).check AppliedIdentity.term AppliedIdentity.ty
      AppliedIdentity.start).1 = .accepted () := by decide +kernel
  refine ⟨⟨honce, hguarded, ?_⟩, hprogram, hprenex, haccepted, ?_⟩
  · exact ((check_alike_fresh {} once .void start honce).1 (by simp [hguarded])).2
  · exact (check_alike_fresh {} _ _ _ hprogram).2 hprenex

/-- In the inner application the identifier `a` is declared again, so that the outer `a`, the type of
`x`, passes for the inner one. -/
theorem twice_not_alike :
    HygienicProgram start twice .void ∧
      (({} : Checker).check twice .void start).1 = .accepted () ∧
      (({} : Checker).checkBy .fresh twice .void start).1 = .rejected := by
  refine ⟨⟨⟨?_, by decide, by decide⟩, by decide, by decide⟩, by decide +kernel, by decide +kernel⟩
  simp [start]

end Reopening
end HigherRank
