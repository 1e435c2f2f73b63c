import HigherRank.Proofs.Effect

set_option autoImplicit false

/-!
# Order is preserved

The judgments one after another, each level from the next, and what follows for a whole run: whatever it
is asked and however it ends, the context it leaves is ordered.
-/
namespace HigherRank

open Judgment
open Opening (own)

variable {ε : Type} [SearchError ε]

/-- How a placeholder comes to stand for a type: by being that type, by its own solution, or by the
solution of a later placeholder that is the type. -/
inductive Solves (p : TypeId) (ty : Ty) : Context → Context → Prop where
  | same {Γ : Context} : ty = .placeholder p → Solves p ty Γ Γ
  | direct {before after : Context} : ty.isMonotype = true → before.wellFormed ty = true →
      Solves p ty (before ++ .unsolved p :: after) (before ++ .solved p ty :: after)
  | reversed {q : TypeId} {before after : Context} : ty = .placeholder q → p ∈ before.placeholders →
      Solves p ty (before ++ .unsolved q :: after)
        (before ++ .solved q (.placeholder p) :: after)

theorem instantiateMonotype_run (p : TypeId) (ty : Ty) (s : State) :
    (∃ Γ, (instantiateMonotype p ty : Search ε Unit) s = (.accepted (), { s with context := Γ }) ∧
      Solves p ty s.context Γ) ∨
    (instantiateMonotype p ty : Search ε Unit) s = (.rejected, s) ∨
    ((instantiateMonotype p ty : Search ε Unit) s = (.aborted (report (.missingPlaceholder p)), s) ∧
      .unsolved p ∉ s.context) := by
  by_cases hsame : ty = .placeholder p
  · exact .inl ⟨s.context, if_pos hsame, .same hsame⟩
  cases hmono : ty.isMonotype with
  | false => exact .inr (.inl (by simp [instantiateMonotype, hsame, hmono]))
  | true =>
    rcases hslot : s.context.slot p with error | ⟨before, after⟩
    · obtain ⟨hmissing, rfl⟩ := Context.slot_eq_error.1 hslot
      exact .inr (.inr ⟨instantiateMonotype_of_error hsame hmono hslot, hmissing⟩)
    obtain ⟨hΓ, -⟩ := Context.slot_eq_ok.1 hslot
    cases hw : before.wellFormed ty with
    | true =>
      refine .inl ⟨before ++ .solved p ty :: after, ?_, ?_⟩
      · rw [instantiateMonotype_of_wellFormed hsame hmono hslot hw, solve_of_slot ty hslot]
      · rw [hΓ]
        exact .direct hmono hw
    | false =>
      by_cases hty : ∃ q, ty = .placeholder q
      · obtain ⟨q, rfl⟩ := hty
        rw [instantiateMonotype_of_later hsame hmono hslot hw rfl]
        rcases hslot' : s.context.slot q with error | ⟨before', after'⟩
        · have hmem := (Context.slot_eq_error.1 hslot').1
          rw [if_neg (by simp [Context.isUnsolved, hmem])]
          exact .inr (.inl rfl)
        · obtain ⟨hΓ', -⟩ := Context.slot_eq_ok.1 hslot'
          have hq : q ∉ before.placeholders := fun h => by
            simp [Context.wellFormed_placeholder.2 h] at hw
          have hp := Context.mem_before_later (hΓ.symm.trans hΓ') (fun h => hsame (h ▸ rfl)) hq
          rw [if_pos (by simp [Context.isUnsolved, hΓ']), solve_of_slot _ hslot']
          refine .inl ⟨_, rfl, ?_⟩
          rw [hΓ']
          exact .reversed rfl hp
      · exact .inr (.inl
          (instantiateMonotype_of_stuck hsame hmono hslot hw fun q h => hty ⟨q, h⟩))

theorem instantiateMonotype_rejected {p : TypeId} {ty : Ty} {s s' : State}
    (h : (instantiateMonotype p ty : Search ε Unit) s = (.rejected, s')) : s' = s := by
  rcases @instantiateMonotype_run ε _ p ty s with ⟨Γ, hrun, -⟩ | hrun | ⟨hrun, -⟩
  all_goals
    rw [hrun] at h
    cases h
  rfl

theorem instantiateMonotype_aborted {p : TypeId} {ty : Ty} {error : ε} {s s' : State}
    (h : instantiateMonotype p ty s = (.aborted error, s')) :
    .unsolved p ∉ s.context ∧ error = report (.missingPlaceholder p) := by
  rcases @instantiateMonotype_run ε _ p ty s with ⟨Γ, hrun, -⟩ | hrun | ⟨hrun, hmissing⟩
  all_goals
    rw [hrun] at h
    cases h
  exact ⟨hmissing, rfl⟩

theorem Solves.evolves {s : State} {Γ : Context} {p : TypeId} {ty : Ty} (hs : s.Valid)
    (h : Solves p ty s.context Γ) : s.Evolves .nothing { s with context := Γ } := by
  generalize hΔ : s.context = Δ at h
  cases h with
  | same _ =>
    subst hΔ
    exact .refl _ hs
  | direct hm hw => exact evolves_solve hs hΔ hm hw
  | reversed _ hp => exact evolves_solve hs hΔ rfl (Context.wellFormed_placeholder.2 hp)

theorem atomic_instantiateMonotype (p : TypeId) (ty : Ty) :
    Atomic .nothing (instantiateMonotype p ty : Search ε Unit) := by
  intro s hs
  rcases @instantiateMonotype_run ε _ p ty s with ⟨Γ, hrun, hsolves⟩ | hrun | ⟨hrun, -⟩ <;>
    rw [hrun]
  · exact ⟨hsolves.evolves hs, fun hne => absurd rfl (hne ())⟩
  · exact ⟨.refl _ hs, fun _ => rfl⟩
  · exact ⟨.refl _ hs, fun _ => rfl⟩

theorem atomic_instantiateStep {next : Variance → TypeId → Ty → Search ε Unit}
    (h : ∀ v p ty, Atomic .nothing (next v p ty)) (v : Variance) (p : TypeId) (ty : Ty) :
    Atomic .nothing (own.instantiateStep next v p ty) := by
  refine Atomic.bind_reads (reads_resolve ty) fun ty => ?_
  split
  · exact atomic_accept ()
  split
  · exact atomic_reject
  refine (atomic_instantiateMonotype p ty).orElse ?_
  split
  · refine Evolves.atomically ((atomic_articulate p).evolves.bind fun _ => ?_)
    refine (h _ _ _).evolves.bind fun _ => ?_
    exact (reads_resolve _).evolves.bind fun _ => (h _ _ _).evolves
  · exact (h _ _ _).evolves.rigidly _
  · exact atomic_flexibly _ _ fun _ => (h _ _ _).of_nothing.evolves
  · exact atomic_reject

theorem atomic_instantiate (limit left : Nat) (v : Variance) (p : TypeId) (ty : Ty) :
    Atomic .nothing (own.instantiate limit left v p ty : Search ε Unit) := by
  induction left generalizing v p ty with
  | zero => exact atomic_abort _
  | succ left ih => exact (atomic_instantiateStep ih v p ty).nested

omit [SearchError ε] in
theorem atomic_instantiateIfOpen {instantiate : TypeId → Ty → Search ε Unit}
    (h : ∀ p ty, Atomic .nothing (instantiate p ty)) (p : TypeId) (other : Ty) :
    Atomic .nothing (instantiateIfOpen instantiate p other) := by
  refine Atomic.bind_reads (reads_isUnsolved p) fun b => ?_
  split
  · exact h p other
  · exact atomic_reject

section Subtyping

variable {next : Ty → Ty → Search ε Unit} {instantiate : Variance → TypeId → Ty → Search ε Unit}

theorem atomic_subtypeOpeningSub (hn : ∀ sub sup, Atomic .nothing (next sub sup)) (sub sup : Ty) :
    Atomic .nothing (subtypeOpeningSub next sub sup) := by
  unfold subtypeOpeningSub
  split
  · exact atomic_flexibly _ _ fun _ => (hn _ _).of_nothing.evolves
  · exact atomic_reject

theorem atomic_subtypeOpeningSup (hn : ∀ sub sup, Atomic .nothing (next sub sup)) (sub sup : Ty) :
    Atomic .nothing (own.subtypeOpeningSup next sub sup) := by
  unfold Opening.subtypeOpeningSup
  split
  · exact (hn _ _).evolves.rigidly _
  · exact atomic_reject

omit [SearchError ε] in
theorem atomic_subtypeSolvingSub (hi : ∀ v p ty, Atomic .nothing (instantiate v p ty))
    (sub sup : Ty) : Atomic .nothing (subtypeSolvingSub instantiate sub sup) := by
  unfold subtypeSolvingSub
  split
  · exact atomic_instantiateIfOpen (hi _) _ _
  · exact atomic_reject

omit [SearchError ε] in
theorem atomic_subtypeSolvingSup (hi : ∀ v p ty, Atomic .nothing (instantiate v p ty))
    (sub sup : Ty) : Atomic .nothing (subtypeSolvingSup instantiate sub sup) := by
  unfold subtypeSolvingSup
  split
  · exact atomic_instantiateIfOpen (hi _) _ _
  · exact atomic_reject

theorem atomic_subtypeStep (hn : ∀ sub sup, Atomic .nothing (next sub sup))
    (hi : ∀ v p ty, Atomic .nothing (instantiate v p ty)) (sub sup : Ty) :
    Atomic .nothing (own.subtypeStep next instantiate sub sup) := by
  refine Atomic.bind_reads (reads_resolve sub) fun sub => ?_
  refine Atomic.bind_reads (reads_resolve sup) fun sup => ?_
  split
  · exact Evolves.atomically ((hn _ _).evolves.bind fun _ => (hn _ _).evolves)
  unfold Opening.subtypeOtherwise
  split
  · exact atomic_accept ()
  refine (atomic_subtypeOpeningSub hn _ _).orElse ((atomic_subtypeOpeningSup hn _ _).orElse ?_)
  exact (atomic_subtypeSolvingSub hi _ _).orElse (atomic_subtypeSolvingSup hi _ _)

end Subtyping

theorem atomic_subtype (limit left : Nat) (sub sup : Ty) :
    Atomic .nothing (own.subtype limit left sub sup : Search ε Unit) := by
  induction left generalizing sub sup with
  | zero => exact atomic_abort _
  | succ left ih => exact (atomic_subtypeStep ih (atomic_instantiate limit left) sub sup).nested

section Typing

variable {check : Term → Ty → Search ε Unit} {synthesize : Term → Search ε Ty}
  {synthesizeApplication : Ty → Term → Search ε Ty} {subtype : Ty → Ty → Search ε Unit}

theorem atomic_checkForAll (hc : ∀ term ty, Atomic .placeholders (check term ty)) (term : Term)
    (ty : Ty) : Atomic .placeholders (own.checkForAll check term ty) := by
  unfold Opening.checkForAll
  split
  · exact ((hc _ _).evolves.rigidly _).of_nothing
  · exact atomic_reject

theorem atomic_checkLambda (hc : ∀ term ty, Atomic .placeholders (check term ty)) (term : Term)
    (ty : Ty) : Atomic .placeholders (checkLambda check term ty) := by
  unfold checkLambda
  split
  · exact ((hc _ _).evolves.assuming _ _).atomically.of_nothing
  · exact atomic_reject

theorem atomic_checkBySynthesis (hs : ∀ term, Atomic .placeholders (synthesize term))
    (hsub : ∀ sub sup, Atomic .nothing (subtype sub sup)) (term : Term) (ty : Ty) :
    Atomic .placeholders (own.checkBySynthesis synthesize subtype term ty) := by
  refine Evolves.atomically ((hs term).evolves.bind fun found => ?_)
  refine (reads_resolve found).evolves.bind fun _ => (reads_resolve ty).evolves.bind fun _ => ?_
  exact (hsub _ _).of_nothing.evolves

theorem atomic_checkStep (hc : ∀ term ty, Atomic .placeholders (check term ty))
    (hs : ∀ term, Atomic .placeholders (synthesize term))
    (hsub : ∀ sub sup, Atomic .nothing (subtype sub sup)) (term : Term) (ty : Ty) :
    Atomic .placeholders (own.checkStep check synthesize subtype term ty) := by
  unfold Opening.checkStep
  split
  · exact atomic_accept ()
  refine (atomic_checkForAll hc _ _).orElse ((atomic_checkLambda hc _ _).orElse ?_)
  exact atomic_checkBySynthesis hs hsub _ _

theorem atomic_synthesizeLambda (hc : ∀ term ty, Atomic .placeholders (check term ty))
    (x : BindingId) (body : Term) : Atomic .placeholders (synthesizeLambda check x body) := by
  refine Evolves.atomically ((reads_bindingLabel x).evolves.bind fun label => ?_)
  refine (evolves_introduce label).bind fun _ => (evolves_introduce _).bind fun _ => ?_
  exact ((hc body _).evolves.assuming x _).of_nothing.bind fun _ => (atomic_accept _).evolves

theorem atomic_synthesizeAnnotated (hc : ∀ term ty, Atomic .placeholders (check term ty))
    (term : Term) (ty : Ty) : Atomic .placeholders (synthesizeAnnotated check term ty) := by
  refine Atomic.bind_reads (reads_isWellFormed ty) fun b => ?_
  split
  · exact ((hc term ty).orElse (atomic_abort _)).bind_accept fun _ => ty
  · exact atomic_abort _

theorem atomic_synthesizeStep (hc : ∀ term ty, Atomic .placeholders (check term ty))
    (hs : ∀ term, Atomic .placeholders (synthesize term))
    (ha : ∀ ty term, Atomic .placeholders (synthesizeApplication ty term)) (term : Term) :
    Atomic .placeholders (own.synthesizeStep check synthesize synthesizeApplication term) := by
  cases term with
  | unit => exact atomic_accept _
  | ref x => exact atomic_lookup x
  | lam x body => exact atomic_synthesizeLambda hc x body
  | app function argument =>
    refine Evolves.atomically ((hs function).evolves.bind fun functionType => ?_)
    exact (reads_resolve functionType).evolves.bind fun _ => (ha _ _).evolves
  | ann term ty => exact atomic_synthesizeAnnotated hc term ty

theorem atomic_synthesizeApplicationStep (hc : ∀ term ty, Atomic .placeholders (check term ty))
    (ha : ∀ ty term, Atomic .placeholders (synthesizeApplication ty term)) (functionType : Ty)
    (argument : Term) : Atomic .placeholders
      (synthesizeApplicationStep check synthesizeApplication functionType argument) := by
  cases functionType with
  | void => exact atomic_reject
  | var a => exact atomic_reject
  | placeholder p =>
    refine Evolves.atomically ((atomic_articulate p).evolves.of_nothing.bind fun _ => ?_)
    exact (hc _ _).evolves.bind fun _ => (atomic_accept _).evolves
  | forAll a body => exact (evolves_introducing a body fun _ => (ha _ _).evolves).atomically
  | arrow parameter result => exact (hc argument parameter).bind_accept fun _ => result

end Typing

theorem atomic_typing (limit left : Nat) :
    (∀ term ty, Atomic .placeholders (own.check limit left term ty : Search ε Unit)) ∧
    (∀ term, Atomic .placeholders (own.synthesize limit left term : Search ε Ty)) ∧
    ∀ ty term, Atomic .placeholders
      (own.synthesizeApplication limit left ty term : Search ε Ty) := by
  -- The three judgments on terms call each other one level further in, so they are treated
  -- together.
  induction left with
  | zero =>
    refine ⟨fun term ty => ?_, fun term => ?_, fun ty term => ?_⟩
    · rw [Opening.check]
      exact atomic_abort _
    · rw [Opening.synthesize]
      exact atomic_abort _
    · rw [Opening.synthesizeApplication]
      exact atomic_abort _
  | succ left ih =>
    obtain ⟨hc, hs, ha⟩ := ih
    refine ⟨fun term ty => ?_, fun term => ?_, fun ty term => ?_⟩
    · rw [Opening.check]
      exact (atomic_checkStep hc hs (atomic_subtype limit left) term ty).nested
    · rw [Opening.synthesize]
      exact (atomic_synthesizeStep hc hs ha term).nested
    · rw [Opening.synthesizeApplication]
      exact (atomic_synthesizeApplicationStep hc ha ty term).nested

/-- A question that a checker decides. -/
inductive Query where
  | check (term : Term) (ty : Ty)
  | synthesize (term : Term)
  | synthesizeApplication (functionType : Ty) (argument : Term)
  | subtype (sub sup : Ty)
  | instantiate (variance : Variance) (p : TypeId) (ty : Ty)

namespace Query

def Answer : Query → Type
  | synthesize _ => Ty
  | synthesizeApplication _ _ => Ty
  | _ => Unit

def run (c : Checker) : (q : Query) → Judgment q.Answer
  | .check term ty => c.check term ty
  | .synthesize term => c.synthesize term
  | .synthesizeApplication functionType argument => c.synthesizeApplication functionType argument
  | .subtype sub sup => c.subtype sub sup
  | .instantiate variance p ty => c.instantiate variance p ty

/-- Judgments on terms may append placeholders, judgments on types append nothing. -/
def appends : Query → Bool
  | check _ _ => true
  | synthesize _ => true
  | synthesizeApplication _ _ => true
  | subtype _ _ => false
  | instantiate _ _ _ => false

def growth (q : Query) : Growth := if q.appends then .placeholders else .nothing

theorem run_atomic (c : Checker) (q : Query) : Atomic q.growth (q.run c) := by
  intro s hs
  cases q with
  | check term ty => exact (atomic_typing _ _).1 term ty s hs
  | synthesize term => exact (atomic_typing _ _).2.1 term s hs
  | synthesizeApplication ty term => exact (atomic_typing _ _).2.2 ty term s hs
  | subtype sub sup => exact atomic_subtype _ _ sub sup s hs
  | instantiate v p ty => exact atomic_instantiate _ _ v p ty s hs

end Query

/-- Whatever is asked, and whatever the outcome, the context that is left is ordered. -/
theorem ordered_after (c : Checker) (s : State) (hs : s.Valid) :
    (∀ q : Query, (q.run c s).2.context.Ordered) ∧
    (∀ p ty, (instantiateMonotype p ty s).2.context.Ordered) ∧
    ∀ p, (articulate p s).2.context.Ordered := by
  refine ⟨fun q => ?_, fun p ty => ?_, fun p => ?_⟩
  · exact (q.run_atomic c s hs).1.valid.ordered
  · exact (atomic_instantiateMonotype p ty s hs).1.valid.ordered
  · exact (atomic_articulate p s hs).1.valid.ordered

def crossing : State where
  supply := { types := #["p", "q"], markers := 1 }
  context := [.unsolved ⟨0⟩, .marker ⟨0⟩, .unsolved ⟨1⟩]

theorem crossing_valid : crossing.Valid := by decide

theorem crossing_ordered_after :
    crossing.Valid ∧ ((Query.subtype (.placeholder ⟨0⟩) (.arrow (.placeholder ⟨1⟩) .void)).run {}
      crossing).2.context.Ordered :=
  ⟨crossing_valid, (ordered_after {} crossing crossing_valid).1 _⟩

end HigherRank
