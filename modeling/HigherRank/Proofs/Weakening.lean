import HigherRank.Proofs.Indifference

set_option autoImplicit false

/-!
# Weakening

No judgment notices entries to which nothing refers, wherever they stand: one level of a judgment after
another, and then whole runs by induction on the levels that are left.
-/
namespace HigherRank

open Judgment
open Opening (own)

/-- The judgment, which has no value, does not notice `X`. -/
abbrev IndifferentTo (X : Context) (exact : Prop) (x : Judgment Unit) : Prop :=
  Indifferent X exact (fun _ => True) x

section Types

variable {X : Context} {exact : Prop}

theorem indifferent_instantiateStep {next : Variance → TypeId → Ty → Judgment Unit}
    (h : ∀ v p ty, p ∉ X.declares → ty.Avoids X → IndifferentTo X exact (next v p ty)) (v : Variance)
    {p : TypeId} {ty : Ty} (hp : p ∉ X.declares) (hty : ty.Avoids X) :
    IndifferentTo X exact (own.instantiateStep next v p ty) := by
  refine (Indifferent.resolve hty).bind fun ty hty => ?_
  split
  · exact .accept trivial
  split
  · exact .reject
  refine (Indifferent.instantiateMonotype hp hty).orElse ?_
  split
  · obtain ⟨hparameter, hresult⟩ := Ty.avoids_arrow.1 hty
    refine Indifferent.atomically ((Indifferent.articulate hp).bind fun _ hpq => ?_)
    refine (h _ _ _ hpq.1 hparameter).bind fun _ _ => ?_
    exact (Indifferent.resolve hresult).bind fun _ hresult => h _ _ _ hpq.2 hresult
  · obtain ⟨ha, hbody⟩ := Ty.avoids_forAll.1 hty
    exact (h _ _ _ hp hbody).rigidly ha
  · obtain ⟨-, hbody⟩ := Ty.avoids_forAll.1 hty
    exact Indifferent.flexibly hbody fun _ hbody => h _ _ _ hp hbody
  · exact .reject

variable {next : Ty → Ty → Judgment Unit} {instantiate : Variance → TypeId → Ty → Judgment Unit}
  (h : ∀ sub sup, sub.Avoids X → sup.Avoids X → IndifferentTo X exact (next sub sup))
  (hinst : ∀ v p ty, p ∉ X.declares → ty.Avoids X → IndifferentTo X exact (instantiate v p ty))

theorem indifferent_instantiateIfOpen {instantiate : TypeId → Ty → Judgment Unit}
    (h : ∀ p ty, p ∉ X.declares → ty.Avoids X → IndifferentTo X exact (instantiate p ty))
    {p : TypeId} {other : Ty} (hp : p ∉ X.declares) (hother : other.Avoids X) :
    IndifferentTo X exact (instantiateIfOpen instantiate p other) := by
  refine (Indifferent.isUnsolved hp).bind fun b _ => ?_
  split
  · exact h p other hp hother
  · exact .reject

include h in
theorem indifferent_subtypeOpeningSub {sub sup : Ty} (hsub : sub.Avoids X) (hsup : sup.Avoids X) :
    IndifferentTo X exact (subtypeOpeningSub next sub sup) := by
  unfold subtypeOpeningSub
  split
  · exact Indifferent.flexibly (Ty.avoids_forAll.1 hsub).2 fun _ hbody => h _ _ hbody hsup
  · exact .reject

include h in
theorem indifferent_subtypeOpeningSup {sub sup : Ty} (hsub : sub.Avoids X) (hsup : sup.Avoids X) :
    IndifferentTo X exact (own.subtypeOpeningSup next sub sup) := by
  unfold Opening.subtypeOpeningSup
  split
  · obtain ⟨ha, hbody⟩ := Ty.avoids_forAll.1 hsup
    exact (h _ _ hsub hbody).rigidly ha
  · exact .reject

include hinst in
theorem indifferent_subtypeSolvingSub {sub sup : Ty} (hsub : sub.Avoids X) (hsup : sup.Avoids X) :
    IndifferentTo X exact (subtypeSolvingSub instantiate sub sup) := by
  unfold subtypeSolvingSub
  split
  · exact indifferent_instantiateIfOpen (hinst _) (Ty.avoids_placeholder.1 hsub) hsup
  · exact .reject

include hinst in
theorem indifferent_subtypeSolvingSup {sub sup : Ty} (hsub : sub.Avoids X) (hsup : sup.Avoids X) :
    IndifferentTo X exact (subtypeSolvingSup instantiate sub sup) := by
  unfold subtypeSolvingSup
  split
  · exact indifferent_instantiateIfOpen (hinst _) (Ty.avoids_placeholder.1 hsup) hsub
  · exact .reject

include h hinst in
theorem indifferent_subtypeStep {sub sup : Ty} (hsub : sub.Avoids X) (hsup : sup.Avoids X) :
    IndifferentTo X exact (own.subtypeStep next instantiate sub sup) := by
  refine (Indifferent.resolve hsub).bind fun sub hsub => ?_
  refine (Indifferent.resolve hsup).bind fun sup hsup => ?_
  split
  · obtain ⟨hparameter, hresult⟩ := Ty.avoids_arrow.1 hsub
    obtain ⟨hparameter', hresult'⟩ := Ty.avoids_arrow.1 hsup
    exact Indifferent.atomically
      ((h _ _ hparameter' hparameter).bind fun _ _ => h _ _ hresult hresult')
  unfold Opening.subtypeOtherwise
  split
  · exact .accept trivial
  refine (indifferent_subtypeOpeningSub h hsub hsup).orElse ?_
  refine (indifferent_subtypeOpeningSup h hsub hsup).orElse ?_
  exact (indifferent_subtypeSolvingSub hinst hsub hsup).orElse
    (indifferent_subtypeSolvingSup hinst hsub hsup)

end Types

section Terms

variable {X : Context}

theorem Term.avoids_lam {x : BindingId} {body : Term} (h : (Term.lam x body).Avoids X) :
    x ∉ X.binds ∧ body.Avoids X :=
  ⟨h.bindings x (by simp [Term.bindings]), h.annotations,
    fun y hy => h.bindings y (by simp [Term.bindings, hy])⟩

theorem Term.avoids_app {function argument : Term} (h : (Term.app function argument).Avoids X) :
    function.Avoids X ∧ argument.Avoids X := by
  obtain ⟨ha, hb⟩ := h
  simp only [Term.annotations, Term.bindings, List.mem_append, or_imp, forall_and] at ha hb
  exact ⟨⟨ha.1, hb.1⟩, ⟨ha.2, hb.2⟩⟩

theorem Term.avoids_ann {term : Term} {ty : Ty} (h : (Term.ann term ty).Avoids X) :
    term.Avoids X ∧ ty.Avoids X :=
  ⟨⟨fun ty' hty' => h.annotations ty' (by simp [Term.annotations, hty']), h.bindings⟩,
    h.annotations ty (by simp [Term.annotations])⟩

end Terms

section Typing

variable {X : Context} {exact : Prop} {check : Term → Ty → Judgment Unit}
  {synthesize : Term → Judgment Ty} {synthesizeApplication : Ty → Term → Judgment Ty}
  {subtype : Ty → Ty → Judgment Unit}
  (hcheck : ∀ term ty, term.Avoids X → ty.Avoids X → IndifferentTo X exact (check term ty))
  (hsynth : ∀ term, term.Avoids X → Indifferent X exact (Ty.Avoids X) (synthesize term))
  (happly : ∀ ty term, ty.Avoids X → term.Avoids X →
    Indifferent X exact (Ty.Avoids X) (synthesizeApplication ty term))
  (hsub : ∀ sub sup, sub.Avoids X → sup.Avoids X → IndifferentTo X exact (subtype sub sup))

include hcheck in
theorem indifferent_checkForAll {term : Term} {ty : Ty} (hterm : term.Avoids X) (hty : ty.Avoids X) :
    IndifferentTo X exact (own.checkForAll check term ty) := by
  unfold Opening.checkForAll
  split
  · obtain ⟨ha, hbody⟩ := Ty.avoids_forAll.1 hty
    exact (hcheck _ _ hterm hbody).rigidly ha
  · exact .reject

include hcheck in
theorem indifferent_checkLambda {term : Term} {ty : Ty} (hterm : term.Avoids X) (hty : ty.Avoids X) :
    IndifferentTo X exact (checkLambda check term ty) := by
  unfold checkLambda
  split
  · obtain ⟨hparameter, hresult⟩ := Ty.avoids_arrow.1 hty
    exact ((hcheck _ _ (Term.avoids_lam hterm).2 hresult).assuming hparameter).atomically
  · exact .reject

include hsynth hsub in
theorem indifferent_checkBySynthesis {term : Term} {ty : Ty} (hterm : term.Avoids X)
    (hty : ty.Avoids X) :
    IndifferentTo X exact (own.checkBySynthesis synthesize subtype term ty) := by
  refine Indifferent.atomically ((hsynth term hterm).bind fun found hfound => ?_)
  refine (Indifferent.resolve hfound).bind fun found hfound => ?_
  exact (Indifferent.resolve hty).bind fun expected hexpected => hsub _ _ hfound hexpected

include hcheck hsynth hsub in
theorem indifferent_checkStep {term : Term} {ty : Ty} (hterm : term.Avoids X) (hty : ty.Avoids X) :
    IndifferentTo X exact (own.checkStep check synthesize subtype term ty) := by
  unfold Opening.checkStep
  split
  · exact .accept trivial
  refine (indifferent_checkForAll hcheck hterm hty).orElse ?_
  exact (indifferent_checkLambda hcheck hterm hty).orElse
    (indifferent_checkBySynthesis hsynth hsub hterm hty)

include hcheck in
theorem indifferent_synthesizeLambda {x : BindingId} {body : Term} (hbody : body.Avoids X) :
    Indifferent X exact (Ty.Avoids X) (synthesizeLambda check x body) := by
  refine Indifferent.atomically fun Γ₁ Γ₂ s t h => ?_
  have hlabel : exact → t.supply.bindingLabel x = s.supply.bindingLabel x := fun he => by
    rw [h.supply.labels he]
  have hread : ∀ s, (bindingLabel x : Judgment String) s =
      (.accepted (s.supply.bindingLabel x), s) :=
    fun _ => rfl
  rw [bind_of_accepted (hread s), bind_of_accepted (hread t)]
  refine h.introduce_bind hlabel fun p hp Δ₁ Δ₂ s' t' h' => ?_
  refine h'.introduce_bind (fun he => by rw [hlabel he]) fun q hq => ?_
  have hp := Ty.avoids_placeholder.2 hp
  have hq := Ty.avoids_placeholder.2 hq
  exact ((hcheck body _ hbody hq).assuming hp).bind fun _ _ => .accept (Ty.avoids_arrow.2 ⟨hp, hq⟩)

include hcheck in
theorem indifferent_synthesizeAnnotated {term : Term} {ty : Ty} (hterm : term.Avoids X)
    (hty : ty.Avoids X) :
    Indifferent X exact (Ty.Avoids X) (synthesizeAnnotated check term ty) := by
  refine (Indifferent.isWellFormed hty).bind fun b _ => ?_
  split
  · exact ((hcheck term ty hterm hty).orElse (.abort _)).bind fun _ _ => .accept hty
  · exact .abort _

include hcheck hsynth happly in
theorem indifferent_synthesizeStep {term : Term} (hterm : term.Avoids X) :
    Indifferent X exact (Ty.Avoids X)
      (own.synthesizeStep check synthesize synthesizeApplication term) := by
  cases term with
  | unit => exact .accept Ty.avoids_void
  | ref x => exact .lookup (hterm.bindings x (by simp [Term.bindings]))
  | lam x body => exact indifferent_synthesizeLambda hcheck (Term.avoids_lam hterm).2
  | app function argument =>
    obtain ⟨hfunction, hargument⟩ := Term.avoids_app hterm
    refine Indifferent.atomically ((hsynth function hfunction).bind fun functionType hty => ?_)
    exact (Indifferent.resolve hty).bind fun _ hty => happly _ _ hty hargument
  | ann term ty =>
    obtain ⟨hterm, hty⟩ := Term.avoids_ann hterm
    exact indifferent_synthesizeAnnotated hcheck hterm hty

include hcheck happly in
theorem indifferent_synthesizeApplicationStep {functionType : Ty} {argument : Term}
    (hty : functionType.Avoids X) (hargument : argument.Avoids X) :
    Indifferent X exact (Ty.Avoids X)
      (synthesizeApplicationStep check synthesizeApplication functionType argument) := by
  cases functionType with
  | void => exact .reject
  | var a => exact .reject
  | placeholder p =>
    refine Indifferent.atomically
      ((Indifferent.articulate (Ty.avoids_placeholder.1 hty)).bind fun _ hpq => ?_)
    exact (hcheck _ _ hargument (Ty.avoids_placeholder.2 hpq.1)).bind fun _ _ =>
      .accept (Ty.avoids_placeholder.2 hpq.2)
  | forAll a body =>
    exact (Indifferent.introducing (Ty.avoids_forAll.1 hty).2 fun _ hbody =>
      happly _ _ hbody hargument).atomically
  | arrow parameter result =>
    obtain ⟨hparameter, hresult⟩ := Ty.avoids_arrow.1 hty
    exact (hcheck _ _ hargument hparameter).bind fun _ _ => .accept hresult

end Typing

section Whole

variable {X : Context} {exact : Prop} (limit left : Nat)

theorem indifferent_instantiate (v : Variance) (p : TypeId) (ty : Ty) (hp : p ∉ X.declares)
    (hty : ty.Avoids X) : IndifferentTo X exact (own.instantiate limit left v p ty) := by
  induction left generalizing v p ty with
  | zero => exact .abort _
  | succ left ih => exact (indifferent_instantiateStep ih v hp hty).nested

theorem indifferent_subtype (sub sup : Ty) (hsub : sub.Avoids X) (hsup : sup.Avoids X) :
    IndifferentTo X exact (own.subtype limit left sub sup) := by
  induction left generalizing sub sup with
  | zero => exact .abort _
  | succ left ih =>
    exact (indifferent_subtypeStep ih (indifferent_instantiate limit left) hsub hsup).nested

theorem indifferent_typing :
    (∀ term ty, term.Avoids X → ty.Avoids X →
      IndifferentTo X exact (own.check limit left term ty)) ∧
    (∀ term, term.Avoids X → Indifferent X exact (Ty.Avoids X) (own.synthesize limit left term)) ∧
    ∀ ty term, ty.Avoids X → term.Avoids X →
      Indifferent X exact (Ty.Avoids X) (own.synthesizeApplication limit left ty term) := by
  induction left with
  | zero =>
    refine ⟨fun term ty _ _ => ?_, fun term _ => ?_, fun ty term _ _ => ?_⟩
    · rw [Opening.check]
      exact .abort _
    · rw [Opening.synthesize]
      exact .abort _
    · rw [Opening.synthesizeApplication]
      exact .abort _
  | succ left ih =>
    obtain ⟨hcheck, hsynth, happly⟩ := ih
    refine ⟨fun term ty hterm hty => ?_, fun term hterm => ?_, fun ty term hty hterm => ?_⟩
    · rw [Opening.check]
      exact (indifferent_checkStep hcheck hsynth (indifferent_subtype limit left) hterm hty).nested
    · rw [Opening.synthesize]
      exact (indifferent_synthesizeStep hcheck hsynth happly hterm).nested
    · rw [Opening.synthesizeApplication]
      exact (indifferent_synthesizeApplicationStep hcheck happly hty hterm).nested

end Whole

/-- Nothing in the question refers to `X`. -/
def Query.Avoids (X : Context) : Query → Prop
  | .check term ty => term.Avoids X ∧ ty.Avoids X
  | .synthesize term => term.Avoids X
  | .synthesizeApplication functionType argument => functionType.Avoids X ∧ argument.Avoids X
  | .subtype sub sup => sub.Avoids X ∧ sup.Avoids X
  | .instantiate _ p ty => p ∉ X.declares ∧ ty.Avoids X

theorem Judgment.Indifferent.withBudget {α : Type} {X : Context} {exact : Prop} {V : α → Prop}
    {judgment : (limit left : Nat) → Judgment α} (c : Checker)
    (h : ∀ limit left, Indifferent X exact V (judgment limit left)) :
    Indifferent X exact V (c.withBudget judgment) := by
  intro Γ₁ Γ₂ s t hi
  rw [Checker.withBudget, Checker.withBudget, hi.depth]
  exact h _ _ Γ₁ Γ₂ s t hi

theorem Query.run_indifferent {X : Context} {exact : Prop} (c : Checker) (q : Query)
    (hq : q.Avoids X) : ∃ V, Indifferent X exact V (q.run c) := by
  cases q with
  | check term ty =>
    exact ⟨_, .withBudget c fun n m => (indifferent_typing n m).1 term ty hq.1 hq.2⟩
  | synthesize term => exact ⟨_, .withBudget c fun n m => (indifferent_typing n m).2.1 term hq⟩
  | synthesizeApplication ty term =>
    exact ⟨_, .withBudget c fun n m => (indifferent_typing n m).2.2 ty term hq.1 hq.2⟩
  | subtype sub sup => exact ⟨_, .withBudget c fun n m => indifferent_subtype n m sub sup hq.1 hq.2⟩
  | instantiate v p ty =>
    exact ⟨_, .withBudget c fun n m => indifferent_instantiate n m v p ty hq.1 hq.2⟩

/-- The second run has ended as the first, has minted the same identifiers, and has left the same
context but for `X`. -/
structure SameButFor {α : Type} (X : Context) (r r' : Outcome α × State) : Prop where
  outcome : r'.1 = r.1
  supply : r'.2.supply = r.2.supply
  depth : r'.2.depth = r.2.depth
  context : ∃ Δ₁ Δ₂, r.2.context = Δ₁ ++ Δ₂ ∧ r'.2.context = Δ₁ ++ X ++ Δ₂

theorem Judgment.Indifferent.sameButFor {α : Type} {X Γ₁ Γ₂ : Context} {V : α → Prop}
    {x : Judgment α} {s t : State} (hx : Indifferent X True V x)
    (h : State.Inserts X True Γ₁ Γ₂ s t) : SameButFor X (x s) (x t) := by
  have hagrees := hx Γ₁ Γ₂ s t h
  generalize x s = r at hagrees ⊢
  generalize x t = r' at hagrees ⊢
  have hends : ∀ {o : Outcome α} {s' t' : State}, s.Reaches X True Γ₁ Γ₂ s' t' →
      SameButFor X (o, s') (o, t') := by
    rintro o s' t' ⟨Δ₁, Δ₂, hi, -⟩
    exact ⟨rfl, hi.supply.labels trivial, hi.depth, Δ₁, Δ₂, hi.context, hi.context'⟩
  cases hagrees with
  | accepted _ hreach => exact hends hreach
  | rejected hreach => exact hends hreach
  | aborted hreach => exact hends hreach

/-- Entries to which neither the context nor the question refers make no difference, wherever they are
put in. -/
theorem run_weakened (c : Checker) (s : State) (Γ₁ X Γ₂ : Context) (hctx : s.context = Γ₁ ++ Γ₂)
    (hs : s.Valid) (ht : State.Valid { s with context := Γ₁ ++ X ++ Γ₂ })
    (hminted : ∀ a ∈ X.declares, a.index < s.supply.types.size) (havoids : X.Avoids s.context) :
    (∀ q : Query, q.Avoids X →
      SameButFor X (q.run c s) (q.run c { s with context := Γ₁ ++ X ++ Γ₂ })) ∧
    (∀ p ty, p ∉ X.declares → ty.Avoids X → SameButFor X (instantiateMonotype p ty s)
      (instantiateMonotype p ty { s with context := Γ₁ ++ X ++ Γ₂ })) ∧
    ∀ p, p ∉ X.declares →
      SameButFor X (articulate p s) (articulate p { s with context := Γ₁ ++ X ++ Γ₂ }) := by
  have h : State.Inserts X True Γ₁ Γ₂ s { s with context := Γ₁ ++ X ++ Γ₂ } :=
    ⟨hctx, rfl, ⟨rfl, rfl, rfl, fun _ => rfl⟩, rfl, hs, ht, havoids, hminted⟩
  refine ⟨fun q hq => ?_, fun p ty hp hty => ?_, fun p hp => ?_⟩
  · obtain ⟨V, hrun⟩ := q.run_indifferent c hq
    exact hrun.sameButFor h
  · exact (Indifferent.instantiateMonotype hp hty).sameButFor h
  · exact (Indifferent.articulate hp).sameButFor h

namespace Aside

def state : State where
  supply := { types := #["p", "q", "a", "r", "t"], bindings := #["x"], markers := 2 }
  context := [.unsolved ⟨0⟩, .marker ⟨0⟩, .unsolved ⟨1⟩]

def entries : Context :=
  [.var ⟨2⟩, .unsolved ⟨3⟩, .marker ⟨1⟩, .solved ⟨4⟩ (.arrow (.var ⟨2⟩) (.placeholder ⟨3⟩)),
    .binding ⟨0⟩ (.placeholder ⟨4⟩)]

def weakened : State :=
  { state with context := [.unsolved ⟨0⟩] ++ entries ++ [.marker ⟨0⟩, .unsolved ⟨1⟩] }

def question : Query := .subtype (.placeholder ⟨0⟩) (.arrow (.placeholder ⟨1⟩) .void)

theorem state_valid : state.Valid := by decide

theorem weakened_valid : weakened.Valid := by decide

theorem state_avoids : entries.Avoids state.context := by
  simp only [Context.Avoids, Entry.Avoids]
  decide

theorem question_avoids : question.Avoids entries := by
  simp only [question, Query.Avoids, Ty.Avoids]
  decide

theorem question_weakened :
    state.Valid ∧ weakened.Valid ∧ (∀ a ∈ entries.declares, a.index < state.supply.types.size) ∧
      entries.Avoids state.context ∧ question.Avoids entries ∧
      (question.run {} state).1 = .accepted () ∧
      SameButFor entries (question.run {} state) (question.run {} weakened) := by
  have hminted : ∀ a ∈ entries.declares, a.index < state.supply.types.size := by decide
  exact ⟨state_valid, weakened_valid, hminted, state_avoids, question_avoids, rfl,
    (run_weakened {} state [.unsolved ⟨0⟩] entries [.marker ⟨0⟩, .unsolved ⟨1⟩] rfl state_valid
      weakened_valid hminted state_avoids).1 question question_avoids⟩

end Aside

end HigherRank
