import HigherRank.Proofs.Renaming
import HigherRank.Proofs.Convergence

set_option autoImplicit false

/-!
# Runs do not depend on which identifiers are new

Two runs of one judgment are compared, the second of which gives out other identifiers. One renaming
takes the first run to the second, from the first step to the last. So an attempt that fails has no
influence on what is tried after it, although the identifiers that it has minted are gone.
-/
namespace HigherRank

open Judgment
open Opening (own)

/-- The renaming takes the first context to the second, and what the first state will mint to what the
second will. -/
structure State.Renames (ρ : Renaming) (s t : State) : Prop where
  context : t.context = s.context.renamed ρ
  types : ∀ k, ρ.types ⟨s.supply.types.size + k⟩ = ⟨t.supply.types.size + k⟩
  markers : ∀ k, ρ.markers ⟨s.supply.markers + k⟩ = ⟨t.supply.markers + k⟩

/-- The second run has ended as the first, with a renamed state and a related value. -/
inductive RunRenamed {α β : Type} (ρ : Renaming) (R : α → β → Prop) :
    Outcome α × State → Outcome β × State → Prop where
  | accepted {a : α} {b : β} {s t : State} : R a b → s.Renames ρ t →
      RunRenamed ρ R (.accepted a, s) (.accepted b, t)
  | rejected {s t : State} : s.Renames ρ t → RunRenamed ρ R (.rejected, s) (.rejected, t)
  | aborted {error : TypeError} {s t : State} : s.Renames ρ t →
      RunRenamed ρ R (.aborted error, s) (.aborted (error.renamed ρ), t)

namespace State.Renames

variable {ρ : Renaming} {s t s' t' : State}

theorem withDepth (h : s.Renames ρ t) (n m : Nat) :
    State.Renames ρ { s with depth := n } { t with depth := m } :=
  ⟨h.context, h.types, h.markers⟩

theorem restore (h : s.Renames ρ t) (h' : s'.Renames ρ t') :
    State.Renames ρ { s' with context := s.context } { t' with context := t.context } :=
  ⟨h.context, h'.types, h'.markers⟩

theorem newType (h : s.Renames ρ t) : ρ.types ⟨s.supply.types.size⟩ = ⟨t.supply.types.size⟩ :=
  h.types 0

theorem newMarker (h : s.Renames ρ t) : ρ.markers ⟨s.supply.markers⟩ = ⟨t.supply.markers⟩ :=
  h.markers 0

theorem mint (h : s.Renames ρ t) {n m : Nat} (hctx : t'.context = s'.context.renamed ρ)
    (htypes : s'.supply.types.size = s.supply.types.size + n)
    (htypes' : t'.supply.types.size = t.supply.types.size + n)
    (hmarkers : s'.supply.markers = s.supply.markers + m)
    (hmarkers' : t'.supply.markers = t.supply.markers + m) : s'.Renames ρ t' := by
  refine ⟨hctx, fun k => ?_, fun k => ?_⟩
  · rw [htypes, htypes', Nat.add_assoc, Nat.add_assoc]
    exact h.types (n + k)
  · rw [hmarkers, hmarkers', Nat.add_assoc, Nat.add_assoc]
    exact h.markers (m + k)

theorem snoc (h : s.Renames ρ t) {e e' : Entry} (he : e' = e.renamed ρ) :
    t.context ++ [e'] = Context.renamed ρ (s.context ++ [e]) := by
  rw [Context.renamed_append, h.context, he]
  rfl

theorem openScope (h : s.Renames ρ t) : s.openScope.2.Renames ρ t.openScope.2 :=
  h.mint (n := 0) (m := 1) (h.snoc (congrArg Entry.marker h.newMarker.symm)) rfl rfl rfl rfl

end State.Renames

namespace Judgment

variable {α β α' β' : Type} {ρ : Renaming} {R : α → β → Prop} {R' : α' → β' → Prop}

/-- From renamed states the two judgments end in the same way. -/
def Equivariant (ρ : Renaming) (R : α → β → Prop) (x : Judgment α) (y : Judgment β) : Prop :=
  ∀ s t : State, s.Renames ρ t → RunRenamed ρ R (x s) (y t)

namespace Equivariant

theorem accept {a : α} {b : β} (h : R a b) : Equivariant ρ R (accept a) (accept b) :=
  fun _ _ hst => .accepted h hst

theorem reject : Equivariant ρ R (reject : Judgment α) (reject : Judgment β) :=
  fun _ _ hst => .rejected hst

theorem abort (error : TypeError) :
    Equivariant ρ R (abort error : Judgment α) (abort (error.renamed ρ) : Judgment β) :=
  fun _ _ hst => .aborted hst

theorem bind {x : Judgment α} {y : Judgment β} {f : α → Judgment α'} {g : β → Judgment β'}
    (hx : Equivariant ρ R x y) (hf : ∀ a b, R a b → Equivariant ρ R' (f a) (g b)) :
    Equivariant ρ R' (x >>= f) (y >>= g) := by
  intro s t hst
  have hrun := hx s t hst
  generalize hr : x s = r at hrun
  generalize hr' : y t = r' at hrun
  cases hrun with
  | accepted hab hst =>
    rw [bind_of_accepted hr, bind_of_accepted hr']
    exact hf _ _ hab _ _ hst
  | rejected hst =>
    rw [bind_of_rejected hr, bind_of_rejected hr']
    exact .rejected hst
  | aborted hst =>
    rw [bind_of_aborted hr, bind_of_aborted hr']
    exact .aborted hst

theorem orElse {x x' : Judgment α} {y y' : Judgment β} (hx : Equivariant ρ R x y)
    (hx' : Equivariant ρ R x' y') : Equivariant ρ R (x <|> x') (y <|> y') := by
  intro s t hst
  have hrun := hx s t hst
  generalize hr : x s = r at hrun
  generalize hr' : y t = r' at hrun
  cases hrun with
  | accepted hab hst =>
    rw [orElse_of_accepted hr, orElse_of_accepted hr']
    exact .accepted hab hst
  | rejected hst =>
    rw [orElse_of_rejected hr, orElse_of_rejected hr']
    exact hx' _ _ hst
  | aborted hst =>
    rw [orElse_of_aborted hr, orElse_of_aborted hr']
    exact .aborted hst

theorem atomically {x : Judgment α} {y : Judgment β} (hx : Equivariant ρ R x y) :
    Equivariant ρ R (atomically x) (atomically y) := by
  intro s t hst
  have hrun := hx s t hst
  generalize hr : x s = r at hrun
  generalize hr' : y t = r' at hrun
  cases hrun with
  | accepted hab hst =>
    rw [atomically_of_accepted hr, atomically_of_accepted hr']
    exact .accepted hab hst
  | rejected hst' =>
    rw [atomically_of_rejected hr, atomically_of_rejected hr']
    exact .rejected (hst.restore hst')
  | aborted hst' =>
    rw [atomically_of_aborted hr, atomically_of_aborted hr']
    exact .aborted (hst.restore hst')

theorem nested {x : Judgment α} {y : Judgment β} (hx : Equivariant ρ R x y) :
    Equivariant ρ R (nested x) (nested y) := by
  intro s t hst
  have hrun := hx _ _ (hst.withDepth (s.depth + 1) (t.depth + 1))
  simp only [Judgment.nested]
  generalize x { s with depth := s.depth + 1 } = r at hrun ⊢
  generalize y { t with depth := t.depth + 1 } = r' at hrun ⊢
  cases hrun with
  | accepted hab hst => exact .accepted hab (hst.withDepth _ _)
  | rejected hst => exact .rejected (hst.withDepth _ _)
  | aborted hst => exact .aborted (hst.withDepth _ _)

theorem closeScope {o : Outcome α} {o' : Outcome β} {s t : State} {m : Marker}
    (h : RunRenamed ρ R (o, s) (o', t)) (hst : s.Renames ρ t) :
    RunRenamed ρ R (s.closeScope m o) (t.closeScope (ρ.markers m) o') := by
  -- The marker is found on both sides, or on neither.
  have hsplit := Context.splitAt?_renamed (ρ := ρ) (Γ := s.context) (e := .marker m)
    fun _ => Entry.renamed_eq_marker_iff
  rw [← hst.context] at hsplit
  simp only [State.closeScope]
  rw [show Entry.marker (ρ.markers m) = (Entry.marker m).renamed ρ from rfl, hsplit]
  cases s.context.splitAt? (.marker m) with
  | none => exact RunRenamed.aborted hst
  | some split =>
    have hcut : State.Renames ρ { s with context := split.1 }
        { t with context := split.1.renamed ρ } := ⟨rfl, hst.types, hst.markers⟩
    cases h with
    | accepted hab _ => exact .accepted hab hcut
    | rejected _ => exact .rejected hcut
    | aborted _ => exact .aborted hcut

theorem inChildScope {x : Judgment α} {y : Judgment β} (hx : Equivariant ρ R x y) :
    Equivariant ρ R (inChildScope x) (inChildScope y) := by
  intro s t hst
  have hrun := hx _ _ hst.openScope
  rw [inChildScope_eq, inChildScope_eq, ← hst.newMarker]
  generalize x s.openScope.2 = r at hrun ⊢
  generalize y t.openScope.2 = r' at hrun ⊢
  cases hrun with
  | accepted hab hst => exact closeScope (.accepted hab hst) hst
  | rejected hst => exact closeScope (.rejected hst) hst
  | aborted hst => exact closeScope (.aborted hst) hst

theorem resolve (ty : Ty) :
    Equivariant ρ (fun τ υ => υ = τ.renamed ρ) (resolve ty) (resolve (ty.renamed ρ)) := by
  refine fun s t hst => .accepted ?_ hst
  rw [hst.context, Context.apply_renamed]

theorem isWellFormed (ty : Ty) :
    Equivariant ρ (fun b c => c = b) (isWellFormed ty) (isWellFormed (ty.renamed ρ)) := by
  refine fun s t hst => .accepted ?_ hst
  rw [hst.context, Context.wellFormed_renamed]

theorem isUnsolved (p : TypeId) :
    Equivariant ρ (fun b c => c = b) (isUnsolved p) (isUnsolved (ρ.types p)) := by
  refine fun s t hst => .accepted ?_ hst
  rw [hst.context, Context.isUnsolved_renamed]

theorem lookup (x : BindingId) :
    Equivariant ρ (fun τ υ => υ = τ.renamed ρ) (lookup x) (lookup x) := by
  intro s t hst
  simp only [Judgment.lookup, hst.context, Context.binding?_renamed]
  cases s.context.binding? x with
  | none => exact .rejected hst
  | some ty => exact .accepted rfl hst

theorem push (e : Entry) : Equivariant ρ (fun _ _ => True) (push e) (push (e.renamed ρ)) :=
  fun _ _ hst => .accepted trivial ⟨hst.snoc rfl, hst.types, hst.markers⟩

theorem rigidly {x : Judgment α} {y : Judgment β} (hx : Equivariant ρ R x y) (a : TypeId) :
    Equivariant ρ R (rigidly a x) (rigidly (ρ.types a) y) := by
  have hdeclare : Equivariant ρ (fun _ _ => True) (declare a) (declare (ρ.types a)) :=
    fun _ _ hst => .accepted trivial ⟨hst.snoc rfl, hst.types, hst.markers⟩
  exact (hdeclare.bind fun _ _ _ => hx).inChildScope.atomically

theorem assuming {x : Judgment α} {y : Judgment β} (hx : Equivariant ρ R x y) (b : BindingId)
    (ty : Ty) : Equivariant ρ R (Judgment.inChildScope (assume b ty >>= fun _ => x))
      (Judgment.inChildScope (assume b (ty.renamed ρ) >>= fun _ => y)) :=
  ((push (.binding b ty)).bind fun _ _ _ => hx).inChildScope

theorem introduce (label label' : String) :
    Equivariant ρ (fun p q => q = ρ.types p) (introduce label) (introduce label') := by
  -- Labels may differ, and so do the labels that are made of them.
  intro s t hst
  refine .accepted hst.newType.symm (hst.mint (n := 1) (m := 0) ?_ ?_ ?_ rfl rfl)
  · exact hst.snoc (congrArg Entry.unsolved hst.newType.symm)
  · simp
  · simp

theorem introducing {f : Ty → Judgment α} {g : Ty → Judgment β} (a : TypeId) (ty : Ty)
    (hf : ∀ ty, Equivariant ρ R (f ty) (g (ty.renamed ρ))) :
    Equivariant ρ R (introducing a ty f) (introducing (ρ.types a) (ty.renamed ρ) g) := by
  have hlabel : Equivariant ρ (fun _ _ => True) (typeLabel a) (typeLabel (ρ.types a)) :=
    fun _ _ hst => .accepted trivial hst
  refine hlabel.bind fun _ _ _ => (introduce _ _).bind ?_
  rintro p _ rfl
  have hopened := hf (ty.subst a (.placeholder p))
  rwa [Ty.renamed_subst] at hopened

theorem flexibly {f : Ty → Judgment α} {g : Ty → Judgment β} (a : TypeId) (ty : Ty)
    (hf : ∀ ty, Equivariant ρ R (f ty) (g (ty.renamed ρ))) :
    Equivariant ρ R (flexibly a ty f) (flexibly (ρ.types a) (ty.renamed ρ) g) :=
  (introducing a ty hf).inChildScope.atomically

theorem articulate (p : TypeId) :
    Equivariant ρ (fun (p₁, p₂) (q₁, q₂) => q₁ = ρ.types p₁ ∧ q₂ = ρ.types p₂) (articulate p)
      (articulate (ρ.types p)) := by
  intro s t hst
  have hsize := size_mintedArrow p s.supply
  have hsize' := size_mintedArrow (ρ.types p) t.supply
  rcases hslot : s.context.slot p with error | ⟨before, after⟩
  · have hslot' := Context.slot_renamed_of_error (ρ := ρ) hslot
    rw [← hst.context] at hslot'
    rw [articulate_of_error hslot, articulate_of_error hslot']
    exact .aborted (hst.mint (m := 0) hst.context hsize hsize' rfl rfl)
  · have hslot' := Context.slot_renamed (ρ := ρ) hslot
    rw [← hst.context] at hslot'
    rw [articulate_of_slot hslot, articulate_of_slot hslot', ← hst.newType, ← hst.types 1]
    refine .accepted ⟨rfl, rfl⟩ (hst.mint (m := 0) ?_ hsize hsize' rfl rfl)
    simp [Context.renamed, Entry.renamed, Ty.renamed]

theorem solve (p : TypeId) (τ : Ty) :
    Equivariant ρ (fun _ _ => True) (solve p τ) (solve (ρ.types p) (τ.renamed ρ)) := by
  intro s t hst
  rcases hslot : s.context.slot p with error | ⟨before, after⟩
  · have hslot' := Context.slot_renamed_of_error (ρ := ρ) hslot
    rw [← hst.context] at hslot'
    simp only [Judgment.solve, edit, Context.solve, hslot, hslot', Except.map]
    exact .aborted hst
  · have hslot' := Context.slot_renamed (ρ := ρ) hslot
    rw [← hst.context] at hslot'
    rw [solve_of_slot τ hslot, solve_of_slot _ hslot']
    refine .accepted trivial ⟨?_, hst.types, hst.markers⟩
    simp [Context.renamed, Entry.renamed]

theorem instantiateMonotype (p : TypeId) (ty : Ty) :
    Equivariant ρ (fun _ _ => True) (instantiateMonotype p ty)
      (instantiateMonotype (ρ.types p) (ty.renamed ρ)) := by
  intro s t hst
  simp only [HigherRank.instantiateMonotype, Ty.renamed_eq_placeholder_iff, Ty.isMonotype_renamed,
    Context.before]
  split
  · exact .accepted trivial hst
  split
  · exact .rejected hst
  rcases hslot : s.context.slot p with error | ⟨before, after⟩
  · have hslot' := Context.slot_renamed_of_error (ρ := ρ) hslot
    rw [← hst.context] at hslot'
    simp only [hslot', Except.map]
    exact .aborted hst
  · have hslot' := Context.slot_renamed (ρ := ρ) hslot
    rw [← hst.context] at hslot'
    simp only [hslot', Except.map, Context.wellFormed_renamed]
    split
    · exact solve p ty s t hst
    · cases ty with
      | placeholder q =>
        simp only [Ty.renamed, hst.context, Context.isUnsolved_renamed]
        split
        · exact solve q (.placeholder p) s t hst
        · exact .rejected hst
      | _ => exact .rejected hst

end Equivariant
end Judgment

abbrev InStep (ρ : Renaming) (x y : Judgment Unit) : Prop := Equivariant ρ (fun _ _ => True) x y

section Types

variable {ρ : Renaming}

theorem equivariant_instantiateStep {next : Variance → TypeId → Ty → Judgment Unit}
    (h : ∀ v p ty, InStep ρ (next v p ty) (next v (ρ.types p) (ty.renamed ρ))) (v : Variance)
    (p : TypeId) (ty : Ty) :
    InStep ρ (own.instantiateStep next v p ty)
      (own.instantiateStep next v (ρ.types p) (ty.renamed ρ)) := by
  refine (Equivariant.resolve ty).bind ?_
  rintro ty _ rfl
  simp only [Ty.renamed_eq_placeholder_iff, Ty.mentions_renamed]
  split
  · exact .accept trivial
  split
  · exact .reject
  refine (Equivariant.instantiateMonotype p ty).orElse ?_
  cases ty with
  | arrow parameter result =>
    refine Equivariant.atomically ((Equivariant.articulate p).bind ?_)
    rintro ⟨p₁, p₂⟩ ⟨_, _⟩ ⟨rfl, rfl⟩
    refine (h _ p₁ parameter).bind fun _ _ _ => (Equivariant.resolve result).bind ?_
    rintro result _ rfl
    exact h _ p₂ result
  | forAll a body =>
    cases v with
    | covariant => exact (h _ p body).rigidly a
    | contravariant => exact Equivariant.flexibly a body fun body => h _ p body
  | _ => exact .reject

variable {next : Ty → Ty → Judgment Unit} {instantiate : Variance → TypeId → Ty → Judgment Unit}
  (h : ∀ sub sup, InStep ρ (next sub sup) (next (sub.renamed ρ) (sup.renamed ρ)))
  (hinst : ∀ v p ty, InStep ρ (instantiate v p ty) (instantiate v (ρ.types p) (ty.renamed ρ)))

include hinst in
theorem equivariant_instantiateIfOpen (v : Variance) (p : TypeId) (other : Ty) :
    InStep ρ (instantiateIfOpen (instantiate v) p other)
      (instantiateIfOpen (instantiate v) (ρ.types p) (other.renamed ρ)) := by
  refine (Equivariant.isUnsolved p).bind ?_
  rintro b _ rfl
  simp only [Ty.mentions_renamed]
  split
  · exact hinst v p other
  · exact .reject

include h hinst in
theorem equivariant_subtypeOtherwise (sub sup : Ty) :
    InStep ρ (own.subtypeOtherwise next instantiate sub sup)
      (own.subtypeOtherwise next instantiate (sub.renamed ρ) (sup.renamed ρ)) := by
  unfold Opening.subtypeOtherwise
  simp only [Ty.sameAtom_renamed]
  split
  · exact .accept trivial
  refine Equivariant.orElse ?_ (Equivariant.orElse ?_ (Equivariant.orElse ?_ ?_))
  · cases sub with
    | forAll a body => exact Equivariant.flexibly a body fun body => h body sup
    | _ => exact .reject
  · cases sup with
    | forAll a body => exact (h sub body).rigidly a
    | _ => exact .reject
  · cases sub with
    | placeholder p => exact equivariant_instantiateIfOpen hinst _ p sup
    | _ => exact .reject
  · cases sup with
    | placeholder p => exact equivariant_instantiateIfOpen hinst _ p sub
    | _ => exact .reject

include h hinst in
theorem equivariant_subtypeStep (sub sup : Ty) :
    InStep ρ (own.subtypeStep next instantiate sub sup)
      (own.subtypeStep next instantiate (sub.renamed ρ) (sup.renamed ρ)) := by
  refine (Equivariant.resolve sub).bind ?_
  rintro sub _ rfl
  refine (Equivariant.resolve sup).bind ?_
  rintro sup _ rfl
  have hotherwise := equivariant_subtypeOtherwise h hinst sub sup
  cases sub with
  | arrow parameter result =>
    cases sup with
    | arrow parameter' result' =>
      exact Equivariant.atomically ((h parameter' parameter).bind fun _ _ _ => h result result')
    | _ => exact hotherwise
  | _ => exact hotherwise

end Types

section Typing

variable {ρ : Renaming} {check : Term → Ty → Judgment Unit} {synthesize : Term → Judgment Ty}
  {synthesizeApplication : Ty → Term → Judgment Ty} {subtype : Ty → Ty → Judgment Unit}
  (hcheck : ∀ term ty, InStep ρ (check term ty) (check (term.renamed ρ) (ty.renamed ρ)))
  (hsynth : ∀ term, Equivariant ρ (fun τ υ => υ = τ.renamed ρ) (synthesize term)
    (synthesize (term.renamed ρ)))
  (happly : ∀ ty term, Equivariant ρ (fun τ υ => υ = τ.renamed ρ) (synthesizeApplication ty term)
    (synthesizeApplication (ty.renamed ρ) (term.renamed ρ)))
  (hsub : ∀ sub sup, InStep ρ (subtype sub sup) (subtype (sub.renamed ρ) (sup.renamed ρ)))

include hcheck in
theorem equivariant_checkForAll (term : Term) (ty : Ty) :
    InStep ρ (own.checkForAll check term ty)
      (own.checkForAll check (term.renamed ρ) (ty.renamed ρ)) := by
  cases ty with
  | forAll a body => exact (hcheck term body).rigidly a
  | _ => exact .reject

include hcheck in
theorem equivariant_checkLambda (term : Term) (ty : Ty) :
    InStep ρ (checkLambda check term ty) (checkLambda check (term.renamed ρ) (ty.renamed ρ)) := by
  cases term with
  | lam x body =>
    cases ty with
    | arrow parameter result => exact ((hcheck body result).assuming x parameter).atomically
    | _ => exact .reject
  | _ => exact .reject

include hsynth hsub in
theorem equivariant_checkBySynthesis (term : Term) (ty : Ty) :
    InStep ρ (own.checkBySynthesis synthesize subtype term ty)
      (own.checkBySynthesis synthesize subtype (term.renamed ρ) (ty.renamed ρ)) := by
  refine Equivariant.atomically ((hsynth term).bind ?_)
  rintro found _ rfl
  refine (Equivariant.resolve found).bind ?_
  rintro found _ rfl
  refine (Equivariant.resolve ty).bind ?_
  rintro expected _ rfl
  exact hsub found expected

include hcheck hsynth hsub in
theorem equivariant_checkStep (term : Term) (ty : Ty) :
    InStep ρ (own.checkStep check synthesize subtype term ty)
      (own.checkStep check synthesize subtype (term.renamed ρ) (ty.renamed ρ)) := by
  have hrules := (equivariant_checkForAll hcheck term ty).orElse
    ((equivariant_checkLambda hcheck term ty).orElse
      (equivariant_checkBySynthesis hsynth hsub term ty))
  cases term with
  | unit =>
    cases ty with
    | void => exact .accept trivial
    | _ => exact hrules
  | _ => exact hrules

include hcheck in
theorem equivariant_synthesizeLambda (x : BindingId) (body : Term) :
    Equivariant ρ (fun τ υ => υ = τ.renamed ρ) (synthesizeLambda check x body)
      (synthesizeLambda check x (body.renamed ρ)) := by
  have hlabel : Equivariant ρ (fun _ _ => True) (bindingLabel x) (bindingLabel x) :=
    fun _ _ hst => .accepted trivial hst
  refine Equivariant.atomically (hlabel.bind fun _ _ _ => (Equivariant.introduce _ _).bind ?_)
  rintro p _ rfl
  refine (Equivariant.introduce _ _).bind ?_
  rintro q _ rfl
  exact ((hcheck body (.placeholder q)).assuming x (.placeholder p)).bind fun _ _ _ => .accept rfl

include hcheck in
theorem equivariant_synthesizeAnnotated (term : Term) (ty : Ty) :
    Equivariant ρ (fun τ υ => υ = τ.renamed ρ) (synthesizeAnnotated check term ty)
      (synthesizeAnnotated check (term.renamed ρ) (ty.renamed ρ)) := by
  refine (Equivariant.isWellFormed ty).bind ?_
  rintro b _ rfl
  split
  · exact ((hcheck term ty).orElse (.abort (.annotationMismatch term ty))).bind fun _ _ _ =>
      .accept rfl
  · exact .abort (.annotationIllFormed ty)

include hcheck hsynth happly in
theorem equivariant_synthesizeStep (term : Term) :
    Equivariant ρ (fun τ υ => υ = τ.renamed ρ)
      (own.synthesizeStep check synthesize synthesizeApplication term)
      (own.synthesizeStep check synthesize synthesizeApplication (term.renamed ρ)) := by
  cases term with
  | unit => exact .accept rfl
  | ref x => exact .lookup x
  | lam x body => exact equivariant_synthesizeLambda hcheck x body
  | app function argument =>
    refine Equivariant.atomically ((hsynth function).bind ?_)
    rintro functionType _ rfl
    refine (Equivariant.resolve functionType).bind ?_
    rintro functionType _ rfl
    exact happly functionType argument
  | ann term ty => exact equivariant_synthesizeAnnotated hcheck term ty

include hcheck happly in
theorem equivariant_synthesizeApplicationStep (functionType : Ty) (argument : Term) :
    Equivariant ρ (fun τ υ => υ = τ.renamed ρ)
      (synthesizeApplicationStep check synthesizeApplication functionType argument)
      (synthesizeApplicationStep check synthesizeApplication (functionType.renamed ρ)
        (argument.renamed ρ)) := by
  cases functionType with
  | void => exact .reject
  | var a => exact .reject
  | placeholder p =>
    refine Equivariant.atomically ((Equivariant.articulate p).bind ?_)
    rintro ⟨p₁, p₂⟩ ⟨_, _⟩ ⟨rfl, rfl⟩
    exact (hcheck argument (.placeholder p₁)).bind fun _ _ _ => .accept rfl
  | forAll a body =>
    exact (Equivariant.introducing a body fun body => happly body argument).atomically
  | arrow parameter result => exact (hcheck argument parameter).bind fun _ _ _ => .accept rfl

end Typing

section Whole

variable (ρ : Renaming) (limit left : Nat)

theorem equivariant_instantiate (v : Variance) (p : TypeId) (ty : Ty) :
    InStep ρ (own.instantiate limit left v p ty)
      (own.instantiate limit left v (ρ.types p) (ty.renamed ρ)) := by
  induction left generalizing v p ty with
  | zero => exact .abort (.depthLimitExceeded limit)
  | succ left ih => exact (equivariant_instantiateStep ih v p ty).nested

theorem equivariant_subtype (sub sup : Ty) :
    InStep ρ (own.subtype limit left sub sup)
      (own.subtype limit left (sub.renamed ρ) (sup.renamed ρ)) := by
  induction left generalizing sub sup with
  | zero => exact .abort (.depthLimitExceeded limit)
  | succ left ih =>
    exact (equivariant_subtypeStep ih (equivariant_instantiate ρ limit left) sub sup).nested

theorem equivariant_typing :
    (∀ term ty, InStep ρ (own.check limit left term ty)
      (own.check limit left (term.renamed ρ) (ty.renamed ρ))) ∧
    (∀ term, Equivariant ρ (fun τ υ => υ = τ.renamed ρ) (own.synthesize limit left term)
      (own.synthesize limit left (term.renamed ρ))) ∧
    ∀ ty term, Equivariant ρ (fun τ υ => υ = τ.renamed ρ)
      (own.synthesizeApplication limit left ty term)
      (own.synthesizeApplication limit left (ty.renamed ρ) (term.renamed ρ)) := by
  induction left with
  | zero =>
    refine ⟨fun term ty => ?_, fun term => ?_, fun ty term => ?_⟩
    · rw [Opening.check, Opening.check]
      exact .abort (.depthLimitExceeded limit)
    · rw [Opening.synthesize, Opening.synthesize]
      exact .abort (.depthLimitExceeded limit)
    · rw [Opening.synthesizeApplication, Opening.synthesizeApplication]
      exact .abort (.depthLimitExceeded limit)
  | succ left ih =>
    obtain ⟨hcheck, hsynth, happly⟩ := ih
    refine ⟨fun term ty => ?_, fun term => ?_, fun ty term => ?_⟩
    · rw [Opening.check, Opening.check]
      exact (equivariant_checkStep hcheck hsynth (equivariant_subtype ρ limit left) term ty).nested
    · rw [Opening.synthesize, Opening.synthesize]
      exact (equivariant_synthesizeStep hcheck hsynth happly term).nested
    · rw [Opening.synthesizeApplication, Opening.synthesizeApplication]
      exact (equivariant_synthesizeApplicationStep hcheck happly ty term).nested

end Whole

end HigherRank
