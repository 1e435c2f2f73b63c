import HigherRank.Proofs.Resolution

set_option autoImplicit false

/-!
# Entries that nothing refers to

`X` is a stretch of entries somewhere in a context. A type avoids `X` if it has none of the
identifiers that `X` declares. To types that avoid `X`, in a context whose other entries avoid it too,
every question about the context has the answer that it has without `X`.
-/
namespace HigherRank

/-- All identifiers in a type, those behind quantifier signs included. -/
def Ty.names : Ty → List TypeId
  | void => []
  | var a => [a]
  | placeholder p => [p]
  | forAll a body => a :: body.names
  | arrow parameter result => parameter.names ++ result.names

def Entry.names : Entry → List TypeId
  | var a => [a]
  | unsolved p => [p]
  | solved p solution => p :: solution.names
  | binding _ ty => ty.names
  | marker _ => []

def Term.bindings : Term → List BindingId
  | unit => []
  | ref x => [x]
  | lam x body => x :: body.bindings
  | app function argument => function.bindings ++ argument.bindings
  | ann term _ => term.bindings

namespace Context

def declares (X : Context) : List TypeId := X.rigid ++ X.placeholders

def binds (X : Context) : List BindingId :=
  X.filterMap fun
    | .binding x _ => some x
    | _ => none

end Context

theorem Ty.mem_names_of_free {ty : Ty} {a : TypeId} (h : a ∈ ty.free) : a ∈ ty.names := by
  induction ty with
  | void => cases h
  | var b => exact h
  | placeholder p => cases h
  | forAll b body ih => exact List.mem_cons_of_mem _ (ih (List.mem_filter.1 h).1)
  | arrow parameter result ihp ihr =>
    rcases List.mem_append.1 h with h | h
    · exact List.mem_append_left _ (ihp h)
    · exact List.mem_append_right _ (ihr h)

theorem Ty.mem_names_of_placeholder {ty : Ty} {p : TypeId} (h : p ∈ ty.placeholders) :
    p ∈ ty.names := by
  induction ty with
  | void => cases h
  | var b => cases h
  | placeholder q => exact h
  | forAll b body ih => exact List.mem_cons_of_mem _ (ih h)
  | arrow parameter result ihp ihr =>
    rcases List.mem_append.1 h with h | h
    · exact List.mem_append_left _ (ihp h)
    · exact List.mem_append_right _ (ihr h)

/-- No identifier of the type is declared in `X`. -/
def Ty.Avoids (X : Context) (ty : Ty) : Prop := ∀ a ∈ ty.names, a ∉ X.declares

def Entry.Avoids (X : Context) (e : Entry) : Prop := ∀ a ∈ e.names, a ∉ X.declares

def Context.Avoids (X Γ : Context) : Prop := ∀ e ∈ Γ, e.Avoids X

/-- Neither the annotations nor the bindings of the term have anything to do with `X`. -/
structure Term.Avoids (X : Context) (term : Term) : Prop where
  annotations : ∀ ty ∈ term.annotations, ty.Avoids X
  bindings : ∀ x ∈ term.bindings, x ∉ X.binds

section Avoidance

variable {X : Context}

theorem Ty.avoids_void : Ty.void.Avoids X := by
  intro a ha
  cases ha

theorem Ty.avoids_var {a : TypeId} : (Ty.var a).Avoids X ↔ a ∉ X.declares := by
  simp [Avoids, names]

theorem Ty.avoids_placeholder {p : TypeId} : (Ty.placeholder p).Avoids X ↔ p ∉ X.declares := by
  simp [Avoids, names]

theorem Ty.avoids_forAll {a : TypeId} {body : Ty} :
    (Ty.forAll a body).Avoids X ↔ a ∉ X.declares ∧ body.Avoids X := by
  simp [Avoids, names]

theorem Ty.avoids_arrow {parameter result : Ty} :
    (Ty.arrow parameter result).Avoids X ↔ parameter.Avoids X ∧ result.Avoids X := by
  simp only [Avoids, names, List.mem_append, or_imp, forall_and]

theorem Ty.Avoids.replace {f g : TypeId → Ty} {ty : Ty} (h : ty.Avoids X)
    (hf : ∀ a, a ∉ X.declares → (f a).Avoids X) (hg : ∀ p, p ∉ X.declares → (g p).Avoids X) :
    (ty.replace f g).Avoids X := by
  induction ty with
  | void => exact avoids_void
  | var a => exact hf a (avoids_var.1 h)
  | placeholder p => exact hg p (avoids_placeholder.1 h)
  | forAll a body ih =>
    obtain ⟨ha, hbody⟩ := avoids_forAll.1 h
    exact avoids_forAll.2 ⟨ha, ih hbody⟩
  | arrow parameter result ihp ihr =>
    obtain ⟨hp, hr⟩ := avoids_arrow.1 h
    exact avoids_arrow.2 ⟨ihp hp, ihr hr⟩

theorem Ty.Avoids.subst {ty κ : Ty} (h : ty.Avoids X) (hκ : κ.Avoids X) (a : TypeId) :
    (ty.subst a κ).Avoids X := by
  refine h.replace (fun b hb => ?_) fun p hp => avoids_placeholder.2 hp
  split
  · exact hκ
  · exact avoids_var.2 hb

theorem Entry.avoids_solved {p : TypeId} {τ : Ty} :
    (Entry.solved p τ).Avoids X ↔ p ∉ X.declares ∧ τ.Avoids X := by
  simp [Avoids, Ty.Avoids, names]

theorem Entry.avoids_unsolved {p : TypeId} : (Entry.unsolved p).Avoids X ↔ p ∉ X.declares := by
  simp [Avoids, names]

theorem Entry.avoids_var {a : TypeId} : (Entry.var a).Avoids X ↔ a ∉ X.declares := by
  simp [Avoids, names]

theorem Entry.avoids_binding {x : BindingId} {ty : Ty} :
    (Entry.binding x ty).Avoids X ↔ ty.Avoids X :=
  Iff.rfl

theorem Entry.avoids_marker {m : Marker} : (Entry.marker m).Avoids X := by
  intro a ha
  cases ha

theorem Context.avoids_append {Γ Δ : Context} : X.Avoids (Γ ++ Δ) ↔ X.Avoids Γ ∧ X.Avoids Δ :=
  List.forall_mem_append

theorem Context.avoids_cons {e : Entry} {Γ : Context} :
    X.Avoids (e :: Γ) ↔ e.Avoids X ∧ X.Avoids Γ :=
  List.forall_mem_cons

theorem Context.avoids_nil : X.Avoids [] := by
  intro e he
  cases he

theorem Context.not_declared {p : TypeId} {e : Entry} (hp : p ∉ X.declares) (he : e ∈ X) :
    e.placeholder? ≠ some p := fun h =>
  hp (List.mem_append_right _ (List.mem_filterMap.2 ⟨e, he, h⟩))

end Avoidance

namespace Context

variable {X Γ₁ Γ₂ : Context}

theorem wellFormed_insert {ty : Ty} (h : ty.Avoids X) :
    (Γ₁ ++ X ++ Γ₂).wellFormed ty = (Γ₁ ++ Γ₂).wellFormed ty := by
  rw [Bool.eq_iff_iff, wellFormed_iff, wellFormed_iff]
  have hr : ∀ a ∈ ty.free, (a ∈ (Γ₁ ++ X ++ Γ₂).rigid ↔ a ∈ (Γ₁ ++ Γ₂).rigid) := by
    intro a ha
    have hX : a ∉ X.rigid := fun hmem =>
      h a (Ty.mem_names_of_free ha) (List.mem_append_left _ hmem)
    simp only [Context.rigid, List.filterMap_append, List.mem_append] at hX ⊢
    simp [hX]
  have hp : ∀ p ∈ ty.placeholders,
      (p ∈ (Γ₁ ++ X ++ Γ₂).placeholders ↔ p ∈ (Γ₁ ++ Γ₂).placeholders) := by
    intro p hp
    have hX : p ∉ X.placeholders := fun hmem =>
      h p (Ty.mem_names_of_placeholder hp) (List.mem_append_right _ hmem)
    simp only [Context.placeholders, List.filterMap_append, List.mem_append] at hX ⊢
    simp [hX]
  exact and_congr (forall₂_congr hr) (forall₂_congr hp)

theorem isUnsolved_insert {p : TypeId} (h : p ∉ X.declares) :
    (Γ₁ ++ X ++ Γ₂).isUnsolved p = (Γ₁ ++ Γ₂).isUnsolved p := by
  have hX : .unsolved p ∉ X := fun hmem => not_declared h hmem rfl
  rw [Bool.eq_iff_iff]
  simp [isUnsolved, hX]

theorem solution?_insert {p : TypeId} (h : p ∉ X.declares) :
    (Γ₁ ++ X ++ Γ₂).solution? p = (Γ₁ ++ Γ₂).solution? p := by
  have hX : X.solution? p = none := by
    cases hs : X.solution? p with
    | none => rfl
    | some τ => exact absurd rfl (not_declared h (solution?_mem hs))
  have happend : ∀ Γ Δ : Context, (Γ ++ Δ).solution? p = (Γ.solution? p).or (Δ.solution? p) :=
    fun Γ Δ => List.findSome?_append
  simp only [happend, hX, Option.or_none]

theorem binding?_insert {x : BindingId} (h : x ∉ X.binds) :
    (Γ₁ ++ X ++ Γ₂).binding? x = (Γ₁ ++ Γ₂).binding? x := by
  have hX : X.binding? x = none := by
    refine List.findSome?_eq_none_iff.2 fun e he => ?_
    cases e with
    | binding y ty =>
      have hne : y ≠ x := by
        rintro rfl
        exact h (List.mem_filterMap.2 ⟨_, List.mem_reverse.1 he, rfl⟩)
      simp [hne]
    | _ => rfl
  have happend : ∀ Γ Δ : Context, (Γ ++ Δ).binding? x = (Δ.binding? x).or (Γ.binding? x) :=
    fun Γ Δ => by rw [binding?, List.reverse_append, List.findSome?_append]; rfl
  simp only [happend, hX, Option.none_or]

theorem Avoids.apply {Γ : Context} {ty : Ty} (hΓ : X.Avoids Γ) (h : ty.Avoids X) :
    (Γ.apply ty).Avoids X := by
  refine h.replace (fun _ => Ty.avoids_var.2) fun p => ?_
  refine resolve_induction (P := fun p τ => p ∉ X.declares → τ.Avoids X)
    (fun _ => Ty.avoids_placeholder.2) (fun p τ g hp hg _ => ?_) Γ.length p
  exact (Entry.avoids_solved.1 (hΓ _ hp)).2.replace (fun _ => Ty.avoids_var.2) hg

theorem apply_insert {ty : Ty} (hΓ : Ordered (Γ₁ ++ Γ₂)) (hX : Ordered (Γ₁ ++ X ++ Γ₂))
    (havoids : X.Avoids (Γ₁ ++ Γ₂)) (h : ty.Avoids X) :
    (Γ₁ ++ X ++ Γ₂).apply ty = (Γ₁ ++ Γ₂).apply ty := by
  have hplaceholder : ∀ p, p ∉ X.declares →
      (Γ₁ ++ X ++ Γ₂).apply (.placeholder p) = (Γ₁ ++ Γ₂).apply (.placeholder p) := by
    refine hΓ.stratified.placeholder_induction fun p ih hp => ?_
    have hsame : (Γ₁ ++ X ++ Γ₂).solution? p = (Γ₁ ++ Γ₂).solution? p := solution?_insert hp
    cases hs : (Γ₁ ++ Γ₂).solution? p with
    | none => rw [apply_of_solution? hs, apply_of_solution? (hsame.trans hs)]
    | some τ =>
      have hmem := solution?_mem hs
      rw [hΓ.apply_of_solved hmem, hX.apply_of_solved (solution?_mem (hsame.trans hs))]
      have hτ := (Entry.avoids_solved.1 (havoids _ hmem)).2
      exact Ty.replace_congr (fun _ _ => rfl) fun q hq =>
        ih τ hmem q hq (hτ q (Ty.mem_names_of_placeholder hq))
  exact Ty.replace_congr (fun _ _ => rfl) fun p hp =>
    hplaceholder p (h p (Ty.mem_names_of_placeholder hp))

theorem Avoids.binding? {Γ : Context} {x : BindingId} {ty : Ty} (hΓ : X.Avoids Γ)
    (h : Γ.binding? x = some ty) : ty.Avoids X := by
  obtain ⟨e, he, heq⟩ := List.exists_of_findSome?_eq_some h
  cases e with
  | binding y σ =>
    have hty : σ = ty := by
      simp only [Option.ite_none_right_eq_some, Option.some.injEq] at heq
      exact heq.2
    exact hty ▸ Entry.avoids_binding.1 (hΓ _ (List.mem_reverse.1 he))
  | _ => cases heq

/-- The slot of an unsolved placeholder that `X` does not declare, without `X` and with it: it lies
before `X` or behind. -/
inductive SlotPair (X : Context) (p : TypeId) :
    (Γ₁ Γ₂ before after before' after' : Context) → Prop where
  | before (before after Γ₂ : Context) :
      SlotPair X p (before ++ .unsolved p :: after) Γ₂ before (after ++ Γ₂) before
        (after ++ X ++ Γ₂)
  | behind (Γ₁ before after : Context) :
      SlotPair X p Γ₁ (before ++ .unsolved p :: after) (Γ₁ ++ before) after (Γ₁ ++ X ++ before)
        after

theorem slot_insert (Γ₁ Γ₂ : Context) {p : TypeId} (h : p ∉ X.declares) :
    ((Γ₁ ++ Γ₂).slot p = .error (.missingPlaceholder p) ∧
      (Γ₁ ++ X ++ Γ₂).slot p = .error (.missingPlaceholder p)) ∨
    ∃ before after before' after', SlotPair X p Γ₁ Γ₂ before after before' after' ∧
      (Γ₁ ++ Γ₂).slot p = .ok (before, after) ∧ (Γ₁ ++ X ++ Γ₂).slot p = .ok (before', after') := by
  have hX : .unsolved p ∉ X := fun hmem => not_declared h hmem rfl
  by_cases h₁ : .unsolved p ∈ Γ₁
  · obtain ⟨before, after, rfl, hn⟩ := List.eq_append_cons_of_mem h₁
    refine .inr ⟨_, _, _, _, .before before after Γ₂, ?_, ?_⟩
    · exact slot_eq_ok.2 ⟨by simp, hn⟩
    · exact slot_eq_ok.2 ⟨by simp, hn⟩
  by_cases h₂ : .unsolved p ∈ Γ₂
  · obtain ⟨before, after, rfl, hn⟩ := List.eq_append_cons_of_mem h₂
    refine .inr ⟨_, _, _, _, .behind Γ₁ before after, ?_, ?_⟩
    · exact slot_eq_ok.2 ⟨by simp, by simp [h₁, hn]⟩
    · exact slot_eq_ok.2 ⟨by simp, by simp [h₁, hX, hn]⟩
  · refine .inl ⟨?_, ?_⟩
    · exact slot_eq_error.2 ⟨by simp [h₁, h₂], rfl⟩
    · exact slot_eq_error.2 ⟨by simp [h₁, h₂, hX], rfl⟩

theorem SlotPair.wellFormed {p : TypeId} {before after before' after' : Context} {ty : Ty}
    (h : SlotPair X p Γ₁ Γ₂ before after before' after') (hty : ty.Avoids X) :
    before'.wellFormed ty = before.wellFormed ty := by
  cases h with
  | before => rfl
  | behind => exact wellFormed_insert hty

end Context
end HigherRank
