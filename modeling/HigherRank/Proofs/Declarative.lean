import HigherRank.Proofs.Names
import HigherRank.Term.Basic

set_option autoImplicit false

/-!
# The declarative system for prenex types

Which simple types a term has in an environment of prenex types. A type is prenex when all its
quantifiers stand in front; it then has the instances that its matrix has by simple types in place of
the quantified variables. There is no algorithm here: instances are guessed.
-/
namespace HigherRank

namespace Ty

/-- No quantifier anywhere, where `isMonotype` looks at the top only. -/
def quantifierFree : Ty → Bool
  | void => true
  | var _ => true
  | placeholder _ => true
  | forAll _ _ => false
  | arrow parameter result => parameter.quantifierFree && result.quantifierFree

def ground : Ty → Bool
  | void => true
  | var _ => true
  | placeholder _ => false
  | forAll _ body => body.ground
  | arrow parameter result => parameter.ground && result.ground

/-- The types that the declarative system assigns to terms. -/
def simple (ty : Ty) : Bool := ty.quantifierFree && ty.ground

/-- The quantifiers at the front, outermost first. -/
def leading : Ty → List TypeId
  | forAll a body => a :: body.leading
  | _ => []

/-- What is left when the quantifiers at the front are taken away. -/
def matrix : Ty → Ty
  | forAll _ body => body.matrix
  | ty => ty

def prenex (ty : Ty) : Bool := ty.matrix.quantifierFree

/-- The second type is the matrix of the first with simple types for the quantified variables. -/
def IsInstance (σ ρ : Ty) : Prop :=
  ∃ f : TypeId → Ty, (∀ a ∈ σ.leading, (f a).simple = true) ∧
    ρ = σ.matrix.replace (fun a => if a ∈ σ.leading then f a else .var a) .placeholder

end Ty

abbrev Environment := List (BindingId × Ty)

/-- The identifier occurs in no type of the environment, not even behind a quantifier sign. -/
def Environment.Avoids (E : Environment) (a : TypeId) : Prop :=
  ∀ x σ, (x, σ) ∈ E → a ∉ σ.occurrences ∧ a ∉ σ.quantifiers

/-- The term has the simple type. An annotation is checked with its quantified variables taken as
rigid, and these must be new. -/
inductive HasType : Environment → Term → Ty → Prop where
  | unit {E : Environment} : HasType E .unit .void
  | ref {E : Environment} {x : BindingId} {σ ρ : Ty} :
      E.lookup x = some σ → σ.IsInstance ρ → HasType E (.ref x) ρ
  | lam {E : Environment} {x : BindingId} {body : Term} {ρ₁ ρ₂ : Ty} :
      ρ₁.simple = true → HasType ((x, ρ₁) :: E) body ρ₂ → HasType E (.lam x body) (.arrow ρ₁ ρ₂)
  | app {E : Environment} {function argument : Term} {ρ₁ ρ₂ : Ty} :
      HasType E function (.arrow ρ₁ ρ₂) → HasType E argument ρ₁ →
      HasType E (.app function argument) ρ₂
  | ann {E : Environment} {term : Term} {σ ρ : Ty} : σ.prenex = true →
      (∀ a ∈ σ.leading, E.Avoids a) → HasType E term σ.matrix → σ.IsInstance ρ →
      HasType E (.ann term σ) ρ

namespace Ty

theorem placeholders_eq_nil_of_ground {ty : Ty} (h : ty.ground = true) : ty.placeholders = [] := by
  induction ty with
  | void => rfl
  | var a => rfl
  | placeholder p => cases h
  | forAll a body ih => exact ih h
  | arrow parameter result ihp ihr =>
    simp only [ground, Bool.and_eq_true] at h
    simp [placeholders, ihp h.1, ihr h.2]

theorem quantifiers_eq_nil_of_quantifierFree {ty : Ty} (h : ty.quantifierFree = true) :
    ty.quantifiers = [] := by
  induction ty with
  | void => rfl
  | var a => rfl
  | placeholder p => rfl
  | forAll a body => cases h
  | arrow parameter result ihp ihr =>
    simp only [quantifierFree, Bool.and_eq_true] at h
    simp [quantifiers, ihp h.1, ihr h.2]

theorem free_eq_occurrences_of_quantifierFree {ty : Ty} (h : ty.quantifierFree = true) :
    ty.free = ty.occurrences := by
  induction ty with
  | void => rfl
  | var a => rfl
  | placeholder p => rfl
  | forAll a body => cases h
  | arrow parameter result ihp ihr =>
    simp only [quantifierFree, Bool.and_eq_true] at h
    simp [free, occurrences, ihp h.1, ihr h.2]

theorem leading_eq_nil_of_quantifierFree {ty : Ty} (h : ty.quantifierFree = true) :
    ty.leading = [] := by
  cases ty with
  | forAll a body => cases h
  | _ => rfl

theorem matrix_eq_of_quantifierFree {ty : Ty} (h : ty.quantifierFree = true) :
    ty.matrix = ty := by
  cases ty with
  | forAll a body => cases h
  | _ => rfl

theorem prenex_of_quantifierFree {ty : Ty} (h : ty.quantifierFree = true) :
    ty.prenex = true := by
  rw [prenex, matrix_eq_of_quantifierFree h, h]

theorem quantifiers_of_prenex {ty : Ty} (h : ty.prenex = true) : ty.quantifiers = ty.leading := by
  induction ty with
  | forAll a body ih => exact congrArg (a :: ·) (ih h)
  | arrow parameter result => exact quantifiers_eq_nil_of_quantifierFree h
  | _ => rfl

theorem quantifierFree_replace {f g : TypeId → Ty} {ty : Ty} (h : ty.quantifierFree = true)
    (hf : ∀ a ∈ ty.occurrences, (f a).quantifierFree = true)
    (hg : ∀ p ∈ ty.placeholders, (g p).quantifierFree = true) :
    (ty.replace f g).quantifierFree = true := by
  induction ty with
  | void => rfl
  | var a => exact hf a (by simp [occurrences])
  | placeholder p => exact hg p (by simp [placeholders])
  | forAll a body => cases h
  | arrow parameter result ihp ihr =>
    simp only [quantifierFree, Bool.and_eq_true] at h
    simp only [occurrences, placeholders, List.mem_append] at hf hg
    simp only [replace, quantifierFree, Bool.and_eq_true]
    exact ⟨ihp h.1 (fun a ha => hf a (.inl ha)) (fun p hp => hg p (.inl hp)),
      ihr h.2 (fun a ha => hf a (.inr ha)) (fun p hp => hg p (.inr hp))⟩

theorem ground_replace {f g : TypeId → Ty} {ty : Ty}
    (hf : ∀ a ∈ ty.occurrences, (f a).ground = true)
    (hg : ∀ p ∈ ty.placeholders, (g p).ground = true) : (ty.replace f g).ground = true := by
  induction ty with
  | void => rfl
  | var a => exact hf a (by simp [occurrences])
  | placeholder p => exact hg p (by simp [placeholders])
  | forAll a body ih => exact ih hf hg
  | arrow parameter result ihp ihr =>
    simp only [occurrences, placeholders, List.mem_append] at hf hg
    simp only [replace, ground, Bool.and_eq_true]
    exact ⟨ihp (fun a ha => hf a (.inl ha)) (fun p hp => hg p (.inl hp)),
      ihr (fun a ha => hf a (.inr ha)) (fun p hp => hg p (.inr hp))⟩

section Fronts

-- Replacing leaves by types without a quantifier at the top leaves the front of a type alone.
variable {f g : TypeId → Ty} {ty : Ty}

theorem leading_replace (hf : ∀ a ∈ ty.occurrences, (f a).leading = [])
    (hg : ∀ p ∈ ty.placeholders, (g p).leading = []) : (ty.replace f g).leading = ty.leading := by
  induction ty with
  | void => rfl
  | var a => exact hf a (by simp [occurrences])
  | placeholder p => exact hg p (by simp [placeholders])
  | forAll a body ih => exact congrArg (a :: ·) (ih hf hg)
  | arrow parameter result => rfl

theorem matrix_replace (hf : ∀ a ∈ ty.occurrences, (f a).matrix = f a)
    (hg : ∀ p ∈ ty.placeholders, (g p).matrix = g p) :
    (ty.replace f g).matrix = ty.matrix.replace f g := by
  induction ty with
  | void => rfl
  | var a => exact hf a (by simp [occurrences])
  | placeholder p => exact hg p (by simp [placeholders])
  | forAll a body ih => exact ih hf hg
  | arrow parameter result => rfl

end Fronts

theorem placeholders_matrix (ty : Ty) : ty.matrix.placeholders = ty.placeholders := by
  induction ty with
  | forAll a body ih => exact ih
  | _ => rfl

theorem prenex_replace {g : TypeId → Ty} {ty : Ty} (h : ty.prenex = true)
    (hg : ∀ p ∈ ty.placeholders, (g p).quantifierFree = true) :
    (ty.replace .var g).prenex = true := by
  rw [prenex, matrix_replace (fun _ _ => rfl) fun p hp => matrix_eq_of_quantifierFree (hg p hp)]
  refine quantifierFree_replace h (fun _ _ => rfl) fun p hp => hg p ?_
  rwa [← placeholders_matrix]

theorem prenex_subst {ty : Ty} {a : TypeId} {κ : Ty} (h : ty.prenex = true)
    (hκ : κ.quantifierFree = true) : (ty.subst a κ).prenex = true := by
  have hf : ∀ b, (if b = a then κ else var b).quantifierFree = true := fun b => by
    split
    · exact hκ
    · rfl
  rw [prenex, subst, matrix_replace (fun b _ => matrix_eq_of_quantifierFree (hf b)) fun _ _ => rfl]
  exact quantifierFree_replace h (fun b _ => hf b) fun _ _ => rfl

theorem leading_subst {ty : Ty} {a : TypeId} {κ : Ty} (hκ : κ.quantifierFree = true) :
    (ty.subst a κ).leading = ty.leading := by
  refine leading_replace (fun b _ => ?_) fun _ _ => rfl
  split
  · exact leading_eq_nil_of_quantifierFree hκ
  · rfl

theorem matrix_subst {ty : Ty} {a : TypeId} {κ : Ty} (hκ : κ.quantifierFree = true) :
    (ty.subst a κ).matrix = ty.matrix.subst a κ := by
  refine matrix_replace (fun b _ => ?_) fun _ _ => rfl
  split
  · exact matrix_eq_of_quantifierFree hκ
  · rfl

theorem isInstance_of_quantifierFree {σ ρ : Ty} (h : σ.quantifierFree = true) :
    σ.IsInstance ρ ↔ ρ = σ := by
  have hfront : (fun b => if b ∈ σ.leading then void else var b) = var := by
    funext b
    simp [leading_eq_nil_of_quantifierFree h]
  constructor
  · rintro ⟨f, -, rfl⟩
    simp [leading_eq_nil_of_quantifierFree h, matrix_eq_of_quantifierFree h, replace_leaves]
  · rintro rfl
    refine ⟨fun _ => void, fun _ _ => rfl, ?_⟩
    rw [hfront, matrix_eq_of_quantifierFree h, replace_leaves]

/-- The second type is the matrix of the first with types of the given kind for the quantified
variables. -/
def InstanceBy (P : Ty → Prop) (σ ρ : Ty) : Prop :=
  ∃ f : TypeId → Ty, (∀ a ∈ σ.leading, P (f a)) ∧
    ρ = σ.matrix.replace (fun a => if a ∈ σ.leading then f a else .var a) .placeholder

theorem InstanceBy.forAll {P : Ty → Prop} {a : TypeId} {body κ ρ : Ty} (hvar : ∀ b, P (.var b))
    (hreplace : ∀ κ g, P κ → (∀ b, P (g b)) → P (κ.replace g .placeholder)) (hκ : P κ)
    (hfront : κ.quantifierFree = true) (h : (body.subst a κ).InstanceBy P ρ) :
    (Ty.forAll a body).InstanceBy P ρ := by
  obtain ⟨f, hf, rfl⟩ := h
  rw [leading_subst hfront] at hf ⊢
  let onFront : TypeId → Ty := fun b => if b ∈ body.leading then f b else .var b
  refine ⟨fun b => if b = a then κ.replace onFront .placeholder else f b, fun b hb => ?_, ?_⟩
  · have honFront : ∀ c, P (onFront c) := fun c => by
      simp only [onFront]
      split
      · exact hf c ‹_›
      · exact hvar c
    dsimp only
    split
    · exact hreplace κ onFront hκ honFront
    · rename_i hne
      exact hf b ((List.mem_cons.1 hb).resolve_left hne)
  · rw [matrix_subst hfront, subst, replace_replace]
    refine replace_congr (fun b _ => ?_) fun _ _ => rfl
    simp only [leading, List.mem_cons]
    by_cases hb : b = a
    · simp [hb, onFront]
    · simp [hb, replace]

theorem IsInstance.forAll {a : TypeId} {body κ ρ : Ty} (hκ : κ.simple = true)
    (h : (body.subst a κ).IsInstance ρ) : (Ty.forAll a body).IsInstance ρ := by
  have hparts : κ.quantifierFree = true ∧ κ.ground = true := Bool.and_eq_true_iff.1 hκ
  refine InstanceBy.forAll (P := fun τ => τ.simple = true) (fun _ => rfl) (fun τ g hτ hg => ?_) hκ
    hparts.1 h
  simp only [simple, Bool.and_eq_true] at hτ hg ⊢
  refine ⟨quantifierFree_replace hτ.1 (fun c _ => (hg c).1) fun _ _ => rfl,
    ground_replace (fun c _ => (hg c).2) fun p hp => ?_⟩
  simp [placeholders_eq_nil_of_ground hτ.2] at hp

theorem occurrences_subset_replace {f g : TypeId → Ty} {a : TypeId} {ty : Ty}
    (ha : a ∈ ty.occurrences) : (f a).occurrences ⊆ (ty.replace f g).occurrences := by
  induction ty with
  | void => cases ha
  | var b =>
    cases List.mem_singleton.1 ha
    exact fun _ => id
  | placeholder p => cases ha
  | forAll b body ih => exact ih ha
  | arrow parameter result ihp ihr =>
    rcases List.mem_append.1 ha with ha | ha
    · exact fun b hb => List.mem_append_left _ (ihp ha hb)
    · exact fun b hb => List.mem_append_right _ (ihr ha hb)

theorem placeholders_subset_replace {f g : TypeId → Ty} {a : TypeId} {ty : Ty}
    (ha : a ∈ ty.occurrences) : (f a).placeholders ⊆ (ty.replace f g).placeholders := by
  induction ty with
  | void => cases ha
  | var b =>
    cases List.mem_singleton.1 ha
    exact fun _ => id
  | placeholder p => cases ha
  | forAll b body ih => exact ih ha
  | arrow parameter result ihp ihr =>
    rcases List.mem_append.1 ha with ha | ha
    · exact fun b hb => List.mem_append_left _ (ihp ha hb)
    · exact fun b hb => List.mem_append_right _ (ihr ha hb)

theorem InstanceBy.parts {P Q : Ty → Prop} {σ ρ : Ty} (h : σ.InstanceBy P ρ) (hvoid : Q .void)
    (hQ : ∀ κ, P κ → κ.occurrences ⊆ ρ.occurrences → κ.placeholders ⊆ ρ.placeholders → Q κ) :
    σ.InstanceBy Q ρ := by
  -- The types that are put for variables are parts of the instance. Variables that do not occur may
  -- be replaced by any type.
  obtain ⟨f, hf, rfl⟩ := h
  refine ⟨fun a => if a ∈ σ.matrix.occurrences then f a else .void, fun a ha => ?_, ?_⟩
  · dsimp only
    split
    · rename_i hoccurs
      let g : TypeId → Ty := fun b => if b ∈ σ.leading then f b else .var b
      have hg : g a = f a := if_pos ha
      refine hQ (f a) (hf a ha) ?_ ?_
      · exact hg ▸ occurrences_subset_replace (f := g) hoccurs
      · exact hg ▸ placeholders_subset_replace (f := g) hoccurs
    · exact hvoid
  · refine replace_congr (fun a ha => ?_) fun _ _ => rfl
    simp [ha]

end Ty

def Entry.binding? : Entry → Option (BindingId × Ty)
  | binding x ty => some (x, ty)
  | _ => none

namespace Context

def environment (Γ : Context) : Environment := Γ.reverse.filterMap Entry.binding?

theorem lookup_environment (Γ : Context) (x : BindingId) :
    Γ.environment.lookup x = Γ.binding? x := by
  simp only [environment, binding?]
  generalize Γ.reverse = entries
  induction entries with
  | nil => rfl
  | cons e entries ih =>
    cases e with
    | binding y ty =>
      simp only [List.filterMap_cons, Entry.binding?, List.lookup_cons, List.findSome?_cons, ih]
      by_cases hy : y = x
      · simp [hy]
      · have hne : (x == y) = false := by simpa using Ne.symm hy
        simp [hy, hne]
    | _ => simpa only [List.filterMap_cons, Entry.binding?, List.findSome?_cons] using ih

theorem mem_environment {Γ : Context} {x : BindingId} {ty : Ty} :
    (x, ty) ∈ Γ.environment ↔ .binding x ty ∈ Γ := by
  simp only [environment, List.mem_filterMap, List.mem_reverse]
  constructor
  · rintro ⟨e, he, h⟩
    cases e <;> simp_all [Entry.binding?]
  · exact fun h => ⟨_, h, rfl⟩

theorem binding?_mem {Γ : Context} {x : BindingId} {ty : Ty} (h : Γ.binding? x = some ty) :
    .binding x ty ∈ Γ := by
  obtain ⟨e, he, heq⟩ := List.exists_of_findSome?_eq_some h
  cases e <;> simp at heq
  obtain ⟨rfl, rfl⟩ := heq
  exact List.mem_reverse.1 he

end Context
end HigherRank
