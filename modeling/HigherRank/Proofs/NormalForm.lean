import HigherRank.Proofs.Resolution

set_option autoImplicit false

/-!
# Resolution computes a normal form

Resolution is written down with a bound on the steps. Here it is set beside the recursion that it stands
for, which has no bound: `Resolves` puts for a solved placeholder what its solution is resolved to,
for as long as there are solutions to follow. In a cyclic context this recursion has no end. In a
stratified one it ends on every type, well-formed or not, and resolution returns what it ends with. What
is normal about the result is proved of the recursion, by induction on its course.
-/
namespace HigherRank.Context

variable {Γ : Context} {p : TypeId} {ty τ τ' : Ty}

/-- The recursion of resolution comes to an end on the first type and gives the second. -/
inductive Resolves (Γ : Context) : Ty → Ty → Prop where
  | void : Resolves Γ .void .void
  | var (a : TypeId) : Resolves Γ (.var a) (.var a)
  | unsolved {p : TypeId} : Γ.solution? p = none → Resolves Γ (.placeholder p) (.placeholder p)
  | solved {p : TypeId} {τ τ' : Ty} : Γ.solution? p = some τ → Resolves Γ τ τ' →
      Resolves Γ (.placeholder p) τ'
  | forAll {a : TypeId} {body body' : Ty} : Resolves Γ body body' →
      Resolves Γ (.forAll a body) (.forAll a body')
  | arrow {parameter result parameter' result' : Ty} : Resolves Γ parameter parameter' →
      Resolves Γ result result' → Resolves Γ (.arrow parameter result) (.arrow parameter' result')

namespace Resolves

theorem functional (h : Γ.Resolves ty τ) (h' : Γ.Resolves ty τ') : τ = τ' := by
  induction h generalizing τ' with
  | void =>
    cases h'
    rfl
  | var a =>
    cases h'
    rfl
  | unsolved hp =>
    cases h' with
    | unsolved _ => rfl
    | solved hp' _ => simp [hp] at hp'
  | solved hp _ ih =>
    cases h' with
    | unsolved hp' => simp [hp] at hp'
    | solved hp' hτ =>
      cases hp.symm.trans hp'
      exact ih hτ
  | forAll _ ih =>
    cases h' with
    | forAll hbody => rw [ih hbody]
  | arrow _ _ ihp ihr =>
    cases h' with
    | arrow hp hr => rw [ihp hp, ihr hr]

theorem resolved (h : Γ.Resolves ty τ) : Γ.Resolved τ := by
  induction h with
  | void => exact fun p hp => absurd hp List.not_mem_nil
  | var a => exact fun p hp => absurd hp List.not_mem_nil
  | unsolved hq =>
    intro p hp
    cases List.mem_singleton.1 hp
    exact hq
  | solved _ _ ih => exact ih
  | forAll _ ih => exact ih
  | arrow _ _ ihp ihr => exact fun p hp => (List.mem_append.1 hp).elim (ihp p) (ihr p)

theorem of_resolved (h : Γ.Resolved ty) : Γ.Resolves ty ty := by
  induction ty with
  | void => exact void
  | var a => exact var a
  | placeholder p => exact unsolved (h p (by simp [Ty.placeholders]))
  | forAll a body ih => exact forAll (ih h)
  | arrow parameter result ihp ihr =>
    exact arrow (ihp fun p hp => h p (List.mem_append_left _ hp))
      (ihr fun p hp => h p (List.mem_append_right _ hp))

theorem replace {g : TypeId → Ty} (h : ∀ p ∈ ty.placeholders, Γ.Resolves (.placeholder p) (g p)) :
    Γ.Resolves ty (ty.replace .var g) := by
  induction ty with
  | void => exact void
  | var a => exact var a
  | placeholder p => exact h p (by simp [Ty.placeholders])
  | forAll a body ih => exact forAll (ih h)
  | arrow parameter result ihp ihr =>
    exact arrow (ihp fun p hp => h p (List.mem_append_left _ hp))
      (ihr fun p hp => h p (List.mem_append_right _ hp))

end Resolves

/-- The identifier is among those that `names` lists of the type, or of a solution in the context. -/
def Supplies (Γ : Context) (names : Ty → List TypeId) (ty : Ty) (a : TypeId) : Prop :=
  a ∈ names ty ∨ ∃ p τ, .solved p τ ∈ Γ ∧ a ∈ names τ

theorem Supplies.mono {names : Ty → List TypeId} {a : TypeId} (h : Γ.Supplies names τ a)
    (hsub : names τ ⊆ names ty) : Γ.Supplies names ty a :=
  h.imp_left fun ha => hsub ha

theorem Supplies.of_solution {names : Ty → List TypeId} {a : TypeId} (h : Γ.Supplies names τ a)
    (hp : Γ.solution? p = some τ) : Γ.Supplies names ty a :=
  .inr (h.elim (fun ha => ⟨p, τ, solution?_mem hp, ha⟩) id)

theorem Resolves.supplies (h : Γ.Resolves ty τ) :
    (∀ p ∈ τ.placeholders, Γ.Supplies Ty.placeholders ty p) ∧
      ∀ a ∈ τ.occurrences, Γ.Supplies Ty.occurrences ty a := by
  induction h with
  | void => exact ⟨fun p hp => .inl hp, fun a ha => .inl ha⟩
  | var a => exact ⟨fun p hp => .inl hp, fun a ha => .inl ha⟩
  | unsolved _ => exact ⟨fun p hp => .inl hp, fun a ha => .inl ha⟩
  | solved hq _ ih =>
    exact ⟨fun p hp => (ih.1 p hp).of_solution hq, fun a ha => (ih.2 a ha).of_solution hq⟩
  | forAll _ ih => exact ih
  | arrow _ _ ihp ihr =>
    constructor
    · intro p hp
      rcases List.mem_append.1 hp with hp | hp
      · exact (ihp.1 p hp).mono (List.subset_append_left ..)
      · exact (ihr.1 p hp).mono (List.subset_append_right ..)
    · intro a ha
      rcases List.mem_append.1 ha with ha | ha
      · exact (ihp.2 a ha).mono (List.subset_append_left ..)
      · exact (ihr.2 a ha).mono (List.subset_append_right ..)

theorem Stratified.resolves_apply (h : Γ.Stratified) (ty : Ty) : Γ.Resolves ty (Γ.apply ty) := by
  have hplaceholder : ∀ p, Γ.Resolves (.placeholder p) (Γ.apply (.placeholder p)) := by
    refine h.placeholder_induction fun p ih => ?_
    cases hs : Γ.solution? p with
    | none =>
      rw [apply_of_solution? hs]
      exact .unsolved hs
    | some τ =>
      rw [h.apply_of_solved (solution?_mem hs)]
      exact .solved hs (.replace (ih τ (solution?_mem hs)))
  exact .replace fun p _ => hplaceholder p

theorem Stratified.apply_eq_of_resolves (h : Γ.Stratified) (hτ : Γ.Resolves ty τ) :
    Γ.apply ty = τ :=
  (h.resolves_apply ty).functional hτ

/-- In a stratified context resolution returns what its recursion ends with, for every type. The result
mentions no solved placeholder, and no placeholder or variable that neither the type nor a solution
mentions; it is resolved to itself, as is every type that mentions no solved placeholder. -/
theorem apply_normalizes (h : Γ.Stratified) (ty : Ty) :
    (∀ τ, Γ.Resolves ty τ ↔ τ = Γ.apply ty) ∧
    (∀ p ∈ (Γ.apply ty).placeholders, Γ.solution? p = none) ∧
    (∀ p ∈ (Γ.apply ty).placeholders, Γ.Supplies Ty.placeholders ty p) ∧
    (∀ a ∈ (Γ.apply ty).occurrences, Γ.Supplies Ty.occurrences ty a) ∧
    Γ.apply (Γ.apply ty) = Γ.apply ty ∧
    ((∀ p ∈ ty.placeholders, Γ.solution? p = none) → Γ.apply ty = ty) := by
  have hends := h.resolves_apply ty
  refine ⟨fun τ => ⟨fun hτ => (h.apply_eq_of_resolves hτ).symm, fun heq => heq ▸ hends⟩,
    hends.resolved, hends.supplies.1, hends.supplies.2, ?_, fun hty => ?_⟩
  · exact h.apply_eq_of_resolves (.of_resolved hends.resolved)
  · exact h.apply_eq_of_resolves (.of_resolved hty)

def chained : Context :=
  [.unsolved ⟨0⟩, .solved ⟨1⟩ (.forAll ⟨5⟩ (.arrow (.var ⟨5⟩) (.placeholder ⟨0⟩))), .var ⟨4⟩,
    .solved ⟨2⟩ (.arrow (.placeholder ⟨1⟩) (.var ⟨4⟩)), .solved ⟨3⟩ (.placeholder ⟨2⟩)]

theorem chained_stratified : chained.Stratified := by
  decide

theorem chained_normalizes :
    chained.apply (.forAll ⟨6⟩ (.arrow (.placeholder ⟨3⟩) (.placeholder ⟨7⟩))) =
        .forAll ⟨6⟩ (.arrow (.arrow (.forAll ⟨5⟩ (.arrow (.var ⟨5⟩) (.placeholder ⟨0⟩))) (.var ⟨4⟩))
          (.placeholder ⟨7⟩)) ∧
      (∀ τ, chained.Resolves (.placeholder ⟨3⟩) τ ↔
        τ = .arrow (.forAll ⟨5⟩ (.arrow (.var ⟨5⟩) (.placeholder ⟨0⟩))) (.var ⟨4⟩)) ∧
      chained.apply (.arrow (.placeholder ⟨0⟩) (.var ⟨9⟩)) =
        .arrow (.placeholder ⟨0⟩) (.var ⟨9⟩) :=
  ⟨by decide, (apply_normalizes chained_stratified (.placeholder ⟨3⟩)).1,
    (apply_normalizes chained_stratified _).2.2.2.2.2 (by decide)⟩

end HigherRank.Context
