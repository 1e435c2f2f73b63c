import HigherRank.Proofs.Extension
import HigherRank.Proofs.Resolution

set_option autoImplicit false

/-!
# Resolution from one context to another

A judgment goes on using types that it resolved some steps ago, and asks whether a type that the whole
context has resolved is in scope of a part of it. Both are sound. What is in scope of the first entries
is resolved by these alone, and to a type in scope of them. When the context is extended, a type that was
resolved before is resolved to what the original type is resolved to, and what was in scope still is.
Quantifiers at the top of solutions do no harm to this, so contexts need to be stratified only; those
that are ordered all are.
-/
namespace HigherRank.Context

variable {Γ Δ : Context} {new : TypeId → Prop} {atEnd : Bool} {p : TypeId} {τ ty : Ty}

theorem Stratified.take (h : Γ.Stratified) (k : Nat) : Stratified (Γ.take k) := by
  rw [← Γ.take_append_drop k] at h
  exact h.left

theorem Stratified.apply_take (h : Γ.Stratified) {k : Nat}
    (hw : wellFormed (Γ.take k) ty = true) : Γ.apply ty = apply (Γ.take k) ty := by
  have hsplit : Stratified (Γ.take k ++ Γ.drop k) := (Γ.take_append_drop k).symm ▸ h
  calc Γ.apply ty
    _ = apply (Γ.take k ++ Γ.drop k) ty := by rw [Γ.take_append_drop k]
    _ = apply (Γ.take k) ty := hsplit.apply_append hw

theorem Stratified.wellFormed_apply (h : Γ.Stratified) (hw : Γ.wellFormed ty = true) :
    Γ.wellFormed (Γ.apply ty) = true :=
  Context.wellFormed_apply (fun _ _ hp => h.solution hp) hw

/-- Resolution brings in no name that is declared later than those of the type, and resolves it by what is
declared before. Opening a quantifier brings in no name but those of the type put in. -/
theorem names_stay_in_scope (Γ : Context) :
    (Γ.Stratified → ∀ (k : Nat) (ty : Ty), wellFormed (Γ.take k) ty = true →
      wellFormed (Γ.take k) (Γ.apply ty) = true ∧ Γ.apply ty = apply (Γ.take k) ty) ∧
    ∀ (a : TypeId) (body κ : Ty), Γ.wellFormed (.forAll a body) = true →
      Γ.wellFormed κ = true → Γ.wellFormed (body.subst a κ) = true := by
  refine ⟨fun h k ty hw => ?_, fun a body κ => wellFormed_subst⟩
  have heq := h.apply_take hw
  refine ⟨?_, heq⟩
  rw [heq]
  exact (h.take k).wellFormed_apply hw

def layered : Context :=
  [.var ⟨4⟩, .unsolved ⟨0⟩, .solved ⟨1⟩ (.arrow (.var ⟨4⟩) (.placeholder ⟨0⟩)), .var ⟨5⟩,
    .solved ⟨2⟩ (.arrow (.placeholder ⟨1⟩) (.var ⟨5⟩))]

theorem layered_names_stay_in_scope :
    let ty : Ty := .forAll ⟨5⟩ (.arrow (.placeholder ⟨1⟩) (.var ⟨5⟩))
    let body : Ty := .forAll ⟨6⟩ (.arrow (.var ⟨6⟩) (.placeholder ⟨2⟩))
    (layered.Stratified ∧ wellFormed (layered.take 3) ty = true ∧
      wellFormed (layered.take 3) (layered.apply ty) = true ∧
      layered.apply ty = .forAll ⟨5⟩ (.arrow (.arrow (.var ⟨4⟩) (.placeholder ⟨0⟩)) (.var ⟨5⟩))) ∧
    layered.wellFormed (.forAll ⟨6⟩ body) = true ∧
      layered.wellFormed (body.subst ⟨6⟩ (.placeholder ⟨1⟩)) = true := by
  -- The type quantifies a name that is declared later; the opened quantifier is shadowed in its own
  -- body.
  intro ty body
  have hty : wellFormed (layered.take 3) ty = true := by decide
  have hbody : layered.wellFormed (.forAll ⟨6⟩ body) = true := by decide
  have hlayered : layered.Stratified := by decide
  have happly := (names_stay_in_scope layered).1 hlayered 3 ty hty
  exact ⟨⟨hlayered, hty, happly.1, happly.2.trans (by decide)⟩, hbody,
    (names_stay_in_scope layered).2 ⟨6⟩ body (.placeholder ⟨1⟩) hbody (by decide)⟩

theorem Extends.solved_mem (h : Extends new atEnd Γ Δ) (hp : .solved p τ ∈ Γ) :
    .solved p τ ∈ Δ := by
  induction h with
  | nil => exact hp
  | keep e _ ih =>
    rcases List.mem_cons.1 hp with heq | hp
    · exact List.mem_cons.2 (.inl heq)
    · exact List.mem_cons_of_mem _ (ih hp)
  | solve q υ _ ih =>
    rcases List.mem_cons.1 hp with heq | hp
    · cases heq
    · exact List.mem_cons_of_mem _ (ih hp)
  | insert _ _ _ _ ih => exact List.mem_cons_of_mem _ (ih hp)

theorem Extends.rigid_eq (h : Extends new atEnd Γ Δ) : Δ.rigid = Γ.rigid := by
  -- A new entry declares a placeholder, a solution what its placeholder declared.
  induction h with
  | nil => rfl
  | keep e _ ih => simp only [rigid, List.filterMap_cons, ih]
  | solve p τ _ ih => exact ih
  | @insert Γ Δ e p he _ _ _ ih =>
    cases e with
    | unsolved q => exact ih
    | solved q τ => exact ih
    | var a => cases he
    | binding x ty => cases he
    | marker m => cases he

theorem Extends.placeholders_sublist (h : Extends new atEnd Γ Δ) :
    Γ.placeholders.Sublist Δ.placeholders := by
  induction h with
  | nil => exact List.Sublist.refl _
  | keep e _ ih =>
    simp only [placeholders, List.filterMap_cons]
    cases e.placeholder? with
    | none => exact ih
    | some p => exact ih.cons_cons p
  | solve p τ _ ih => exact ih.cons_cons p
  | insert he _ _ _ ih =>
    rw [placeholders, placeholders, List.filterMap_cons, he]
    exact ih.cons _

theorem Extends.wellFormed (h : Extends new atEnd Γ Δ) (hw : Γ.wellFormed ty = true) :
    Δ.wellFormed ty = true :=
  wellFormed_mono (h.rigid_eq ▸ List.Subset.refl _) h.placeholders_sublist.subset hw

/-- What was resolved early stays valid in every extension, wherever in it the new placeholders stand and
whatever they are solved to: a context in which each placeholder is declared once keeps them apart from
the old ones, so that nothing has to be asked of their identifiers. -/
theorem resolved_stays_valid (hΓ : Γ.Stratified) (hΔ : Δ.Stratified)
    (h : Extends new atEnd Γ Δ) :
    (∀ ty : Ty, Δ.apply (Γ.apply ty) = Δ.apply ty) ∧
    (∀ ty : Ty, Γ.wellFormed ty = true →
      Δ.wellFormed ty = true ∧ Δ.wellFormed (Δ.apply ty) = true) ∧
    ∀ ty ty' : Ty, Γ.apply ty = Γ.apply ty' → Δ.apply ty = Δ.apply ty' := by
  have hagain : ∀ ty : Ty, Δ.apply (Γ.apply ty) = Δ.apply ty :=
    hΓ.apply_apply hΔ fun _ _ hp => h.solved_mem hp
  refine ⟨hagain, fun ty hw => ?_, fun ty ty' heq => ?_⟩
  · exact ⟨h.wellFormed hw, hΔ.wellFormed_apply (h.wellFormed hw)⟩
  · calc Δ.apply ty
      _ = Δ.apply (Γ.apply ty) := (hagain ty).symm
      _ = Δ.apply (Γ.apply ty') := by rw [heq]
      _ = Δ.apply ty' := hagain ty'

def early : Context :=
  [.unsolved ⟨0⟩, .solved ⟨1⟩ (.arrow (.placeholder ⟨0⟩) (.placeholder ⟨0⟩)), .unsolved ⟨2⟩]

/-- The same context later: the first placeholder has been split, and the last one points at the
second. -/
def late : Context :=
  [.unsolved ⟨3⟩, .unsolved ⟨4⟩, .solved ⟨0⟩ (.arrow (.placeholder ⟨3⟩) (.placeholder ⟨4⟩)),
    .solved ⟨1⟩ (.arrow (.placeholder ⟨0⟩) (.placeholder ⟨0⟩)), .solved ⟨2⟩ (.placeholder ⟨1⟩),
    .unsolved ⟨5⟩]

theorem early_extends_late : Extends (fun p => p ∉ early.placeholders) true early late := by
  refine .insert rfl (by decide) (by simp) (.insert rfl (by decide) (by simp) ?_)
  refine .solve ⟨0⟩ _ (.keep _ (.solve ⟨2⟩ _ ?_))
  exact .insert rfl (by decide) (by simp) .nil

theorem early_resolved_stays_valid :
    let ty : Ty := .forAll ⟨9⟩ (.arrow (.placeholder ⟨2⟩) (.placeholder ⟨1⟩))
    early.Stratified ∧ late.Stratified ∧ early.apply ty = .forAll ⟨9⟩ (.arrow (.placeholder ⟨2⟩)
        (.arrow (.placeholder ⟨0⟩) (.placeholder ⟨0⟩))) ∧
      early.apply ty ≠ late.apply ty ∧ late.apply (early.apply ty) = late.apply ty ∧
      late.wellFormed (late.apply ty) = true := by
  intro ty
  have hearly : early.Stratified := by decide
  have hlate : late.Stratified := by decide
  have hvalid := resolved_stays_valid hearly hlate early_extends_late
  exact ⟨hearly, hlate, by decide, by decide, hvalid.1 ty, (hvalid.2.1 ty (by decide)).2⟩

end HigherRank.Context
