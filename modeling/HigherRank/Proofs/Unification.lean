import HigherRank.Proofs.Completion

set_option autoImplicit false

/-!
# Equations that a model satisfies are solved

Without quantifiers the constraints between types are equations. If a model of the context satisfies
such an equation, it completes: no step solves a placeholder to more than the equation asks for, so the
model survives each of them. The search follows the type that the model assigns to both sides.
-/
namespace HigherRank

open Judgment
open Opening (own)

namespace Ty

variable {θ : Assignment} {p : TypeId} {ty : Ty}

theorem size_le_assign (hp : p ∈ ty.placeholders) : (θ p).size ≤ (ty.assign θ).size := by
  induction ty with
  | void => cases hp
  | var a => cases hp
  | placeholder q =>
    cases List.mem_singleton.1 hp
    exact Nat.le_refl _
  | forAll a body ih => exact Nat.le_succ_of_le (ih hp)
  | arrow parameter result ihp ihr =>
    change _ ≤ (parameter.assign θ).size + (result.assign θ).size + 1
    rcases List.mem_append.1 hp with hp | hp
    · have := ihp hp
      omega
    · have := ihr hp
      omega

theorem not_mem_of_assign_eq (heq : θ p = ty.assign θ) (hne : ty ≠ .placeholder p) :
    p ∉ ty.placeholders := by
  intro hp
  have hsize : (θ p).size = (ty.assign θ).size := congrArg size heq
  cases ty with
  | void => cases hp
  | var a => cases hp
  | placeholder q => exact hne (congrArg placeholder (List.mem_singleton.1 hp).symm)
  | forAll a body =>
    have hle : (θ p).size ≤ (body.assign θ).size := size_le_assign hp
    change _ = (body.assign θ).size + 1 at hsize
    omega
  | arrow parameter result =>
    change _ = (parameter.assign θ).size + (result.assign θ).size + 1 at hsize
    rcases List.mem_append.1 hp with hp | hp
    · have hle : (θ p).size ≤ (parameter.assign θ).size := size_le_assign hp
      omega
    · have hle : (θ p).size ≤ (result.assign θ).size := size_le_assign hp
      omega

end Ty

section Instantiation

variable {s : State} {θ : Assignment} {p : TypeId} {ty : Ty}

theorem arrow_of_rejected (hs : s.ModeledBy θ) (hp : .unsolved p ∈ s.context)
    (h : s.context.Denotes θ ty (θ p)) (hr : s.context.Resolved ty) (hne : ty ≠ .placeholder p)
    (hrun : instantiateMonotype p ty s = (.rejected, s)) : ∃ τ υ, ty = .arrow τ υ := by
  -- Types other than arrows are solved outright, if all their placeholders are unsolved. A variable
  -- is declared before the placeholder that stands for it, since a model respects the order.
  rcases form_of_instantiateMonotype_rejected ⟨hs.valid, hp, h.wellFormed⟩ hr hne hrun with
    harrow | ⟨a, body, rfl⟩ | ⟨a, before, after, rfl, hΓ, ha⟩
  · exact harrow
  · cases h.quantifierFree
  · have hscope := (hs.model before _ after hΓ).scope p rfl
    rw [← h.assign_eq] at hscope
    exact absurd (hscope a (List.mem_singleton_self a)) ha

theorem instantiateStep_completes {next : (limit left : Nat) → Variance → TypeId → Ty → Judgment Unit}
    {v : Variance} (hn : ∀ limit left v p ty, Atomic .nothing (next limit left v p ty))
    (hrenames : ∀ limit left, InstantiationRenames (next limit left))
    (ih : ∀ {v p' ty s θ'}, (θ' p').size < (θ p).size → s.ModeledBy θ' → .unsolved p' ∈ s.context →
      s.context.Denotes θ' ty (θ' p') →
      Completes (fun limit left => next limit left v p' ty) s θ' fun _ _ _ => True)
    (hs : s.ModeledBy θ) (hp : .unsolved p ∈ s.context) (h : s.context.Denotes θ ty (θ p)) :
    Completes (fun limit left => own.instantiateStep (next limit left) v p ty) s θ
      fun _ _ _ => True := by
  refine Completes.read rfl ?_
  have hr := hs.valid.ordered.resolved_apply ty
  replace h := h.apply hs
  generalize s.context.apply ty = ty at h hr
  by_cases hsame : ty = .placeholder p
  · simp only [if_pos hsame]
    exact .accept hs trivial
  have habsent := Ty.not_mem_of_assign_eq h.assign_eq.symm hsame
  have hmentions : ¬ ty.mentions p = true := fun hp => habsent (Ty.mentions_iff.1 hp)
  simp only [if_neg hsame, if_neg hmentions]
  rcases instantiateMonotype_run p ty s with ⟨Γ, hrun, hsolves⟩ | hrun | ⟨-, hmissing⟩
  · have hevolves := hsolves.evolves hs.valid
    have hprenex := Ty.prenex_of_quantifierFree h.quantifierFree
    refine Completes.orElse_left (Completes.of_run hrun ⟨hevolves.of_nothing _, ⟨hevolves.valid,
      hsolves.simplySolved hprenex hs.solved, ?_⟩, fun _ _ => rfl⟩ trivial)
    exact hsolves.modeledBy hs.model h.assign_eq.symm
  · obtain ⟨τ, υ, rfl⟩ := arrow_of_rejected hs hp h hr hsame hrun
    have hapart : Apart s p (.arrow τ υ) := ⟨⟨hs.valid, hp, h.wellFormed⟩, hr, habsent⟩
    have heq : θ p = .arrow (τ.assign θ) (υ.assign θ) := h.assign_eq.symm
    have hsize : (θ p).size = (τ.assign θ).size + (υ.assign θ).size + 1 := congrArg Ty.size heq
    obtain ⟨hτ, hυ⟩ := Context.Denotes.parts (heq ▸ h)
    refine Completes.orElse_right (fun _ _ => hrun) (Completes.atomically ?_)
    refine (articulate_completes hs hp heq).bind ?_
    rintro _ _ ⟨p₁, p₂⟩ s₁ θ₁ ha hcarries₁ ⟨hp₁, hp₂⟩
    replace ha := articulated_of_accepted hs.valid ha
    have heq₁ : θ₁ p₁ = τ.assign θ := hp₁.assign_eq
    refine (ih (by rw [heq₁]; omega) hcarries₁.modeled ha.parameterOpen
      (heq₁ ▸ hτ.later hcarries₁)).bind fun limit left _ s₂ θ₂ h₁ hcarries₂ _ => ?_
    -- The second half is still unsolved, and the model has kept its type.
    have hresult := hapart.result (hn limit left) (hrenames limit left) ha h₁
    have heq₂ : θ₂ p₂ = υ.assign θ := (hp₂.later hcarries₂).assign_eq
    refine Completes.read rfl (ih (by rw [heq₂]; omega) hcarries₂.modeled hresult.unsolved ?_)
    exact heq₂ ▸ (hυ.later (hcarries₁.trans hcarries₂)).apply hcarries₂.modeled
  · exact absurd hp hmissing

end Instantiation

/-- A placeholder is solved against a type that a model makes equal to it. -/
theorem instantiate_completes {v : Variance} {p : TypeId} {ty : Ty} {s : State} {θ : Assignment}
    (hs : s.ModeledBy θ) (hp : .unsolved p ∈ s.context) (h : s.context.Denotes θ ty (θ p)) :
    Completes (fun limit left => own.instantiate limit left v p ty) s θ fun _ _ _ => True := by
  induction hsize : (θ p).size using Nat.strongRecOn generalizing v p ty s θ with
  | ind n ih =>
    subst hsize
    exact .below (.nested (instantiateStep_completes atomic_instantiate instantiate_renames
      (fun hlt hs hp h => ih _ hlt hs hp h rfl) (hs.withDepth _) hp h))

theorem Ty.form_of_assign_eq {θ : Assignment} {sub sup : Ty} (hfree : sub.quantifierFree = true)
    (heq : sub.assign θ = sup.assign θ) :
    (∃ τ υ τ' υ', sub = .arrow τ υ ∧ sup = .arrow τ' υ') ∨ sub.sameAtom sup = true ∨
      (∃ p, sub = .placeholder p) ∨ ∃ p, sup = .placeholder p := by
  cases sub with
  | placeholder p => exact .inr (.inr (.inl ⟨p, rfl⟩))
  | forAll a body => cases hfree
  | void =>
    cases sup with
    | void => exact .inr (.inl rfl)
    | placeholder q => exact .inr (.inr (.inr ⟨q, rfl⟩))
    | _ => cases heq
  | var a =>
    cases sup with
    | var b =>
      cases heq
      exact .inr (.inl (beq_self_eq_true a))
    | placeholder q => exact .inr (.inr (.inr ⟨q, rfl⟩))
    | _ => cases heq
  | arrow τ υ =>
    cases sup with
    | arrow τ' υ' => exact .inl ⟨τ, υ, τ', υ', rfl, rfl⟩
    | placeholder q => exact .inr (.inr (.inr ⟨q, rfl⟩))
    | _ => cases heq

section Subtyping

variable {next : (limit left : Nat) → Ty → Ty → Judgment Unit} {s : State} {θ : Assignment}
  {sub sup ρ : Ty} (hs : s.ModeledBy θ)
include hs

theorem instantiateIfOpen_completes {v : Variance} {p : TypeId} {other : Ty}
    (hp : s.context.Denotes θ (.placeholder p) ρ) (hr : s.context.Resolved (.placeholder p))
    (hother : s.context.Denotes θ other ρ) (hne : other ≠ .placeholder p) :
    Completes (fun limit left => instantiateIfOpen (own.instantiate limit left v) p other) s θ
      fun _ _ _ => True := by
  have hunsolved := hr.unsolved hp.wellFormed (List.mem_singleton_self p)
  have heq : θ p = ρ := hp.assign_eq
  have habsent := Ty.not_mem_of_assign_eq (heq.trans hother.assign_eq.symm) hne
  have hmentions : other.mentions p = false :=
    Bool.eq_false_iff.2 fun hp => habsent (Ty.mentions_iff.1 hp)
  have hopen : (s.context.isUnsolved p && !other.mentions p) = true := by
    simp [Context.isUnsolved, hunsolved, hmentions]
  refine Completes.read rfl ?_
  simp only [if_pos hopen]
  exact instantiate_completes hs hunsolved (heq ▸ hother)

theorem subtypeOtherwise_completes (hsub : s.context.Denotes θ sub ρ)
    (hsup : s.context.Denotes θ sup ρ) (hr : s.context.Resolved sub) (hr' : s.context.Resolved sup)
    (hform : sub.sameAtom sup = true ∨ (∃ p, sub = .placeholder p) ∨ ∃ p, sup = .placeholder p) :
    Completes (fun limit left => own.subtypeOtherwise (next limit left) (own.instantiate limit left)
      sub sup) s θ fun _ _ _ => True := by
  unfold Opening.subtypeOtherwise
  by_cases hatom : sub.sameAtom sup = true
  · simp only [if_pos hatom]
    exact .accept hs trivial
  simp only [if_neg hatom]
  refine Completes.orElse_right (fun _ _ => ?_) (Completes.orElse_right (fun _ _ => ?_) ?_)
  · cases sub with
    | forAll a body => cases hsub.quantifierFree
    | _ => rfl
  · cases sup with
    | forAll a body => cases hsup.quantifierFree
    | _ => rfl
  by_cases hp : ∃ p, sub = .placeholder p
  · obtain ⟨p, rfl⟩ := hp
    refine Completes.orElse_left (instantiateIfOpen_completes hs hsub hr hsup ?_)
    rintro rfl
    exact hatom (beq_self_eq_true p)
  · obtain ⟨q, rfl⟩ := (hform.resolve_left hatom).resolve_left hp
    refine Completes.orElse_right (fun _ _ => ?_)
      (instantiateIfOpen_completes hs hsup hr' hsub fun heq => hp ⟨q, heq⟩)
    cases sub with
    | placeholder p => exact absurd ⟨p, rfl⟩ hp
    | _ => rfl

theorem subtypeStep_completes
    (ih : ∀ {sub sup ρ' s θ}, ρ'.size < ρ.size → s.ModeledBy θ → s.context.Denotes θ sub ρ' →
      s.context.Denotes θ sup ρ' →
      Completes (fun limit left => next limit left sub sup) s θ fun _ _ _ => True)
    (hsub : s.context.Denotes θ sub ρ) (hsup : s.context.Denotes θ sup ρ) :
    Completes (fun limit left => own.subtypeStep (next limit left) (own.instantiate limit left)
      sub sup) s θ fun _ _ _ => True := by
  replace hsub := hsub.apply hs
  replace hsup := hsup.apply hs
  have ho := hs.valid.ordered
  rcases Ty.form_of_assign_eq hsub.quantifierFree (hsub.assign_eq.trans hsup.assign_eq.symm) with
    ⟨τ, υ, τ', υ', harrow, harrow'⟩ | hform
  · rw [harrow] at hsub
    rw [harrow'] at hsup
    obtain rfl : Ty.arrow (τ.assign θ) (υ.assign θ) = ρ := hsub.assign_eq
    have hsize : (Ty.arrow (τ.assign θ) (υ.assign θ)).size =
      (τ.assign θ).size + (υ.assign θ).size + 1 := rfl
    refine .congr (fun _ _ => subtypeStep_arrows harrow harrow') (.atomically ?_)
    refine (ih (by omega) hs hsup.parts.1 hsub.parts.1).bind fun _ _ _ s₁ θ₁ _ hcarries _ => ?_
    exact ih (by omega) hcarries.modeled (hsub.parts.2.later hcarries)
      (hsup.parts.2.later hcarries)
  · refine .congr (fun _ _ => subtypeStep_otherwise fun τ υ τ' υ' harrow harrow' => ?_)
      (subtypeOtherwise_completes hs hsub hsup (ho.resolved_apply _) (ho.resolved_apply _) hform)
    rw [harrow, harrow'] at hform
    simp [Ty.sameAtom] at hform

end Subtyping

/-- Types that a model makes equal are compared successfully. -/
theorem subtype_completes {sub sup ρ : Ty} {s : State} {θ : Assignment} (hs : s.ModeledBy θ)
    (hsub : s.context.Denotes θ sub ρ) (hsup : s.context.Denotes θ sup ρ) :
    Completes (fun limit left => own.subtype limit left sub sup) s θ fun _ _ _ => True := by
  induction hsize : ρ.size using Nat.strongRecOn generalizing sub sup ρ s θ with
  | ind n ih =>
    subst hsize
    exact .below (.nested (subtypeStep_completes (hs.withDepth _)
      (fun hlt hs hsub hsup => ih _ hlt hs hsub hsup rfl) hsub hsup))

end HigherRank
