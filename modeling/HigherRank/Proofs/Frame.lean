import HigherRank.Proofs.Premises

set_option autoImplicit false

/-!
# What instantiation leaves alone

An accepted instantiation of `p` gives a shape to `p` only. Any other placeholder that was unsolved
stays so, or it occurs in the type and now stands for another placeholder, which is `p` or was minted
meanwhile. So the second half of an arrow is still to be solved after the first half, and a type that
does not mention `p` keeps its shape.
-/
namespace HigherRank

open Judgment
open Opening (own)

variable {ε : Type}

/-- Each unsolved placeholder but `p` is left as it is, or it occurs in the type and becomes `p` or
a placeholder that is not among the first `n`. -/
def Context.Renames (n : Nat) (p : TypeId) (ty : Ty) (Γ Δ : Context) : Prop :=
  ∀ q, .unsolved q ∈ Γ → q ≠ p → ∃ q', Δ.apply (.placeholder q) = .placeholder q' ∧
    (q' = q ∨ q ∈ ty.placeholders ∧ (q' = p ∨ n ≤ q'.index))

theorem Solves.renames {n : Nat} {p : TypeId} {ty : Ty} {Γ Δ : Context} (h : Solves p ty Γ Δ)
    (hΔ : Δ.Ordered) (hp : .unsolved p ∈ Γ) : Context.Renames n p ty Γ Δ := by
  have hkeep : ∀ {before after : Context} {q r : TypeId} {τ : Ty}, q ≠ r →
      .unsolved q ∈ before ++ .unsolved r :: after →
      .unsolved q ∈ before ++ .solved r τ :: after := fun hne hq => by
    simpa [hne] using hq
  intro q hq hne
  cases h with
  | same => exact ⟨q, hΔ.apply_of_unsolved hq, .inl rfl⟩
  | direct => exact ⟨q, hΔ.apply_of_unsolved (hkeep hne hq), .inl rfl⟩
  | @reversed r before after hty hbefore =>
    by_cases hqr : q = r
    · subst hqr
      have hpq : p ≠ q := fun heq => hΔ.not_mem_before rfl (heq ▸ hbefore)
      refine ⟨p, ?_, .inr ⟨by simp [hty, Ty.placeholders], .inl rfl⟩⟩
      rw [hΔ.apply_of_solved (p := q) (τ := .placeholder p) (by simp)]
      exact hΔ.apply_of_unsolved (hkeep hpq hp)
    · exact ⟨q, hΔ.apply_of_unsolved (hkeep hqr hq), .inl rfl⟩

/-- Accepted instantiations rename other placeholders at most. -/
def InstantiationRenames (next : Variance → TypeId → Ty → Search ε Unit) : Prop :=
  ∀ v p ty s s', Solvable s p ty → next v p ty s = (.accepted (), s') →
    Context.Renames s.supply.types.size p (s.context.apply ty) s.context s'.context

theorem instantiateStep_occurs [SearchError ε] {next : Variance → TypeId → Ty → Search ε Unit}
    {v : Variance} {p : TypeId} {ty : Ty} {s s' : State}
    (h : own.instantiateStep next v p ty s = (.accepted (), s')) :
    (s.context.apply ty = .placeholder p ∧ s' = s) ∨ p ∉ (s.context.apply ty).placeholders := by
  obtain ⟨ty', _, hr, h⟩ := bind_accepted h
  cases hr
  by_cases hsame : s.context.apply ty = .placeholder p
  · rw [if_pos hsame] at h
    cases h
    exact .inl ⟨hsame, rfl⟩
  rw [if_neg hsame] at h
  split at h
  · cases h
  · rename_i hmentions
    exact .inr fun hp => hmentions (Ty.mentions_iff.2 hp)

section Halves

variable {next : Variance → TypeId → Ty → Search ε Unit} {v : Variance} {p p₁ p₂ : TypeId}
  {τ υ : Ty} {s s₁ s₂ : State} (hn : ∀ v p ty, Atomic .nothing (next v p ty))
  (ih : InstantiationRenames next) (h : Apart s p (.arrow τ υ))
  (ha : Articulated s s₁ p p₁ p₂) (h₁ : next v p₁ τ s₁ = (.accepted (), s₂))
include hn ih h ha h₁

/-- The other placeholders after the first half: each was left alone, or it occurs in the parameter
and has become one that is new. None has become the second half. -/
theorem halves_renamed {q : TypeId} (hq : .unsolved q ∈ s.context) (hne : q ≠ p) :
    ∃ q', s₂.context.apply (.placeholder q) = .placeholder q' ∧ .unsolved q' ∈ s₂.context ∧
      q' ≠ p₂ ∧ (q' = q ∨ q ∈ τ.placeholders ∧ s.supply.types.size ≤ q'.index) := by
  have hs := h.valid
  have he := (hn _ _ _).evolves.result ha.evolves.valid h₁
  have hq₁ := ha.others q hq hne
  have hne₁ : q ≠ p₁ := hs.ne_of_minted hq (Nat.le_of_eq ha.parameter.symm)
  have hne₂ : q ≠ p₂ := hs.ne_of_minted hq (by rw [ha.result]; omega)
  have hparameter := h.parameter ha
  obtain ⟨q', heq, hcases⟩ := ih v p₁ τ s₁ s₂ hparameter.toSolvable h₁ q hq₁ hne₁
  rw [hparameter.resolved.apply_eq, ha.minted] at hcases
  have hopen : .unsolved q' ∈ s₂.context := by
    have hw : s₂.context.wellFormed (.placeholder q) = true := Context.wellFormed_placeholder.2
      (he.context.placeholders (Context.placeholder_mem_of_unsolved hq₁))
    exact he.valid.ordered.unsolved_of_apply hw (by simp [heq, Ty.placeholders])
  refine ⟨q', heq, hopen, ?_, ?_⟩
  · rintro rfl
    rcases hcases with h | ⟨-, h | h⟩
    · exact hne₂ h.symm
    · have := congrArg TypeId.index h
      rw [ha.parameter, ha.result] at this
      omega
    · rw [ha.result] at h
      omega
  · rcases hcases with h | ⟨hmem, rfl | h⟩
    · exact .inl h
    · exact .inr ⟨hmem, Nat.le_of_eq ha.parameter.symm⟩
    · exact .inr ⟨hmem, by omega⟩

theorem result_renamed {q : TypeId} (hq : q ∈ υ.placeholders) :
    ∃ q', s₂.context.apply (.placeholder q) = .placeholder q' ∧ q' ≠ p₂ := by
  obtain ⟨hopen, hne⟩ := h.unsolved_of_mem (q := q) (by simp [Ty.placeholders, hq])
  obtain ⟨q', heq, -, hne', -⟩ := halves_renamed hn ih h ha h₁ hopen hne
  exact ⟨q', heq, hne'⟩

theorem Apart.result : Apart s₂ p₂ (s₂.context.apply υ) := by
  have he := (hn _ _ _).evolves.result ha.evolves.valid h₁
  have hw : s₂.context.wellFormed υ = true :=
    ((ha.evolves.trans he).of_nothing .placeholders).context.wellFormed
      (Context.wellFormed_arrow.1 h.wellFormed).2
  refine Solvable.apart ⟨he.valid, ?_, hw⟩ fun hp => ?_
  · have hne : p₂ ≠ p₁ := by
      rintro rfl
      have := ha.parameter.symm.trans ha.result
      omega
    have hmem₂ : p₂ ∈ s₂.context.placeholders :=
      he.context.placeholders (Context.placeholder_mem_of_unsolved ha.resultOpen)
    refine he.valid.ordered.unsolved_of_apply_self hmem₂ ?_
    have hparameter := h.parameter ha
    obtain ⟨q', heq, hcases⟩ :=
      ih v p₁ τ s₁ s₂ hparameter.toSolvable h₁ p₂ ha.resultOpen hne
    rw [hparameter.resolved.apply_eq] at hcases
    rcases hcases with rfl | ⟨hmem, -⟩
    · exact heq
    · -- The second half is new, so the parameter does not mention it.
      have hopen := (h.unsolved_of_mem (q := p₂) (by simp [Ty.placeholders, hmem])).1
      exact absurd rfl (h.valid.ne_of_minted hopen (by rw [ha.result]; omega))
  · obtain ⟨r, hr, hp⟩ := Ty.placeholders_replace.1 hp
    obtain ⟨r', heq, hne⟩ := result_renamed hn ih h ha h₁ hr
    change p₂ ∈ (s₂.context.apply (.placeholder r)).placeholders at hp
    rw [heq] at hp
    exact hne (List.mem_singleton.1 hp).symm

theorem mem_of_mem_result {q : TypeId} (hq : .unsolved q ∈ s.context)
    (hmem : q ∈ (s₂.context.apply υ).placeholders) : q ∈ υ.placeholders := by
  obtain ⟨r, hr, hmem⟩ := Ty.placeholders_replace.1 hmem
  obtain ⟨hopen, hne⟩ := h.unsolved_of_mem (q := r) (by simp [Ty.placeholders, hr])
  obtain ⟨r', heq, -, -, hcases⟩ := halves_renamed hn ih h ha h₁ hopen hne
  change q ∈ (s₂.context.apply (.placeholder r)).placeholders at hmem
  rw [heq] at hmem
  cases List.mem_singleton.1 hmem
  rcases hcases with rfl | ⟨-, hindex⟩
  · exact hr
  · exact absurd rfl (h.valid.ne_of_minted hq hindex)

theorem arrow_renames {v' : Variance} {s' : State}
    (h₂ : next v' p₂ (s₂.context.apply υ) s₂ = (.accepted (), s')) :
    Context.Renames s.supply.types.size p (.arrow τ υ) s.context s'.context := by
  have he₁ := (hn _ _ _).evolves.result ha.evolves.valid h₁
  have he₂ := (hn _ _ _).evolves.result he₁.valid h₂
  have hresult := h.result hn ih ha h₁
  intro q hq hne
  obtain ⟨q₁, heq₁, hopen₁, hne₁, hcases₁⟩ := halves_renamed hn ih h ha h₁ hq hne
  obtain ⟨q₂, heq₂, hcases₂⟩ := ih _ _ _ _ _ hresult.toSolvable h₂ q₁ hopen₁ hne₁
  rw [hresult.resolved.apply_eq] at hcases₂
  have hsize : s.supply.types.size ≤ s₂.supply.types.size :=
    Nat.le_trans ha.evolves.types he₁.types
  have hnew : q₂ = q₁ ∨ s.supply.types.size ≤ q₂.index := by
    rcases hcases₂ with h | ⟨-, rfl | h⟩
    · exact .inl h
    · exact .inr (by rw [ha.result]; omega)
    · exact .inr (Nat.le_trans hsize h)
  refine ⟨q₂, ?_, ?_⟩
  · rw [← he₂.context.apply_apply he₁.valid.ordered he₂.valid.ordered, heq₁, heq₂]
  rcases hcases₁ with rfl | ⟨hmem, hindex⟩
  · rcases hcases₂ with rfl | ⟨hmem, -⟩
    · exact .inl rfl
    have hmem := mem_of_mem_result hn ih h ha h₁ hq hmem
    exact hnew.imp_right fun hindex => ⟨by simp [Ty.placeholders, hmem], .inr hindex⟩
  · refine .inr ⟨by simp [Ty.placeholders, hmem], .inr ?_⟩
    rcases hnew with rfl | h
    · exact hindex
    · exact h

end Halves

section Instantiation

variable [SearchError ε] {next : Variance → TypeId → Ty → Search ε Unit}
  (hn : ∀ v p ty, Atomic .nothing (next v p ty)) (ih : InstantiationRenames next)
include hn ih

theorem instantiateRule_renames {v : Variance} {p : TypeId} {ty : Ty} {s s' : State}
    (h : Apart s p ty) (he : s.Evolves .nothing s') (hrule : InstantiateRule next v p s s' ty) :
    Context.Renames s.supply.types.size p ty s.context s'.context := by
  have hs := h.valid
  have hs' := he.valid
  have hw : ∀ {q}, .unsolved q ∈ s.context → s'.context.wellFormed (.placeholder q) = true :=
    fun hq => Context.wellFormed_placeholder.2
      (he.context.placeholders (Context.placeholder_mem_of_unsolved hq))
  cases hrule with
  | solves hsolves => exact hsolves.renames hs'.ordered h.unsolved
  | arrow ha h₁ h₂ => exact arrow_renames hn ih h (articulated_of_accepted hs ha) h₁ h₂
  | @rigid a body hv hrun =>
    obtain ⟨s₁, hrun, hend⟩ := rigidly_accepted hrun
    have hbody := h.body_rigid
    have he₁ := (hn _ _ _).evolves.result hbody.valid hrun
    intro q hq hne
    have hren := ih _ _ _ _ _ hbody.toSolvable hrun q (Context.mem_childScope.2 (.inl hq)) hne
    rwa [hbody.resolved.apply_eq, hend.apply_eq he₁.valid (hw hq)] at hren
  | @flexible a body hv hrun =>
    obtain ⟨label, s₁, hrun, hend⟩ := flexibly_accepted hrun
    have hbody := h.body_flexible label
    have he₁ := (hn _ _ _).evolves.result hbody.valid hrun
    intro q hq hne
    obtain ⟨q', heq, hcases⟩ :=
      ih _ _ _ _ _ hbody.toSolvable hrun q (Context.mem_childScope.2 (.inl hq)) hne
    rw [hbody.resolved.apply_eq] at hcases
    rw [hend.apply_eq he₁.valid (hw hq)] at heq
    refine ⟨q', heq, hcases.imp_right fun h => ⟨?_, h.2.imp_right fun hindex => ?_⟩⟩
    · refine (Ty.placeholders_subst h.1).resolve_right fun hmem => ?_
      exact hs.ne_of_minted hq (Nat.le_refl _) (List.mem_singleton.1 hmem)
    · have hsize : (s.scopeWithNew label).supply.types.size = s.supply.types.size + 1 :=
        Array.size_push ..
      omega

theorem instantiateStep_renames : InstantiationRenames (own.instantiateStep next) := by
  intro v p ty s s' hsolvable h
  have he := (atomic_instantiateStep hn v p ty).evolves.result hsolvable.valid h
  rcases instantiateStep_occurs h with ⟨-, rfl⟩ | habsent
  · exact fun q hq _ => ⟨q, hsolvable.ordered.apply_of_unsolved hq, .inl rfl⟩
  · exact instantiateRule_renames hn ih (hsolvable.apart habsent) he (instantiateStep_accepted h)

end Instantiation

theorem instantiate_renames (limit left : Nat) :
    InstantiationRenames (own.instantiate limit left) := by
  induction left with
  | zero =>
    intro v p ty s s' _ h
    cases h
  | succ left ih =>
    intro v p ty s s' hsolvable h
    obtain ⟨s₁, hrun, rfl⟩ := nested_accepted h
    exact instantiateStep_renames (atomic_instantiate limit left) ih v p ty
      { s with depth := s.depth + 1 } s₁ (hsolvable.withDepth _) hrun

end HigherRank
