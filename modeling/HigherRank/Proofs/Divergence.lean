import HigherRank.Proofs.Convergence

set_option autoImplicit false

/-!
# A comparison that comes back to itself

Write `¬τ` for `τ → void`. Let the seed be `∀a. a → ¬(void → (a → ¬a))` and the thunk `void → seed`. To
find out whether the seed is below `thunk → ¬thunk`, its variable is solved to the thunk, which has
a quantifier inside. Then the thunk has to be below `void → (thunk → ¬thunk)`, and so the seed below
`thunk → ¬thunk`. This is where the search began, and no number of levels is enough for it.
-/
namespace HigherRank

namespace Judgment

variable {α β : Type} {x y : Judgment α} {s : State} {error : TypeError}

/-- From the given state the judgment is aborted by the error. -/
def Aborts (error : TypeError) (x : Judgment α) (s : State) : Prop := (x s).1 = .aborted error

namespace Aborts

theorem run (h : Aborts error x s) : x s = (.aborted error, (x s).2) := by
  rw [← show (x s).1 = .aborted error from h]

theorem first {f : α → Judgment β} (h : Aborts error x s) : Aborts error (x >>= f) s := by
  unfold Aborts
  rw [bind_of_aborted h.run]

theorem second {f : α → Judgment β} {a : α} {s₁ : State} (hx : x s = (.accepted a, s₁))
    (h : Aborts error (f a) s₁) : Aborts error (x >>= f) s := by
  unfold Aborts
  rw [bind_of_accepted hx]
  exact h

theorem orElse (h : Aborts error x s) : Aborts error (x <|> y) s := by
  unfold Aborts
  rw [orElse_of_aborted h.run]

theorem atomically (h : Aborts error x s) : Aborts error (atomically x) s := by
  unfold Aborts
  rw [atomically_of_aborted h.run]

theorem nested (h : Aborts error x { s with depth := s.depth + 1 }) : Aborts error (nested x) s := h

theorem flexibly {a : TypeId} {ty : Ty} {f : Ty → Judgment α}
    (he : ∀ ty, Evolves .placeholders (f ty)) (hs : s.Valid)
    (h : ∀ label, Aborts error (f (ty.subst a (.placeholder ⟨s.supply.types.size⟩)))
      (s.scopeWithNew label)) : Aborts error (flexibly a ty f) s := by
  have hbody : Aborts error (introducing a ty f) s.openScope.2 := h _
  obtain ⟨Δ, -, -, -, hrun⟩ :=
    (evolves_introducing a ty he).anything.inChildScope_run hs hbody.run
  exact Aborts.atomically (by rw [Aborts, hrun])

end Aborts
end Judgment

open Judgment
open Opening (own)

namespace SelfFeeding

def negation (τ : Ty) : Ty := .arrow τ .void

def offer (τ : Ty) : Ty := .arrow .void (.arrow τ (negation τ))

/-- The instance of the seed at one type. -/
def demand (τ : Ty) : Ty := .arrow τ (negation (offer τ))

def seed (a : TypeId) : Ty := .forAll a (demand (.var a))

def thunk (a : TypeId) : Ty := .arrow .void (seed a)

theorem demand_subst (a : TypeId) (κ : Ty) : (demand (.var a)).subst a κ = demand κ := by
  simp [demand, offer, negation, Ty.subst, Ty.replace]

theorem apply_demand (Γ : Context) (κ : Ty) : Γ.apply (demand κ) = demand (Γ.apply κ) := rfl

theorem wellFormed_thunk (Γ : Context) (a : TypeId) : Γ.wellFormed (thunk a) = true := by
  simp [thunk, seed, demand, offer, negation, Context.wellFormed_eq_admits,
    Declared.admits]

section Levels

variable {limit : Nat} {s : State}

/-- The levels run out, or the judgment is accepted in a state of the given kind. -/
def AbortsOr (limit : Nat) (x : Judgment Unit) (s : State) (P : State → Prop) : Prop :=
  Aborts (.depthLimitExceeded limit) x s ∨ ∃ s₁, x s = (.accepted (), s₁) ∧ P s₁

theorem AbortsOr.nested {x : Judgment Unit} {P : Context → Prop}
    (h : AbortsOr limit x { s with depth := s.depth + 1 } fun s₁ => P s₁.context) :
    AbortsOr limit (nested x) s fun s₁ => P s₁.context := by
  obtain h | ⟨s₁, hrun, hP⟩ := h
  · exact .inl h.nested
  · exact .inr ⟨{ s₁ with depth := s₁.depth - 1 }, by simp only [Judgment.nested, hrun], hP⟩

theorem arrows_abort {sub sup τ υ τ' υ' : Ty} (left : Nat) (hs : s.Valid)
    (hsub : s.context.apply sub = .arrow τ υ) (hsup : s.context.apply sup = .arrow τ' υ')
    (h : ∀ left' < left, ∀ s₀ : State, s₀.Valid → s₀.context = s.context →
      AbortsOr limit (own.subtype limit left' τ' τ) s₀ fun s₁ => s₁.Valid →
        Aborts (.depthLimitExceeded limit) (own.subtype limit left' υ υ') s₁) :
    Aborts (.depthLimitExceeded limit) (own.subtype limit left sub sup) s := by
  cases left with
  | zero => rfl
  | succ left =>
    have hs₀ := hs.withDepth (s.depth + 1)
    refine Aborts.nested ?_
    rw [Aborts, subtypeStep_arrows (s := { s with depth := s.depth + 1 }) hsub hsup]
    refine Aborts.atomically ?_
    obtain h | ⟨s₁, hrun, h⟩ := h left (Nat.lt_succ_self left) _ hs₀ rfl
    · exact h.first
    · exact .second hrun (h ((atomic_subtype limit left τ' τ).evolves.result hs₀ hrun).valid)

theorem instantiate_thunk (left : Nat) {p b : TypeId} (hp : .unsolved p ∈ s.context) :
    AbortsOr limit (own.instantiate limit left .contravariant p (thunk b)) s
      fun s₁ => .solved p (thunk b) ∈ s₁.context := by
  cases left with
  | zero => exact .inl rfl
  | succ left =>
    refine AbortsOr.nested (P := fun Γ => .solved p (thunk b) ∈ Γ) (.inr ?_)
    obtain ⟨before, after, hΓ, hn⟩ := List.eq_append_cons_of_mem hp
    have hslot : s.context.slot p = .ok (before, after) := Context.slot_eq_ok.2 ⟨hΓ, hn⟩
    refine ⟨{ s with
      depth := s.depth + 1, context := before ++ .solved p (thunk b) :: after }, ?_, by simp⟩
    have hne : thunk b ≠ .placeholder p := Ty.noConfusion
    have hsolve := (instantiateMonotype_of_wellFormed (s := { s with depth := s.depth + 1 }) hne rfl
      hslot (wellFormed_thunk before b)).trans (solve_of_slot (thunk b) hslot)
    exact orElse_of_accepted hsolve

theorem solve_thunk (left : Nat) {p b : TypeId} (hs : s.Valid) (hp : .unsolved p ∈ s.context) :
    AbortsOr limit (own.subtype limit left (thunk b) (.placeholder p)) s
      fun s₁ => .solved p (thunk b) ∈ s₁.context := by
  cases left with
  | zero => exact .inl rfl
  | succ left =>
    have hsup : s.context.apply (.placeholder p) = .placeholder p := hs.ordered.apply_of_unsolved hp
    refine AbortsOr.nested (P := fun Γ => .solved p (thunk b) ∈ Γ) ?_
    have hopen : (s.context.isUnsolved p && !(thunk b).mentions p) = true := by
      simpa [Context.isUnsolved, thunk, seed, demand, offer, negation, Ty.mentions] using hp
    have hstep : own.subtypeStep (own.subtype limit left) (own.instantiate limit left) (thunk b)
        (.placeholder p) { s with depth := s.depth + 1 } =
          own.instantiate limit left .contravariant p (thunk b)
            { s with depth := s.depth + 1 } := by
      rw [subtypeStep_otherwise (by simp [hsup]), hsup]
      change (if s.context.isUnsolved p && !(thunk b).mentions p then _ else _ : Judgment Unit) _ = _
      rw [if_pos hopen]
      rfl
    unfold AbortsOr Aborts
    rw [hstep]
    exact instantiate_thunk left hp

theorem void_void (left : Nat) {P : State → Prop} (h : P s) :
    AbortsOr limit (own.subtype limit left .void .void) s P := by
  cases left with
  | zero => exact .inl rfl
  | succ left => exact .inr ⟨s, rfl, h⟩

theorem seed_opens (left : Nat) {a : TypeId} {τ υ : Ty} (hs : s.Valid)
    (hclosed : s.context.apply (.arrow τ υ) = .arrow τ υ)
    (h : ∀ left' < left, ∀ s₀ : State, ∀ p, s₀.Valid → .unsolved p ∈ s₀.context →
      Aborts (.depthLimitExceeded limit)
        (own.subtype limit left' (demand (.placeholder p)) (.arrow τ υ)) s₀) :
    Aborts (.depthLimitExceeded limit) (own.subtype limit left (seed a) (.arrow τ υ)) s := by
  cases left with
  | zero => rfl
  | succ left =>
    have hs₀ := hs.withDepth (s.depth + 1)
    refine Aborts.nested ?_
    rw [Aborts, subtypeStep_otherwise (s := { s with depth := s.depth + 1 })
      fun _ _ _ _ hsub => Ty.noConfusion hsub, hclosed]
    have hopened : Aborts (.depthLimitExceeded limit) (flexibly a (demand (.var a)) fun body =>
        own.subtype limit left body (.arrow τ υ)) { s with depth := s.depth + 1 } := by
      refine Aborts.flexibly (fun ty => (atomic_subtype limit left ty _).evolves.of_nothing) hs₀
        fun label => ?_
      rw [demand_subst]
      exact h left (Nat.lt_succ_self left) _ _ (hs₀.scopeWithNew label)
        (Context.mem_childScope.2 (by simp))
    exact hopened.orElse

/-- The comparison of the seed with two thunks is given up whatever the number of levels. -/
theorem seed_aborts (left : Nat) (hs : s.Valid) (a b c : TypeId) :
    Aborts (.depthLimitExceeded limit)
      (own.subtype limit left (seed a) (.arrow (thunk b) (negation (thunk c)))) s := by
  -- Four levels further down stands the same comparison, with the seed of the second thunk.
  induction left using Nat.strongRecOn generalizing a b c s with
  | ind left ih =>
    refine seed_opens left hs rfl fun left₁ h₁ s₁ p hs₁ hp => ?_
    have hdemand : s₁.context.apply (demand (.placeholder p)) = demand (.placeholder p) := by
      rw [apply_demand, hs₁.ordered.apply_of_unsolved hp]
    refine arrows_abort left₁ hs₁ hdemand rfl fun left₂ h₂ s₂ hs₂ hΓ => ?_
    refine (solve_thunk left₂ hs₂ (hΓ ▸ hp)).imp id fun ⟨s₃, hrun, hsolved⟩ =>
      ⟨s₃, hrun, fun hs₃ => ?_⟩
    have hoffer : s₃.context.apply (negation (offer (.placeholder p))) = negation (offer (thunk b)) :=
      congrArg (fun κ => negation (offer κ)) (hs₃.ordered.apply_of_solved hsolved)
    refine arrows_abort left₂ hs₃ hoffer rfl fun left₃ h₃ s₄ hs₄ _ => .inl ?_
    refine arrows_abort left₃ hs₄ rfl rfl fun left₄ h₄ s₅ hs₅ _ => ?_
    exact void_void left₄ fun hs₆ => ih left₄ (by omega) hs₆ c b b

end Levels

end SelfFeeding

end HigherRank
