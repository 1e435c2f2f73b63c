import HigherRank.Instantiation

set_option autoImplicit false

/-!
# Runs of judgments

How the run of a combined judgment is made up from the runs of its parts: forwards, by the outcome of
the first part, and backwards from acceptance.
-/
namespace HigherRank.Judgment

variable {ε α β : Type} {x y : Search ε α} {f : α → Search ε β} {s s' : State}

theorem bind_of_accepted {a : α} (h : x s = (.accepted a, s')) : (x >>= f) s = f a s' := by
  change andThen x f s = _
  simp only [andThen, h]

theorem bind_of_rejected (h : x s = (.rejected, s')) : (x >>= f) s = (.rejected, s') := by
  change andThen x f s = _
  simp only [andThen, h]

theorem bind_of_aborted {error : ε} (h : x s = (.aborted error, s')) :
    (x >>= f) s = (.aborted error, s') := by
  change andThen x f s = _
  simp only [andThen, h]

theorem orElse_of_accepted {a : α} (h : x s = (.accepted a, s')) :
    (x <|> y) s = (.accepted a, s') := by
  change orElse x (fun _ => y) s = _
  simp only [orElse, h]

theorem orElse_of_rejected (h : x s = (.rejected, s')) : (x <|> y) s = y s' := by
  change orElse x (fun _ => y) s = _
  simp only [orElse, h]

theorem orElse_of_aborted {error : ε} (h : x s = (.aborted error, s')) :
    (x <|> y) s = (.aborted error, s') := by
  change orElse x (fun _ => y) s = _
  simp only [orElse, h]

theorem atomically_of_accepted {a : α} (h : x s = (.accepted a, s')) :
    atomically x s = (.accepted a, s') := by
  simp only [atomically, h]

theorem atomically_of_rejected (h : x s = (.rejected, s')) :
    atomically x s = (.rejected, { s' with context := s.context }) := by
  simp only [atomically, h]

theorem atomically_of_aborted {error : ε} (h : x s = (.aborted error, s')) :
    atomically x s = (.aborted error, { s' with context := s.context }) := by
  simp only [atomically, h]

theorem inChildScope_eq [SearchError ε] (x : Search ε α) (s : State) :
    inChildScope x s =
      (x s.openScope.2).2.closeScope ⟨s.supply.markers⟩ (x s.openScope.2).1 :=
  rfl

theorem inChildScope_of_split [SearchError ε] {o : Outcome α ε} {Δ rest : Context}
    (h : x s.openScope.2 = (o, s'))
    (hsplit : s'.context.splitAt? (.marker ⟨s.supply.markers⟩) = some (Δ, rest)) :
    inChildScope x s = (o, { s' with context := Δ }) := by
  simp only [inChildScope_eq, h, State.closeScope, hsplit]

theorem bind_accepted {b : β} (h : (x >>= f) s = (.accepted b, s')) :
    ∃ a s₁, x s = (.accepted a, s₁) ∧ f a s₁ = (.accepted b, s') := by
  rcases hr : x s with ⟨o, s₁⟩
  cases o with
  | accepted a =>
    rw [bind_of_accepted hr] at h
    exact ⟨a, s₁, rfl, h⟩
  | rejected =>
    rw [bind_of_rejected hr] at h
    cases h
  | aborted error =>
    rw [bind_of_aborted hr] at h
    cases h

theorem orElse_accepted {a : α} (h : (x <|> y) s = (.accepted a, s')) :
    x s = (.accepted a, s') ∨ ∃ s₁, x s = (.rejected, s₁) ∧ y s₁ = (.accepted a, s') := by
  rcases hr : x s with ⟨o, s₁⟩
  cases o with
  | accepted b =>
    rw [orElse_of_accepted hr] at h
    exact .inl h
  | rejected =>
    rw [orElse_of_rejected hr] at h
    exact .inr ⟨s₁, rfl, h⟩
  | aborted error =>
    rw [orElse_of_aborted hr] at h
    cases h

theorem orElse_rejected (h : (x <|> y) s = (.rejected, s')) :
    ∃ s₁, x s = (.rejected, s₁) ∧ y s₁ = (.rejected, s') := by
  rcases hr : x s with ⟨o, s₁⟩
  cases o with
  | accepted a =>
    rw [orElse_of_accepted hr] at h
    cases h
  | rejected =>
    rw [orElse_of_rejected hr] at h
    exact ⟨s₁, rfl, h⟩
  | aborted error =>
    rw [orElse_of_aborted hr] at h
    cases h

theorem atomically_accepted {a : α} (h : atomically x s = (.accepted a, s')) :
    x s = (.accepted a, s') := by
  rcases hr : x s with ⟨o, s₁⟩
  cases o with
  | accepted b => rwa [atomically_of_accepted hr] at h
  | rejected =>
    rw [atomically_of_rejected hr] at h
    cases h
  | aborted error =>
    rw [atomically_of_aborted hr] at h
    cases h

theorem nested_accepted {a : α} (h : nested x s = (.accepted a, s')) :
    ∃ s₁, x { s with depth := s.depth + 1 } = (.accepted a, s₁) ∧
      s' = { s₁ with depth := s₁.depth - 1 } := by
  rcases hr : x { s with depth := s.depth + 1 } with ⟨o, s₁⟩
  simp only [nested, hr] at h
  cases h
  exact ⟨s₁, rfl, rfl⟩

theorem inChildScope_accepted [SearchError ε] {a : α} (h : inChildScope x s = (.accepted a, s')) :
    ∃ s₁ rest, x s.openScope.2 = (.accepted a, s₁) ∧
      s₁.context.splitAt? (.marker ⟨s.supply.markers⟩) = some (s'.context, rest) ∧
      s' = { s₁ with context := s'.context } := by
  rcases hr : x s.openScope.2 with ⟨o, s₁⟩
  rw [inChildScope_eq, hr, State.closeScope] at h
  split at h
  · rename_i before rest hsplit
    cases h
    exact ⟨s₁, rest, rfl, hsplit, rfl⟩
  · cases h

section EqualRuns

variable {x' y' : Search ε α} {f' : α → Search ε β}

theorem bind_congr_run (hx : x s = x' s)
    (hf : ∀ a s₁, x' s = (.accepted a, s₁) → f a s₁ = f' a s₁) :
    (x >>= f) s = (x' >>= f') s := by
  rcases hr : x' s with ⟨a | _ | error, s₁⟩ <;> rw [hr] at hx
  · rw [bind_of_accepted hx, bind_of_accepted hr]
    exact hf a s₁ hr
  · rw [bind_of_rejected hx, bind_of_rejected hr]
  · rw [bind_of_aborted hx, bind_of_aborted hr]

theorem orElse_congr_run (hx : x s = x' s) (hy : ∀ s₁, x' s = (.rejected, s₁) → y s₁ = y' s₁) :
    (x <|> y) s = (x' <|> y') s := by
  rcases hr : x' s with ⟨a | _ | error, s₁⟩ <;> rw [hr] at hx
  · rw [orElse_of_accepted hx, orElse_of_accepted hr]
  · rw [orElse_of_rejected hx, orElse_of_rejected hr]
    exact hy s₁ hr
  · rw [orElse_of_aborted hx, orElse_of_aborted hr]

theorem atomically_congr_run (hx : x s = x' s) : atomically x s = atomically x' s := by
  simp only [atomically, hx]

theorem nested_congr_run
    (hx : x { s with depth := s.depth + 1 } = x' { s with depth := s.depth + 1 }) :
    nested x s = nested x' s := by
  simp only [nested, hx]

theorem inChildScope_congr_run [SearchError ε] (hx : x s.openScope.2 = x' s.openScope.2) :
    inChildScope x s = inChildScope x' s := by
  rw [inChildScope_eq, hx, inChildScope_eq]

end EqualRuns

section Slots

variable [SearchError ε] {p : TypeId} {before after : Context} {error : TypeError}

theorem solve_of_slot (τ : Ty) (h : s.context.slot p = .ok (before, after)) :
    (solve p τ : Search ε Unit) s =
      (.accepted (), { s with context := before ++ .solved p τ :: after }) := by
  simp only [solve, edit, Context.solve, h, Except.map]

def mintedArrow (p : TypeId) (supply : Supply) : Supply :=
  ((supply.mintType (supply.typeLabel p ++ "-param")).2.mintType
    (supply.typeLabel p ++ "-result")).2

theorem size_mintedArrow (p : TypeId) (supply : Supply) :
    (mintedArrow p supply).types.size = supply.types.size + 2 := by
  simp [mintedArrow, Supply.mintType]

theorem articulate_of_error (h : s.context.slot p = .error error) :
    (articulate p : Search ε _) s =
      (.aborted (report error), { s with supply := mintedArrow p s.supply }) := by
  simp only [articulate, Supply.mintType, Context.articulate, h, Except.map]
  rfl

theorem articulate_of_slot (h : s.context.slot p = .ok (before, after)) :
    (articulate p : Search ε _) s =
      (.accepted (⟨s.supply.types.size⟩, ⟨s.supply.types.size + 1⟩), { s with
        supply := mintedArrow p s.supply
        context := before ++ .unsolved ⟨s.supply.types.size⟩ ::
          .unsolved ⟨s.supply.types.size + 1⟩ ::
          .solved p (.arrow (.placeholder ⟨s.supply.types.size⟩)
            (.placeholder ⟨s.supply.types.size + 1⟩)) :: after }) := by
  simp only [articulate, Supply.mintType, Context.articulate, h, Except.map, Array.size_push]
  rfl

variable {ty : Ty} (hne : ty ≠ .placeholder p) (hmono : ty.isMonotype = true)
include hne hmono

theorem instantiateMonotype_of_error (h : s.context.slot p = .error error) :
    (instantiateMonotype p ty : Search ε Unit) s = (.aborted (report error), s) := by
  simp [instantiateMonotype, hne, hmono, Context.before, h, Except.map]

theorem instantiateMonotype_of_wellFormed (h : s.context.slot p = .ok (before, after))
    (hw : before.wellFormed ty = true) :
    (instantiateMonotype p ty : Search ε Unit) s = solve p ty s := by
  simp [instantiateMonotype, hne, hmono, Context.before, h, Except.map, hw]

theorem instantiateMonotype_of_later {q : TypeId} (h : s.context.slot p = .ok (before, after))
    (hw : before.wellFormed ty = false) (hq : ty = .placeholder q) :
    (instantiateMonotype p ty : Search ε Unit) s =
      if s.context.isUnsolved q then solve q (.placeholder p) s else (.rejected, s) := by
  subst hq
  simp [instantiateMonotype, hne, hmono, Context.before, h, Except.map, hw]

theorem instantiateMonotype_of_stuck (h : s.context.slot p = .ok (before, after))
    (hw : before.wellFormed ty = false) (hty : ∀ q, ty ≠ .placeholder q) :
    (instantiateMonotype p ty : Search ε Unit) s = (.rejected, s) := by
  cases ty <;>
    simp_all [instantiateMonotype, Context.before, Except.map]

end Slots

end HigherRank.Judgment

namespace HigherRank

variable {ε α : Type} [SearchError ε]

/-- Why a search that is watched is broken off: it came to what it is watched for, or it failed by an
error of the checker. -/
inductive Halt where
  | stopped
  | failed (error : TypeError)
deriving DecidableEq

instance : SearchError Halt where
  report := .failed

def Judgment.stop : Search Halt α := fun s => (.aborted .stopped, s)

def Outcome.widen : Outcome α → Outcome α ε
  | .accepted a => .accepted a
  | .rejected => .rejected
  | .aborted error => .aborted (report error)

theorem Outcome.widen_ne_stopped (o : Outcome α) :
    (o.widen : Outcome α Halt) ≠ .aborted .stopped := by
  cases o <;> simp [widen, report]

namespace Judgment

/-- The judgment as a search that could have more errors. -/
def widen (x : Judgment α) : Search ε α := fun s => ((x s).1.widen, (x s).2)

theorem widen_lookup (x : BindingId) : widen (lookup x) = (lookup x : Search ε Ty) := by
  funext s
  simp only [widen, lookup]
  split <;> rfl

theorem widen_solve (p : TypeId) (τ : Ty) : widen (solve p τ) = (solve p τ : Search ε Unit) := by
  funext s
  simp only [widen, solve, edit]
  split <;> rfl

theorem widen_articulate (p : TypeId) :
    widen (articulate p) = (articulate p : Search ε (TypeId × TypeId)) := by
  funext s
  simp only [widen, articulate]
  split <;> rfl

theorem widen_instantiateMonotype (p : TypeId) (ty : Ty) :
    widen (instantiateMonotype p ty) = (instantiateMonotype p ty : Search ε Unit) := by
  funext s
  by_cases hsame : ty = .placeholder p
  · simp only [widen, instantiateMonotype, if_pos hsame]
    rfl
  cases hmono : ty.isMonotype with
  | false =>
    simp [widen, instantiateMonotype, hsame, hmono]
    rfl
  | true =>
    rcases hslot : s.context.slot p with error | ⟨before, after⟩
    · rw [instantiateMonotype_of_error hsame hmono hslot]
      simp only [widen, instantiateMonotype_of_error hsame hmono hslot]
      rfl
    cases hw : before.wellFormed ty with
    | true =>
      rw [instantiateMonotype_of_wellFormed hsame hmono hslot hw, ← widen_solve]
      simp only [widen, instantiateMonotype_of_wellFormed hsame hmono hslot hw]
    | false =>
      by_cases hty : ∃ q, ty = .placeholder q
      · obtain ⟨q, hq⟩ := hty
        rw [instantiateMonotype_of_later hsame hmono hslot hw hq, ← widen_solve]
        simp only [widen, instantiateMonotype_of_later hsame hmono hslot hw hq]
        split <;> rfl
      · have hstuck := fun q h => hty ⟨q, h⟩
        rw [instantiateMonotype_of_stuck hsame hmono hslot hw hstuck]
        simp only [widen, instantiateMonotype_of_stuck hsame hmono hslot hw hstuck]
        rfl

end Judgment
end HigherRank
