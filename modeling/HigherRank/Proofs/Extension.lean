import HigherRank.Proofs.Preservation

set_option autoImplicit false

/-!
# Accepted judgments extend the context, others leave it

The entries of the old context are in the new one, in the same order. An unsolved placeholder may have
been solved in its slot, every other entry is as it was, and what has been added are placeholders
minted meanwhile. A judgment on types adds nothing behind the last entry, and changes a context only
if there is a placeholder to be solved. A judgment that is rejected or aborted changes nothing in the
context, however far it had come.
-/
namespace HigherRank

namespace Context

/-- The second context has the entries of the first, the unsolved ones solved or not, and entries of
new placeholders among them; these stand behind the last entry of the first only if that is allowed. -/
inductive Extends (new : TypeId → Prop) (atEnd : Bool) : Context → Context → Prop where
  | nil : Extends new atEnd [] []
  | keep {Γ Δ : Context} (e : Entry) : Extends new atEnd Γ Δ → Extends new atEnd (e :: Γ) (e :: Δ)
  | solve {Γ Δ : Context} (p : TypeId) (τ : Ty) :
      Extends new atEnd Γ Δ → Extends new atEnd (.unsolved p :: Γ) (.solved p τ :: Δ)
  | insert {Γ Δ : Context} {e : Entry} {p : TypeId} : e.placeholder? = some p → new p →
      (Γ = [] → atEnd = true) → Extends new atEnd Γ Δ → Extends new atEnd Γ (e :: Δ)

variable {new : TypeId → Prop} {atEnd : Bool} {Γ Δ : Context}

theorem Extends.insertAll {news : Context} (hn : ∀ e ∈ news, ∃ p, e.placeholder? = some p ∧ new p)
    (hend : Γ = [] → atEnd = true) (h : Extends new atEnd Γ Δ) :
    Extends new atEnd Γ (news ++ Δ) := by
  induction news with
  | nil => exact h
  | cons e news ih =>
    obtain ⟨p, hp, hnew⟩ := hn e (by simp)
    exact .insert hp hnew hend (ih fun e' he => hn e' (by simp [he]))

theorem Extends.append {tail : Context} (ht : ∀ e ∈ tail, ∃ p, e.placeholder? = some p ∧ new p)
    (h : Extends new true Γ Δ) : Extends new true Γ (Δ ++ tail) := by
  induction h with
  | nil => simpa using Extends.nil.insertAll ht fun _ => rfl
  | keep e _ ih => exact .keep e ih
  | solve p τ _ ih => exact .solve p τ ih
  | insert hp hnew _ _ ih => exact .insert hp hnew (fun _ => rfl) ih

theorem Refines.extends {n n' : Nat} (h : Refines n Γ Δ)
    (hΔ : ∀ p ∈ Δ.placeholders, p.index < n') :
    Extends (fun p => n ≤ p.index ∧ p.index < n') atEnd Γ Δ := by
  induction h with
  | nil => exact .nil
  | @cons e block Γ Δ he _ ih =>
    simp only [Context.placeholders, List.filterMap_append, List.mem_append] at hΔ
    have hrest := ih fun p hp => hΔ p (.inr hp)
    cases he with
    | self => exact .keep e hrest
    | filled news hf hnews =>
      obtain ⟨p, τ⟩ := hf
      rw [List.append_assoc]
      refine Extends.insertAll (fun e he => ?_) (by simp) (.solve p τ hrest)
      obtain ⟨q, hq, hi⟩ := hnews e he
      refine ⟨q, hq, hi, hΔ q (.inl (List.mem_filterMap.2 ⟨e, ?_, hq⟩))⟩
      exact List.mem_append_left _ he

end Context

/-- What acceptance does to the context. -/
theorem extends_of_accepted (c : Checker) (q : Query) (s s' : State) (a : q.Answer)
    (hs : s.Valid) (h : q.run c s = (.accepted a, s')) :
    Context.Extends (fun p => s.supply.types.size ≤ p.index ∧ p.index < s'.supply.types.size)
      q.appends s.context s'.context ∧
    (q.appends = false → (∀ p, .unsolved p ∉ s.context) → s'.context = s.context) := by
  have he := (q.run_atomic c s hs).1
  rw [h] at he
  have hsize := he.valid.placeholders
  cases ha : q.appends with
  | false =>
    have hr : Context.Refines s.supply.types.size s.context s'.context := by
      simpa [Query.growth, ha, Context.grows_nothing] using he.context
    exact ⟨hr.extends hsize, fun _ hu => hr.eq_of_solved hu⟩
  | true =>
    have hg : Context.Grows .placeholders s.supply.types.size s.context s'.context := by
      simpa [Query.growth, ha] using he.context
    obtain ⟨Δ, tail, hΔ, hr, ht⟩ := hg
    rw [hΔ] at hsize ⊢
    simp only [Context.placeholders, List.filterMap_append, List.mem_append] at hsize
    refine ⟨(hr.extends fun p hp => hsize p (.inl hp)).append fun e he => ?_, by simp⟩
    obtain ⟨p, hp, hi⟩ := ht e he
    exact ⟨p, hp, hi, hsize p (.inr (List.mem_filterMap.2 ⟨e, he, hp⟩))⟩

def crossed : State where
  supply := { types := #["p", "q", "p-param", "p-result"], markers := 1 }
  context := [.unsolved ⟨2⟩, .solved ⟨3⟩ .void,
    .solved ⟨0⟩ (.arrow (.placeholder ⟨2⟩) (.placeholder ⟨3⟩)), .marker ⟨0⟩,
    .solved ⟨1⟩ (.placeholder ⟨2⟩)]

theorem crossing_extends :
    let q : Query := .subtype (.placeholder ⟨0⟩) (.arrow (.placeholder ⟨1⟩) .void)
    crossing.Valid ∧ q.run {} crossing = (.accepted (), crossed) ∧
      Context.Extends (fun p => 2 ≤ p.index ∧ p.index < 4) false crossing.context
        crossed.context := by
  intro q
  have hrun : q.run {} crossing = (.accepted (), crossed) := by rfl
  exact ⟨crossing_valid, hrun,
    (extends_of_accepted {} q crossing crossed () crossing_valid hrun).1⟩

def Judgment.Restores {α : Type} (x : Judgment α) (s : State) : Prop :=
  (x s).2.depth = s.depth ∧ ((∀ a, (x s).1 ≠ .accepted a) → (x s).2.context = s.context)

theorem Judgment.Atomic.restores {α : Type} {g : Growth} {x : Judgment α} {s : State}
    (hx : Atomic g x) (hs : s.Valid) : x.Restores s :=
  ⟨(hx s hs).1.depth, (hx s hs).2⟩

/-- Whatever is asked, a failure leaves no trace in the context, and no outcome one in the count of
open judgments. -/
theorem unchanged_of_failed (c : Checker) (s : State) (hs : s.Valid) :
    (∀ q : Query, (q.run c).Restores s) ∧
    (∀ p ty, Judgment.Restores (instantiateMonotype p ty) s) ∧
    ∀ p, Judgment.Restores (Judgment.articulate p) s := by
  refine ⟨fun q => ?_, fun p ty => ?_, fun p => ?_⟩
  · exact (q.run_atomic c).restores hs
  · exact (atomic_instantiateMonotype p ty).restores hs
  · exact (Judgment.atomic_articulate p).restores hs

theorem crossing_unchanged :
    let q : Query := .subtype (.placeholder ⟨0⟩) (.arrow (.placeholder ⟨1⟩) (.var ⟨1⟩))
    crossing.Valid ∧ (q.run {} crossing).1 = .rejected ∧
      (q.run {} crossing).2.supply.types.size = 4 ∧
      (q.run {} crossing).2.context = crossing.context := by
  -- The outer placeholder is split and its first half is given to the inner one before the second
  -- half fails, three levels in.
  intro q
  have hrejected : (q.run {} crossing).1 = .rejected := by rfl
  refine ⟨crossing_valid, hrejected, by rfl, ?_⟩
  refine ((unchanged_of_failed {} crossing crossing_valid).1 q).2 fun a => ?_
  rw [hrejected]
  simp

end HigherRank
