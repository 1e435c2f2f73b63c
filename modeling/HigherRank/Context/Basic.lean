import HigherRank.Error

set_option autoImplicit false

/-!
# The ordered context

A context lists the facts in scope, oldest first. An entry may depend on the entries before it only,
and so may the solution of a placeholder, which stands in the placeholder's own slot. Nothing here
checks that an identifier is declared once: where it is not, a placeholder means its oldest entry and
a term binding its latest.
-/
namespace HigherRank

inductive Entry where
  -- A rigid variable.
  | var (a : TypeId)
  | unsolved (p : TypeId)
  | solved (p : TypeId) (solution : Ty)
  -- The type of a term binding.
  | binding (x : BindingId) (ty : Ty)
  -- The boundary of a child scope.
  | marker (m : Marker)
deriving DecidableEq

abbrev Context := List Entry

namespace Context

/-- The entries before and after the oldest occurrence of an entry. -/
def splitAt? (Γ : Context) (e : Entry) : Option (Context × Context) :=
  match Γ.dropWhile (· != e) with
  | [] => none
  | _ :: after => some (Γ.takeWhile (· != e), after)

/-- The entries before and after the slot of an unsolved placeholder. -/
def slot (Γ : Context) (p : TypeId) : Except TypeError (Context × Context) :=
  match Γ.splitAt? (.unsolved p) with
  | some split => .ok split
  | none => .error (.missingPlaceholder p)

def position (Γ : Context) (p : TypeId) : Except TypeError Nat :=
  (Γ.slot p).map fun (before, _) => before.length

def isUnsolved (Γ : Context) (p : TypeId) : Bool := Γ.contains (.unsolved p)

def solve (Γ : Context) (p : TypeId) (solution : Ty) : Except TypeError Context :=
  (Γ.slot p).map fun (before, after) => before ++ .solved p solution :: after

/-- Put a new unsolved placeholder in front of `p`, where the solution of `p` can see it. -/
def insertBefore (Γ : Context) (fresh p : TypeId) : Except TypeError Context :=
  (Γ.slot p).map fun (before, after) => before ++ .unsolved fresh :: .unsolved p :: after

def articulate (Γ : Context) (p parameter result : TypeId) : Except TypeError Context :=
  (Γ.slot p).map fun (before, after) =>
    before ++ .unsolved parameter :: .unsolved result ::
      .solved p (.arrow (.placeholder parameter) (.placeholder result)) :: after

/-- What a solution of `p` may depend on: all that was declared before it. -/
def before (Γ : Context) (p : TypeId) : Except TypeError Context :=
  (Γ.slot p).map Prod.fst

def solution? (Γ : Context) (p : TypeId) : Option Ty :=
  Γ.findSome? fun
    | .solved q solution => if q = p then some solution else none
    | _ => none

def binding? (Γ : Context) (x : BindingId) : Option Ty :=
  Γ.reverse.findSome? fun
    | .binding y ty => if y = x then some ty else none
    | _ => none

theorem splitAt?_cons_self (Γ : Context) (e : Entry) : splitAt? (e :: Γ) e = some ([], Γ) := by
  simp [splitAt?]

theorem splitAt?_cons_of_ne {x e : Entry} (Γ : Context) (h : x ≠ e) :
    splitAt? (x :: Γ) e = (splitAt? Γ e).map fun (before, after) => (x :: before, after) := by
  simp only [splitAt?, List.dropWhile_cons, List.takeWhile_cons, bne_iff_ne.2 h, if_true]
  split <;> rfl

theorem eq_append_of_splitAt? {Γ before after : Context} {e : Entry}
    (h : Γ.splitAt? e = some (before, after)) : Γ = before ++ e :: after ∧ e ∉ before := by
  induction Γ generalizing before after with
  | nil => cases h
  | cons x Γ ih =>
    by_cases hx : x = e
    · subst hx
      rw [splitAt?_cons_self] at h
      cases h
      simp
    · rw [splitAt?_cons_of_ne Γ hx] at h
      obtain ⟨⟨before', after'⟩, h', heq⟩ := Option.map_eq_some_iff.1 h
      cases heq
      obtain ⟨rfl, hn⟩ := ih h'
      simp [hn, Ne.symm hx]

theorem splitAt?_append {before : Context} {e : Entry} (after : Context) (h : e ∉ before) :
    splitAt? (before ++ e :: after) e = some (before, after) := by
  induction before with
  | nil => exact splitAt?_cons_self after e
  | cons x before ih =>
    rw [List.mem_cons, not_or] at h
    rw [List.cons_append, splitAt?_cons_of_ne _ (Ne.symm h.1), ih h.2]
    rfl

theorem splitAt?_eq_some_iff {Γ before after : Context} {e : Entry} :
    Γ.splitAt? e = some (before, after) ↔ Γ = before ++ e :: after ∧ e ∉ before :=
  ⟨eq_append_of_splitAt?, fun ⟨h, hn⟩ => h ▸ splitAt?_append after hn⟩

theorem splitAt?_eq_none_iff {Γ : Context} {e : Entry} : Γ.splitAt? e = none ↔ e ∉ Γ := by
  constructor
  · intro h hm
    obtain ⟨before, after, rfl, hn⟩ := List.eq_append_cons_of_mem hm
    simp [splitAt?_append after hn] at h
  · intro h
    cases hs : Γ.splitAt? e with
    | none => rfl
    | some split => exact absurd (by simp [(eq_append_of_splitAt? hs).1]) h

end Context
end HigherRank
