set_option autoImplicit false

/-!
# Identifiers and their supply

A type variable, a placeholder, a term binding and a scope marker are each known by their place in
the order of minting. Labels are kept in the supply and not in the identifiers, so equality of
identifiers is equality of places, and a label can only be seen by what asks the supply for it.

The supply is unbounded. Where identifiers are numbers of 32 bits instead, from a counter that starts at
one and wraps, an identifier of this library stands for `wrapped` of its number. As long as fewer than
`2 ^ 32` identifiers of a kind are minted, that is one to one and keeps the order (`faithful`).
-/
namespace HigherRank

/-- Names a rigid type variable or a placeholder; the two share one sequence. -/
structure TypeId where
  index : Nat
deriving DecidableEq, Ord

structure BindingId where
  index : Nat
deriving DecidableEq, Ord

structure Marker where
  index : Nat
deriving DecidableEq, Ord

def TypeId.number (a : TypeId) : Nat := a.index + 1

def BindingId.number (x : BindingId) : Nat := x.index + 1

def Marker.number (m : Marker) : Nat := m.index + 1

/-- What a counter of 32 bits shows in place of the number. -/
def wrapped (number : Nat) : UInt32 := .ofNat number

def Marker.text (m : Marker) : String := "#" ++ toString m.number

/-- Everything minted so far: the labels of the type and binding identifiers in order of minting, and
how many markers there are. -/
structure Supply where
  types : Array String := #[]
  bindings : Array String := #[]
  markers : Nat := 0
deriving DecidableEq

namespace Supply

def mintType (supply : Supply) (label : String) : TypeId × Supply :=
  (⟨supply.types.size⟩, { supply with types := supply.types.push label })

def mintBinding (supply : Supply) (label : String) : BindingId × Supply :=
  (⟨supply.bindings.size⟩, { supply with bindings := supply.bindings.push label })

def mintMarker (supply : Supply) : Marker × Supply :=
  (⟨supply.markers⟩, { supply with markers := supply.markers + 1 })

def typeLabel (supply : Supply) (a : TypeId) : String := supply.types[a.index]?.getD ""

def bindingLabel (supply : Supply) (x : BindingId) : String := supply.bindings[x.index]?.getD ""

theorem typeLabel_mintType (supply : Supply) (label : String) :
    (supply.mintType label).2.typeLabel (supply.mintType label).1 = label := by
  simp [mintType, typeLabel]

theorem bindingLabel_mintBinding (supply : Supply) (label : String) :
    (supply.mintBinding label).2.bindingLabel (supply.mintBinding label).1 = label := by
  simp [mintBinding, bindingLabel]

/-- Counters of 32 bits have not wrapped. -/
structure Fits (supply : Supply) : Prop where
  types : supply.types.size < UInt32.size
  bindings : supply.bindings.size < UInt32.size
  markers : supply.markers < UInt32.size

end Supply

section Wrapping

variable {minted i j : Nat} (h : minted < UInt32.size) (hi : i < minted) (hj : j < minted)
include h hi

theorem toNat_wrapped : (wrapped (i + 1)).toNat = i + 1 := by
  rw [UInt32.size] at h
  rw [wrapped, UInt32.toNat_ofNat']
  omega

include hj

theorem wrapped_inj : wrapped (i + 1) = wrapped (j + 1) ↔ i = j := by
  rw [← UInt32.toNat_inj, toNat_wrapped h hi, toNat_wrapped h hj]
  omega

theorem wrapped_lt : wrapped (i + 1) < wrapped (j + 1) ↔ i < j := by
  rw [UInt32.lt_iff_toNat_lt, toNat_wrapped h hi, toNat_wrapped h hj]
  omega

theorem compare_wrapped : compare (wrapped (i + 1)) (wrapped (j + 1)) = compare i j := by
  change compareOfLessAndEq _ _ = compareOfLessAndEq _ _
  simp only [compareOfLessAndEq, wrapped_inj h hi hj, wrapped_lt h hi hj]

end Wrapping

/-- While no counter has wrapped, minted identifiers are equal as their numbers are, and ordered as
these. -/
theorem Supply.Fits.faithful {supply : Supply} (h : supply.Fits) :
    (∀ a b : TypeId, a.index < supply.types.size → b.index < supply.types.size →
      (wrapped a.number = wrapped b.number ↔ a = b) ∧
        compare (wrapped a.number) (wrapped b.number) = compare a b) ∧
    (∀ x y : BindingId, x.index < supply.bindings.size → y.index < supply.bindings.size →
      (wrapped x.number = wrapped y.number ↔ x = y) ∧
        compare (wrapped x.number) (wrapped y.number) = compare x y) ∧
    ∀ m n : Marker, m.index < supply.markers → n.index < supply.markers →
      (wrapped m.number = wrapped n.number ↔ m = n) ∧
        compare (wrapped m.number) (wrapped n.number) = compare m n := by
  refine ⟨fun ⟨i⟩ ⟨j⟩ hi hj => ⟨?_, ?_⟩, fun ⟨i⟩ ⟨j⟩ hi hj => ⟨?_, ?_⟩, fun ⟨i⟩ ⟨j⟩ hi hj => ⟨?_, ?_⟩⟩
  · exact (wrapped_inj h.types hi hj).trans (by simp)
  · exact (compare_wrapped h.types hi hj).trans Ordering.then_eq.symm
  · exact (wrapped_inj h.bindings hi hj).trans (by simp)
  · exact (compare_wrapped h.bindings hi hj).trans Ordering.then_eq.symm
  · exact (wrapped_inj h.markers hi hj).trans (by simp)
  · exact (compare_wrapped h.markers hi hj).trans Ordering.then_eq.symm

example : wrapped (TypeId.number ⟨0⟩) = wrapped (TypeId.number ⟨UInt32.size⟩) := by decide

end HigherRank
