import HigherRank.Context.Basic

set_option autoImplicit false

/-!
# Well-formed types

A type is well-formed in a context when each of its variables and placeholders is declared there; a
quantifier declares its variable for its body. The declared names are collected once, before the
type is walked, and the walk keeps the names quantified further out on a stack of its own.
-/
namespace HigherRank

/-- The names that a context declares. A solved placeholder is still declared. -/
structure Declared where
  rigid : List TypeId
  placeholders : List TypeId

namespace Declared

/-- Walk over a type, with the names quantified further out on the stack, the innermost on top: is each
name declared or on the stack? The walk ends at the first that is not. -/
def visit (declared : Declared) : Ty → StateM (List TypeId) Bool
  | .void => pure true
  | .var a => do
    let quantified ← get
    pure (declared.rigid.contains a || quantified.contains a)
  | .placeholder p => pure (declared.placeholders.contains p)
  | .forAll a body => do
    modify (a :: ·)
    let goesOn ← declared.visit body
    modify List.tail
    pure goesOn
  | .arrow parameter result => do
    if ← declared.visit parameter then declared.visit result else pure false

def admits (declared : Declared) (quantified : List TypeId) : Ty → Bool
  | .void => true
  | .var a => declared.rigid.contains a || quantified.contains a
  | .placeholder p => declared.placeholders.contains p
  | .forAll a body => declared.admits (a :: quantified) body
  | .arrow parameter result =>
    declared.admits quantified parameter && declared.admits quantified result

theorem visit_run (declared : Declared) (ty : Ty) (quantified : List TypeId) :
    (declared.visit ty).run quantified = pure (declared.admits quantified ty, quantified) := by
  induction ty generalizing quantified with
  | void => rfl
  | var a => rfl
  | placeholder p => rfl
  | forAll a body ih => simp [visit, admits, ih]
  | arrow parameter result ihp ihr =>
    cases h : declared.admits quantified parameter with
    | false => simp [visit, admits, ihp, h]
    | true => simp [visit, admits, ihp, ihr, h]

end Declared

namespace Entry

def rigid? : Entry → Option TypeId
  | var a => some a
  | _ => none

def placeholder? : Entry → Option TypeId
  | unsolved p => some p
  | solved p _ => some p
  | _ => none

end Entry

namespace Context

def declared (Γ : Context) : Declared where
  rigid := Γ.filterMap Entry.rigid?
  placeholders := Γ.filterMap Entry.placeholder?

def wellFormed (Γ : Context) (ty : Ty) : Bool := ((Γ.declared.visit ty).run []).1

theorem wellFormed_eq_admits (Γ : Context) (ty : Ty) :
    Γ.wellFormed ty = Γ.declared.admits [] ty := by
  rw [wellFormed, Declared.visit_run]
  rfl

end Context
end HigherRank
