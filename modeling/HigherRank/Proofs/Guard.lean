import HigherRank.Checker
import HigherRank.Proofs.Names
import HigherRank.Proofs.Runs

set_option autoImplicit false

/-!
# Guards on quantifiers

Two other ways to open a quantifier. One may mint a new identifier and put it in the place of the
variable (`fresh`). And one may use the quantifier's own identifier, as the checker does, as long as
nothing is confused by that, and stop where something could be (`guarded`).
-/
namespace HigherRank

open Judgment

def Ty.clearOf (names : List TypeId) (ty : Ty) : Bool :=
  names.all fun a => !ty.occurrences.contains a && !ty.quantifiers.contains a

def Ty.captures (onPlaceholder : TypeId → Ty) (quantified : List TypeId) : Ty → Bool
  | void => false
  | var _ => false
  | placeholder p => !(onPlaceholder p).clearOf quantified
  | forAll a body => body.captures onPlaceholder (a :: quantified)
  | arrow parameter result =>
    parameter.captures onPlaceholder quantified || result.captures onPlaceholder quantified

def Context.resolveCaptures (Γ : Context) : Nat → TypeId → Bool
  | 0, _ => false
  | n + 1, p =>
    match Γ.solution? p with
    | some solution =>
      solution.captures (Γ.resolve n) [] || solution.placeholders.any (Γ.resolveCaptures n)
    | none => false

/-- Does resolving the type carry a solution below a quantifier with which it clashes? -/
def Context.captures (Γ : Context) (ty : Ty) : Bool :=
  ty.captures (Γ.resolve Γ.length) [] || ty.placeholders.any (Γ.resolveCaptures Γ.length)

namespace Opening

def mint (label : String) : Judgment TypeId := fun s =>
  (.accepted (s.supply.mintType label).1, { s with supply := (s.supply.mintType label).2 })

def fresh : Opening TypeError where
  rigidly a body next := atomically <| inChildScope do
    let b ← mint (← typeLabel a)
    let _ ← declare b
    next (body.rename a b)
  resolve := Judgment.resolve

/-- The checker's own way, which stops before a declared identifier is declared again and before a
solution is captured. -/
def guarded : Opening Halt where
  rigidly a body next := fun s =>
    if .var a ∈ s.context then stop s else own.rigidly a body next s
  resolve ty := fun s => if s.context.captures ty then stop s else own.resolve ty s

end Opening

def Checker.checkBy {ε : Type} [SearchError ε] (c : Checker) (O : Opening ε) (term : Term)
    (ty : Ty) : Search ε Unit :=
  c.withBudget fun limit left => O.check limit left term ty

end HigherRank
