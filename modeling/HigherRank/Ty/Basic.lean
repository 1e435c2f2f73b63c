import HigherRank.Ident

set_option autoImplicit false

/-!
# Types

Types of any rank over rigid variables and placeholders, and the replacement of their leaves.
A quantifier names the variable it binds by an ordinary identifier, and replacement does not look at
quantifiers: it is the callers who keep quantified identifiers apart.
-/
namespace HigherRank

inductive Ty where
  | void
  -- A rigid variable, free or bound by an enclosing `forAll`.
  | var (a : TypeId)
  -- An unknown type, to be solved.
  | placeholder (p : TypeId)
  | forAll (a : TypeId) (body : Ty)
  | arrow (parameter result : Ty)
deriving DecidableEq

namespace Ty

/-- No quantifier at the top. One further inside is allowed. -/
def isMonotype : Ty → Bool
  | forAll _ _ => false
  | _ => true

def isArrow : Ty → Bool
  | arrow _ _ => true
  | _ => false

def placeholder? : Ty → Option TypeId
  | placeholder p => some p
  | _ => none

def mentions (p : TypeId) : Ty → Bool
  | void => false
  | var _ => false
  | placeholder q => q == p
  | forAll _ body => body.mentions p
  | arrow parameter result => parameter.mentions p || result.mentions p

def replace (onVar onPlaceholder : TypeId → Ty) : Ty → Ty
  | void => void
  | var a => onVar a
  | placeholder p => onPlaceholder p
  | forAll a body => forAll a (body.replace onVar onPlaceholder)
  | arrow parameter result =>
    arrow (parameter.replace onVar onPlaceholder) (result.replace onVar onPlaceholder)

/-- Replace every occurrence of the variable `a`, also below a quantifier over `a`. -/
def subst (ty : Ty) (a : TypeId) (replacement : Ty) : Ty :=
  ty.replace (fun b => if b = a then replacement else var b) placeholder

def rename (ty : Ty) (a b : TypeId) : Ty := ty.subst a (var b)

def occurrences : Ty → List TypeId
  | void => []
  | var a => [a]
  | placeholder _ => []
  | forAll _ body => body.occurrences
  | arrow parameter result => parameter.occurrences ++ result.occurrences

/-- A walk over the variable occurrences that halts on `stop`: whether it halted, and what it saw,
`stop` included. -/
def occurrencesUntil (stop : TypeId) (ty : Ty) : Bool × List TypeId :=
  let before := ty.occurrences.takeWhile (· ≠ stop)
  match ty.occurrences.dropWhile (· ≠ stop) with
  | [] => (false, before)
  | _ :: _ => (true, before ++ [stop])

theorem replace_leaves (ty : Ty) : ty.replace var placeholder = ty := by
  induction ty with
  | void => rfl
  | var a => rfl
  | placeholder p => rfl
  | forAll a body ih => simp [replace, ih]
  | arrow parameter result ihp ihr => simp [replace, ihp, ihr]

theorem replace_replace (f g f' g' : TypeId → Ty) (ty : Ty) :
    (ty.replace f g).replace f' g' =
      ty.replace (fun a => (f a).replace f' g') (fun p => (g p).replace f' g') := by
  induction ty with
  | void => rfl
  | var a => rfl
  | placeholder p => rfl
  | forAll a body ih => simp [replace, ih]
  | arrow parameter result ihp ihr => simp [replace, ihp, ihr]

end Ty
end HigherRank
