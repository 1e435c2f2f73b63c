import HigherRank.Subtyping

set_option autoImplicit false

/-!
# Typing

Three judgments on terms: checking against a type, synthesis of a type, and synthesis of the type
that an application has. A synthesised type may mention placeholders that the context has solved
since.
-/
namespace HigherRank

open Judgment

variable {ε : Type} [SearchError ε]

@[inline] def checkLambda (check : Term → Ty → Search ε Unit) (term : Term) (ty : Ty) :
    Search ε Unit :=
  match term, ty with
  | .lam x body, .arrow parameter result => atomically <| inChildScope do
    assume x parameter
    check body result
  | _, _ => reject

/-- The type of a lambda is an arrow between two new placeholders. They are declared outside the
scope of `x`, since the type mentions them. -/
@[inline] def synthesizeLambda (check : Term → Ty → Search ε Unit) (x : BindingId) (body : Term) :
    Search ε Ty := atomically do
  let label ← bindingLabel x
  let parameter ← introduce label
  let result ← introduce (label ++ "-result")
  inChildScope do
    assume x (.placeholder parameter)
    check body (.placeholder result)
  accept (.arrow (.placeholder parameter) (.placeholder result))

@[inline] def synthesizeAnnotated (check : Term → Ty → Search ε Unit) (term : Term) (ty : Ty) :
    Search ε Ty := do
  if ← isWellFormed ty then
    check term ty <|> abort (.annotationMismatch term ty)
    accept ty
  else
    abort (.annotationIllFormed ty)

/-- One level of application. A quantified type is opened by a placeholder that stays in the
context, and a placeholder is given the shape of an arrow. -/
@[inline] def synthesizeApplicationStep (check : Term → Ty → Search ε Unit)
    (next : Ty → Term → Search ε Ty) (functionType : Ty) (argument : Term) : Search ε Ty :=
  match functionType with
  | .arrow parameter result => do
    check argument parameter
    accept result
  | .forAll a body => atomically <| introducing a body fun body => next body argument
  | .placeholder p => atomically do
    let (parameter, result) ← articulate p
    check argument (.placeholder parameter)
    accept (.placeholder result)
  | .void => reject
  | .var _ => reject

namespace Opening

variable (O : Opening ε)

@[inline] def checkForAll (check : Term → Ty → Search ε Unit) (term : Term) (ty : Ty) :
    Search ε Unit :=
  match ty with
  | .forAll a body => O.rigidly a body (check term)
  | _ => reject

@[inline] def checkBySynthesis (synthesize : Term → Search ε Ty) (subtype : Ty → Ty → Search ε Unit)
    (term : Term) (ty : Ty) : Search ε Unit := atomically do
  let found ← synthesize term
  let found ← O.resolve found
  let expected ← O.resolve ty
  subtype found expected

/-- The rules that follow the shape of the type come first, and each that fails leaves the term to
the next. -/
@[inline] def checkOtherwise (check : Term → Ty → Search ε Unit) (synthesize : Term → Search ε Ty)
    (subtype : Ty → Ty → Search ε Unit) (term : Term) (ty : Ty) : Search ε Unit :=
  O.checkForAll check term ty <|> checkLambda check term ty <|>
    O.checkBySynthesis synthesize subtype term ty

@[inline] def checkStep (check : Term → Ty → Search ε Unit) (synthesize : Term → Search ε Ty)
    (subtype : Ty → Ty → Search ε Unit) (term : Term) (ty : Ty) : Search ε Unit :=
  match term, ty with
  | .unit, .void => accept ()
  | term, ty => O.checkOtherwise check synthesize subtype term ty

@[inline] def synthesizeStep (check : Term → Ty → Search ε Unit) (synthesize : Term → Search ε Ty)
    (synthesizeApplication : Ty → Term → Search ε Ty) (term : Term) : Search ε Ty :=
  match term with
  | .unit => accept .void
  | .ref x => lookup x
  | .lam x body => synthesizeLambda check x body
  | .app function argument => atomically do
    let functionType ← synthesize function
    let functionType ← O.resolve functionType
    synthesizeApplication functionType argument
  | .ann term ty => synthesizeAnnotated check term ty

mutual

def check (limit : Nat) : (left : Nat) → Term → Ty → Search ε Unit
  | 0, _, _ => abort (.depthLimitExceeded limit)
  | left + 1, term, ty =>
    nested (O.checkStep (check limit left) (synthesize limit left) (O.subtype limit left) term ty)

def synthesize (limit : Nat) : (left : Nat) → Term → Search ε Ty
  | 0, _ => abort (.depthLimitExceeded limit)
  | left + 1, term =>
    nested (O.synthesizeStep (check limit left) (synthesize limit left)
      (synthesizeApplication limit left) term)

def synthesizeApplication (limit : Nat) : (left : Nat) → Ty → Term → Search ε Ty
  | 0, _, _ => abort (.depthLimitExceeded limit)
  | left + 1, functionType, argument =>
    nested (synthesizeApplicationStep (check limit left) (synthesizeApplication limit left)
      functionType argument)

end

end Opening
end HigherRank
