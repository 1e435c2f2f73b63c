import HigherRank.Instantiation

set_option autoImplicit false

/-!
# Subtyping

Arrows are contravariant in the parameter, and a quantified type is a subtype of its instances. Two
arrows, or two equal atoms, are decided by their rule alone; the other rules are tried in order.
-/
namespace HigherRank

open Judgment

variable {ε : Type} [SearchError ε]

def Ty.sameAtom : Ty → Ty → Bool
  | void, void => true
  | var a, var b => a == b
  | placeholder p, placeholder q => p == q
  | _, _ => false

/-- Instantiate `p` against `other`, if `p` still waits for a solution and is not a part of `other`. -/
@[inline] def instantiateIfOpen (instantiate : TypeId → Ty → Search ε Unit) (p : TypeId)
    (other : Ty) : Search ε Unit := do
  if (← isUnsolved p) && !other.mentions p then instantiate p other else reject

@[inline] def subtypeOpeningSub (next : Ty → Ty → Search ε Unit) (sub sup : Ty) : Search ε Unit :=
  -- A quantified type is below another if an instance of it is.
  match sub with
  | .forAll a body => flexibly a body fun body => next body sup
  | _ => reject

@[inline] def subtypeSolvingSub (instantiate : Variance → TypeId → Ty → Search ε Unit)
    (sub sup : Ty) : Search ε Unit :=
  match sub with
  | .placeholder p => instantiateIfOpen (instantiate .covariant) p sup
  | _ => reject

@[inline] def subtypeSolvingSup (instantiate : Variance → TypeId → Ty → Search ε Unit)
    (sub sup : Ty) : Search ε Unit :=
  match sup with
  | .placeholder p => instantiateIfOpen (instantiate .contravariant) p sub
  | _ => reject

namespace Opening

variable (O : Opening ε)

@[inline] def subtypeOpeningSup (next : Ty → Ty → Search ε Unit) (sub sup : Ty) : Search ε Unit :=
  -- A type is below a quantified one if it is below the body for an arbitrary variable.
  match sup with
  | .forAll a body => O.rigidly a body (next sub)
  | _ => reject

/-- The rules other than that for arrows, as they are tried. -/
@[inline] def subtypeOtherwise (next : Ty → Ty → Search ε Unit)
    (instantiate : Variance → TypeId → Ty → Search ε Unit) (sub sup : Ty) : Search ε Unit :=
  if sub.sameAtom sup then
    accept ()
  else
    subtypeOpeningSub next sub sup <|> O.subtypeOpeningSup next sub sup <|>
      subtypeSolvingSub instantiate sub sup <|> subtypeSolvingSup instantiate sub sup

@[inline] def subtypeStep (next : Ty → Ty → Search ε Unit)
    (instantiate : Variance → TypeId → Ty → Search ε Unit) (sub sup : Ty) : Search ε Unit := do
  let sub ← O.resolve sub
  let sup ← O.resolve sup
  match sub, sup with
  | .arrow parameter result, .arrow parameter' result' => atomically do
    next parameter' parameter
    next result result'
  | sub, sup => O.subtypeOtherwise next instantiate sub sup

def subtype (limit : Nat) : (left : Nat) → Ty → Ty → Search ε Unit
  | 0, _, _ => abort (.depthLimitExceeded limit)
  | left + 1, sub, sup =>
    nested (O.subtypeStep (subtype limit left) (O.instantiate limit left) sub sup)

end Opening
end HigherRank
