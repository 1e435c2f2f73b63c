import HigherRank.Opening

set_option autoImplicit false

/-!
# Instantiation

Solving one placeholder against a type, from below or from above. Solutions have no quantifier at the
top, and they depend only on what is declared before the placeholder. Every judgment takes the
limit on nesting, for the error it may have to report, and how many levels are left of it.
-/
namespace HigherRank

open Judgment

variable {ε : Type} [SearchError ε]

/-- The direction of a constraint on a placeholder. -/
inductive Variance where
  -- The placeholder is to be a subtype of the given type.
  | covariant
  -- The placeholder is to be a supertype of the given type.
  | contravariant
deriving DecidableEq

def Variance.flip : Variance → Variance
  | covariant => contravariant
  | contravariant => covariant

/-- Solve `p` to `ty` outright. If `ty` reaches past `p` but is itself an unsolved placeholder, that
later one is solved to `p` instead. -/
def instantiateMonotype (p : TypeId) (ty : Ty) : Search ε Unit := fun s =>
  if ty = .placeholder p then (.accepted (), s)
  else if !ty.isMonotype then (.rejected, s)
  else
    match s.context.before p with
    | .error error => (.aborted (report error), s)
    | .ok before =>
      if before.wellFormed ty then solve p ty s
      else
        match ty with
        | .placeholder later =>
          if s.context.isUnsolved later then solve later (.placeholder p) s else (.rejected, s)
        | _ => (.rejected, s)

namespace Opening

variable (O : Opening ε)

@[inline] def instantiateStep (next : Variance → TypeId → Ty → Search ε Unit) (variance : Variance)
    (p : TypeId) (ty : Ty) : Search ε Unit := do
  let ty ← O.resolve ty
  -- A placeholder stands below and above itself without being solved, but never below or above a
  -- larger type that mentions it.
  if ty = .placeholder p then
    accept ()
  else if ty.mentions p then
    reject
  else
    instantiateMonotype p ty <|>
      match ty, variance with
      | .arrow parameter result, _ => atomically do
        let (p₁, p₂) ← articulate p
        next variance.flip p₁ parameter
        -- The parameter may have solved placeholders of the result.
        let result ← O.resolve result
        next variance p₂ result
      | .forAll a body, .covariant => O.rigidly a body (next .covariant p)
      | .forAll a body, .contravariant => flexibly a body (next .contravariant p)
      | _, _ => reject

def instantiate (limit : Nat) : (left : Nat) → Variance → TypeId → Ty → Search ε Unit
  | 0, _, _, _ => abort (.depthLimitExceeded limit)
  | left + 1, variance, p, ty => nested (O.instantiateStep (instantiate limit left) variance p ty)

end Opening
end HigherRank
