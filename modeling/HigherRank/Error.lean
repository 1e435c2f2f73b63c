import HigherRank.Term.Printer

set_option autoImplicit false

/-!
# Errors

An error aborts a judgment, where a rejection only says that the judgment does not hold. The first
two report a context that the judgment cannot work with, the next two a faulty annotation in the
term, and the last the end of the nesting budget.
-/
namespace HigherRank

inductive TypeError where
  -- The placeholder has no unsolved entry in the context.
  | missingPlaceholder (p : TypeId)
  -- A child scope ended and its marker was gone.
  | missingMarker (m : Marker)
  -- The annotation mentions a name that is not in scope.
  | annotationIllFormed (ty : Ty)
  -- The annotated term does not have the annotated type.
  | annotationMismatch (term : Term) (ty : Ty)
  -- Judgments were nested deeper than the limit.
  | depthLimitExceeded (limit : Nat)
deriving DecidableEq

namespace TypeError

/-- Does the fault lie in an annotation that the term's author wrote? -/
def isAnnotationError : TypeError → Bool
  | annotationIllFormed _ => true
  | annotationMismatch _ _ => true
  | _ => false

def message (supply : Supply) : TypeError → String
  | missingPlaceholder p =>
    "placeholder `^" ++ supply.typeLabel p ++ "` is not an unsolved entry of the context"
  | missingMarker m => "scope marker " ++ m.text ++ " is missing from the context"
  | annotationIllFormed ty =>
    "annotation `" ++ ty.render supply.typeLabel ++
      "` is not well-formed in the current context"
  | annotationMismatch term ty =>
    "`" ++ term.render supply.typeLabel supply.bindingLabel ++
      "` does not check against its annotation `" ++ ty.render supply.typeLabel ++ "`"
  | depthLimitExceeded limit => "judgment nesting exceeded the limit of " ++ toString limit

end TypeError
end HigherRank
