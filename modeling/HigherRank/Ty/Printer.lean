import HigherRank.Ty.Basic

set_option autoImplicit false

/-!
# Types as text

Arrows associate to the right, so only a parameter that is itself an arrow or a quantified type
stands in parentheses. A placeholder carries a caret, which tells it from a variable of the same
label.
-/
namespace HigherRank

def parenthesizedIf (condition : Bool) (text : String) : String :=
  if condition then "(" ++ text ++ ")" else text

namespace Ty

/-- Would the text of this type, as a parameter, swallow the arrow that follows it? -/
def opensRight : Ty → Bool
  | forAll _ _ => true
  | arrow _ _ => true
  | _ => false

def render (label : TypeId → String) : Ty → String
  | void => "void"
  | var a => label a
  | placeholder p => "^" ++ label p
  | forAll a body => "∀" ++ label a ++ ". " ++ body.render label
  | arrow parameter result =>
    parenthesizedIf parameter.opensRight (parameter.render label) ++ " -> " ++ result.render label

end Ty
end HigherRank
