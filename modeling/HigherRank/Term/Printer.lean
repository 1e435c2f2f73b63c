import HigherRank.Term.Basic
import HigherRank.Ty.Printer

set_option autoImplicit false

/-!
# Terms as text

Application associates to the left, and the body of a lambda reaches as far right as it can. An
annotation brings its own parentheses.
-/
namespace HigherRank.Term

def isLambda : Term → Bool
  | lam _ _ => true
  | _ => false

/-- As an argument, a lambda or an application has to be parenthesised. -/
def isCompound : Term → Bool
  | lam _ _ => true
  | app _ _ => true
  | _ => false

def render (typeLabel : TypeId → String) (bindingLabel : BindingId → String) : Term → String
  | unit => "()"
  | ref x => bindingLabel x
  | lam x body => "λ" ++ bindingLabel x ++ ". " ++ body.render typeLabel bindingLabel
  | app function argument =>
    parenthesizedIf function.isLambda (function.render typeLabel bindingLabel) ++ " " ++
      parenthesizedIf argument.isCompound (argument.render typeLabel bindingLabel)
  | ann term ty =>
    "(" ++ term.render typeLabel bindingLabel ++ " : " ++ ty.render typeLabel ++ ")"

end HigherRank.Term
