import HigherRank.Ty.Basic

set_option autoImplicit false

/-!
# Terms

The lambda calculus with one constant and with type annotations.
-/
namespace HigherRank

inductive Term where
  | unit
  | ref (x : BindingId)
  | lam (x : BindingId) (body : Term)
  | app (function argument : Term)
  | ann (term : Term) (ty : Ty)
deriving DecidableEq

end HigherRank
