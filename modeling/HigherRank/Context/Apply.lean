import HigherRank.Context.Basic

set_option autoImplicit false

/-!
# Resolving a type against a context

Every solved placeholder is replaced by its solution, and the placeholders in that solution in turn.
A solution depends on earlier entries only, so a chain of solutions is no longer than the context,
and that many steps always reach its end.
-/
namespace HigherRank.Context

def resolve (Γ : Context) : Nat → TypeId → Ty
  | 0, p => .placeholder p
  | n + 1, p =>
    match Γ.solution? p with
    | some solution => solution.replace .var (Γ.resolve n)
    | none => .placeholder p

def apply (Γ : Context) (ty : Ty) : Ty := ty.replace .var (Γ.resolve Γ.length)

end HigherRank.Context
