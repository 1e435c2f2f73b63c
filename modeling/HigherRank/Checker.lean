import HigherRank.Limits
import HigherRank.Typing

set_option autoImplicit false

/-!
# The checker

The judgments under given limits. A judgment that is run while others are open gets what these have
left of the budget.
-/
namespace HigherRank

structure Checker where
  limits : Limits := {}
deriving DecidableEq

namespace Checker

def ofSetting (setting : Option String) : Checker := ⟨.ofSetting setting⟩

/-- Run a search with the levels that are left below the limit. -/
def withBudget {ε α : Type} (c : Checker) (search : (limit left : Nat) → Search ε α) : Search ε α :=
  fun s => search c.limits.maxDepth (c.limits.maxDepth - s.depth) s

def check (c : Checker) (term : Term) (ty : Ty) : Judgment Unit :=
  c.withBudget fun limit left => Opening.own.check limit left term ty

def synthesize (c : Checker) (term : Term) : Judgment Ty :=
  c.withBudget fun limit left => Opening.own.synthesize limit left term

/-- Which type does a function of the given type have when it is applied to the argument? -/
def synthesizeApplication (c : Checker) (functionType : Ty) (argument : Term) : Judgment Ty :=
  c.withBudget fun limit left => Opening.own.synthesizeApplication limit left functionType argument

def subtype (c : Checker) (sub sup : Ty) : Judgment Unit :=
  c.withBudget fun limit left => Opening.own.subtype limit left sub sup

def instantiate (c : Checker) (variance : Variance) (p : TypeId) (ty : Ty) : Judgment Unit :=
  c.withBudget fun limit left => Opening.own.instantiate limit left variance p ty

end Checker
end HigherRank
