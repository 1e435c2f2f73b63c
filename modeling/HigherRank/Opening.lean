import HigherRank.Judgment

set_option autoImplicit false

/-!
# Ways to open a quantifier

The rules of the judgments leave two things open: how the variable of a quantifier is taken as rigid,
and how a type is resolved. The checker's own way is to declare the identifier that the quantifier
itself names, and to put solutions for placeholders.
-/
namespace HigherRank

structure Opening (ε : Type) where
  -- Go below the quantifier with its variable rigid.
  rigidly : TypeId → Ty → (Ty → Search ε Unit) → Search ε Unit
  resolve : Ty → Search ε Ty

def Opening.own {ε : Type} [SearchError ε] : Opening ε where
  rigidly a body next := Judgment.rigidly a (next body)
  resolve := Judgment.resolve

end HigherRank
