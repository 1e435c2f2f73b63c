import HigherRank.Text.WhiteSpace

set_option autoImplicit false

/-!
# Limits

How deep judgments may be nested. The default can be overridden by a setting, a text that somebody
wrote by hand; a setting that makes no sense is ignored.
-/
namespace HigherRank

structure Limits where
  maxDepth : Nat := 4096
deriving DecidableEq

namespace Limits

def largest : Nat := UInt64.size - 1

def digits? (cs : List Char) : Option Nat :=
  if cs.isEmpty || !cs.all Char.isDigit then none
  else some (cs.foldl (fun n c => 10 * n + (c.toNat - '0'.toNat)) 0)

def number? (cs : List Char) : Option Nat :=
  let unsigned := match cs with
    | '+' :: rest => rest
    | cs => cs
  (digits? unsigned).filter (· ≤ largest)

/-- The limits under a setting: a positive number, with white space around it or not, or else the
default. -/
def ofSetting (setting : Option String) : Limits :=
  match setting.bind fun text => number? (Text.trim text.toList) with
  | some (n + 1) => { maxDepth := n + 1 }
  | _ => {}

end Limits
end HigherRank
