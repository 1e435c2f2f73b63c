import HigherRank.Context.Apply
import HigherRank.Context.WellFormed

set_option autoImplicit false

/-!
# Judgments

A judgment is decided from a state. It is accepted with a value, rejected, or aborted by an error,
and leaves a new state. A sequence stops at its first rejection; alternatives are tried in order
until one is not rejected; nothing is tried after an error. The rules are written for searches, which
may have more errors than those that the checker reports; a judgment is a search that has no other.

`atomically` undoes the context of an attempt that did not succeed. The supply is never undone, so
an identifier minted in a failed attempt is not given out again.
-/
namespace HigherRank

inductive Outcome (α : Type) (ε : Type := TypeError) where
  | accepted (value : α)
  -- The judgment does not hold.
  | rejected
  -- Whether the judgment holds could not be decided.
  | aborted (error : ε)
deriving DecidableEq

/-- The errors of a search. Those that the checker reports are among them. -/
class SearchError (ε : Type) where
  report : TypeError → ε

@[default_instance low]
instance : SearchError TypeError where
  report error := error

export SearchError (report)

structure State where
  supply : Supply := {}
  context : Context := []
  -- How many judgments are open, each inside the one before.
  depth : Nat := 0
deriving DecidableEq

namespace State

def openScope (s : State) : Marker × State :=
  let (m, supply) := s.supply.mintMarker
  (m, { s with supply, context := s.context ++ [.marker m] })

/-- End a child scope: forget all from its marker on and hand on what its body returned. If the
marker is gone the context stays as it is, and that error comes before any of the body's. -/
def closeScope {α ε : Type} [SearchError ε] (s : State) (m : Marker) (outcome : Outcome α ε) :
    Outcome α ε × State :=
  match s.context.splitAt? (.marker m) with
  | some (before, _) => (outcome, { s with context := before })
  | none => (.aborted (report (.missingMarker m)), s)

end State

def Search (ε α : Type) : Type := State → Outcome α ε × State

/-- A search with the errors of the checker. -/
abbrev Judgment : Type → Type := Search TypeError

namespace Judgment

variable {ε α β : Type}

@[inline] def accept (a : α) : Search ε α := fun s => (.accepted a, s)

@[inline] def reject : Search ε α := fun s => (.rejected, s)

@[inline] def abort [SearchError ε] (error : TypeError) : Search ε α := fun s =>
  (.aborted (report error), s)

@[inline] def andThen (x : Search ε α) (f : α → Search ε β) : Search ε β := fun s =>
  match x s with
  | (.accepted a, s) => f a s
  | (.rejected, s) => (.rejected, s)
  | (.aborted error, s) => (.aborted error, s)

@[inline] def orElse (x : Search ε α) (y : Unit → Search ε α) : Search ε α := fun s =>
  match x s with
  | (.accepted a, s) => (.accepted a, s)
  | (.rejected, s) => y () s
  | (.aborted error, s) => (.aborted error, s)

@[always_inline]
instance : Monad (Search ε) where
  pure := accept
  bind := andThen

@[always_inline]
instance : OrElse (Search ε α) where
  orElse := orElse

/-- Put the context back unless the judgment is accepted. -/
@[inline] def atomically (x : Search ε α) : Search ε α := fun s =>
  let Γ := s.context
  match x s with
  | (.accepted a, s) => (.accepted a, s)
  | (.rejected, s) => (.rejected, { s with context := Γ })
  | (.aborted error, s) => (.aborted error, { s with context := Γ })

@[inline] def nested (x : Search ε α) : Search ε α := fun s =>
  match x { s with depth := s.depth + 1 } with
  | (outcome, s) => (outcome, { s with depth := s.depth - 1 })

/-- Forget at the end whatever the body appends. Solutions that it puts into earlier slots stay. -/
@[inline] def inChildScope [SearchError ε] (body : Search ε α) : Search ε α := fun s =>
  match s.openScope with
  | (m, s) =>
    match body s with
    | (outcome, s) => s.closeScope m outcome

def push (e : Entry) : Search ε Unit := fun s =>
  (.accepted (), { s with context := s.context ++ [e] })

def declare (a : TypeId) : Search ε Ty := fun s =>
  (.accepted (.var a), { s with context := s.context ++ [.var a] })

def assume (x : BindingId) (ty : Ty) : Search ε Unit := push (.binding x ty)

def introduce (label : String) : Search ε TypeId := fun s =>
  let (p, supply) := s.supply.mintType label
  (.accepted p, { s with supply, context := s.context ++ [.unsolved p] })

def edit [SearchError ε] (f : Context → Except TypeError Context) : Search ε Unit := fun s =>
  match f s.context with
  | .ok Γ => (.accepted (), { s with context := Γ })
  | .error error => (.aborted (report error), s)

def solve [SearchError ε] (p : TypeId) (solution : Ty) : Search ε Unit := edit (·.solve p solution)

def insertBefore [SearchError ε] (fresh p : TypeId) : Search ε Unit := edit (·.insertBefore fresh p)

def discardFrom [SearchError ε] (p : TypeId) : Search ε Unit := edit (·.before p)

/-- Solve `p` to an arrow between two fresh placeholders, and return these. They are minted before
`p` is looked for. -/
def articulate [SearchError ε] (p : TypeId) : Search ε (TypeId × TypeId) := fun s =>
  let label := s.supply.typeLabel p
  let (parameter, supply) := s.supply.mintType (label ++ "-param")
  let (result, supply) := supply.mintType (label ++ "-result")
  match s.context.articulate p parameter result with
  | .ok Γ => (.accepted (parameter, result), { s with supply, context := Γ })
  | .error error => (.aborted (report error), { s with supply })

def resolve (ty : Ty) : Search ε Ty := fun s => (.accepted (s.context.apply ty), s)

def typeLabel (a : TypeId) : Search ε String := fun s => (.accepted (s.supply.typeLabel a), s)

def bindingLabel (x : BindingId) : Search ε String := fun s =>
  (.accepted (s.supply.bindingLabel x), s)

def isWellFormed (ty : Ty) : Search ε Bool := fun s => (.accepted (s.context.wellFormed ty), s)

def isUnsolved (p : TypeId) : Search ε Bool := fun s => (.accepted (s.context.isUnsolved p), s)

def lookup (x : BindingId) : Search ε Ty := fun s =>
  match s.context.binding? x with
  | some ty => (.accepted ty, s)
  | none => (.rejected, s)

/-- Take a quantified variable as rigid: declare it in a child scope for the body. -/
@[inline] def rigidly [SearchError ε] (a : TypeId) (body : Search ε α) : Search ε α :=
  atomically <| inChildScope do
    let _ ← declare a
    body

/-- Take a quantified variable as unknown: the body gets `ty` with a fresh placeholder in place of
`a`. -/
@[inline] def introducing (a : TypeId) (ty : Ty) (body : Ty → Search ε α) : Search ε α := do
  let p ← introduce (← typeLabel a)
  body (ty.subst a (.placeholder p))

@[inline] def flexibly [SearchError ε] (a : TypeId) (ty : Ty) (body : Ty → Search ε α) :
    Search ε α :=
  atomically <| inChildScope <| introducing a ty body

end Judgment
end HigherRank
