import HigherRank.Term.Printer
import HigherRank.Text.WhiteSpace

set_option autoImplicit false

/-!
# Types and terms as they are printed

Of an identifier only its label is printed. So what a text can tell is a type or a term with labels in
place of the identifiers, and the printers are functions of these. Labels are free texts: a label is
legible if it has no character that the printers write themselves.
-/
namespace HigherRank

/-- White space, and the characters that stand around labels. -/
def isReserved (c : Char) : Bool :=
  Text.isWhiteSpace c || ['(', ')', '.', ':', '>', '^', '∀', 'λ'].contains c

/-- A label that can be told from the text around it. -/
def LegibleLabel (label : String) : Prop :=
  label ≠ "" ∧ ∀ c ∈ label.toList, isReserved c = false

/-- The label of a type must not be taken for the constant, either. -/
def LegibleTypeLabel (label : String) : Prop := LegibleLabel label ∧ label ≠ "void"

instance LegibleLabel.decidable (label : String) : Decidable (LegibleLabel label) :=
  have := List.decidableBAll (fun c => isReserved c = false) label.toList
  inferInstanceAs (Decidable (_ ∧ _))

instance LegibleTypeLabel.decidable (label : String) : Decidable (LegibleTypeLabel label) :=
  inferInstanceAs (Decidable (_ ∧ _))

/-- A type with labels in place of the identifiers. -/
inductive LabelledTy where
  | void
  | var (label : String)
  | placeholder (label : String)
  | forAll (label : String) (body : LabelledTy)
  | arrow (parameter result : LabelledTy)
deriving DecidableEq

inductive LabelledTerm where
  | unit
  | ref (label : String)
  | lam (label : String) (body : LabelledTerm)
  | app (function argument : LabelledTerm)
  | ann (term : LabelledTerm) (ty : LabelledTy)
deriving DecidableEq

def Ty.labelled (label : TypeId → String) : Ty → LabelledTy
  | void => .void
  | var a => .var (label a)
  | placeholder p => .placeholder (label p)
  | forAll a body => .forAll (label a) (body.labelled label)
  | arrow parameter result => .arrow (parameter.labelled label) (result.labelled label)

def Term.labelled (typeLabel : TypeId → String) (bindingLabel : BindingId → String) :
    Term → LabelledTerm
  | unit => .unit
  | ref x => .ref (bindingLabel x)
  | lam x body => .lam (bindingLabel x) (body.labelled typeLabel bindingLabel)
  | app function argument =>
    .app (function.labelled typeLabel bindingLabel) (argument.labelled typeLabel bindingLabel)
  | ann term ty => .ann (term.labelled typeLabel bindingLabel) (ty.labelled typeLabel)

def enclosedIf (condition : Bool) (cs : List Char) : List Char :=
  if condition then '(' :: cs ++ [')'] else cs

theorem toList_parenthesizedIf (condition : Bool) (text : String) :
    (parenthesizedIf condition text).toList = enclosedIf condition text.toList := by
  cases condition with
  | false => rfl
  | true => simp [parenthesizedIf, enclosedIf]

namespace LabelledTy

def Legible : LabelledTy → Prop
  | void => True
  | var label => LegibleTypeLabel label
  | placeholder label => LegibleTypeLabel label
  | forAll label body => LegibleTypeLabel label ∧ body.Legible
  | arrow parameter result => parameter.Legible ∧ result.Legible

instance Legible.decidable : (t : LabelledTy) → Decidable t.Legible
  | void => isTrue trivial
  | var label => LegibleTypeLabel.decidable label
  | placeholder label => LegibleTypeLabel.decidable label
  | forAll _ body =>
    have := Legible.decidable body
    inferInstanceAs (Decidable (_ ∧ _))
  | arrow parameter result =>
    have := Legible.decidable parameter
    have := Legible.decidable result
    inferInstanceAs (Decidable (_ ∧ _))

def opensRight : LabelledTy → Bool
  | forAll _ _ => true
  | arrow _ _ => true
  | _ => false

def text : LabelledTy → List Char
  | void => ['v', 'o', 'i', 'd']
  | var label => label.toList
  | placeholder label => '^' :: label.toList
  | forAll label body => '∀' :: (label.toList ++ '.' :: ' ' :: body.text)
  | arrow parameter result =>
    enclosedIf parameter.opensRight parameter.text ++ ' ' :: '-' :: '>' :: ' ' :: result.text

def asParameter (t : LabelledTy) : List Char := enclosedIf t.opensRight t.text

end LabelledTy

theorem Ty.opensRight_labelled (label : TypeId → String) (ty : Ty) :
    (ty.labelled label).opensRight = ty.opensRight := by
  cases ty <;> rfl

theorem Ty.toList_render (label : TypeId → String) (ty : Ty) :
    (ty.render label).toList = (ty.labelled label).text := by
  induction ty with
  | void => simp [render, labelled, LabelledTy.text]
  | var a => rfl
  | placeholder p => simp [render, labelled, LabelledTy.text]
  | forAll a body ih => simp [render, labelled, LabelledTy.text, ih]
  | arrow parameter result ihp ihr =>
    simp [render, labelled, LabelledTy.text, ihp, ihr, toList_parenthesizedIf, opensRight_labelled]

namespace LabelledTerm

def Legible : LabelledTerm → Prop
  | unit => True
  | ref label => LegibleLabel label
  | lam label body => LegibleLabel label ∧ body.Legible
  | app function argument => function.Legible ∧ argument.Legible
  | ann term ty => term.Legible ∧ ty.Legible

instance Legible.decidable : (t : LabelledTerm) → Decidable t.Legible
  | unit => isTrue trivial
  | ref label => LegibleLabel.decidable label
  | lam _ body =>
    have := Legible.decidable body
    inferInstanceAs (Decidable (_ ∧ _))
  | app function argument =>
    have := Legible.decidable function
    have := Legible.decidable argument
    inferInstanceAs (Decidable (_ ∧ _))
  | ann term _ =>
    have := Legible.decidable term
    inferInstanceAs (Decidable (_ ∧ _))

def isLambda : LabelledTerm → Bool
  | lam _ _ => true
  | _ => false

def isCompound : LabelledTerm → Bool
  | lam _ _ => true
  | app _ _ => true
  | _ => false

def text : LabelledTerm → List Char
  | unit => ['(', ')']
  | ref label => label.toList
  | lam label body => 'λ' :: (label.toList ++ '.' :: ' ' :: body.text)
  | app function argument =>
    enclosedIf function.isLambda function.text ++
      ' ' :: enclosedIf argument.isCompound argument.text
  | ann term ty => '(' :: (term.text ++ ' ' :: ':' :: ' ' :: (ty.text ++ [')']))

def asArgument (t : LabelledTerm) : List Char := enclosedIf t.isCompound t.text

end LabelledTerm

theorem Term.isLambda_labelled (typeLabel : TypeId → String) (bindingLabel : BindingId → String)
    (t : Term) : (t.labelled typeLabel bindingLabel).isLambda = t.isLambda := by
  cases t <;> rfl

theorem Term.isCompound_labelled (typeLabel : TypeId → String) (bindingLabel : BindingId → String)
    (t : Term) : (t.labelled typeLabel bindingLabel).isCompound = t.isCompound := by
  cases t <;> rfl

theorem Term.toList_render (typeLabel : TypeId → String) (bindingLabel : BindingId → String)
    (t : Term) :
    (t.render typeLabel bindingLabel).toList = (t.labelled typeLabel bindingLabel).text := by
  induction t with
  | unit => simp [render, labelled, LabelledTerm.text]
  | ref x => rfl
  | lam x body ih => simp [render, labelled, LabelledTerm.text, ih]
  | app function argument ihf iha =>
    simp [render, labelled, LabelledTerm.text, ihf, iha, toList_parenthesizedIf, isLambda_labelled,
      isCompound_labelled]
  | ann term ty ih => simp [render, labelled, LabelledTerm.text, ih, Ty.toList_render]

end HigherRank
