import HigherRank.Proofs.LabelledText

set_option autoImplicit false

/-!
# Text can be read in one way

The printers leave out most parentheses, and yet nothing but the identifiers is lost: if all labels are
legible, a text is that of one type or term with labels. Text is read from the left, and whatever has been
read leaves one text that is still to be read. A label ends where a reserved character stands, a type where
nothing or a closing parenthesis follows, and a term there or before the colon of an annotation. Between
these ends, an application is a sequence of terms that are apart by blanks.
-/
namespace HigherRank

/-- Where `x` is printed and a text follows that may stand there, both can be told from the whole. -/
def ReadOff {α : Type} (text : α → List Char) (Legible : α → Prop) (Ends : List Char → Prop)
    (x : α) : Prop :=
  ∀ y rest rest', Legible y → Ends rest → Ends rest' →
    text x ++ rest = text y ++ rest' → x = y ∧ rest = rest'

/-- The text ends, or goes on with a reserved character. -/
def Delimited (rest : List Char) : Prop := ∀ c ∈ rest.head?, isReserved c = true

def Closed (rest : List Char) : Prop := ∀ c ∈ rest.head?, c = ')'

def Terminated (rest : List Char) : Prop := Closed rest ∨ ∃ more, rest = ' ' :: ':' :: more

variable {c : Char} {cs rest : List Char} {label : String}

theorem delimited_cons (h : isReserved c = true) : Delimited (c :: cs) := by
  intro d hd
  cases hd
  exact h

theorem closed_nil : Closed [] := fun _ hc => by cases hc

theorem closed_cons : Closed (')' :: cs) := by
  intro d hd
  cases hd
  rfl

theorem Closed.delimited (h : Closed rest) : Delimited rest := by
  intro c hc
  rw [h c hc]
  rfl

theorem Terminated.delimited (h : Terminated rest) : Delimited rest := by
  rcases h with h | ⟨more, rfl⟩
  · exact h.delimited
  · exact delimited_cons rfl

theorem not_closed_blank : ¬ Closed (' ' :: cs) := by
  intro h
  have hblank : ' ' = ')' := h ' ' rfl
  exact absurd hblank (by decide)

def sign? (cs : List Char) : Option Char := cs.head?.filter isReserved

theorem sign?_cons (h : isReserved c = true) : sign? (c :: cs) = some c := by
  simp [sign?, Option.filter, h]

theorem LegibleLabel.sign?_append (h : LegibleLabel label) (rest : List Char) :
    sign? (label.toList ++ rest) = none := by
  cases hl : label.toList with
  | nil => exact absurd (String.toList_eq_nil_iff.1 hl) h.1
  | cons c cs =>
    have hc : isReserved c = false := h.2 c (by simp [hl])
    simp [sign?, Option.filter, hc]

theorem LegibleLabel.span_append (h : LegibleLabel label) (hr : Delimited rest) :
    (label.toList ++ rest).takeWhile (fun c => !isReserved c) = label.toList ∧
      (label.toList ++ rest).dropWhile (fun c => !isReserved c) = rest := by
  have hplain : ∀ c ∈ label.toList, (!isReserved c) = true := fun c hc => by simp [h.2 c hc]
  rw [List.takeWhile_append_of_pos hplain, List.dropWhile_append_of_pos hplain]
  cases rest with
  | nil => simp
  | cons c cs =>
    have hc : isReserved c = true := hr c rfl
    simp [hc]

theorem LegibleLabel.readOff (h : LegibleLabel label) :
    ReadOff String.toList LegibleLabel Delimited label := by
  intro label' rest rest' h' hr hr' heq
  obtain ⟨htake, hdrop⟩ := h.span_append hr
  obtain ⟨htake', hdrop'⟩ := h'.span_append hr'
  rw [heq] at htake hdrop
  exact ⟨String.toList_inj.1 (htake.symm.trans htake'), hdrop.symm.trans hdrop'⟩

theorem LegibleLabel.readOff_binder (h : LegibleLabel label) {label' : String} {cs cs' : List Char}
    (h' : LegibleLabel label')
    (heq : label.toList ++ '.' :: ' ' :: cs = label'.toList ++ '.' :: ' ' :: cs') :
    label = label' ∧ cs = cs' := by
  obtain ⟨hlabel, hrest⟩ := h.readOff label' _ _ h' (delimited_cons rfl) (delimited_cons rfl) heq
  simp only [List.cons.injEq, true_and] at hrest
  exact ⟨hlabel, hrest⟩

namespace LabelledTy

variable {t u parameter result body : LabelledTy}

theorem asParameter_of_atom (h : t.opensRight = false) : t.asParameter = t.text := by
  simp [asParameter, enclosedIf, h]

theorem asParameter_of_opensRight (h : t.opensRight = true) (rest : List Char) :
    t.asParameter ++ rest = '(' :: (t.text ++ ')' :: rest) := by
  simp [asParameter, enclosedIf, h]

theorem text_arrow (parameter result : LabelledTy) (rest : List Char) :
    (arrow parameter result).text ++ rest =
      parameter.asParameter ++ ' ' :: '-' :: '>' :: ' ' :: (result.text ++ rest) := by
  simp [text, asParameter]

theorem text_forAll (label : String) (body : LabelledTy) (rest : List Char) :
    (forAll label body).text ++ rest = '∀' :: (label.toList ++ '.' :: ' ' :: (body.text ++ rest)) := by
  simp [text]

def sign : LabelledTy → Option Char
  | void => none
  | var _ => none
  | placeholder _ => some '^'
  | forAll _ _ => some '('
  | arrow _ _ => some '('

def leadingSign : LabelledTy → Option Char
  | forAll _ _ => some '∀'
  | arrow parameter _ => parameter.sign
  | t => t.sign

theorem sign?_asParameter (h : t.Legible) (rest : List Char) :
    sign? (t.asParameter ++ rest) = t.sign := by
  cases t with
  | void => rfl
  | var label => exact h.1.sign?_append rest
  | placeholder label => exact sign?_cons rfl
  | forAll label body => exact sign?_cons rfl
  | arrow parameter result => exact sign?_cons rfl

theorem sign?_text (h : t.Legible) (rest : List Char) : sign? (t.text ++ rest) = t.leadingSign := by
  cases t with
  | void => rfl
  | var label => exact h.1.sign?_append rest
  | placeholder label => exact sign?_cons rfl
  | forAll label body => exact sign?_cons rfl
  | arrow parameter result =>
    rw [text_arrow]
    exact sign?_asParameter h.1 _

theorem sign_eq {rest rest' : List Char} (h : t.Legible) (hu : u.Legible)
    (heq : t.asParameter ++ rest = u.asParameter ++ rest') : t.sign = u.sign := by
  rw [← sign?_asParameter h rest, heq, sign?_asParameter hu]

theorem leadingSign_eq {rest rest' : List Char} (h : t.Legible) (hu : u.Legible)
    (heq : t.text ++ rest = u.text ++ rest') : t.leadingSign = u.leadingSign := by
  rw [← sign?_text h rest, heq, sign?_text hu]

theorem sign_eq_open : t.sign = some '(' ↔ t.opensRight = true := by
  cases t <;> simp [sign, opensRight]

theorem sign_ne_forAll : t.sign ≠ some '∀' := by
  cases t <;> simp [sign]

theorem readOff_asParameter_of_atom (h : t.Legible) (ht : t.opensRight = false) :
    ReadOff asParameter Legible Delimited t := by
  intro u rest rest' hu hr hr' heq
  have hsign := sign_eq h hu heq
  have hvoid : LegibleLabel "void" := by decide
  cases t with
  | void =>
    cases u with
    | void => exact ⟨rfl, (hvoid.readOff "void" rest rest' hvoid hr hr' heq).2⟩
    | var label => exact absurd (hvoid.readOff label rest rest' hu.1 hr hr' heq).1.symm hu.2
    | _ => cases hsign
  | var label =>
    cases u with
    | void => exact absurd (h.1.readOff "void" rest rest' hvoid hr hr' heq).1 h.2
    | var label' =>
      obtain ⟨rfl, hrest⟩ := h.1.readOff label' rest rest' hu.1 hr hr' heq
      exact ⟨rfl, hrest⟩
    | _ => cases hsign
  | placeholder label =>
    cases u with
    | placeholder label' =>
      have htail := (List.cons.inj heq).2
      obtain ⟨rfl, hrest⟩ := h.1.readOff label' rest rest' hu.1 hr hr' htail
      exact ⟨rfl, hrest⟩
    | _ => cases hsign
  | forAll label body => cases ht
  | arrow parameter result => cases ht

theorem readOff_asParameter_of_text (h : t.Legible) (ht : t.opensRight = true)
    (hread : ReadOff text Legible Closed t) : ReadOff asParameter Legible Delimited t := by
  intro u rest rest' hu _ _ heq
  have hopen : u.opensRight = true := sign_eq_open.1 (sign_eq h hu heq ▸ sign_eq_open.2 ht)
  rw [asParameter_of_opensRight ht, asParameter_of_opensRight hopen] at heq
  obtain ⟨htu, hrest⟩ := hread u _ _ hu closed_cons closed_cons (List.cons.inj heq).2
  exact ⟨htu, (List.cons.inj hrest).2⟩

theorem readOff_text_of_atom (h : t.Legible) (ht : t.opensRight = false) :
    ReadOff text Legible Closed t := by
  intro u rest rest' hu hr hr' heq
  rw [← asParameter_of_atom ht] at heq
  have hsign : t.sign = u.leadingSign := by rw [← sign?_asParameter h rest, heq, sign?_text hu]
  have hread := readOff_asParameter_of_atom h ht
  cases u with
  | forAll label body => exact absurd hsign sign_ne_forAll
  | arrow parameter result =>
    rw [text_arrow] at heq
    obtain ⟨-, hrest⟩ := hread parameter rest _ hu.1 hr.delimited (delimited_cons rfl) heq
    exact absurd (hrest ▸ hr) not_closed_blank
  | _ => exact hread _ rest rest' hu hr.delimited hr'.delimited heq

theorem readOff_text_forAll (h : (forAll label body).Legible)
    (hbody : ReadOff text Legible Closed body) : ReadOff text Legible Closed (forAll label body) := by
  intro u rest rest' hu hr hr' heq
  have hsign : some '∀' = u.leadingSign := leadingSign_eq h hu heq
  cases u with
  | forAll label' body' =>
    rw [text_forAll, text_forAll] at heq
    obtain ⟨rfl, htail⟩ := h.1.1.readOff_binder hu.1.1 (List.cons.inj heq).2
    obtain ⟨rfl, hrest⟩ := hbody body' rest rest' hu.2 hr hr' htail
    exact ⟨rfl, hrest⟩
  | arrow parameter result => exact absurd hsign.symm sign_ne_forAll
  | _ => cases hsign

theorem readOff_text_arrow (h : (arrow parameter result).Legible)
    (hparameter : ReadOff asParameter Legible Delimited parameter)
    (hresult : ReadOff text Legible Closed result) :
    ReadOff text Legible Closed (arrow parameter result) := by
  intro u rest rest' hu hr hr' heq
  have hsign : parameter.sign = u.leadingSign := leadingSign_eq h hu heq
  -- Against anything that is not an arrow, the parameter is read and an arrow follows.
  have hatom : u.opensRight = false → arrow parameter result = u ∧ rest = rest' := by
    intro hu'
    rw [text_arrow, ← asParameter_of_atom hu'] at heq
    obtain ⟨-, hrest⟩ := hparameter u _ rest' hu (delimited_cons rfl) hr'.delimited heq
    exact absurd (hrest ▸ hr') not_closed_blank
  cases u with
  | forAll label body => exact absurd hsign sign_ne_forAll
  | arrow parameter' result' =>
    rw [text_arrow, text_arrow] at heq
    obtain ⟨rfl, htail⟩ :=
      hparameter parameter' _ _ hu.1 (delimited_cons rfl) (delimited_cons rfl) heq
    simp only [List.cons.injEq, true_and] at htail
    obtain ⟨rfl, hrest⟩ := hresult result' rest rest' hu.2 hr hr' htail
    exact ⟨rfl, hrest⟩
  | _ => exact hatom rfl

theorem readOff (h : t.Legible) :
    ReadOff asParameter Legible Delimited t ∧ ReadOff text Legible Closed t := by
  induction t with
  | void => exact ⟨readOff_asParameter_of_atom h rfl, readOff_text_of_atom h rfl⟩
  | var label => exact ⟨readOff_asParameter_of_atom h rfl, readOff_text_of_atom h rfl⟩
  | placeholder label => exact ⟨readOff_asParameter_of_atom h rfl, readOff_text_of_atom h rfl⟩
  | forAll label body ih =>
    have hread := readOff_text_forAll h (ih h.2).2
    exact ⟨readOff_asParameter_of_text h rfl hread, hread⟩
  | arrow parameter result ihp ihr =>
    have hread := readOff_text_arrow h (ihp h.1).1 (ihr h.2).2
    exact ⟨readOff_asParameter_of_text h rfl hread, hread⟩

end LabelledTy

namespace LabelledTerm

variable {t u body : LabelledTerm}

/-- The head of an application and its arguments; any other term is a head of its own. -/
def spine : LabelledTerm → List LabelledTerm
  | app function argument => function.spine ++ [argument]
  | t => [t]

def sequence : List LabelledTerm → List Char
  | [] => []
  | t :: ts => ' ' :: (t.asArgument ++ sequence ts)

theorem sequence_append (ts us : List LabelledTerm) :
    sequence (ts ++ us) = sequence ts ++ sequence us := by
  induction ts with
  | nil => rfl
  | cons t ts ih => simp [sequence, ih]

theorem sequence_spine (t : LabelledTerm) :
    sequence t.spine = ' ' :: enclosedIf t.isLambda t.text := by
  induction t with
  | app function argument ih _ =>
    rw [spine, sequence_append, ih]
    simp [sequence, text, isLambda, asArgument, enclosedIf]
  | unit => rfl
  | ref label => simp [spine, sequence, asArgument, isCompound, isLambda, enclosedIf]
  | lam label body => simp [spine, sequence, asArgument, isCompound, isLambda, enclosedIf]
  | ann term ty => simp [spine, sequence, asArgument, isCompound, isLambda, enclosedIf]

theorem spine_cons (t : LabelledTerm) : ∃ u us, t.spine = u :: us := by
  cases hs : t.spine with
  | nil =>
    have htext := t.sequence_spine
    rw [hs] at htext
    cases htext
  | cons u us => exact ⟨u, us, rfl⟩

theorem spine_injective (h : t.spine = u.spine) : t = u := by
  -- An application has two terms in its spine at least, and any other term one.
  have hlength : ∀ function argument : LabelledTerm, ∀ v, (app function argument).spine ≠ [v] := by
    intro function argument v hv
    obtain ⟨w, ws, hw⟩ := function.spine_cons
    simp [spine, hw] at hv
  induction t generalizing u with
  | app function argument ih _ =>
    cases u with
    | app function' argument' =>
      obtain ⟨hfunction, hargument⟩ := List.append_inj' h rfl
      cases hargument
      rw [ih hfunction]
    | _ => exact absurd h (hlength _ _ _)
  | _ =>
    cases u with
    | app function' argument' => exact absurd h.symm (hlength _ _ _)
    | _ => exact (List.cons.inj h).1

theorem Legible.spine (h : t.Legible) : ∀ u ∈ t.spine, u.Legible := by
  induction t with
  | app function argument ih _ =>
    intro u hu
    rcases List.mem_append.1 hu with hu | hu
    · exact ih h.1 u hu
    · cases List.mem_singleton.1 hu
      exact h.2
  | _ =>
    intro u hu
    cases List.mem_singleton.1 hu
    exact h

theorem eq_lam_of_isLambda (h : t.isLambda = true) : ∃ label body, t = lam label body := by
  cases t with
  | lam label body => exact ⟨label, body, rfl⟩
  | _ => cases h

theorem asArgument_of_isCompound (h : t.isCompound = true) (rest : List Char) :
    t.asArgument ++ rest = '(' :: (t.text ++ ')' :: rest) := by
  simp [asArgument, enclosedIf, h]

theorem asArgument_ann (t : LabelledTerm) (ty : LabelledTy) (rest : List Char) :
    (ann t ty).asArgument ++ rest =
      '(' :: (t.text ++ ' ' :: ':' :: ' ' :: (ty.text ++ ')' :: rest)) := by
  simp [asArgument, isCompound, enclosedIf, text]

theorem text_lam (label : String) (body : LabelledTerm) (rest : List Char) :
    (lam label body).text ++ rest = 'λ' :: (label.toList ++ '.' :: ' ' :: (body.text ++ rest)) := by
  simp [text]

def sign : LabelledTerm → Option Char
  | ref _ => none
  | _ => some '('

theorem sign?_asArgument (h : t.Legible) (rest : List Char) :
    sign? (t.asArgument ++ rest) = t.sign := by
  cases t with
  | ref label => exact LegibleLabel.sign?_append h rest
  | _ => exact sign?_cons rfl

theorem sign_eq {rest rest' : List Char} (h : t.Legible) (hu : u.Legible)
    (heq : t.asArgument ++ rest = u.asArgument ++ rest') : t.sign = u.sign := by
  rw [← sign?_asArgument h rest, heq, sign?_asArgument hu]

theorem sign_ne (hc : c ≠ '(') : t.sign ≠ some c := by
  cases t with
  | ref label => simp [sign]
  | _ => simpa [sign] using hc.symm

theorem sign?_text_ne (h : t.Legible) (rest : List Char) (hc : c ≠ '(')
    (hlambda : t.isLambda = true → c ≠ 'λ') : sign? (t.text ++ rest) ≠ some c := by
  cases hl : t.isLambda with
  | true =>
    obtain ⟨label, body, rfl⟩ := eq_lam_of_isLambda hl
    rw [text_lam, sign?_cons rfl]
    simpa using (hlambda hl).symm
  | false =>
    obtain ⟨u, us, hs⟩ := t.spine_cons
    have htext := t.sequence_spine
    rw [hs, hl] at htext
    simp only [sequence, enclosedIf, Bool.false_eq_true, if_false, List.cons.injEq,
      true_and] at htext
    rw [← htext, List.append_assoc, sign?_asArgument (h.spine u (by simp [hs]))]
    exact sign_ne hc

theorem text_append_ne_close (h : t.Legible) (more rest : List Char) :
    t.text ++ more ≠ ')' :: rest := by
  intro heq
  refine sign?_text_ne h more (c := ')') (by decide) (fun _ => by decide) ?_
  rw [heq]
  rfl

theorem not_terminated_argument (h : t.Legible) (rest : List Char) :
    ¬ Terminated (' ' :: (t.asArgument ++ rest)) := by
  rintro (hclosed | ⟨more, heq⟩)
  · exact not_closed_blank hclosed
  · have hsign : t.sign = some ':' := by
      rw [← sign?_asArgument h rest, (List.cons.inj heq).2, sign?_cons rfl]
    exact sign_ne (by decide) hsign

theorem delimited_sequence (ts : List LabelledTerm) (h : Terminated rest) :
    Delimited (sequence ts ++ rest) := by
  cases ts with
  | nil => exact h.delimited
  | cons t ts => exact delimited_cons rfl

theorem readOff_sequence {ts : List LabelledTerm}
    (h : ∀ t ∈ ts, t.Legible ∧ ReadOff asArgument Legible Delimited t) :
    ReadOff sequence (fun us => ∀ u ∈ us, u.Legible) Terminated ts := by
  induction ts with
  | nil =>
    intro us rest rest' hus hr _ heq
    cases us with
    | nil => exact ⟨rfl, heq⟩
    | cons u us =>
      simp only [sequence, List.nil_append, List.cons_append, List.append_assoc] at heq
      exact absurd (heq ▸ hr) (not_terminated_argument (hus u (by simp)) _)
  | cons t ts ih =>
    intro us rest rest' hus hr hr' heq
    obtain ⟨ht, hread⟩ := h t (by simp)
    cases us with
    | nil =>
      simp only [sequence, List.nil_append, List.cons_append, List.append_assoc] at heq
      exact absurd (heq ▸ hr') (not_terminated_argument ht _)
    | cons u us =>
      simp only [sequence, List.cons_append, List.append_assoc, List.cons.injEq, true_and] at heq
      obtain ⟨rfl, htail⟩ := hread u _ _ (hus u (by simp)) (delimited_sequence ts hr)
        (delimited_sequence us hr') heq
      obtain ⟨rfl, hrest⟩ := ih (fun t' ht' => h t' (by simp [ht'])) us rest rest'
        (fun u' hu' => hus u' (by simp [hu'])) hr hr' htail
      exact ⟨rfl, hrest⟩

theorem readOff_asArgument_of_text (h : t.Legible) (ht : t.isCompound = true)
    (hread : ReadOff text Legible Terminated t) : ReadOff asArgument Legible Delimited t := by
  intro u rest rest' hu _ _ heq
  have hsign := sign_eq h hu heq
  rw [asArgument_of_isCompound ht] at heq
  -- A term that is a compound as well is closed in the same way.
  have hcompound : u.isCompound = true → t = u ∧ rest = rest' := by
    intro hu'
    rw [asArgument_of_isCompound hu'] at heq
    obtain ⟨htu, hrest⟩ :=
      hread u _ _ hu (.inl closed_cons) (.inl closed_cons) (List.cons.inj heq).2
    exact ⟨htu, (List.cons.inj hrest).2⟩
  cases u with
  | unit => exact absurd (List.cons.inj heq).2 (text_append_ne_close h _ _)
  | ref label =>
    cases t with
    | ref label' => cases ht
    | _ => cases hsign
  | ann term ty =>
    rw [asArgument_ann] at heq
    obtain ⟨-, hrest⟩ :=
      hread term _ _ hu.1 (.inl closed_cons) (.inr ⟨_, rfl⟩) (List.cons.inj heq).2
    exact absurd (List.cons.inj hrest).1 (by decide)
  | lam label body => exact hcompound rfl
  | app function argument => exact hcompound rfl

theorem readOff_asArgument_unit : ReadOff asArgument Legible Delimited unit := by
  intro u rest rest' hu _ _ heq
  have hsign : some '(' = u.sign := sign_eq (t := unit) trivial hu heq
  have hcompound : u.isCompound = false := by
    cases hu' : u.isCompound with
    | false => rfl
    | true =>
      rw [asArgument_of_isCompound hu'] at heq
      exact absurd (List.cons.inj heq).2.symm (text_append_ne_close hu _ _)
  cases u with
  | unit => exact ⟨rfl, (List.cons.inj (List.cons.inj heq).2).2⟩
  | ref label => cases hsign
  | ann term ty =>
    rw [asArgument_ann] at heq
    exact absurd (List.cons.inj heq).2.symm (text_append_ne_close hu.1 _ _)
  | lam label body => cases hcompound
  | app function argument => cases hcompound

theorem readOff_asArgument_ref (h : LegibleLabel label) :
    ReadOff asArgument Legible Delimited (ref label) := by
  intro u rest rest' hu hr hr' heq
  have hsign : none = u.sign := sign_eq (t := ref label) h hu heq
  cases u with
  | ref label' =>
    obtain ⟨rfl, hrest⟩ := h.readOff label' rest rest' hu hr hr' heq
    exact ⟨rfl, hrest⟩
  | _ => cases hsign

theorem readOff_asArgument_ann {ty : LabelledTy} (h : (ann t ty).Legible)
    (hread : ReadOff text Legible Terminated t) :
    ReadOff asArgument Legible Delimited (ann t ty) := by
  intro u rest rest' hu _ _ heq
  have hsign : some '(' = u.sign := sign_eq h hu heq
  rw [asArgument_ann] at heq
  have hcompound : u.isCompound = false := by
    cases hu' : u.isCompound with
    | false => rfl
    | true =>
      rw [asArgument_of_isCompound hu'] at heq
      obtain ⟨-, hrest⟩ :=
        hread u _ _ hu (.inr ⟨_, rfl⟩) (.inl closed_cons) (List.cons.inj heq).2
      exact absurd (List.cons.inj hrest).1 (by decide)
  cases u with
  | unit => exact absurd (List.cons.inj heq).2 (text_append_ne_close h.1 _ _)
  | ref label => cases hsign
  | ann term ty' =>
    rw [asArgument_ann] at heq
    obtain ⟨rfl, htail⟩ :=
      hread term _ _ hu.1 (.inr ⟨_, rfl⟩) (.inr ⟨_, rfl⟩) (List.cons.inj heq).2
    simp only [List.cons.injEq, true_and] at htail
    obtain ⟨rfl, hrest⟩ :=
      (LabelledTy.readOff h.2).2 ty' _ _ hu.2 closed_cons closed_cons htail
    exact ⟨rfl, (List.cons.inj hrest).2⟩
  | lam label body => cases hcompound
  | app function argument => cases hcompound

theorem readOff_text_lam (h : (lam label body).Legible)
    (hbody : ReadOff text Legible Terminated body) :
    ReadOff text Legible Terminated (lam label body) := by
  intro u rest rest' hu hr hr' heq
  have hsign : sign? (u.text ++ rest') = some 'λ' := by rw [← heq, text_lam, sign?_cons rfl]
  cases hl : u.isLambda with
  | false => exact absurd hsign (sign?_text_ne hu rest' (by decide) (by simp [hl]))
  | true =>
    obtain ⟨label', body', rfl⟩ := eq_lam_of_isLambda hl
    rw [text_lam, text_lam] at heq
    obtain ⟨rfl, htail⟩ := h.1.readOff_binder hu.1 (List.cons.inj heq).2
    obtain ⟨rfl, hrest⟩ := hbody body' rest rest' hu.2 hr hr' htail
    exact ⟨rfl, hrest⟩

/-- What is not a lambda is read as its head and arguments, one after another. -/
theorem readOff_text_of_spine (h : t.Legible) (ht : t.isLambda = false)
    (hread : ∀ u ∈ t.spine, ReadOff asArgument Legible Delimited u) :
    ReadOff text Legible Terminated t := by
  intro u rest rest' hu hr hr' heq
  have hl : u.isLambda = false := by
    cases hl : u.isLambda with
    | false => rfl
    | true =>
      obtain ⟨label, body, rfl⟩ := eq_lam_of_isLambda hl
      have hsign : sign? (t.text ++ rest) = some 'λ' := by rw [heq, text_lam, sign?_cons rfl]
      exact absurd hsign (sign?_text_ne h rest (by decide) (by simp [ht]))
  have hspines : sequence t.spine ++ rest = sequence u.spine ++ rest' := by
    rw [sequence_spine, sequence_spine, ht, hl]
    exact congrArg (' ' :: ·) heq
  obtain ⟨hspine, hrest⟩ := readOff_sequence (fun v hv => ⟨h.spine v hv, hread v hv⟩)
    u.spine rest rest' hu.spine hr hr' hspines
  exact ⟨spine_injective hspine, hrest⟩

/-- A term can be read off as an argument and as a whole, and so can the parts of its spine, from which
an application is put together. -/
structure Readable (t : LabelledTerm) : Prop where
  argument : ReadOff asArgument Legible Delimited t
  whole : ReadOff text Legible Terminated t
  parts : ∀ u ∈ t.spine, ReadOff asArgument Legible Delimited u

theorem Readable.of_argument (h : t.Legible) (ht : t.isLambda = false) (hs : t.spine = [t])
    (hread : ReadOff asArgument Legible Delimited t) : t.Readable := by
  have hparts : ∀ u ∈ t.spine, ReadOff asArgument Legible Delimited u := by
    intro u hu
    rw [hs] at hu
    cases List.mem_singleton.1 hu
    exact hread
  exact ⟨hread, readOff_text_of_spine h ht hparts, hparts⟩

theorem readable (h : t.Legible) : t.Readable := by
  -- An application begins with the spine of its function, and not with the function as a whole.
  induction t with
  | unit => exact .of_argument h rfl rfl readOff_asArgument_unit
  | ref label => exact .of_argument h rfl rfl (readOff_asArgument_ref h)
  | lam label body ih =>
    have hwhole := readOff_text_lam h (ih h.2).whole
    have hargument := readOff_asArgument_of_text h rfl hwhole
    refine ⟨hargument, hwhole, fun u hu => ?_⟩
    cases List.mem_singleton.1 hu
    exact hargument
  | app function argument ihf iha =>
    have hparts : ∀ u ∈ (app function argument).spine, ReadOff asArgument Legible Delimited u := by
      intro u hu
      rcases List.mem_append.1 hu with hu | hu
      · exact (ihf h.1).parts u hu
      · cases List.mem_singleton.1 hu
        exact (iha h.2).argument
    have hwhole := readOff_text_of_spine h rfl hparts
    exact ⟨readOff_asArgument_of_text h rfl hwhole, hwhole, hparts⟩
  | ann term ty ih =>
    exact .of_argument h rfl rfl (readOff_asArgument_ann h (ih h.1).whole)

end LabelledTerm

theorem ReadOff.eq_of_text {α : Type} {text : α → List Char} {Legible : α → Prop}
    {Ends : List Char → Prop} {x y : α} (h : ReadOff text Legible Ends x) (hnil : Ends [])
    (hy : Legible y) (heq : text x = text y) : x = y :=
  (h y [] [] hy hnil hnil (by rw [heq])).1

/-- Types have the same text exactly if they are the same but for identifiers under one label, and so
have terms: with legible labels no text is ambiguous. -/
theorem render_unambiguous (typeLabel typeLabel' : TypeId → String)
    (bindingLabel bindingLabel' : BindingId → String) :
    (∀ A B : Ty, (A.labelled typeLabel).Legible → (B.labelled typeLabel').Legible →
      (A.render typeLabel = B.render typeLabel' ↔
        A.labelled typeLabel = B.labelled typeLabel')) ∧
    ∀ s t : Term, (s.labelled typeLabel bindingLabel).Legible →
      (t.labelled typeLabel' bindingLabel').Legible →
      (s.render typeLabel bindingLabel = t.render typeLabel' bindingLabel' ↔
        s.labelled typeLabel bindingLabel = t.labelled typeLabel' bindingLabel') := by
  refine ⟨fun A B hA hB => ?_, fun s t hs ht => ?_⟩
  · rw [← String.toList_inj, Ty.toList_render, Ty.toList_render]
    exact ⟨(LabelledTy.readOff hA).2.eq_of_text closed_nil hB, congrArg LabelledTy.text⟩
  · rw [← String.toList_inj, Term.toList_render, Term.toList_render]
    exact ⟨(LabelledTerm.readable hs).whole.eq_of_text (.inl closed_nil) ht,
      congrArg LabelledTerm.text⟩

namespace Homonyms

def supply : Supply where
  types := #["a", "p-param", "a", "p-param"]
  bindings := #["x", "void", "x", "void"]

def ty (a p : TypeId) : Ty :=
  .arrow (.forAll a (.arrow (.var a) (.var a))) (.arrow (.placeholder p) .void)

def term (x f : BindingId) (a p : TypeId) : Term :=
  .app (.app (.lam x (.app (.ref f) (.ref x))) (.ann (.lam x .unit) (ty a p)))
    (.app (.ref f) .unit)

theorem texts_unambiguous :
    let label := supply.typeLabel
    let bindingLabel := supply.bindingLabel
    let s := term ⟨0⟩ ⟨1⟩ ⟨0⟩ ⟨1⟩
    let t := term ⟨2⟩ ⟨3⟩ ⟨2⟩ ⟨3⟩
    (ty ⟨0⟩ ⟨1⟩).render label = "(∀a. a -> a) -> ^p-param -> void" ∧
      (ty ⟨0⟩ ⟨1⟩).labelled label = (ty ⟨2⟩ ⟨3⟩).labelled label ∧
      s.render label bindingLabel =
        "(λx. void x) (λx. () : (∀a. a -> a) -> ^p-param -> void) (void ())" ∧
      s ≠ t ∧ s.labelled label bindingLabel = t.labelled label bindingLabel := by
  intro label bindingLabel s t
  have hread := render_unambiguous label label bindingLabel bindingLabel
  have htypes := (hread.1 (ty ⟨0⟩ ⟨1⟩) (ty ⟨2⟩ ⟨3⟩) (by decide) (by decide)).1 (by decide)
  have hterms := (hread.2 s t (by decide) (by decide)).1 (by decide)
  exact ⟨by decide, htypes, by decide, by decide, hterms⟩

end Homonyms
end HigherRank
