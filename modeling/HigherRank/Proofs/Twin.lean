import HigherRank.Proofs.Growth
import HigherRank.Proofs.Guard
import HigherRank.Proofs.Order

set_option autoImplicit false

/-!
# Twin contexts

Two runs of the checker that differ in the identifiers they give out have contexts of the same shape.
Such a pair is one list of twin entries, which says what variable and what placeholder of the one
corresponds to what of the other. Types match if they correspond leaf by leaf below equal quantifiers;
the quantifiers are the ones that were written, `names`, and the variables of the second context are
never among these.
-/
namespace HigherRank

inductive Twin where
  | var (a b : TypeId)
  | unsolved (p q : TypeId)
  | solved (p q : TypeId) (τ υ : Ty)
  | binding (x : BindingId) (τ υ : Ty)
  | marker (m : Marker)

namespace Twin

def left : Twin → Entry
  | var a _ => .var a
  | unsolved p _ => .unsolved p
  | solved p _ τ _ => .solved p τ
  | binding x τ _ => .binding x τ
  | marker m => .marker m

def right : Twin → Entry
  | var _ b => .var b
  | unsolved _ q => .unsolved q
  | solved _ q _ υ => .solved q υ
  | binding x _ υ => .binding x υ
  | marker m => .marker m

def rigid? : Twin → Option (TypeId × TypeId)
  | var a b => some (a, b)
  | _ => none

def placeholder? : Twin → Option (TypeId × TypeId)
  | unsolved p q => some (p, q)
  | solved p q _ _ => some (p, q)
  | _ => none

end Twin

/-- Two contexts of the same shape, oldest entries first. -/
abbrev Twins := List Twin

namespace Twins

def left (Ξ : Twins) : Context := Ξ.map Twin.left

def right (Ξ : Twins) : Context := Ξ.map Twin.right

def rigid (Ξ : Twins) : List (TypeId × TypeId) := Ξ.filterMap Twin.rigid?

def placeholders (Ξ : Twins) : List (TypeId × TypeId) := Ξ.filterMap Twin.placeholder?

theorem left_append (Ξ Θ : Twins) : left (Ξ ++ Θ) = Ξ.left ++ left Θ := List.map_append

theorem right_append (Ξ Θ : Twins) : right (Ξ ++ Θ) = Ξ.right ++ right Θ := List.map_append

theorem rigid_append (Ξ Θ : Twins) : rigid (Ξ ++ Θ) = Ξ.rigid ++ rigid Θ :=
  List.filterMap_append

theorem placeholders_append (Ξ Θ : Twins) :
    placeholders (Ξ ++ Θ) = Ξ.placeholders ++ placeholders Θ :=
  List.filterMap_append

theorem rigid_cons (e : Twin) (Ξ : Twins) : rigid (e :: Ξ) = e.rigid?.toList ++ Ξ.rigid := by
  cases e <;> rfl

theorem placeholders_cons (e : Twin) (Ξ : Twins) :
    placeholders (e :: Ξ) = e.placeholder?.toList ++ Ξ.placeholders := by
  cases e <;> rfl

theorem rigid_left (Ξ : Twins) : Ξ.left.rigid = Ξ.rigid.map Prod.fst := by
  rw [left, rigid, Context.rigid, List.filterMap_map, List.map_filterMap]
  refine congrArg (List.filterMap · Ξ) (funext fun e => ?_)
  cases e <;> rfl

theorem rigid_right (Ξ : Twins) : Ξ.right.rigid = Ξ.rigid.map Prod.snd := by
  rw [right, rigid, Context.rigid, List.filterMap_map, List.map_filterMap]
  refine congrArg (List.filterMap · Ξ) (funext fun e => ?_)
  cases e <;> rfl

theorem placeholders_left (Ξ : Twins) : Ξ.left.placeholders = Ξ.placeholders.map Prod.fst := by
  rw [left, placeholders, Context.placeholders, List.filterMap_map, List.map_filterMap]
  refine congrArg (List.filterMap · Ξ) (funext fun e => ?_)
  cases e <;> rfl

theorem placeholders_right (Ξ : Twins) : Ξ.right.placeholders = Ξ.placeholders.map Prod.snd := by
  rw [right, placeholders, Context.placeholders, List.filterMap_map, List.map_filterMap]
  refine congrArg (List.filterMap · Ξ) (funext fun e => ?_)
  cases e <;> rfl

theorem mem_rigid {Ξ : Twins} {a b : TypeId} : (a, b) ∈ Ξ.rigid ↔ .var a b ∈ Ξ := by
  simp only [rigid, List.mem_filterMap]
  constructor
  · rintro ⟨e, he, h⟩
    cases e <;> simp_all [Twin.rigid?]
  · exact fun h => ⟨_, h, rfl⟩

theorem mem_placeholders {Ξ : Twins} {p q : TypeId} :
    (p, q) ∈ Ξ.placeholders ↔ .unsolved p q ∈ Ξ ∨ ∃ τ υ, .solved p q τ υ ∈ Ξ := by
  simp only [placeholders, List.mem_filterMap]
  constructor
  · rintro ⟨e, he, h⟩
    cases e <;> simp [Twin.placeholder?] at h
    · exact .inl (h.1 ▸ h.2 ▸ he)
    · exact .inr ⟨_, _, h.1 ▸ h.2 ▸ he⟩
  · rintro (h | ⟨τ, υ, h⟩)
    · exact ⟨_, h, rfl⟩
    · exact ⟨_, h, rfl⟩

end Twins

/-- The types correspond below the given quantifiers. No quantifier is repeated below itself. -/
inductive Ty.Matches (names : List TypeId) (Ξ : Twins) : List TypeId → Ty → Ty → Prop where
  | void {bound : List TypeId} : Ty.Matches names Ξ bound .void .void
  | bound {bound : List TypeId} {a : TypeId} : a ∈ bound →
      Ty.Matches names Ξ bound (.var a) (.var a)
  | free {bound : List TypeId} {a b : TypeId} : a ∉ bound → (a, b) ∈ Ξ.rigid →
      Ty.Matches names Ξ bound (.var a) (.var b)
  | placeholder {bound : List TypeId} {p q : TypeId} : (p, q) ∈ Ξ.placeholders →
      Ty.Matches names Ξ bound (.placeholder p) (.placeholder q)
  | forAll {bound : List TypeId} {a : TypeId} {τ υ : Ty} : a ∈ names → a ∉ bound →
      Ty.Matches names Ξ (a :: bound) τ υ → Ty.Matches names Ξ bound (.forAll a τ) (.forAll a υ)
  | arrow {bound : List TypeId} {τ υ τ' υ' : Ty} : Ty.Matches names Ξ bound τ υ →
      Ty.Matches names Ξ bound τ' υ' → Ty.Matches names Ξ bound (.arrow τ τ') (.arrow υ υ')

namespace Twins

def OneToOne (pairs : List (TypeId × TypeId)) : Prop :=
  ∀ a b a' b', (a, b) ∈ pairs → (a', b') ∈ pairs → (a = a' ↔ b = b')

/-- The correspondence is one to one, variables of the second context are not among the names, and the
types of bindings and solutions match, those of a solution by what stands before it. -/
structure Sound (names : List TypeId) (Ξ : Twins) : Prop where
  rigid : OneToOne Ξ.rigid
  placeholders : OneToOne Ξ.placeholders
  apart : ∀ a b, (a, b) ∈ Ξ.rigid → b ∉ names
  bindings : ∀ x τ υ, .binding x τ υ ∈ Ξ → Ty.Matches names Ξ [] τ υ
  solutions : Throughout (fun before e => ∀ p q τ υ, e = .solved p q τ υ →
    Ty.Matches names before [] τ υ) Ξ

end Twins

theorem Ty.clearOf_iff {names : List TypeId} {ty : Ty} :
    ty.clearOf names = true ↔ ∀ a ∈ names, a ∉ ty.occurrences ∧ a ∉ ty.quantifiers := by
  simp [clearOf]

namespace Ty.Matches

variable {names bound : List TypeId} {Ξ Ξ' : Twins} {τ υ : Ty}

theorem mono (hr : Ξ.rigid ⊆ Ξ'.rigid) (hp : Ξ.placeholders ⊆ Ξ'.placeholders)
    (h : Matches names Ξ bound τ υ) : Matches names Ξ' bound τ υ := by
  induction h with
  | void => exact .void
  | bound ha => exact .bound ha
  | free ha hab => exact .free ha (hr hab)
  | placeholder hpq => exact .placeholder (hp hpq)
  | forAll hn ha _ ih => exact .forAll hn ha ih
  | arrow _ _ ih ih' => exact .arrow ih ih'

theorem isMonotype_eq (h : Matches names Ξ bound τ υ) : υ.isMonotype = τ.isMonotype := by
  cases h <;> rfl

theorem mentions_eq (hs : Ξ.Sound names) {p q : TypeId} (hpq : (p, q) ∈ Ξ.placeholders)
    (h : Matches names Ξ bound τ υ) : υ.mentions q = τ.mentions p := by
  induction h with
  | void => rfl
  | bound _ => rfl
  | free _ _ => rfl
  | @placeholder _ p' q' h =>
    simp only [mentions]
    rw [Bool.eq_iff_iff, beq_iff_eq, beq_iff_eq]
    exact (hs.placeholders _ _ _ _ h hpq).symm
  | forAll _ _ _ ih => exact ih
  | arrow _ _ ih ih' => simp only [mentions, ih, ih']

theorem eq_placeholder_iff (hs : Ξ.Sound names) {p q : TypeId} (hpq : (p, q) ∈ Ξ.placeholders)
    (h : Matches names Ξ bound τ υ) : υ = .placeholder q ↔ τ = .placeholder p := by
  cases h with
  | placeholder h' =>
    rw [Ty.placeholder.injEq, Ty.placeholder.injEq]
    exact (hs.placeholders _ _ _ _ h' hpq).symm
  | _ => simp

theorem sameAtom_eq (hs : Ξ.Sound names) {τ' υ' : Ty} (h : Matches names Ξ [] τ υ)
    (h' : Matches names Ξ [] τ' υ') : υ.sameAtom υ' = τ.sameAtom τ' := by
  cases h with
  | bound ha => cases ha
  | void => cases h' <;> rfl
  | free _ hab =>
    cases h' with
    | bound ha => cases ha
    | free _ hab' =>
      simp only [sameAtom]
      rw [Bool.eq_iff_iff, beq_iff_eq, beq_iff_eq]
      exact (hs.rigid _ _ _ _ hab hab').symm
    | _ => rfl
  | placeholder hpq =>
    cases h' with
    | bound ha => cases ha
    | placeholder hpq' =>
      simp only [sameAtom]
      rw [Bool.eq_iff_iff, beq_iff_eq, beq_iff_eq]
      exact (hs.placeholders _ _ _ _ hpq hpq').symm
    | _ => rfl
  | forAll _ _ _ => cases h' <;> rfl
  | arrow _ _ => cases h' <;> rfl

theorem admits (h : Matches names Ξ bound τ υ) :
    Ξ.left.declared.admits bound τ = true ∧ Ξ.right.declared.admits bound υ = true := by
  induction h with
  | void => exact ⟨rfl, rfl⟩
  | bound ha => simp [Declared.admits, ha]
  | free _ hab =>
    simp only [Declared.admits, Context.declared, Bool.or_eq_true, List.contains_iff_mem]
    rw [← Context.rigid, ← Context.rigid, Twins.rigid_left, Twins.rigid_right]
    exact ⟨.inl (List.mem_map.2 ⟨_, hab, rfl⟩), .inl (List.mem_map.2 ⟨_, hab, rfl⟩)⟩
  | placeholder hpq =>
    simp only [Declared.admits, Context.declared, List.contains_iff_mem]
    rw [← Context.placeholders, ← Context.placeholders, Twins.placeholders_left,
      Twins.placeholders_right]
    exact ⟨List.mem_map.2 ⟨_, hpq, rfl⟩, List.mem_map.2 ⟨_, hpq, rfl⟩⟩
  | forAll _ _ _ ih => exact ih
  | arrow _ _ ih ih' => simp [Declared.admits, ih, ih']

section Restrict

-- What entries some of the twins declare is enough to say whether the types match by these alone.
variable (hs : Ξ.Sound names) (hr : Ξ'.rigid ⊆ Ξ.rigid) (hp : Ξ'.placeholders ⊆ Ξ.placeholders)
include hs hr hp

theorem of_admits_left (h : Matches names Ξ bound τ υ)
    (ha : Ξ'.left.declared.admits bound τ = true) : Matches names Ξ' bound τ υ := by
  induction h with
  | void => exact .void
  | bound hb => exact .bound hb
  | @free bound a b hb hab =>
    simp only [Declared.admits, Context.declared, Bool.or_eq_true, List.contains_iff_mem] at ha
    rw [← Context.rigid, Twins.rigid_left] at ha
    obtain ⟨⟨a', b'⟩, hmem, rfl⟩ := List.mem_map.1 (ha.resolve_right hb)
    rw [(hs.rigid _ _ _ _ hab (hr hmem)).1 rfl]
    exact .free hb hmem
  | @placeholder bound p q hpq =>
    simp only [Declared.admits, Context.declared, List.contains_iff_mem] at ha
    rw [← Context.placeholders, Twins.placeholders_left] at ha
    obtain ⟨⟨p', q'⟩, hmem, rfl⟩ := List.mem_map.1 ha
    rw [(hs.placeholders _ _ _ _ hpq (hp hmem)).1 rfl]
    exact .placeholder hmem
  | forAll hn hb _ ih => exact .forAll hn hb (ih ha)
  | arrow _ _ ih ih' =>
    simp only [Declared.admits, Bool.and_eq_true] at ha
    exact .arrow (ih ha.1) (ih' ha.2)

theorem of_admits_right (hb : bound ⊆ names) (h : Matches names Ξ bound τ υ)
    (ha : Ξ'.right.declared.admits bound υ = true) : Matches names Ξ' bound τ υ := by
  induction h with
  | void => exact .void
  | bound hmem => exact .bound hmem
  | @free bound a b hn hab =>
    simp only [Declared.admits, Context.declared, Bool.or_eq_true, List.contains_iff_mem] at ha
    rw [← Context.rigid, Twins.rigid_right] at ha
    have hapart : b ∉ bound := fun hmem => hs.apart a b hab (hb hmem)
    obtain ⟨⟨a', b'⟩, hmem, rfl⟩ := List.mem_map.1 (ha.resolve_right hapart)
    rw [(hs.rigid _ _ _ _ hab (hr hmem)).2 rfl] at hn ⊢
    exact .free hn hmem
  | @placeholder bound p q hpq =>
    simp only [Declared.admits, Context.declared, List.contains_iff_mem] at ha
    rw [← Context.placeholders, Twins.placeholders_right] at ha
    obtain ⟨⟨p', q'⟩, hmem, rfl⟩ := List.mem_map.1 ha
    rw [(hs.placeholders _ _ _ _ hpq (hp hmem)).2 rfl]
    exact .placeholder hmem
  | forAll hn ha' _ ih => exact .forAll hn ha' (ih (List.cons_subset.2 ⟨hn, hb⟩) ha)
  | arrow _ _ ih ih' =>
    simp only [Declared.admits, Bool.and_eq_true] at ha
    exact .arrow (ih hb ha.1) (ih' hb ha.2)

theorem wellFormed_eq (h : Matches names Ξ [] τ υ) :
    Ξ'.right.wellFormed υ = Ξ'.left.wellFormed τ := by
  rw [Context.wellFormed_eq_admits, Context.wellFormed_eq_admits, Bool.eq_iff_iff]
  exact ⟨fun ha => (of_admits_right hs hr hp (List.nil_subset _) h ha).admits.1,
    fun ha => (of_admits_left hs hr hp h ha).admits.2⟩

end Restrict

section Opening

variable {inner : List TypeId} {a : TypeId} (hs : Ξ.Sound names) (ha : a ∈ names)
  (hb : ∀ c, c ∈ bound ↔ c = a ∨ c ∈ inner)
include hs ha hb

theorem subst_placeholder {p q : TypeId} (hpq : (p, q) ∈ Ξ.placeholders)
    (h : Matches names Ξ bound τ υ) :
    Matches names Ξ inner (τ.subst a (.placeholder p)) (υ.subst a (.placeholder q)) := by
  induction h generalizing inner with
  | void => exact .void
  | @bound bound c hc =>
    simp only [subst, replace]
    by_cases hca : c = a
    · rw [if_pos hca, if_pos hca]
      exact .placeholder hpq
    · rw [if_neg hca, if_neg hca]
      exact .bound (((hb c).1 hc).resolve_left hca)
  | @free bound c d hc hcd =>
    simp only [hb, not_or] at hc
    have hda : d ≠ a := fun heq => hs.apart c d hcd (heq ▸ ha)
    simp only [subst, replace, if_neg hc.1, if_neg hda]
    exact .free hc.2 hcd
  | placeholder h => exact .placeholder h
  | @forAll bound c τ υ hn hc _ ih =>
    simp only [hb, not_or] at hc
    refine .forAll hn hc.2 (ih fun d => ?_)
    simp only [List.mem_cons, hb]
    exact or_left_comm
  | arrow _ _ ih ih' => exact .arrow (ih hb) (ih' hb)

/-- The variable of an open quantifier stays on the left, and is replaced on the right by the variable
that corresponds to it. -/
theorem subst_var {b : TypeId} (hi : a ∉ inner) (hab : (a, b) ∈ Ξ.rigid)
    (h : Matches names Ξ bound τ υ) : Matches names Ξ inner τ (υ.subst a (.var b)) := by
  induction h generalizing inner with
  | void => exact .void
  | @bound bound c hc =>
    simp only [subst, replace]
    by_cases hca : c = a
    · rw [if_pos hca, hca]
      exact .free hi hab
    · rw [if_neg hca]
      exact .bound (((hb c).1 hc).resolve_left hca)
  | @free bound c d hc hcd =>
    simp only [hb, not_or] at hc
    have hda : d ≠ a := fun heq => hs.apart c d hcd (heq ▸ ha)
    simp only [subst, replace, if_neg hda]
    exact .free hc.2 hcd
  | placeholder h => exact .placeholder h
  | @forAll bound c τ υ hn hc _ ih =>
    simp only [hb, not_or] at hc
    refine .forAll hn hc.2 (ih (fun d => ?_) ?_)
    · simp only [List.mem_cons, hb]
      exact or_left_comm
    · simp [hi, Ne.symm hc.1]
  | arrow _ _ ih ih' => exact .arrow (ih hb hi) (ih' hb hi)

end Opening

theorem clear {outer : List TypeId} (hc : τ.clearOf outer = true) (h : Matches names Ξ bound τ υ) :
    Matches names Ξ (bound ++ outer) τ υ := by
  rw [clearOf_iff] at hc
  induction h with
  | void => exact .void
  | bound ha => exact .bound (List.mem_append_left _ ha)
  | @free bound a b ha hab =>
    refine .free (fun hmem => ?_) hab
    rcases List.mem_append.1 hmem with hmem | hmem
    · exact ha hmem
    · exact (hc a hmem).1 (by simp [occurrences])
  | placeholder hpq => exact .placeholder hpq
  | @forAll bound a τ υ hn ha _ ih =>
    refine .forAll hn (fun hmem => ?_) (ih fun b hb => ⟨(hc b hb).1, fun hq => (hc b hb).2 ?_⟩)
    · rcases List.mem_append.1 hmem with hmem | hmem
      · exact ha hmem
      · exact (hc a hmem).2 (by simp [quantifiers])
    · exact List.mem_cons_of_mem _ hq
  | arrow _ _ ih ih' =>
    simp only [occurrences, quantifiers, List.mem_append, not_or] at hc
    exact .arrow (ih fun b hb => ⟨(hc b hb).1.1, (hc b hb).2.1⟩)
      (ih' fun b hb => ⟨(hc b hb).1.2, (hc b hb).2.2⟩)

/-- Placeholders are replaced by types that match and that no quantifier captures. -/
theorem replace {g g' : TypeId → Ty} (hc : τ.captures g bound = false)
    (hg : ∀ p q, p ∈ τ.placeholders → (p, q) ∈ Ξ.placeholders → Matches names Ξ [] (g p) (g' q))
    (h : Matches names Ξ bound τ υ) :
    Matches names Ξ bound (τ.replace .var g) (υ.replace .var g') := by
  induction h with
  | void => exact .void
  | bound ha => exact .bound ha
  | free ha hab => exact .free ha hab
  | @placeholder bound p q hpq =>
    simp only [captures, Bool.not_eq_eq_eq_not, Bool.not_false] at hc
    exact (hg p q (by simp [placeholders]) hpq).clear hc
  | forAll hn ha _ ih => exact .forAll hn ha (ih hc hg)
  | arrow _ _ ih ih' =>
    simp only [captures, Bool.or_eq_false_iff] at hc
    simp only [placeholders, List.mem_append] at hg
    exact .arrow (ih hc.1 fun p q hp => hg p q (.inl hp)) (ih' hc.2 fun p q hp => hg p q (.inr hp))

end Ty.Matches

namespace Twins

variable {names : List TypeId} {Ξ : Twins} {p q : TypeId}

theorem Sound.solution {τ υ : Ty} (hs : Ξ.Sound names) (h : .solved p q τ υ ∈ Ξ) :
    Ty.Matches names Ξ [] τ υ := by
  obtain ⟨before, after, rfl⟩ := List.append_of_mem h
  refine (hs.solutions before _ after rfl p q τ υ rfl).mono ?_ ?_
  · rw [rigid_append]
    exact List.subset_append_left ..
  · rw [placeholders_append]
    exact List.subset_append_left ..

theorem findSome?_cases {ε β γ : Type} {f : ε → Option β} {g : ε → Option γ} {R : β → γ → Prop}
    {xs : List ε} (h : ∀ x ∈ xs, (f x = none ∧ g x = none) ∨
      ∃ b c, f x = some b ∧ g x = some c ∧ R b c) :
    (xs.findSome? f = none ∧ xs.findSome? g = none) ∨
      ∃ b c, xs.findSome? f = some b ∧ xs.findSome? g = some c ∧ R b c := by
  induction xs with
  | nil => exact .inl ⟨rfl, rfl⟩
  | cons x xs ih =>
    rw [List.findSome?_cons, List.findSome?_cons]
    rcases h x (by simp) with ⟨hf, hg⟩ | ⟨b, c, hf, hg, hR⟩
    · rw [hf, hg]
      exact ih fun y hy => h y (List.mem_cons_of_mem _ hy)
    · rw [hf, hg]
      exact .inr ⟨b, c, rfl, rfl, hR⟩

theorem Sound.solution?_cases (hs : Ξ.Sound names) (hpq : (p, q) ∈ Ξ.placeholders) :
    (Ξ.left.solution? p = none ∧ Ξ.right.solution? q = none) ∨
    ∃ τ υ, Ξ.left.solution? p = some τ ∧ Ξ.right.solution? q = some υ ∧
      .solved p q τ υ ∈ Ξ := by
  simp only [left, right, Context.solution?, List.findSome?_map]
  refine findSome?_cases fun e he => ?_
  cases e with
  | solved p' q' τ υ =>
    have hlink := hs.placeholders p' q' p q (mem_placeholders.2 (.inr ⟨τ, υ, he⟩)) hpq
    by_cases hp : p' = p
    · have hq := hlink.1 hp
      subst hp hq
      exact .inr ⟨τ, υ, by simp [Twin.left], by simp [Twin.right], he⟩
    · have hq : q' ≠ q := fun h => hp (hlink.2 h)
      exact .inl ⟨by simp [Twin.left, hp], by simp [Twin.right, hq]⟩
  | _ => exact .inl ⟨rfl, rfl⟩

theorem Sound.binding?_cases (hs : Ξ.Sound names) (x : BindingId) :
    (Ξ.left.binding? x = none ∧ Ξ.right.binding? x = none) ∨
    ∃ τ υ, Ξ.left.binding? x = some τ ∧ Ξ.right.binding? x = some υ ∧
      Ty.Matches names Ξ [] τ υ := by
  simp only [left, right, Context.binding?, ← List.map_reverse, List.findSome?_map]
  refine findSome?_cases fun e he => ?_
  cases e with
  | binding y τ υ =>
    by_cases hy : y = x
    · have hmatch := hs.bindings y τ υ (List.mem_reverse.1 he)
      exact .inr ⟨τ, υ, by simp [Twin.left, hy], by simp [Twin.right, hy], hmatch⟩
    · exact .inl ⟨by simp [Twin.left, hy], by simp [Twin.right, hy]⟩
  | _ => exact .inl ⟨rfl, rfl⟩

/-- Corresponding placeholders wait for a solution in the same slot, if at all. -/
theorem Sound.slot_cases (hs : Ξ.Sound names) (hpq : (p, q) ∈ Ξ.placeholders) :
    (Ξ.left.slot p = .error (.missingPlaceholder p) ∧
      Ξ.right.slot q = .error (.missingPlaceholder q)) ∨
    ∃ before after, Ξ = before ++ .unsolved p q :: after ∧
      Ξ.left.slot p = .ok (left before, left after) ∧
      Ξ.right.slot q = .ok (right before, right after) := by
  have hl : ∀ Θ : Twins, Θ ⊆ Ξ → .unsolved p ∈ Θ.left → .unsolved p q ∈ Θ := by
    intro Θ hsub h
    obtain ⟨e, he, heq⟩ := List.mem_map.1 h
    cases e <;> cases heq
    rename_i q'
    have hq := (hs.placeholders p q' p q (mem_placeholders.2 (.inl (hsub he))) hpq).1 rfl
    exact hq ▸ he
  have hr : ∀ Θ : Twins, Θ ⊆ Ξ → .unsolved q ∈ Θ.right → .unsolved p q ∈ Θ := by
    intro Θ hsub h
    obtain ⟨e, he, heq⟩ := List.mem_map.1 h
    cases e <;> cases heq
    rename_i p'
    have hp := (hs.placeholders p' q p q (mem_placeholders.2 (.inl (hsub he))) hpq).2 rfl
    exact hp ▸ he
  by_cases hmem : .unsolved p q ∈ Ξ
  · obtain ⟨before, after, rfl, hn⟩ := List.eq_append_cons_of_mem hmem
    refine .inr ⟨before, after, rfl, Context.slot_eq_ok.2 ⟨?_, fun h => hn ?_⟩,
      Context.slot_eq_ok.2 ⟨?_, fun h => hn ?_⟩⟩
    · exact left_append before _
    · exact hl before (List.subset_append_left ..) h
    · exact right_append before _
    · exact hr before (List.subset_append_left ..) h
  · exact .inl ⟨Context.slot_eq_error.2 ⟨fun h => hmem (hl Ξ (fun _ => id) h), rfl⟩,
      Context.slot_eq_error.2 ⟨fun h => hmem (hr Ξ (fun _ => id) h), rfl⟩⟩

theorem Sound.resolve (hs : Ξ.Sound names) (n : Nat) (hpq : (p, q) ∈ Ξ.placeholders)
    (hc : Ξ.left.resolveCaptures n p = false) :
    Ty.Matches names Ξ [] (Ξ.left.resolve n p) (Ξ.right.resolve n q) := by
  induction n generalizing p q with
  | zero => exact .placeholder hpq
  | succ n ih =>
    rcases hs.solution?_cases hpq with ⟨hl, hr⟩ | ⟨τ, υ, hl, hr, hmem⟩
    · simp only [Context.resolve, hl, hr]
      exact .placeholder hpq
    · simp only [Context.resolve, Context.resolveCaptures, hl, hr, Bool.or_eq_false_iff,
        List.any_eq_false, Bool.not_eq_true] at hc ⊢
      exact (hs.solution hmem).replace hc.1 fun p' q' hp' hpq' => ih hpq' (hc.2 p' hp')

theorem Sound.apply {τ υ : Ty} (hs : Ξ.Sound names) (hc : Ξ.left.captures τ = false)
    (h : Ty.Matches names Ξ [] τ υ) :
    Ty.Matches names Ξ [] (Ξ.left.apply τ) (Ξ.right.apply υ) := by
  have hlength : Ξ.right.length = Ξ.left.length := by simp [left, right]
  simp only [Context.captures, Bool.or_eq_false_iff, List.any_eq_false, Bool.not_eq_true] at hc
  rw [Context.apply, Context.apply, hlength]
  exact h.replace hc.1 fun p q hp hpq => hs.resolve _ hpq (hc.2 p hp)

end Twins

end HigherRank
