import HigherRank.Context.Apply
import HigherRank.Context.WellFormed
import HigherRank.Term.Basic

set_option autoImplicit false

/-!
# The names in a type

Well-formedness as a statement on two lists, the free variables and the placeholders of a type.
Resolution and the opening of a quantifier are then followed through these lists.
-/
namespace HigherRank

namespace Ty

def free : Ty → List TypeId
  | void => []
  | var a => [a]
  | placeholder _ => []
  | forAll a body => body.free.filter (· ≠ a)
  | arrow parameter result => parameter.free ++ result.free

def placeholders : Ty → List TypeId
  | void => []
  | var _ => []
  | placeholder p => [p]
  | forAll _ body => body.placeholders
  | arrow parameter result => parameter.placeholders ++ result.placeholders

/-- Every identifier written behind a quantifier sign. -/
def quantifiers : Ty → List TypeId
  | void => []
  | var _ => []
  | placeholder _ => []
  | forAll a body => a :: body.quantifiers
  | arrow parameter result => parameter.quantifiers ++ result.quantifiers

theorem free_or_quantified {a : TypeId} {ty : Ty} (h : a ∈ ty.occurrences) :
    a ∈ ty.free ∨ a ∈ ty.quantifiers := by
  induction ty with
  | void => cases h
  | var b => exact .inl h
  | placeholder q => cases h
  | forAll b body ih =>
    by_cases hb : a = b
    · exact .inr (by simp [quantifiers, hb])
    · rcases ih h with hf | hq
      · exact .inl (by simp [free, hf, hb])
      · exact .inr (by simp [quantifiers, hq])
  | arrow parameter result ihp ihr =>
    simp only [free, quantifiers, occurrences, List.mem_append] at h ⊢
    rcases h with h | h
    · exact (ihp h).imp .inl .inl
    · exact (ihr h).imp .inr .inr

theorem replace_congr {f f' g g' : TypeId → Ty} {ty : Ty} (hf : ∀ a ∈ ty.occurrences, f a = f' a)
    (hg : ∀ p ∈ ty.placeholders, g p = g' p) : ty.replace f g = ty.replace f' g' := by
  induction ty with
  | void => rfl
  | var a => exact hf a (by simp [occurrences])
  | placeholder p => exact hg p (by simp [placeholders])
  | forAll a body ih => simp only [replace, ih hf hg]
  | arrow parameter result ihp ihr =>
    simp only [occurrences, placeholders, List.mem_append] at hf hg
    simp only [replace, ihp (fun a h => hf a (.inl h)) (fun p h => hg p (.inl h)),
      ihr (fun a h => hf a (.inr h)) (fun p h => hg p (.inr h))]

theorem free_replace {g : TypeId → Ty} {ty : Ty} {a : TypeId} (h : a ∈ (ty.replace var g).free) :
    a ∈ ty.free ∨ ∃ p ∈ ty.placeholders, a ∈ (g p).free := by
  induction ty with
  | void => cases h
  | var b => exact .inl h
  | placeholder p => exact .inr ⟨p, by simp [placeholders], h⟩
  | forAll b body ih =>
    simp only [replace, free, List.mem_filter] at h
    rcases ih h.1 with hf | hp
    · exact .inl (List.mem_filter.2 ⟨hf, h.2⟩)
    · exact .inr hp
  | arrow parameter result ihp ihr =>
    simp only [replace, free, placeholders, List.mem_append] at h ⊢
    rcases h with h | h
    · rcases ihp h with hf | ⟨p, hp, ha⟩
      · exact .inl (.inl hf)
      · exact .inr ⟨p, .inl hp, ha⟩
    · rcases ihr h with hf | ⟨p, hp, ha⟩
      · exact .inl (.inr hf)
      · exact .inr ⟨p, .inr hp, ha⟩

theorem placeholders_replace {g : TypeId → Ty} {ty : Ty} {q : TypeId} :
    q ∈ (ty.replace var g).placeholders ↔ ∃ p ∈ ty.placeholders, q ∈ (g p).placeholders := by
  induction ty with
  | void => simp [replace, placeholders]
  | var b => simp [replace, placeholders]
  | placeholder p => simp [replace, placeholders]
  | forAll b body ih => simpa [replace, placeholders] using ih
  | arrow parameter result ihp ihr =>
    simp only [replace, placeholders, List.mem_append, ihp, ihr, or_and_right, exists_or]

theorem free_subst {ty : Ty} {a b : TypeId} {κ : Ty} (h : b ∈ (ty.subst a κ).free) :
    (b ∈ ty.free ∧ b ≠ a) ∨ b ∈ κ.free := by
  induction ty with
  | void => cases h
  | var c =>
    simp only [subst, replace] at h
    split at h
    · exact .inr h
    · rename_i hc
      have hb : b = c := by simpa [free] using h
      exact .inl ⟨by simp [free, hb], hb ▸ hc⟩
  | placeholder q => cases h
  | forAll c body ih =>
    simp only [subst, replace, free, List.mem_filter] at h
    rcases ih h.1 with ⟨hf, hne⟩ | hk
    · exact .inl ⟨List.mem_filter.2 ⟨hf, h.2⟩, hne⟩
    · exact .inr hk
  | arrow parameter result ihp ihr =>
    simp only [subst, replace, free, List.mem_append] at h ⊢
    rcases h with h | h
    · rcases ihp h with ⟨hf, hne⟩ | hk
      · exact .inl ⟨.inl hf, hne⟩
      · exact .inr hk
    · rcases ihr h with ⟨hf, hne⟩ | hk
      · exact .inl ⟨.inr hf, hne⟩
      · exact .inr hk

theorem placeholders_subst {ty : Ty} {a q : TypeId} {κ : Ty}
    (h : q ∈ (ty.subst a κ).placeholders) : q ∈ ty.placeholders ∨ q ∈ κ.placeholders := by
  induction ty with
  | void => cases h
  | var c =>
    simp only [subst, replace] at h
    split at h
    · exact .inr h
    · cases h
  | placeholder p => exact .inl h
  | forAll c body ih => exact ih h
  | arrow parameter result ihp ihr =>
    simp only [subst, replace, placeholders, List.mem_append] at h ⊢
    rcases h with h | h
    · exact (ihp h).imp_left .inl
    · exact (ihr h).imp_left .inr

end Ty

theorem Declared.admits_iff {declared : Declared} {quantified : List TypeId} {ty : Ty} :
    declared.admits quantified ty = true ↔
      (∀ a ∈ ty.free, a ∈ declared.rigid ∨ a ∈ quantified) ∧
        ∀ p ∈ ty.placeholders, p ∈ declared.placeholders := by
  induction ty generalizing quantified with
  | void => simp [admits, Ty.free, Ty.placeholders]
  | var a => simp [admits, Ty.free, Ty.placeholders]
  | placeholder p => simp [admits, Ty.free, Ty.placeholders]
  | forAll a body ih =>
    simp only [admits, ih, Ty.free, Ty.placeholders, List.mem_filter, List.mem_cons,
      decide_eq_true_eq]
    refine and_congr_left fun _ => ⟨fun h b hb => ?_, fun h b hb => ?_⟩
    · obtain ⟨hb, hne⟩ := hb
      rcases h b hb with hd | rfl | hq
      · exact .inl hd
      · exact absurd rfl hne
      · exact .inr hq
    · by_cases hba : b = a
      · exact .inr (.inl hba)
      · exact (h b ⟨hb, hba⟩).imp_right .inr
  | arrow parameter result ihp ihr =>
    simp only [admits, Bool.and_eq_true, ihp, ihr, Ty.free, Ty.placeholders, List.mem_append]
    constructor
    · rintro ⟨⟨hf, hp⟩, hf', hp'⟩
      exact ⟨fun a h => h.elim (hf a) (hf' a), fun p h => h.elim (hp p) (hp' p)⟩
    · rintro ⟨hf, hp⟩
      exact ⟨⟨fun a h => hf a (.inl h), fun p h => hp p (.inl h)⟩,
        fun a h => hf a (.inr h), fun p h => hp p (.inr h)⟩

namespace Context

abbrev rigid (Γ : Context) : List TypeId := Γ.filterMap Entry.rigid?

abbrev placeholders (Γ : Context) : List TypeId := Γ.filterMap Entry.placeholder?

theorem wellFormed_iff {Γ : Context} {ty : Ty} :
    Γ.wellFormed ty = true ↔
      (∀ a ∈ ty.free, a ∈ Γ.rigid) ∧ ∀ p ∈ ty.placeholders, p ∈ Γ.placeholders := by
  simp [wellFormed_eq_admits, Declared.admits_iff, declared]

theorem mem_rigid {Γ : Context} {a : TypeId} : a ∈ Γ.rigid ↔ .var a ∈ Γ := by
  simp only [List.mem_filterMap]
  constructor
  · rintro ⟨e, he, h⟩
    cases e <;> simp_all [Entry.rigid?]
  · exact fun h => ⟨_, h, rfl⟩

theorem wellFormed_mono {Γ Δ : Context} {ty : Ty} (hr : Γ.rigid ⊆ Δ.rigid)
    (hp : Γ.placeholders ⊆ Δ.placeholders) (h : Γ.wellFormed ty = true) :
    Δ.wellFormed ty = true := by
  rw [wellFormed_iff] at h ⊢
  exact ⟨fun a ha => hr (h.1 a ha), fun p hq => hp (h.2 p hq)⟩

theorem wellFormed_append {Γ : Context} {ty : Ty} (Δ : Context) (h : Γ.wellFormed ty = true) :
    (Γ ++ Δ).wellFormed ty = true :=
  wellFormed_mono (by simp) (by simp) h

theorem wellFormed_arrow {Γ : Context} {parameter result : Ty} :
    Γ.wellFormed (.arrow parameter result) = true ↔
      Γ.wellFormed parameter = true ∧ Γ.wellFormed result = true := by
  simp [wellFormed_eq_admits, Declared.admits]

theorem wellFormed_placeholder {Γ : Context} {p : TypeId} :
    Γ.wellFormed (.placeholder p) = true ↔ p ∈ Γ.placeholders := by
  simp [wellFormed_iff, Ty.free, Ty.placeholders]

theorem wellFormed_subst {Γ : Context} {a : TypeId} {body κ : Ty}
    (h : Γ.wellFormed (.forAll a body) = true) (hκ : Γ.wellFormed κ = true) :
    Γ.wellFormed (body.subst a κ) = true := by
  rw [wellFormed_iff] at h hκ ⊢
  refine ⟨fun b hb => ?_, fun q hq => ?_⟩
  · rcases Ty.free_subst hb with ⟨hf, hne⟩ | hf
    · exact h.1 b (by simp [Ty.free, hf, hne])
    · exact hκ.1 b hf
  · exact (Ty.placeholders_subst hq).elim (h.2 q) (hκ.2 q)

theorem wellFormed_body {Γ : Context} {a : TypeId} {body : Ty}
    (h : Γ.wellFormed (.forAll a body) = true) (ha : a ∈ Γ.rigid) : Γ.wellFormed body = true := by
  rw [wellFormed_iff] at h ⊢
  refine ⟨fun b hb => ?_, h.2⟩
  by_cases hba : b = a
  · exact hba ▸ ha
  · exact h.1 b (by simp [Ty.free, hb, hba])

theorem solution?_mem {Γ : Context} {p : TypeId} {τ : Ty} (h : Γ.solution? p = some τ) :
    .solved p τ ∈ Γ := by
  obtain ⟨e, he, heq⟩ := List.exists_of_findSome?_eq_some h
  cases e <;> simp at heq
  obtain ⟨rfl, rfl⟩ := heq
  exact he

/-- A property of types that holds of every unsolved placeholder and is handed on from the
placeholders of each solution to the solution holds of whatever a placeholder is resolved to. -/
theorem resolve_induction {Γ : Context} {P : TypeId → Ty → Prop} (hp : ∀ p, P p (.placeholder p))
    (hs : ∀ p τ g, .solved p τ ∈ Γ → (∀ q, P q (g q)) → P p (τ.replace .var g)) (n : Nat)
    (p : TypeId) : P p (Γ.resolve n p) := by
  induction n generalizing p with
  | zero => exact hp p
  | succ n ih =>
    simp only [resolve]
    split
    · exact hs p _ _ (solution?_mem ‹_›) ih
    · exact hp p

theorem wellFormed_replace {Γ : Context} {ty : Ty} {g : TypeId → Ty} (h : Γ.wellFormed ty = true)
    (hg : ∀ p ∈ Γ.placeholders, Γ.wellFormed (g p) = true) :
    Γ.wellFormed (ty.replace .var g) = true := by
  rw [wellFormed_iff] at h
  refine wellFormed_iff.2 ⟨fun a ha => ?_, fun q hq => ?_⟩
  · rcases Ty.free_replace ha with hf | ⟨p, hp, hf⟩
    · exact h.1 a hf
    · exact (wellFormed_iff.1 (hg p (h.2 p hp))).1 a hf
  · obtain ⟨p, hp, hq⟩ := Ty.placeholders_replace.1 hq
    exact (wellFormed_iff.1 (hg p (h.2 p hp))).2 q hq

theorem wellFormed_apply {Γ : Context} {ty : Ty}
    (hs : ∀ p τ, .solved p τ ∈ Γ → Γ.wellFormed τ = true) (h : Γ.wellFormed ty = true) :
    Γ.wellFormed (Γ.apply ty) = true := by
  refine wellFormed_replace h fun p hp => ?_
  refine resolve_induction (P := fun p τ => p ∈ Γ.placeholders → Γ.wellFormed τ = true)
    (fun p hp => wellFormed_placeholder.2 hp) (fun p τ _ hτ hg _ => ?_) Γ.length p hp
  exact wellFormed_replace (hs p τ hτ) hg

end Context

def Term.annotations : Term → List Ty
  | unit => []
  | ref _ => []
  | lam _ body => body.annotations
  | app function argument => function.annotations ++ argument.annotations
  | ann term ty => ty :: term.annotations

def Term.quantifiers (term : Term) : List TypeId := term.annotations.flatMap Ty.quantifiers

def Context.bindingTypes (Γ : Context) : List Ty :=
  Γ.filterMap fun
    | .binding _ ty => some ty
    | _ => none

theorem Context.mem_bindingTypes {Γ : Context} {ty : Ty} :
    ty ∈ Γ.bindingTypes ↔ ∃ x, .binding x ty ∈ Γ := by
  simp only [bindingTypes, List.mem_filterMap]
  constructor
  · rintro ⟨e, he, h⟩
    cases e <;> simp at h
    exact ⟨_, h ▸ he⟩
  · rintro ⟨x, h⟩
    exact ⟨_, h, rfl⟩

/-- A term to be checked in a context that declares variables and bindings only, where no two of
the quantifiers that are written anywhere have one name, nor a name that is declared. -/
structure Hygienic (Γ : Context) (term : Term) (ty : Ty) : Prop where
  plain : ∀ e ∈ Γ, (∃ a, e = .var a) ∨ ∃ x σ, e = .binding x σ
  distinct : (Γ.bindingTypes.flatMap Ty.quantifiers ++ ty.quantifiers ++ term.quantifiers).Nodup
  undeclared : ∀ a ∈ Γ.bindingTypes.flatMap Ty.quantifiers ++ ty.quantifiers ++ term.quantifiers,
    a ∉ Γ.rigid

theorem Hygienic.placeholders {Γ : Context} {term : Term} {ty : Ty} (h : Hygienic Γ term ty) :
    Γ.placeholders = [] :=
  List.filterMap_eq_nil_iff.2 fun e he => by
    rcases h.plain e he with ⟨a, rfl⟩ | ⟨x, σ, rfl⟩ <;> rfl

end HigherRank
