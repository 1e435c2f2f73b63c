import HigherRank.Proofs.Completion

set_option autoImplicit false

/-!
# The order of types by generality

A type without placeholders is at least as general as another if the other follows from it: quantifiers
below are opened by simple types over the variables in scope, quantifiers above declare a variable, and
arrows are contravariant in the parameter. There is no algorithm here, and no rule for transitivity.
That the order is transitive is proved for types of any rank: where a quantifier in the middle is
declared on one side and opened on the other, the simple type is put for the variable throughout, and
there are fewer quantifiers.
-/
namespace HigherRank

namespace Ty

/-- The first type is at least as general as the second, where the given variables are declared. -/
inductive Generalizes : List TypeId → Ty → Ty → Prop where
  | void {rigid : List TypeId} : Generalizes rigid .void .void
  | var {rigid : List TypeId} {a : TypeId} : a ∈ rigid → Generalizes rigid (.var a) (.var a)
  | arrow {rigid : List TypeId} {τ υ τ' υ' : Ty} : Generalizes rigid τ' τ →
      Generalizes rigid υ υ' → Generalizes rigid (.arrow τ υ) (.arrow τ' υ')
  | opened {rigid : List TypeId} {a : TypeId} {body κ sup : Ty} : κ.SimpleOver rigid →
      Generalizes rigid (body.subst a κ) sup → Generalizes rigid (.forAll a body) sup
  | declared {rigid : List TypeId} {a : TypeId} {sub body : Ty} :
      Generalizes (rigid ++ [a]) sub body → Generalizes rigid sub (.forAll a body)

variable {rigid rigid' : List TypeId} {a b : TypeId} {ty κ κ' sub sup body : Ty}

theorem SimpleOver.mono (h : κ.SimpleOver rigid) (hsub : rigid ⊆ rigid') : κ.SimpleOver rigid' :=
  ⟨h.simple, fun a ha => hsub (h.scope a ha)⟩

theorem SimpleOver.not_mem (h : κ.SimpleOver rigid) (ha : a ∉ rigid) : a ∉ κ.occurrences := by
  rw [← free_eq_occurrences_of_quantifierFree (quantifierFree_of_simple h.simple)]
  exact fun hmem => ha (h.scope a hmem)

theorem subst_of_not_mem (h : a ∉ ty.occurrences) : ty.subst a κ = ty := by
  have hleaves : ty.subst a κ = ty.replace .var .placeholder :=
    replace_congr (fun b hb => if_neg fun heq : b = a => h (heq ▸ hb)) fun _ _ => rfl
  rw [hleaves, replace_leaves]

theorem subst_subst (hne : a ≠ b) (hκ : a ∉ κ.occurrences) :
    (ty.subst a κ').subst b κ = (ty.subst b κ).subst a (κ'.subst b κ) := by
  simp only [subst, replace_replace]
  refine replace_congr (fun c _ => ?_) fun _ _ => rfl
  by_cases hca : c = a
  · simp [hca, hne, replace]
  · by_cases hcb : c = b
    · have hsame : κ.subst a (κ'.subst b κ) = κ := subst_of_not_mem hκ
      simp only [subst] at hsame
      simp [hcb, hne.symm, replace, hsame]
    · simp [hca, hcb, replace]

theorem SimpleOver.subst (hκ' : κ'.SimpleOver rigid) (hκ : κ.SimpleOver rigid')
    (hsub : rigid ⊆ b :: rigid') : (κ'.subst b κ).SimpleOver rigid' := by
  have hqf := quantifierFree_of_simple hκ.simple
  refine ⟨?_, fun c hc => ?_⟩
  · refine Bool.and_eq_true_iff.2 ⟨quantifierFree_replace (quantifierFree_of_simple hκ'.simple) (fun c _ => ?_)
      fun _ _ => rfl, ground_replace (fun c _ => ?_) fun p hp => ?_⟩
    · split
      · exact hqf
      · rfl
    · split
      · exact ground_of_simple hκ.simple
      · rfl
    · simp [placeholders_eq_nil_of_ground (ground_of_simple hκ'.simple)] at hp
  · rcases free_subst hc with ⟨hfree, hne⟩ | hfree
    · exact (List.mem_cons.1 (hsub (hκ'.scope c hfree))).resolve_left hne
    · exact hκ.scope c hfree

/-- No identifier of the list is declared or comes twice. -/
def Separate (rigid names : List TypeId) : Prop :=
  ∀ a, (if a ∈ rigid then 1 else 0) + names.count a ≤ 1

theorem separate_iff {names : List TypeId} :
    Separate rigid names ↔ names.Nodup ∧ ∀ a ∈ names, a ∉ rigid := by
  constructor
  · refine fun h => ⟨List.nodup_iff_count.2 fun a => ?_, fun a ha hrigid => ?_⟩
    · have := h a
      omega
    · have hcount := h a
      have := List.count_pos_iff.2 ha
      rw [if_pos hrigid] at hcount
      omega
  · rintro ⟨hnodup, hnew⟩ a
    have hcount := List.nodup_iff_count.1 hnodup a
    split
    · rename_i hrigid
      have := List.count_eq_zero.2 fun ha => hnew a ha hrigid
      omega
    · omega

theorem count_forAll (a c : TypeId) (body : Ty) :
    (forAll a body).quantifiers.count c = body.quantifiers.count c + if c = a then 1 else 0 := by
  by_cases hc : c = a
  · simp [quantifiers, hc]
  · simp [quantifiers, List.count_cons_of_ne (Ne.symm hc), hc]

theorem count_arrow (c : TypeId) (τ υ : Ty) :
    (arrow τ υ).quantifiers.count c = τ.quantifiers.count c + υ.quantifiers.count c :=
  List.count_append

theorem count_subst (c : TypeId) (hκ : κ.SimpleOver rigid) :
    (ty.subst a κ).quantifiers.count c = ty.quantifiers.count c := by
  rw [quantifiers_subst (quantifierFree_of_simple hκ.simple)]

theorem declared_le (h : rigid' ⊆ a :: rigid) (c : TypeId) :
    (if c ∈ rigid' then 1 else 0) ≤ (if c ∈ rigid then 1 else 0) + if c = a then 1 else 0 := by
  by_cases hc : c ∈ rigid'
  · rw [if_pos hc]
    rcases List.mem_cons.1 (h hc) with ha | ha
    · rw [if_pos ha]
      exact Nat.le_add_left ..
    · rw [if_pos ha]
      exact Nat.le_add_right ..
  · rw [if_neg hc]
    exact Nat.zero_le _

namespace Separate

variable {names names' : List TypeId} {τ υ τ' υ' : Ty}

theorem of_le (h : Separate rigid names) (hle : ∀ a, (if a ∈ rigid' then 1 else 0) + names'.count a ≤
    (if a ∈ rigid then 1 else 0) + names.count a) : Separate rigid' names' :=
  fun a => Nat.le_trans (hle a) (h a)

theorem parts (h : Separate rigid ((arrow τ υ).quantifiers ++ (arrow τ' υ').quantifiers)) :
    Separate rigid (τ'.quantifiers ++ τ.quantifiers) ∧
      Separate rigid (υ.quantifiers ++ υ'.quantifiers) := by
  refine ⟨h.of_le fun c => ?_, h.of_le fun c => ?_⟩ <;>
  · simp only [List.count_append, count_arrow]
    omega

theorem opened (h : Separate rigid ((forAll a body).quantifiers ++ names))
    (hκ : κ.SimpleOver rigid') : Separate rigid ((body.subst a κ).quantifiers ++ names) := by
  refine h.of_le fun c => ?_
  simp only [List.count_append, count_forAll, count_subst _ hκ]
  omega

theorem declared (h : Separate rigid (names ++ (forAll a body).quantifiers)) :
    Separate (rigid ++ [a]) (names ++ body.quantifiers) := by
  refine h.of_le fun c => ?_
  have hmem : rigid ++ [a] ⊆ a :: rigid := by simp
  have hle := declared_le hmem c
  simp only [List.count_append, count_forAll]
  omega

theorem not_mem (h : Separate rigid names) (ha : a ∈ names) : a ∉ rigid :=
  (separate_iff.1 h).2 a ha

end Separate

namespace Generalizes

theorem mono (h : Generalizes rigid sub sup) (hsub : rigid ⊆ rigid') :
    Generalizes rigid' sub sup := by
  induction h generalizing rigid' with
  | void => exact .void
  | var ha => exact .var (hsub ha)
  | arrow _ _ ihτ ihυ => exact .arrow (ihτ hsub) (ihυ hsub)
  | opened hκ _ ih => exact .opened (hκ.mono hsub) (ih hsub)
  | declared _ ih =>
    refine .declared (ih fun c hc => ?_)
    rw [List.mem_append] at hc ⊢
    exact hc.imp_left fun hc => hsub hc

theorem refl (h : ty.SimpleOver rigid) : Generalizes rigid ty ty := by
  induction ty with
  | void => exact .void
  | var a => exact .var (h.scope a (List.mem_singleton_self a))
  | placeholder p => cases h.simple
  | forAll a body => cases h.simple
  | arrow τ υ ihτ ihυ =>
    obtain ⟨hτ, hυ⟩ := simpleOver_arrow.1 h
    exact .arrow (ihτ hτ) (ihυ hυ)

theorem eq_of_quantifierFree (h : Generalizes rigid sub sup) (hsub : sub.quantifierFree = true)
    (hsup : sup.quantifierFree = true) : sub = sup := by
  induction h with
  | void => rfl
  | var _ => rfl
  | arrow _ _ ihτ ihυ =>
    obtain ⟨hτ, hυ⟩ := Bool.and_eq_true_iff.1 hsub
    obtain ⟨hτ', hυ'⟩ := Bool.and_eq_true_iff.1 hsup
    rw [ihτ hτ' hτ, ihυ hυ hυ']
  | opened _ _ => cases hsub
  | declared _ _ => cases hsup

theorem subst (h : Generalizes rigid sub sup) (hsub : rigid ⊆ b :: rigid')
    (hκ : κ.SimpleOver rigid') (hsep : Separate (b :: rigid') (sub.quantifiers ++ sup.quantifiers)) :
    Generalizes rigid' (sub.subst b κ) (sup.subst b κ) := by
  induction h generalizing rigid' with
  | void => exact .void
  | @var _ a ha =>
    by_cases heq : a = b
    · simp only [Ty.subst, replace, if_pos heq]
      exact .refl hκ
    · simp only [Ty.subst, replace, if_neg heq]
      exact .var ((List.mem_cons.1 (hsub ha)).resolve_left heq)
  | arrow _ _ ihτ ihυ =>
    exact .arrow (ihτ hsub hκ hsep.parts.1) (ihυ hsub hκ hsep.parts.2)
  | @opened _ a body κ' sup hκ' _ ih =>
    have ha : a ∉ b :: rigid' := hsep.not_mem (by simp [quantifiers])
    rw [List.mem_cons, not_or] at ha
    have h := ih hsub hκ (hsep.opened hκ')
    rw [subst_subst ha.1 (hκ.not_mem ha.2)] at h
    exact .opened (hκ'.subst hκ hsub) h
  | @declared rigid a sub body _ ih =>
    refine .declared (ih (fun c hc => ?_) (hκ.mono (List.subset_append_left ..)) hsep.declared)
    rcases List.mem_append.1 hc with hc | hc
    · exact List.cons_subset_cons b (List.subset_append_left ..) (hsub hc)
    · simp [List.mem_singleton.1 hc]

theorem of_forAll_right (h : Generalizes rigid sub (.forAll b body)) :
    Generalizes (rigid ++ [b]) sub body := by
  generalize heq : Ty.forAll b body = sup at h
  induction h with
  | void => cases heq
  | var _ => cases heq
  | arrow _ _ => cases heq
  | opened hκ _ ih => exact .opened (hκ.mono (List.subset_append_left ..)) (ih heq)
  | declared h =>
    cases heq
    exact h

/-- A quantified type below is opened at last where all quantifiers at the front above are declared. -/
theorem of_forAll_left (h : Generalizes rigid (.forAll a body) sup) :
    ∃ κ : Ty, κ.SimpleOver (rigid ++ sup.leading) ∧
      Generalizes (rigid ++ sup.leading) (body.subst a κ) sup := by
  generalize heq : Ty.forAll a body = sub at h
  induction h with
  | void => cases heq
  | var _ => cases heq
  | arrow _ _ => cases heq
  | opened hκ h =>
    cases heq
    exact ⟨_, hκ.mono (List.subset_append_left ..), h.mono (List.subset_append_left ..)⟩
  | declared _ ih =>
    obtain ⟨κ, hκ, h⟩ := ih heq
    simp only [List.append_assoc, List.singleton_append] at hκ h
    exact ⟨κ, hκ, .declared (h.mono (List.subset_append_left ..))⟩

theorem arrows {τ υ τ' υ' : Ty} (h : Generalizes rigid (.arrow τ υ) (.arrow τ' υ')) :
    Generalizes rigid τ' τ ∧ Generalizes rigid υ υ' := by
  cases h with
  | arrow hτ hυ => exact ⟨hτ, hυ⟩

end Generalizes

def leaves : Ty → Nat
  | forAll _ body => body.leaves
  | arrow parameter result => parameter.leaves + result.leaves
  | _ => 1

theorem leaves_pos (ty : Ty) : 0 < ty.leaves := by
  induction ty with
  | forAll a body ih => exact ih
  | arrow parameter result ihp ihr => exact Nat.add_pos_left ihp _
  | _ => exact Nat.one_pos

theorem leaves_le_replace (f g : TypeId → Ty) (ty : Ty) : ty.leaves ≤ (ty.replace f g).leaves := by
  induction ty with
  | void => exact Nat.le_refl _
  | var a => exact leaves_pos _
  | placeholder p => exact leaves_pos _
  | forAll a body ih => exact ih
  | arrow parameter result ihp ihr => exact Nat.add_le_add ihp ihr

theorem leaves_le_assign {θ : Assignment} {p : TypeId} (hp : p ∈ ty.placeholders) :
    (θ p).leaves ≤ (ty.assign θ).leaves := by
  induction ty with
  | void => cases hp
  | var a => cases hp
  | placeholder q => rw [List.mem_singleton.1 hp]; exact Nat.le_refl _
  | forAll a body ih => exact ih hp
  | arrow parameter result ihp ihr =>
    rcases List.mem_append.1 hp with hp | hp
    · exact Nat.le_trans (ihp hp) (Nat.le_add_right ..)
    · exact Nat.le_trans (ihr hp) (Nat.le_add_left ..)

/-- A simple type below has as many leaves as the type above or more, and one above likewise. -/
theorem Generalizes.leaves_le (h : Generalizes rigid sub sup) :
    (sub.quantifierFree = true → sup.leaves ≤ sub.leaves) ∧
      (sup.quantifierFree = true → sub.leaves ≤ sup.leaves) := by
  induction h with
  | void => exact ⟨fun _ => Nat.le_refl _, fun _ => Nat.le_refl _⟩
  | var _ => exact ⟨fun _ => Nat.le_refl _, fun _ => Nat.le_refl _⟩
  | arrow _ _ ihτ ihυ =>
    refine ⟨fun hq => ?_, fun hq => ?_⟩
    · obtain ⟨hτ, hυ⟩ := Bool.and_eq_true_iff.1 hq
      exact Nat.add_le_add (ihτ.2 hτ) (ihυ.1 hυ)
    · obtain ⟨hτ, hυ⟩ := Bool.and_eq_true_iff.1 hq
      exact Nat.add_le_add (ihτ.1 hτ) (ihυ.2 hυ)
  | opened _ _ ih => exact ⟨nofun, fun hq => Nat.le_trans (leaves_le_replace ..) (ih.2 hq)⟩
  | declared _ ih => exact ⟨fun hq => ih.1 hq, nofun⟩

/-- Three types, each at least as general as the next. -/
structure Chain (rigid : List TypeId) (first second third : Ty) : Prop where
  separate : Separate rigid (first.quantifiers ++ second.quantifiers ++ third.quantifiers)
  lowest : first.free ⊆ rigid
  highest : third.free ⊆ rigid
  lower : Generalizes rigid first second
  upper : Generalizes rigid second third

namespace Chain

variable {first second third : Ty}

theorem declared (h : Chain rigid first second (.forAll a body)) :
    Chain (rigid ++ [a]) first second body := by
  have hmono : rigid ⊆ rigid ++ [a] := List.subset_append_left ..
  refine ⟨h.separate.declared, fun _ hb => hmono (h.lowest hb), fun b hb => ?_, h.lower.mono hmono,
    h.upper.of_forAll_right⟩
  by_cases hba : b = a
  · simp [hba]
  · exact hmono (h.highest (List.mem_filter.2 ⟨hb, by simpa using hba⟩))

theorem opened (h : Chain rigid (.forAll a body) second third) (hκ : κ.SimpleOver rigid)
    (hlower : Generalizes rigid (body.subst a κ) second) :
    Chain rigid (body.subst a κ) second third := by
  refine ⟨?_, fun b hb => ?_, h.highest, hlower, h.upper⟩
  · have hsep := h.separate
    rw [List.append_assoc] at hsep ⊢
    exact hsep.opened hκ
  · rcases free_subst hb with ⟨hb, hne⟩ | hb
    · exact h.lowest (List.mem_filter.2 ⟨hb, by simpa using hne⟩)
    · exact hκ.scope b hb

theorem parts {τ υ τ' υ' τ'' υ'' : Ty} (h : Chain rigid (.arrow τ υ) (.arrow τ' υ') (.arrow τ'' υ'')) :
    Chain rigid τ'' τ' τ ∧ Chain rigid υ υ' υ'' := by
  obtain ⟨hsep, hlowest, hhighest, hlower, hupper⟩ := h
  simp only [free, List.append_subset] at hlowest hhighest
  refine ⟨⟨hsep.of_le fun c => ?_, hhighest.1, hlowest.1, hupper.arrows.1, hlower.arrows.1⟩,
    hsep.of_le fun c => ?_, hlowest.2, hhighest.2, hlower.arrows.2, hupper.arrows.2⟩ <;>
  · simp only [List.count_append, count_arrow]
    omega

/-- The variable that is declared on the one side is opened on the other: the simple type is put for
it. -/
theorem meets (h : Chain rigid first (.forAll a body) third) (hκ : κ.SimpleOver rigid)
    (hupper : Generalizes rigid (body.subst a κ) third) :
    Chain rigid first (body.subst a κ) third := by
  have hcount : ∀ c, (if c ∈ rigid then 1 else 0) + first.quantifiers.count c +
      (body.quantifiers.count c + if c = a then 1 else 0) + third.quantifiers.count c ≤ 1 := fun c => by
    have := h.separate c
    simp only [List.count_append, count_forAll] at this
    omega
  have ha : a ∉ rigid := h.separate.not_mem (by simp [quantifiers])
  -- The first type does not know the variable, so that nothing is put into it.
  have habsent : a ∉ first.occurrences := fun hmem => by
    rcases free_or_quantified hmem with hfree | hquantified
    · exact ha (h.lowest hfree)
    · have := hcount a
      have := List.count_pos_iff.2 hquantified
      simp only [if_true] at *
      omega
  have hmem : rigid ++ [a] ⊆ a :: rigid := by simp
  have hlower := h.lower.of_forAll_right.subst hmem hκ fun c => ?_
  · rw [subst_of_not_mem habsent] at hlower
    refine ⟨fun c => ?_, h.lowest, h.highest, hlower, hupper⟩
    have := hcount c
    simp only [List.count_append, count_subst _ hκ]
    omega
  · have := hcount c
    have := declared_le (List.Subset.refl (a :: rigid)) c
    simp only [List.count_append]
    omega

end Chain

/-- The order is transitive among types with so many quantifiers and of this size at most. -/
def TransitiveUpTo (quantifiers size : Nat) : Prop :=
  ∀ {rigid : List TypeId} {first second third : Ty}, Chain rigid first second third →
    first.quantifiers.length + second.quantifiers.length + third.quantifiers.length ≤ quantifiers →
    first.size + second.size + third.size ≤ size → Generalizes rigid first third

theorem eq_forAll_of_isMonotype (h : ty.isMonotype = false) : ∃ a body, ty = .forAll a body := by
  cases ty with
  | forAll a body => exact ⟨a, body, rfl⟩
  | _ => cases h

theorem transitiveUpTo_step {n m : Nat} (fewer : ∀ n' < n, ∀ m', TransitiveUpTo n' m')
    (smaller : ∀ m' < m, TransitiveUpTo n m') : TransitiveUpTo n m := by
  intro rigid first second third h hn hm
  -- A variable above is declared before a type is chosen below, which may use it.
  cases hthird : third.isMonotype with
  | false =>
    obtain ⟨a, body, rfl⟩ := eq_forAll_of_isMonotype hthird
    simp only [quantifiers, List.length_cons] at hn
    exact .declared (fewer _ (by omega) _ h.declared (Nat.le_refl _) (Nat.le_refl _))
  | true =>
    cases hl : h.lower with
    | void => exact h.upper
    | var _ => exact h.upper
    | @opened _ a body κ _ hκ hlower =>
      have hq : (body.subst a κ).quantifiers = body.quantifiers :=
        quantifiers_subst (quantifierFree_of_simple hκ.simple)
      simp only [quantifiers, List.length_cons] at hn
      exact .opened hκ (fewer (n - 1) (by omega) _ (h.opened hκ hlower) (by rw [hq]; omega)
        (Nat.le_refl _))
    | @declared _ a _ body _ =>
      -- The substitution may make the types larger, but takes the quantifier away.
      cases h.upper with
      | declared _ => cases hthird
      | @opened _ _ _ κ _ hκ hupper =>
        have hq : (body.subst a κ).quantifiers = body.quantifiers :=
          quantifiers_subst (quantifierFree_of_simple hκ.simple)
        simp only [quantifiers, List.length_cons] at hn
        exact fewer (n - 1) (by omega) _ (h.meets hκ hupper) (by rw [hq]; omega) (Nat.le_refl _)
    | arrow _ _ =>
      cases h.upper with
      | declared _ => cases hthird
      | arrow _ _ =>
        simp only [quantifiers, List.length_append, size] at hn hm
        exact .arrow (smaller _ (by omega) h.parts.1 (by omega) (Nat.le_refl _))
          (smaller _ (by omega) h.parts.2 (by omega) (Nat.le_refl _))

theorem transitiveUpTo (n m : Nat) : TransitiveUpTo n m := by
  induction n using Nat.strongRecOn generalizing m with
  | ind n ihn =>
    induction m using Nat.strongRecOn with
    | ind m ihm => exact transitiveUpTo_step ihn ihm

theorem Chain.generalizes {first second third : Ty} (h : Chain rigid first second third) :
    Generalizes rigid first third :=
  transitiveUpTo _ _ h (Nat.le_refl _) (Nat.le_refl _)

end Ty

def Variance.Between : Variance → List TypeId → Ty → Ty → Prop
  | covariant, rigid, τ, σ => τ.Generalizes rigid σ
  | contravariant, rigid, τ, σ => σ.Generalizes rigid τ

namespace Variance.Between

variable {v : Variance} {rigid : List TypeId} {ρ ρ₁ ρ₂ σ σ₁ σ₂ : Ty}

theorem refl (h : ρ.SimpleOver rigid) : v.Between rigid ρ ρ := by
  cases v with
  | covariant => exact .refl h
  | contravariant => exact .refl h

theorem arrow (h₁ : v.flip.Between rigid ρ₁ σ₁) (h₂ : v.Between rigid ρ₂ σ₂) :
    v.Between rigid (.arrow ρ₁ ρ₂) (.arrow σ₁ σ₂) := by
  cases v with
  | covariant => exact .arrow h₁ h₂
  | contravariant => exact .arrow h₁ h₂

end Variance.Between
end HigherRank
