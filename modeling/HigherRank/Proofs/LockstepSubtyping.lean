import HigherRank.Proofs.Lockstep

set_option autoImplicit false

/-!
# Subtyping in lockstep

The rules of instantiation and subtyping, opening quantifiers in the guarded way, by their own
identifiers and by new ones, run in lockstep on types that match. Induction over the levels that are
left carries this from one level of the judgments to all of them.
-/
namespace HigherRank

open Judgment

section Rules

variable {α β : Type} {limit : Nat} {names : List TypeId} {kept : Bool} {Ξ : Twins} {p q : TypeId}
  {τ υ : Ty}

theorem Lockstep.resolve_bind {W : Twins → α → β → Prop} {gf : Ty → Search Halt α}
    {of : Ty → Judgment α} {ff : Ty → Judgment β} (h : Ty.Matches names Ξ [] τ υ)
    (hf : ∀ τ' υ', Ty.Matches names Ξ [] τ' υ' →
      Lockstep names kept Ξ W (gf τ') (of τ') (ff υ')) :
    Lockstep names kept Ξ W (Opening.guarded.resolve τ >>= gf)
      (Opening.own.resolve τ >>= of) (Opening.fresh.resolve υ >>= ff) := by
  intro s t hp
  cases hc : s.context.captures τ with
  | true =>
    have hrun : Opening.guarded.resolve τ s = (.aborted .stopped, s) := if_pos hc
    exact .stopped (bind_of_aborted hrun) fun _ => rfl
  | false =>
    have hrun : Opening.guarded.resolve τ s = (.accepted (s.context.apply τ), s) :=
      if_neg (by simp [hc])
    have hm : Ty.Matches names Ξ [] (s.context.apply τ) (t.context.apply υ) := by
      rw [hp.left] at hc ⊢
      rw [hp.right]
      exact hp.sound.apply hc h
    rw [bind_of_accepted hrun]
    exact hf _ _ hm s t hp

theorem lockstep_lookup (x : BindingId) :
    Lockstep names true Ξ (fun Ξ' τ υ => Ty.Matches names Ξ' [] τ υ) (lookup x) (lookup x)
      (lookup x) := by
  intro s t h
  rcases h.sound.binding?_cases x with ⟨hl, hr⟩ | ⟨τ, υ, hl, hr, hm⟩
  · rw [← h.left] at hl
    rw [← h.right] at hr
    have hg : ∀ {ε : Type}, (lookup x : Search ε Ty) s = (.rejected, s) := by
      simp only [lookup, hl, implies_true]
    have hf : (lookup x : Judgment Ty) t = (.rejected, t) := by simp only [lookup, hr]
    exact .rejected hg hg hf (.refl Ξ) (fun _ => rfl) h
  · rw [← h.left] at hl
    rw [← h.right] at hr
    have hg : ∀ {ε : Type}, (lookup x : Search ε Ty) s = (.accepted τ, s) := by
      simp only [lookup, hl, implies_true]
    have hf : (lookup x : Judgment Ty) t = (.accepted υ, t) := by simp only [lookup, hr]
    exact .accepted hg hg hf (.refl Ξ) h hm

theorem Paired.isUnsolved_eq {s t : State} (h : Paired names Ξ s t)
    (hpq : (p, q) ∈ Ξ.placeholders) : t.context.isUnsolved q = s.context.isUnsolved p := by
  rw [h.left, h.right]
  rcases h.sound.slot_cases hpq with ⟨hl, hr⟩ | ⟨before, after, rfl, -, -⟩
  · simp [Context.isUnsolved, (Context.slot_eq_error.1 hl).1, (Context.slot_eq_error.1 hr).1]
  · simp [Context.isUnsolved, Twins.left, Twins.right, Twin.left, Twin.right]

theorem lockstep_introduce (label label' : String) :
    Lockstep names true Ξ (fun Ξ' p q => (p, q) ∈ Ξ'.placeholders) (introduce label)
      (introduce label) (introduce label') := by
  intro s t h
  refine .accepted rfl rfl rfl (.append ..) (h.introduce label label') ?_
  simp [Twins.placeholders_append, Twins.placeholders_cons, Twin.placeholder?]

theorem agree_solve {before after : Twins} {s t : State} (h : Paired names Ξ s t)
    (hΞ : Ξ = before ++ .unsolved p q :: after)
    (hl : Ξ.left.slot p = .ok (before.left, after.left))
    (hr : Ξ.right.slot q = .ok (before.right, after.right))
    (hm : Ty.Matches names before [] τ υ) :
    Agree names true Ξ anyValue s (solve p τ s) (solve p τ s) (solve q υ t) := by
  rw [← h.left] at hl
  rw [← h.right] at hr
  subst hΞ
  have hno : ∀ e ∈ ([] : Twins), ∃ p' q', e = .unsolved p' q' := by simp
  refine .accepted (solve_of_slot τ hl) (solve_of_slot τ hl) (solve_of_slot υ hr)
    (.fill p q τ υ hno) ?_ trivial
  refine h.fill hno h.sound.placeholders (by simpa using hm) ?_ ?_ rfl rfl (Nat.le_refl _)
    (Nat.le_refl _) (by simp [Twins.placeholders])
  · simp [Twins.left, Twin.left]
  · simp [Twins.right, Twin.right]

theorem lockstep_articulate (hpq : (p, q) ∈ Ξ.placeholders) :
    Lockstep names true Ξ (fun Ξ' l r => (l.1, r.1) ∈ Ξ'.placeholders ∧
      (l.2, r.2) ∈ Ξ'.placeholders) (articulate p) (articulate p) (articulate q) := by
  intro s t h
  rcases h.sound.slot_cases hpq with ⟨hl, hr⟩ | ⟨before, after, rfl, hl, hr⟩
  · rw [← h.left] at hl
    rw [← h.right] at hr
    have hp : Paired names Ξ { s with supply := mintedArrow p s.supply }
        { t with supply := mintedArrow q t.supply } :=
      h.withSupply rfl rfl rfl rfl (by simp [size_mintedArrow]) (by simp [size_mintedArrow])
    exact .aborted (articulate_of_error hl) (articulate_of_error hl) (articulate_of_error hr)
      (.refl Ξ) (fun _ => rfl) hp (.placeholder p q)
  · rw [← h.left] at hl
    rw [← h.right] at hr
    let news : Twins := [.unsolved ⟨s.supply.types.size⟩ ⟨t.supply.types.size⟩,
      .unsolved ⟨s.supply.types.size + 1⟩ ⟨t.supply.types.size + 1⟩]
    have hn : ∀ e ∈ news, ∃ p' q', e = .unsolved p' q' := by simp [news]
    have hold : ∀ k p' q', (p', q') ∈ Twins.placeholders (before ++ .unsolved p q :: after) →
        p' ≠ ⟨s.supply.types.size + k⟩ ∧ q' ≠ ⟨t.supply.types.size + k⟩ := by
      intro k p' q' hpq'
      obtain ⟨hp, hq⟩ := h.placeholders p' q' hpq'
      constructor
      · rintro rfl
        exact absurd hp (Nat.not_lt.2 (Nat.le_add_right _ k))
      · rintro rfl
        exact absurd hq (Nat.not_lt.2 (Nat.le_add_right _ k))
    have hpairs : Twins.OneToOne (news.placeholders ++
        Twins.placeholders (before ++ .unsolved p q :: after)) := by
      refine (h.sound.placeholders.cons (hold 1)).cons fun p' q' hpq' => ?_
      rcases List.mem_cons.1 hpq' with heq | hpq'
      · cases heq
        simp
      · exact hold 0 p' q' hpq'
    have hm : Ty.Matches names (before ++ news) []
        (.arrow (.placeholder ⟨s.supply.types.size⟩) (.placeholder ⟨s.supply.types.size + 1⟩))
        (.arrow (.placeholder ⟨t.supply.types.size⟩) (.placeholder ⟨t.supply.types.size + 1⟩)) := by
      refine .arrow (.placeholder ?_) (.placeholder ?_) <;>
        simp [Twins.placeholders_append, Twins.placeholders_cons, news, Twin.placeholder?]
    refine .accepted (articulate_of_slot hl) (articulate_of_slot hl) (articulate_of_slot hr)
      (.fill p q _ _ hn) (h.fill hn hpairs hm ?_ ?_ rfl rfl (by simp [size_mintedArrow])
        (by simp [size_mintedArrow]) ?_) ?_
    · simp [Twins.left, Twin.left, news]
    · simp [Twins.right, Twin.right, news]
    · intro p' q' hpq'
      rcases List.mem_cons.1 hpq' with heq | hpq'
      · cases heq
        simp [size_mintedArrow]
      · cases List.mem_singleton.1 hpq'
        simp [size_mintedArrow]
    · simp [Twins.placeholders_append, Twins.placeholders_cons, news, Twin.placeholder?]

/-- A later placeholder is solved to the earlier one on both sides, or on neither. -/
theorem agree_instantiateLater {later later' : TypeId} {before after : Twins} {s t : State}
    (h : Paired names Ξ s t) (hpq : (p, q) ∈ Ξ.placeholders)
    (hlater : (later, later') ∈ Ξ.placeholders) (hne : p ≠ later)
    (hl : Ξ.left.slot p = .ok (before.left, after.left))
    (hmem : later ∉ before.left.placeholders) :
    Agree names true Ξ anyValue s
      (if s.context.isUnsolved later then solve later (.placeholder p) s else (.rejected, s))
      (if s.context.isUnsolved later then solve later (.placeholder p) s else (.rejected, s))
      (if t.context.isUnsolved later' then solve later' (.placeholder q) t
        else (.rejected, t)) := by
  rw [h.isUnsolved_eq hlater]
  rcases h.sound.slot_cases hlater with ⟨hl', -⟩ | ⟨before', after', hΞ', hl', hr'⟩
  · have hclosed : s.context.isUnsolved later = false := by
      simp [Context.isUnsolved, h.left, (Context.slot_eq_error.1 hl').1]
    rw [hclosed]
    exact .rejected rfl rfl rfl (.refl Ξ) (fun _ => rfl) h
  · obtain ⟨heq, -⟩ := Context.slot_eq_ok.1 hl'
    have hopen : s.context.isUnsolved later = true := by
      simp [Context.isUnsolved, h.left, heq]
    rw [hopen]
    refine agree_solve h hΞ' hl' hr' (.placeholder ?_)
    have hp := Context.mem_before_later ((Context.slot_eq_ok.1 hl).1.symm.trans heq) hne hmem
    rw [Twins.placeholders_left] at hp
    obtain ⟨⟨p', q'⟩, hp', rfl⟩ := List.mem_map.1 hp
    have hpq' : (p', q') ∈ Ξ.placeholders := by
      rw [hΞ', Twins.placeholders_append]
      exact List.mem_append_left _ hp'
    rw [(h.sound.placeholders _ _ _ _ hpq hpq').1 rfl]
    exact hp'

theorem lockstep_instantiateMonotype (hpq : (p, q) ∈ Ξ.placeholders)
    (hm : Ty.Matches names Ξ [] τ υ) :
    Lockstep names true Ξ anyValue (instantiateMonotype p τ) (instantiateMonotype p τ)
      (instantiateMonotype q υ) := by
  intro s t h
  have hself := hm.eq_placeholder_iff h.sound hpq
  by_cases hτ : τ = .placeholder p
  · have hg : ∀ {ε : Type} [SearchError ε],
        (instantiateMonotype p τ : Search ε Unit) s = (.accepted (), s) := if_pos hτ
    have hf : (instantiateMonotype q υ : Judgment Unit) t = (.accepted (), t) :=
      if_pos (hself.2 hτ)
    exact .accepted hg hg hf (.refl Ξ) h trivial
  have hυ : υ ≠ .placeholder q := fun heq => hτ (hself.1 heq)
  have hmonoυ := hm.isMonotype_eq
  cases hmono : τ.isMonotype with
  | false =>
    have hg : ∀ {ε : Type} [SearchError ε],
        (instantiateMonotype p τ : Search ε Unit) s = (.rejected, s) := by
      simp [instantiateMonotype, hτ, hmono]
    have hf : (instantiateMonotype q υ : Judgment Unit) t = (.rejected, t) := by
      simp [instantiateMonotype, hυ, hmonoυ, hmono]
    exact .rejected hg hg hf (.refl Ξ) (fun _ => rfl) h
  | true =>
    rw [hmono] at hmonoυ
    rcases h.sound.slot_cases hpq with ⟨hl, hr⟩ | ⟨before, after, hΞ, hl, hr⟩
    · rw [← h.left] at hl
      rw [← h.right] at hr
      exact .aborted (instantiateMonotype_of_error hτ hmono hl)
        (instantiateMonotype_of_error hτ hmono hl) (instantiateMonotype_of_error hυ hmonoυ hr)
        (.refl Ξ) (fun _ => rfl) h (.placeholder p q)
    have hsl := hl
    have hsr := hr
    rw [← h.left] at hsl
    rw [← h.right] at hsr
    have hrigid : before.rigid ⊆ Ξ.rigid := by
      rw [hΞ, Twins.rigid_append]
      exact List.subset_append_left ..
    have hplaceholders : before.placeholders ⊆ Ξ.placeholders := by
      rw [hΞ, Twins.placeholders_append]
      exact List.subset_append_left ..
    have hwυ := hm.wellFormed_eq h.sound hrigid hplaceholders
    cases hw : before.left.wellFormed τ with
    | true =>
      rw [hw] at hwυ
      rw [instantiateMonotype_of_wellFormed hτ hmono hsl hw,
        instantiateMonotype_of_wellFormed hτ hmono hsl hw,
        instantiateMonotype_of_wellFormed hυ hmonoυ hsr hwυ]
      rw [Context.wellFormed_eq_admits] at hw
      exact agree_solve h hΞ hl hr (hm.of_admits_left h.sound hrigid hplaceholders hw)
    | false =>
      rw [hw] at hwυ
      by_cases hlater : ∃ later, τ = .placeholder later
      · obtain ⟨later, rfl⟩ := hlater
        cases hm with | @placeholder _ _ later' hpair
        rw [instantiateMonotype_of_later hτ hmono hsl hw rfl,
          instantiateMonotype_of_later hτ hmono hsl hw rfl,
          instantiateMonotype_of_later hυ hmonoυ hsr hwυ rfl]
        refine agree_instantiateLater h hpq hpair (fun heq => hτ (heq ▸ rfl)) hl fun hmem => ?_
        simp [Context.wellFormed_placeholder.2 hmem] at hw
      · have hstuck : ∀ later, υ ≠ .placeholder later := by
          rintro later rfl
          cases hm
          exact hlater ⟨_, rfl⟩
        have hstuck' : ∀ later, τ ≠ .placeholder later := fun later heq => hlater ⟨later, heq⟩
        exact .rejected (instantiateMonotype_of_stuck hτ hmono hsl hw hstuck')
          (instantiateMonotype_of_stuck hτ hmono hsl hw hstuck')
          (instantiateMonotype_of_stuck hυ hmonoυ hsr hwυ hstuck) (.refl Ξ) (fun _ => rfl) h

section Scopes

variable {a : TypeId} {gf : Ty → Search Halt Unit} {of ff : Ty → Judgment Unit}

theorem lockstep_assuming {g : Search Halt Unit} {o f : Judgment Unit} (x : BindingId)
    (hm : Ty.Matches names Ξ [] τ υ)
    (hx : ∀ Ξ', Twins.Grows Ξ Ξ' → Lockstep names true Ξ' anyValue g o f) :
    Lockstep names false Ξ anyValue (inChildScope (assume x τ >>= fun _ => g))
      (inChildScope (assume x τ >>= fun _ => o)) (inChildScope (assume x υ >>= fun _ => f)) := by
  intro s t h
  have hmarked := h.openScope
  have hgrown : Twins.Grows Ξ (Ξ ++ [.marker ⟨s.supply.markers⟩]) := .append ..
  have hassumed := hmarked.assume x (hgrown.matches hm)
  exact Lockstep.scope h hassumed (hx _ (hgrown.trans (.append ..))) rfl rfl rfl

/-- The guarded way stops if the variable is declared; else the variable is new on both sides. -/
theorem lockstep_rigidly (h : Ty.Matches names Ξ [] (.forAll a τ) (.forAll a υ))
    (hf : ∀ Ξ' υ', Twins.Grows Ξ Ξ' → Ty.Matches names Ξ' [] τ υ' →
      Lockstep names true Ξ' anyValue (gf τ) (of τ) (ff υ')) :
    Lockstep names true Ξ anyValue (Opening.guarded.rigidly a τ gf)
      (Opening.own.rigidly a τ of) (Opening.fresh.rigidly a υ ff) := by
  intro s t hp
  by_cases ha : .var a ∈ s.context
  · have hrun : Opening.guarded.rigidly a τ gf s =
        (.aborted .stopped, s) := if_pos ha
    exact .stopped hrun fun _ => rfl
  have hrun : Opening.guarded.rigidly a τ gf s = Opening.own.rigidly a τ gf s := if_neg ha
  rw [hrun]
  rw [hp.left] at ha
  refine Lockstep.atomically (fun s t hp => ?_) s t hp
  have hmarked := hp.openScope
  have hnew : .var a ∉ s.openScope.2.context := by
    simpa [State.openScope, hp.left] using ha
  have hdeclared := hmarked.declare hnew (t.openScope.2.supply.typeLabel a)
  have hgrown := Twins.Grows.trans (.append Ξ [.marker ⟨s.supply.markers⟩])
    (.append _ [.var a ⟨t.openScope.2.supply.types.size⟩])
  refine Lockstep.scope hp hdeclared (hf _ _ hgrown ?_) rfl rfl rfl
  cases h with | forAll hn _ hbody
  refine (hgrown.matches hbody).subst_var hdeclared.sound hn (by simp) (by simp) ?_
  simp [Twins.rigid_append, Twins.rigid_cons, Twin.rigid?, Supply.mintType]

theorem lockstep_introducing {α β : Type} {W : Twins → α → β → Prop} {gf : Ty → Search Halt α}
    {of : Ty → Judgment α} {ff : Ty → Judgment β}
    (h : Ty.Matches names Ξ [] (.forAll a τ) (.forAll a υ))
    (hf : ∀ Ξ' τ' υ', Twins.Grows Ξ Ξ' → Ty.Matches names Ξ' [] τ' υ' →
      Lockstep names true Ξ' W (gf τ') (of τ') (ff υ')) :
    Lockstep names false Ξ W (introducing a τ gf) (introducing a τ of)
      (introducing a υ ff) := by
  have hnext : ∀ Ξ' p q, Twins.Grows Ξ Ξ' → (p, q) ∈ Ξ'.placeholders →
      Lockstep names false Ξ' W (gf (τ.subst a (.placeholder p)))
        (of (τ.subst a (.placeholder p))) (ff (υ.subst a (.placeholder q))) := by
    intro Ξ' p q hgrown hpq s t hp
    cases h with | forAll hn _ hbody
    refine (hf Ξ' _ _ hgrown ?_).loosen s t hp
    exact (hgrown.matches hbody).subst_placeholder hp.sound hn (by simp) hpq
  intro s t hp
  exact (lockstep_introduce (s.supply.typeLabel a) (t.supply.typeLabel a)).bind hnext s t hp

theorem lockstep_flexibly (h : Ty.Matches names Ξ [] (.forAll a τ) (.forAll a υ))
    (hf : ∀ Ξ' τ' υ', Twins.Grows Ξ Ξ' → Ty.Matches names Ξ' [] τ' υ' →
      Lockstep names true Ξ' anyValue (gf τ') (of τ') (ff υ')) :
    Lockstep names true Ξ anyValue (flexibly a τ gf) (flexibly a τ of)
      (flexibly a υ ff) := by
  refine Lockstep.atomically fun s t hp => ?_
  have hmarked := hp.openScope
  have hintroduced := hmarked.introduce (s.openScope.2.supply.typeLabel a)
    (t.openScope.2.supply.typeLabel a)
  have hgrown := Twins.Grows.trans (.append Ξ [.marker ⟨s.supply.markers⟩])
    (.append _ [.unsolved ⟨s.openScope.2.supply.types.size⟩ ⟨t.openScope.2.supply.types.size⟩])
  refine Lockstep.scope hp hintroduced (hf _ _ _ hgrown ?_) rfl rfl rfl
  cases h with | forAll hn _ hbody
  refine (hgrown.matches hbody).subst_placeholder hintroduced.sound hn (by simp) ?_
  simp [Twins.placeholders_append, Twins.placeholders_cons, Twin.placeholder?]

end Scopes

section Instantiation

variable {ng : Variance → TypeId → Ty → Search Halt Unit}
  {no nf : Variance → TypeId → Ty → Judgment Unit}
  (hnext : ∀ Ξ v p q τ υ, (p, q) ∈ Ξ.placeholders → Ty.Matches names Ξ [] τ υ →
    Lockstep names true Ξ anyValue (ng v p τ) (no v p τ) (nf v q υ))
include hnext

theorem lockstep_instantiateStep (v : Variance) (hpq : (p, q) ∈ Ξ.placeholders)
    (hm : Ty.Matches names Ξ [] τ υ) :
    Lockstep names true Ξ anyValue (Opening.guarded.instantiateStep ng v p τ)
      (Opening.own.instantiateStep no v p τ) (Opening.fresh.instantiateStep nf v q υ) := by
  refine Lockstep.resolve_bind hm fun τ υ hm s t hp => ?_
  have hself := hm.eq_placeholder_iff hp.sound hpq
  have hmentions := hm.mentions_eq hp.sound hpq
  by_cases hτ : τ = .placeholder p
  · rw [if_pos hτ, if_pos hτ, if_pos (hself.2 hτ)]
    exact Lockstep.accept trivial s t hp
  rw [if_neg hτ, if_neg hτ, if_neg fun heq => hτ (hself.1 heq), hmentions]
  cases hoccurs : τ.mentions p with
  | true => exact Lockstep.reject s t hp
  | false =>
    refine Lockstep.orElse (lockstep_instantiateMonotype hpq hm) ?_ s t hp
    cases hm with
    | bound ha => cases ha
    | arrow hparameter hresult =>
      refine Lockstep.atomically ((lockstep_articulate hpq).bind fun Ξ₁ l r hgrown hlr => ?_)
      refine (hnext Ξ₁ _ _ _ _ _ hlr.1 (hgrown.matches hparameter)).bind fun Ξ₂ _ _ hgrown' _ => ?_
      refine Lockstep.resolve_bind (hgrown'.matches (hgrown.matches hresult)) fun τ' υ' hm => ?_
      exact (hnext Ξ₂ _ _ _ _ _ (hgrown'.placeholders hlr.2) hm).loosen
    | forAll hn ha hbody =>
      cases v with
      | covariant =>
        exact lockstep_rigidly (.forAll hn ha hbody) fun Ξ' υ' hgrown hm =>
          hnext Ξ' _ p q _ _ (hgrown.placeholders hpq) hm
      | contravariant =>
        exact lockstep_flexibly (.forAll hn ha hbody) fun Ξ' τ' υ' hgrown hm =>
          hnext Ξ' _ p q _ _ (hgrown.placeholders hpq) hm
    | _ => exact Lockstep.reject

end Instantiation

theorem lockstep_instantiate (left : Nat) (v : Variance) (hpq : (p, q) ∈ Ξ.placeholders)
    (hm : Ty.Matches names Ξ [] τ υ) :
    Lockstep names true Ξ anyValue (Opening.guarded.instantiate limit left v p τ)
      (Opening.own.instantiate limit left v p τ) (Opening.fresh.instantiate limit left v q υ) := by
  induction left generalizing Ξ v p q τ υ with
  | zero => exact Lockstep.abort (.same _)
  | succ left ih =>
    exact (lockstep_instantiateStep (fun _ v _ _ _ _ hpq hm => ih v hpq hm) v hpq hm).nested

section Subtyping

variable {ng : Ty → Ty → Search Halt Unit} {no nf : Ty → Ty → Judgment Unit}
  {ig : Variance → TypeId → Ty → Search Halt Unit} {io jf : Variance → TypeId → Ty → Judgment Unit}
  {τ' υ' : Ty}
  (hnext : ∀ Ξ τ υ τ' υ', Ty.Matches names Ξ [] τ υ → Ty.Matches names Ξ [] τ' υ' →
    Lockstep names true Ξ anyValue (ng τ τ') (no τ τ') (nf υ υ'))
  (hinstantiate : ∀ Ξ v p q τ υ, (p, q) ∈ Ξ.placeholders → Ty.Matches names Ξ [] τ υ →
    Lockstep names true Ξ anyValue (ig v p τ) (io v p τ) (jf v q υ))

theorem lockstep_instantiateIfOpen {g : TypeId → Ty → Search Halt Unit}
    {o f : TypeId → Ty → Judgment Unit}
    (hx : Lockstep names true Ξ anyValue (g p τ) (o p τ) (f q υ))
    (hpq : (p, q) ∈ Ξ.placeholders) (hm : Ty.Matches names Ξ [] τ υ) :
    Lockstep names true Ξ anyValue (instantiateIfOpen g p τ) (instantiateIfOpen o p τ)
      (instantiateIfOpen f q υ) := by
  intro s t h
  have hg : ∀ {ε : Type} {x : TypeId → Ty → Search ε Unit} {p : TypeId} {τ : Ty} {s : State},
      instantiateIfOpen x p τ s =
        if s.context.isUnsolved p && !τ.mentions p then x p τ s else (.rejected, s) := by
    intro ε x p τ s
    change (if s.context.isUnsolved p && !τ.mentions p then x p τ else reject : Search ε Unit) s = _
    split <;> rfl
  rw [hg, hg, hg, h.isUnsolved_eq hpq, hm.mentions_eq h.sound hpq]
  split
  · exact hx s t h
  · exact Lockstep.reject s t h

include hnext in
theorem lockstep_subtypeOpeningSub (hm : Ty.Matches names Ξ [] τ υ)
    (hm' : Ty.Matches names Ξ [] τ' υ') :
    Lockstep names true Ξ anyValue (subtypeOpeningSub ng τ τ') (subtypeOpeningSub no τ τ')
      (subtypeOpeningSub nf υ υ') := by
  cases hm with
  | forAll hn ha hbody =>
    exact lockstep_flexibly (.forAll hn ha hbody) fun Ξ' _ _ hgrown hm =>
      hnext Ξ' _ _ _ _ hm (hgrown.matches hm')
  | _ => exact Lockstep.reject

include hnext in
theorem lockstep_subtypeOpeningSup (hm : Ty.Matches names Ξ [] τ υ)
    (hm' : Ty.Matches names Ξ [] τ' υ') :
    Lockstep names true Ξ anyValue (Opening.guarded.subtypeOpeningSup ng τ τ')
      (Opening.own.subtypeOpeningSup no τ τ') (Opening.fresh.subtypeOpeningSup nf υ υ') := by
  cases hm' with
  | forAll hn ha hbody =>
    exact lockstep_rigidly (.forAll hn ha hbody) fun Ξ' _ hgrown hm' =>
      hnext Ξ' _ _ _ _ (hgrown.matches hm) hm'
  | _ => exact Lockstep.reject

include hinstantiate in
theorem lockstep_subtypeSolvingSub (hm : Ty.Matches names Ξ [] τ υ)
    (hm' : Ty.Matches names Ξ [] τ' υ') :
    Lockstep names true Ξ anyValue (subtypeSolvingSub ig τ τ') (subtypeSolvingSub io τ τ')
      (subtypeSolvingSub jf υ υ') := by
  cases hm with
  | placeholder hpq =>
    exact lockstep_instantiateIfOpen (hinstantiate Ξ .covariant _ _ _ _ hpq hm') hpq hm'
  | _ => exact Lockstep.reject

include hinstantiate in
theorem lockstep_subtypeSolvingSup (hm : Ty.Matches names Ξ [] τ υ)
    (hm' : Ty.Matches names Ξ [] τ' υ') :
    Lockstep names true Ξ anyValue (subtypeSolvingSup ig τ τ') (subtypeSolvingSup io τ τ')
      (subtypeSolvingSup jf υ υ') := by
  cases hm' with
  | placeholder hpq =>
    exact lockstep_instantiateIfOpen (hinstantiate Ξ .contravariant _ _ _ _ hpq hm) hpq hm
  | _ => exact Lockstep.reject

include hnext hinstantiate

theorem lockstep_subtypeStep (hm : Ty.Matches names Ξ [] τ υ) (hm' : Ty.Matches names Ξ [] τ' υ') :
    Lockstep names true Ξ anyValue (Opening.guarded.subtypeStep ng ig τ τ')
      (Opening.own.subtypeStep no io τ τ') (Opening.fresh.subtypeStep nf jf υ υ') := by
  refine Lockstep.resolve_bind hm fun τ υ hm => ?_
  refine Lockstep.resolve_bind hm' fun τ' υ' hm' s t hp => ?_
  have hrest : Lockstep names true Ξ anyValue
      (Opening.guarded.subtypeOtherwise ng ig τ τ') (Opening.own.subtypeOtherwise no io τ τ')
      (Opening.fresh.subtypeOtherwise nf jf υ υ') := by
    simp only [Opening.subtypeOtherwise, hm.sameAtom_eq hp.sound hm']
    split
    · exact Lockstep.accept trivial
    · exact (lockstep_subtypeOpeningSub hnext hm hm').orElse
        ((lockstep_subtypeOpeningSup hnext hm hm').orElse
          ((lockstep_subtypeSolvingSub hinstantiate hm hm').orElse
            (lockstep_subtypeSolvingSup hinstantiate hm hm')))
  cases hm with
  | arrow hparameter hresult =>
    cases hm' with
    | arrow hparameter' hresult' =>
      refine Lockstep.atomically ?_ s t hp
      refine (hnext _ _ _ _ _ hparameter' hparameter).bind fun Ξ' _ _ hgrown _ => ?_
      exact (hnext _ _ _ _ _ (hgrown.matches hresult) (hgrown.matches hresult')).loosen
    | _ => exact hrest s t hp
  | _ => exact hrest s t hp

end Subtyping

theorem lockstep_subtype {τ' υ' : Ty} (left : Nat) (hm : Ty.Matches names Ξ [] τ υ)
    (hm' : Ty.Matches names Ξ [] τ' υ') :
    Lockstep names true Ξ anyValue (Opening.guarded.subtype limit left τ τ')
      (Opening.own.subtype limit left τ τ') (Opening.fresh.subtype limit left υ υ') := by
  induction left generalizing Ξ τ υ τ' υ' with
  | zero => exact Lockstep.abort (.same _)
  | succ left ih =>
    exact (lockstep_subtypeStep (fun _ _ _ _ _ hm hm' => ih hm hm')
      (fun _ v _ _ _ _ hpq hm => lockstep_instantiate left v hpq hm) hm hm').nested

end Rules
end HigherRank
