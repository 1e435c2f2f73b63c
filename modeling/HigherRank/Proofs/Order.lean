import HigherRank.Proofs.Growth
import HigherRank.Judgment

set_option autoImplicit false

/-!
# Ordered contexts

The solution of a placeholder depends on earlier entries only. Cutting a context off, appending to
it, and the two ways to fill a slot keep it so.
-/
namespace HigherRank

namespace Entry

-- What is said of entries of one kind is decided by looking at the kind.

instance decidableSolved {P : TypeId → Ty → Prop} [∀ p τ, Decidable (P p τ)] :
    (e : Entry) → Decidable (∀ p τ, e = .solved p τ → P p τ)
  | .solved p τ =>
    decidable_of_iff (P p τ) ⟨fun h _ _ heq => by cases heq; exact h, fun h => h p τ rfl⟩
  | .var _ | .unsolved _ | .binding _ _ | .marker _ => isTrue fun _ _ heq => by cases heq

instance decidableBinding {P : BindingId → Ty → Prop} [∀ x τ, Decidable (P x τ)] :
    (e : Entry) → Decidable (∀ x τ, e = .binding x τ → P x τ)
  | .binding x τ =>
    decidable_of_iff (P x τ) ⟨fun h _ _ heq => by cases heq; exact h, fun h => h x τ rfl⟩
  | .var _ | .unsolved _ | .solved _ _ | .marker _ => isTrue fun _ _ heq => by cases heq

instance decidableMarker {P : Marker → Prop} [∀ m, Decidable (P m)] :
    (e : Entry) → Decidable (∀ m, e = .marker m → P m)
  | .marker m =>
    decidable_of_iff (P m) ⟨fun h _ heq => by cases heq; exact h, fun h => h m rfl⟩
  | .var _ | .unsolved _ | .solved _ _ | .binding _ _ => isTrue fun _ heq => by cases heq

end Entry

/-- If the entry is a solution, it has no quantifier at the top and is well-formed in the entries
before it. -/
def Entry.SolvedIn (before : Context) (e : Entry) : Prop :=
  ∀ p τ, e = .solved p τ → τ.isMonotype = true ∧ before.wellFormed τ = true

instance Entry.SolvedIn.decidable (before : Context) (e : Entry) : Decidable (e.SolvedIn before) :=
  inferInstanceAs (Decidable (∀ p τ, e = .solved p τ → _))

namespace Context

/-- Each placeholder is declared once, and each solution depends on the entries before its slot. -/
structure Ordered (Γ : Context) : Prop where
  distinct : Γ.placeholders.Nodup
  solutions : Throughout Entry.SolvedIn Γ

instance Ordered.decidable (Γ : Context) : Decidable Γ.Ordered :=
  decidable_of_iff (Γ.placeholders.Nodup ∧ Throughout Entry.SolvedIn Γ)
    ⟨fun h => ⟨h.1, h.2⟩, fun h => ⟨h.distinct, h.solutions⟩⟩

theorem slot_eq_ok {Γ before after : Context} {p : TypeId} :
    Γ.slot p = .ok (before, after) ↔
      Γ = before ++ .unsolved p :: after ∧ .unsolved p ∉ before := by
  rw [← splitAt?_eq_some_iff, slot]
  cases Γ.splitAt? (.unsolved p) <;> simp

theorem slot_eq_error {Γ : Context} {p : TypeId} {error : TypeError} :
    Γ.slot p = .error error ↔ .unsolved p ∉ Γ ∧ error = .missingPlaceholder p := by
  rw [← splitAt?_eq_none_iff, slot]
  cases Γ.splitAt? (.unsolved p) <;> simp [eq_comm]

theorem mem_before_later {before after before' after' : Context} {p q : TypeId}
    (heq : before ++ .unsolved p :: after = before' ++ .unsolved q :: after') (hne : p ≠ q)
    (hq : q ∉ before.placeholders) : p ∈ before'.placeholders := by
  rcases List.append_eq_append_iff.1 heq with ⟨inner, rfl, hin⟩ | ⟨inner, rfl, hin⟩
  · cases inner with
    | nil =>
      simp only [List.nil_append, List.cons.injEq, Entry.unsolved.injEq] at hin
      exact absurd hin.1 hne
    | cons e inner =>
      cases hin
      simp [Entry.placeholder?]
  · cases inner with
    | nil =>
      simp only [List.nil_append, List.cons.injEq, Entry.unsolved.injEq] at hin
      exact absurd hin.1.symm hne
    | cons e inner =>
      cases hin
      exact absurd (by simp [Entry.placeholder?]) hq

namespace Ordered

theorem left {Γ Δ : Context} (h : Ordered (Γ ++ Δ)) : Ordered Γ := by
  refine ⟨?_, (throughout_append.1 h.solutions).1⟩
  have hd := h.distinct
  rw [Context.placeholders, List.filterMap_append] at hd
  exact hd.sublist (List.sublist_append_left ..)

theorem solution {Γ : Context} {p : TypeId} {τ : Ty} (h : Ordered Γ) (hp : .solved p τ ∈ Γ) :
    τ.isMonotype = true ∧ Γ.wellFormed τ = true := by
  obtain ⟨before, after, rfl⟩ := List.append_of_mem hp
  have hs := h.solutions before _ after rfl p τ rfl
  exact ⟨hs.1, wellFormed_append _ hs.2⟩

theorem wellFormed_apply {Γ : Context} {ty : Ty} (h : Ordered Γ) (hty : Γ.wellFormed ty = true) :
    Γ.wellFormed (Γ.apply ty) = true :=
  Context.wellFormed_apply (fun _ _ hp => (h.solution hp).2) hty

theorem not_mem_before {before after : Context} {e : Entry} {p : TypeId}
    (h : Ordered (before ++ e :: after)) (he : e.placeholder? = some p) :
    p ∉ before.placeholders := by
  have hd := h.distinct
  simp only [Context.placeholders, List.filterMap_append, List.filterMap_cons, he] at hd
  exact fun hp => (List.nodup_append.1 hd).2.2 p hp p (by simp) rfl

theorem snoc {Γ : Context} {e : Entry} (h : Ordered Γ)
    (hp : ∀ p, e.placeholder? = some p → p ∉ Γ.placeholders) (hs : ∀ p τ, e ≠ .solved p τ) :
    Ordered (Γ ++ [e]) := by
  refine ⟨?_, throughout_append.2 ⟨h.solutions, throughout_singleton.2 ?_⟩⟩
  · rw [Context.placeholders, List.filterMap_append, List.filterMap_cons, List.filterMap_nil]
    split
    · simpa using h.distinct
    · rename_i p heq
      refine List.nodup_append.2 ⟨h.distinct, by simp, fun q hq q' hq' => ?_⟩
      rw [List.mem_singleton.1 hq']
      rintro rfl
      exact hp q heq hq
  · exact fun p τ he => absurd he (hs p τ)

theorem fill {before block after : Context} {p : TypeId}
    (h : Ordered (before ++ .unsolved p :: after))
    (hd : (before ++ block ++ after).placeholders.Nodup) (hp : p ∈ block.placeholders)
    (hb : Throughout (fun inner => Entry.SolvedIn (before ++ inner)) block) :
    Ordered (before ++ block ++ after) := by
  obtain ⟨hbefore, hrest⟩ := throughout_append.1 h.solutions
  refine ⟨hd, throughout_append.2 ⟨throughout_append.2 ⟨hbefore, hb⟩, ?_⟩⟩
  refine (throughout_cons.1 hrest).2.imp fun inner e he q τ heq => ?_
  refine ⟨(he q τ heq).1, wellFormed_mono ?_ ?_ (he q τ heq).2⟩
  · intro a
    simp only [Context.rigid, List.filterMap_append, List.mem_append, List.filterMap_cons,
      Entry.rigid?]
    exact fun ha => ha.elim (fun h => .inl (.inl h)) .inr
  · intro q
    simp only [Context.placeholders, List.filterMap_append, List.mem_append, List.filterMap_cons,
      Entry.placeholder?, List.mem_cons]
    rintro (hq | rfl | hq)
    · exact .inl (.inl hq)
    · exact .inl (.inr hp)
    · exact .inr hq

theorem solve {before after : Context} {p : TypeId} {τ : Ty}
    (h : Ordered (before ++ .unsolved p :: after)) (hm : τ.isMonotype = true)
    (hw : before.wellFormed τ = true) : Ordered (before ++ .solved p τ :: after) := by
  have hd : (before ++ [Entry.solved p τ] ++ after).placeholders.Nodup := by
    simpa [Entry.placeholder?] using h.distinct
  have hb : Throughout (fun inner => Entry.SolvedIn (before ++ inner)) [Entry.solved p τ] := by
    refine throughout_singleton.2 fun q υ heq => ?_
    cases heq
    exact ⟨hm, by simpa using hw⟩
  simpa using h.fill hd (by simp [Entry.placeholder?]) hb

theorem articulate {before after : Context} {p parameter result : TypeId}
    (h : Ordered (before ++ .unsolved p :: after))
    (hq : parameter ∉ (before ++ .unsolved p :: after).placeholders)
    (hr : result ∉ (before ++ .unsolved p :: after).placeholders) (hne : parameter ≠ result) :
    Ordered (before ++ .unsolved parameter :: .unsolved result ::
      .solved p (.arrow (.placeholder parameter) (.placeholder result)) :: after) := by
  let block : Context := [.unsolved parameter, .unsolved result,
    .solved p (.arrow (.placeholder parameter) (.placeholder result))]
  have hd : (before ++ block ++ after).placeholders.Nodup := by
    have hdistinct := h.distinct
    simp only [block, Context.placeholders, List.filterMap_append, List.filterMap_cons,
      Entry.placeholder?, List.append_assoc, List.cons_append,
      List.nil_append] at hdistinct hq hr ⊢
    refine (List.perm_middle.trans (List.Perm.cons _ List.perm_middle)).nodup_iff.2 ?_
    simp only [List.nodup_cons, List.mem_cons, not_or]
    exact ⟨⟨hne, hq⟩, hr, hdistinct⟩
  have hb : Throughout (fun inner => Entry.SolvedIn (before ++ inner)) block := by
    simp only [block, throughout_cons, Entry.SolvedIn, reduceCtorEq, false_implies, implies_true,
      true_and]
    refine ⟨fun q υ heq => ?_, Throughout.nil _⟩
    cases heq
    refine ⟨rfl, wellFormed_arrow.2 ⟨?_, ?_⟩⟩ <;>
      simp [wellFormed_placeholder, Entry.placeholder?]
  simpa [block] using h.fill hd (by simp [block, Entry.placeholder?]) hb

end Ordered
end Context

/-- The context is ordered, and its placeholders and markers were given out by the supply. -/
structure State.Valid (s : State) : Prop where
  ordered : s.context.Ordered
  placeholders : ∀ p ∈ s.context.placeholders, p.index < s.supply.types.size
  markers : ∀ m, .marker m ∈ s.context → m.index < s.supply.markers

instance State.Valid.decidable (s : State) : Decidable s.Valid :=
  decidable_of_iff (s.context.Ordered ∧
      (∀ p ∈ s.context.placeholders, p.index < s.supply.types.size) ∧
      ∀ e ∈ s.context, ∀ m, e = .marker m → m.index < s.supply.markers)
    ⟨fun h => ⟨h.1, h.2.1, fun m hm => h.2.2 _ hm m rfl⟩,
      fun h => ⟨h.ordered, h.placeholders, fun _ he m heq => h.markers m (heq ▸ he)⟩⟩

/-- One state follows another: nothing that was given out is taken back, and the context has grown
as allowed. -/
structure State.Evolves (g : Growth) (s s' : State) : Prop where
  valid : s'.Valid
  context : Context.Grows g s.supply.types.size s.context s'.context
  types : s.supply.types.size ≤ s'.supply.types.size
  markers : s.supply.markers ≤ s'.supply.markers
  depth : s'.depth = s.depth

namespace State

theorem Evolves.refl {s : State} (g : Growth) (h : s.Valid) : s.Evolves g s :=
  ⟨h, Context.Grows.refl .., Nat.le_refl _, Nat.le_refl _, rfl⟩

theorem Evolves.trans {g : Growth} {s s' s'' : State} (h : s.Evolves g s')
    (h' : s'.Evolves g s'') : s.Evolves g s'' :=
  ⟨h'.valid, h.context.trans h.types h'.context, Nat.le_trans h.types h'.types,
    Nat.le_trans h.markers h'.markers, h'.depth.trans h.depth⟩

theorem Evolves.anything {g : Growth} {s s' : State} (h : s.Evolves g s') :
    s.Evolves .anything s' :=
  { h with context := h.context.anything }

theorem Evolves.of_nothing {s s' : State} (g : Growth) (h : s.Evolves .nothing s') :
    s.Evolves g s' :=
  { h with context := (Context.grows_nothing.1 h.context).grows g }

theorem Evolves.restore {g g' : Growth} {s s' : State} (hs : s.Valid) (h : s.Evolves g s') :
    s.Evolves g' { s' with context := s.context } where
  valid := {
    ordered := hs.ordered
    placeholders := fun p hp => Nat.lt_of_lt_of_le (hs.placeholders p hp) h.types
    markers := fun m hm => Nat.lt_of_lt_of_le (hs.markers m hm) h.markers }
  context := Context.Grows.refl ..
  types := h.types
  markers := h.markers
  depth := h.depth

theorem Valid.withDepth {s : State} (h : s.Valid) (n : Nat) : { s with depth := n }.Valid :=
  ⟨h.ordered, h.placeholders, h.markers⟩

theorem Valid.withContext {s : State} {Γ : Context} (h : s.Valid) (ho : Γ.Ordered)
    (hp : Γ.placeholders ⊆ s.context.placeholders) (hm : ∀ m, .marker m ∈ Γ → .marker m ∈ s.context) :
    { s with context := Γ }.Valid :=
  ⟨ho, fun p h' => h.placeholders p (hp h'), fun m h' => h.markers m (hm m h')⟩

theorem Valid.fresh {s : State} (h : s.Valid) {p : TypeId} (hp : s.supply.types.size ≤ p.index) :
    p ∉ s.context.placeholders :=
  fun hmem => Nat.not_lt.2 hp (h.placeholders p hmem)

theorem Valid.marker_fresh {s : State} (h : s.Valid) : .marker ⟨s.supply.markers⟩ ∉ s.context :=
  fun hmem => Nat.lt_irrefl _ (h.markers _ hmem)

theorem Valid.openScope {s : State} (h : s.Valid) : s.openScope.2.Valid := by
  refine ⟨h.ordered.snoc (by simp [Entry.placeholder?]) (by simp), fun p hp => ?_, fun m hm => ?_⟩
  · refine h.placeholders p ?_
    simpa [State.openScope, Entry.placeholder?] using hp
  · have hm' : .marker m ∈ s.context ∨ m = ⟨s.supply.markers⟩ := by
      simpa [State.openScope, Supply.mintMarker] using hm
    change m.index < s.supply.markers + 1
    rcases hm' with hm' | rfl
    · exact Nat.lt_succ_of_lt (h.markers m hm')
    · exact Nat.lt_succ_self _

end State
end HigherRank
