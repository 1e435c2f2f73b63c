import HigherRank.Proofs.Runs
import HigherRank.Proofs.TwinGrowth

set_option autoImplicit false

/-!
# Runs in lockstep

Three judgments side by side: a guarded one, the one it guards, and one whose identifiers are given
out differently. Unless the guarded one stops, it does just what the second does, and the third
does the same on the other side of the twins. Whatever sequences and alternatives are built of
judgments in lockstep is in lockstep.
-/
namespace HigherRank

open Judgment

/-- The errors differ at most in the placeholder that they name. -/
inductive TypeError.Alike : TypeError → TypeError → Prop where
  | same (error : TypeError) : TypeError.Alike error error
  | placeholder (p q : TypeId) :
      TypeError.Alike (.missingPlaceholder p) (.missingPlaceholder q)

/-- The contexts are the two sides of twins, and each side knows the identifiers it has given out. -/
structure Paired (names : List TypeId) (Ξ : Twins) (s t : State) : Prop where
  left : s.context = Ξ.left
  right : t.context = Ξ.right
  sound : Ξ.Sound names
  markers : t.supply.markers = s.supply.markers
  marked : ∀ m, .marker m ∈ Ξ → m.index < s.supply.markers
  placeholders : ∀ p q, (p, q) ∈ Ξ.placeholders →
    p.index < s.supply.types.size ∧ q.index < t.supply.types.size
  rigid : ∀ a b, (a, b) ∈ Ξ.rigid → b.index < t.supply.types.size
  named : ∀ a ∈ names, a.index < t.supply.types.size

namespace Paired

variable {names : List TypeId} {Ξ Ξ' : Twins} {s t s' t' : State}

theorem restore (h : Paired names Ξ s t) (hg : Twins.Grows Ξ Ξ') (h' : Paired names Ξ' s' t') :
    Paired names Ξ { s' with context := s.context } { t' with context := t.context } where
  left := h.left
  right := h.right
  sound := h.sound
  markers := h'.markers
  marked m hm := h'.marked m (hg.marker_mem hm)
  placeholders p q hpq := h'.placeholders p q (hg.placeholders hpq)
  rigid a b hab := h'.rigid a b (hg.rigid hab)
  named := h'.named

theorem withSupply (h : Paired names Ξ s t) (hl : s'.context = s.context)
    (hr : t'.context = t.context) (hms : s'.supply.markers = s.supply.markers)
    (hmt : t'.supply.markers = t.supply.markers)
    (hts : s.supply.types.size ≤ s'.supply.types.size)
    (htt : t.supply.types.size ≤ t'.supply.types.size) : Paired names Ξ s' t' where
  left := hl.trans h.left
  right := hr.trans h.right
  sound := h.sound
  markers := by rw [hms, hmt, h.markers]
  marked m hm := hms ▸ h.marked m hm
  placeholders p q hpq := ⟨Nat.lt_of_lt_of_le (h.placeholders p q hpq).1 hts,
    Nat.lt_of_lt_of_le (h.placeholders p q hpq).2 htt⟩
  rigid a b hab := Nat.lt_of_lt_of_le (h.rigid a b hab) htt
  named a ha := Nat.lt_of_lt_of_le (h.named a ha) htt

theorem snoc {e : Twin} (h : Paired names Ξ s t) (hs : Twins.Sound names (Ξ ++ [e]))
    (hl : s'.context = s.context ++ [e.left]) (hr : t'.context = t.context ++ [e.right])
    (hm : t'.supply.markers = s'.supply.markers) (hms : s.supply.markers ≤ s'.supply.markers)
    (hts : s.supply.types.size ≤ s'.supply.types.size)
    (htt : t.supply.types.size ≤ t'.supply.types.size)
    (hmarker : ∀ m, e = .marker m → m.index < s'.supply.markers)
    (hplaceholder : ∀ p q, e.placeholder? = some (p, q) →
      p.index < s'.supply.types.size ∧ q.index < t'.supply.types.size)
    (hrigid : ∀ a b, e.rigid? = some (a, b) → b.index < t'.supply.types.size) :
    Paired names (Ξ ++ [e]) s' t' where
  left := by
    rw [hl, h.left, Twins.left_append]
    rfl
  right := by
    rw [hr, h.right, Twins.right_append]
    rfl
  sound := hs
  markers := hm
  marked m hmem := by
    rcases List.mem_append.1 hmem with hmem | hmem
    · exact Nat.lt_of_lt_of_le (h.marked m hmem) hms
    · exact hmarker m (List.mem_singleton.1 hmem).symm
  placeholders p q hpq := by
    rw [Twins.placeholders_append, Twins.placeholders_cons, List.mem_append] at hpq
    rcases hpq with hpq | hpq
    · obtain ⟨hp, hq⟩ := h.placeholders p q hpq
      exact ⟨Nat.lt_of_lt_of_le hp hts, Nat.lt_of_lt_of_le hq htt⟩
    · exact hplaceholder p q (by simpa [Twins.placeholders] using hpq)
  rigid a b hab := by
    rw [Twins.rigid_append, Twins.rigid_cons, List.mem_append] at hab
    rcases hab with hab | hab
    · exact Nat.lt_of_lt_of_le (h.rigid a b hab) htt
    · exact hrigid a b (by simpa [Twins.rigid] using hab)
  named a ha := Nat.lt_of_lt_of_le (h.named a ha) htt

theorem openScope (h : Paired names Ξ s t) :
    Paired names (Ξ ++ [.marker ⟨s.supply.markers⟩]) s.openScope.2 t.openScope.2 := by
  have hs : Twins.Sound names (Ξ ++ [.marker ⟨s.supply.markers⟩]) :=
    h.sound.snoc (by simp [Twin.rigid?]) (by simp [Twin.placeholder?]) (by simp) (by simp)
  refine h.snoc hs rfl ?_ ?_ (Nat.le_succ _) (Nat.le_refl _) (Nat.le_refl _) ?_ ?_ ?_
  · simp [State.openScope, Supply.mintMarker, Twin.right, h.markers]
  · simp [State.openScope, Supply.mintMarker, h.markers]
  · rintro m ⟨⟩
    exact Nat.lt_succ_self _
  · simp [Twin.placeholder?]
  · simp [Twin.rigid?]

theorem marker_fresh (h : Paired names Ξ s t) : .marker ⟨s.supply.markers⟩ ∉ Ξ :=
  fun hmem => Nat.lt_irrefl _ (h.marked _ hmem)

theorem introduce (h : Paired names Ξ s t) (label label' : String) :
    Paired names (Ξ ++ [.unsolved ⟨s.supply.types.size⟩ ⟨t.supply.types.size⟩])
      ((Judgment.introduce label : Judgment TypeId) s).2
      ((Judgment.introduce label' : Judgment TypeId) t).2 := by
  have hs : Twins.Sound names (Ξ ++ [.unsolved ⟨s.supply.types.size⟩ ⟨t.supply.types.size⟩]) := by
    refine h.sound.snoc (by simp [Twin.rigid?]) (fun p q he p' q' hpq' => ?_) (by simp) (by simp)
    cases he
    obtain ⟨hp, hq⟩ := h.placeholders p' q' hpq'
    exact ⟨fun heq => Nat.lt_irrefl _ (heq ▸ hp), fun heq => Nat.lt_irrefl _ (heq ▸ hq)⟩
  refine h.snoc hs rfl rfl h.markers (Nat.le_refl _) ?_ ?_ (by simp) ?_ (by simp [Twin.rigid?])
  · simp [Judgment.introduce, Supply.mintType]
  · simp [Judgment.introduce, Supply.mintType]
  · intro p q he
    cases he
    simp [Judgment.introduce, Supply.mintType]

theorem assume (h : Paired names Ξ s t) (x : BindingId) {τ υ : Ty}
    (hm : Ty.Matches names Ξ [] τ υ) :
    Paired names (Ξ ++ [.binding x τ υ]) ((Judgment.assume x τ : Judgment Unit) s).2
      ((Judgment.assume x υ : Judgment Unit) t).2 := by
  have hs : Twins.Sound names (Ξ ++ [.binding x τ υ]) := by
    refine h.sound.snoc (by simp [Twin.rigid?]) (by simp [Twin.placeholder?])
      (fun y τ' υ' he => ?_) (by simp)
    cases he
    exact hm
  exact h.snoc hs rfl rfl h.markers (Nat.le_refl _) (Nat.le_refl _) (Nat.le_refl _) (by simp)
    (by simp [Twin.placeholder?]) (by simp [Twin.rigid?])

theorem declare (h : Paired names Ξ s t) {a : TypeId} (ha : .var a ∉ s.context) (label : String) :
    Paired names (Ξ ++ [.var a ⟨t.supply.types.size⟩]) ((Judgment.declare a : Judgment Ty) s).2
      ((Judgment.declare ⟨t.supply.types.size⟩ : Judgment Ty) (Opening.mint label t).2).2 := by
  have hs : Twins.Sound names (Ξ ++ [.var a ⟨t.supply.types.size⟩]) := by
    refine h.sound.snoc (fun a' b' he => ?_) (by simp [Twin.placeholder?]) (by simp) (by simp)
    cases he
    refine ⟨fun hmem => Nat.lt_irrefl _ (h.named _ hmem), fun a' b' hab' => ⟨?_, ?_⟩⟩
    · rintro rfl
      rw [← Context.mem_rigid, h.left, Twins.rigid_left] at ha
      exact ha (List.mem_map.2 ⟨_, hab', rfl⟩)
    · rintro rfl
      exact Nat.lt_irrefl _ (h.rigid _ _ hab')
  refine h.snoc hs rfl rfl h.markers (Nat.le_refl _) (Nat.le_refl _) ?_ (by simp)
    (by simp [Twin.placeholder?]) ?_
  · simp [Judgment.declare, Opening.mint, Supply.mintType]
  · intro a' b' he
    cases he
    simp [Judgment.declare, Opening.mint, Supply.mintType]

theorem fill {before after news : Twins} {p q : TypeId} {τ υ : Ty}
    (h : Paired names (before ++ .unsolved p q :: after) s t)
    (hn : ∀ e ∈ news, ∃ p' q', e = .unsolved p' q')
    (hpairs : Twins.OneToOne (news.placeholders ++
      Twins.placeholders (before ++ .unsolved p q :: after)))
    (hm : Ty.Matches names (before ++ news) [] τ υ)
    (hl : s'.context = Twins.left (before ++ (news ++ [.solved p q τ υ]) ++ after))
    (hr : t'.context = Twins.right (before ++ (news ++ [.solved p q τ υ]) ++ after))
    (hms : s'.supply.markers = s.supply.markers) (hmt : t'.supply.markers = t.supply.markers)
    (hts : s.supply.types.size ≤ s'.supply.types.size)
    (htt : t.supply.types.size ≤ t'.supply.types.size)
    (hnew : ∀ p' q', (p', q') ∈ news.placeholders →
      p'.index < s'.supply.types.size ∧ q'.index < t'.supply.types.size) :
    Paired names (before ++ (news ++ [.solved p q τ υ]) ++ after) s' t' where
  left := hl
  right := hr
  sound := h.sound.fill hn hpairs hm
  markers := by rw [hms, hmt, h.markers]
  marked m hmem := by
    have hnews : .marker m ∉ news := fun hmem => by
      obtain ⟨_, _, heq⟩ := hn _ hmem
      cases heq
    rw [hms]
    exact h.marked m (by simpa [hnews] using hmem)
  placeholders p' q' hpq := by
    simp only [Twins.placeholders_append, Twins.placeholders_cons, Twin.placeholder?,
      List.mem_append] at hpq
    have hold : (p', q') ∈ Twins.placeholders (before ++ .unsolved p q :: after) →
        p'.index < s'.supply.types.size ∧ q'.index < t'.supply.types.size := fun hpq => by
      obtain ⟨hp, hq⟩ := h.placeholders p' q' hpq
      exact ⟨Nat.lt_of_lt_of_le hp hts, Nat.lt_of_lt_of_le hq htt⟩
    simp only [Twins.placeholders_append, Twins.placeholders_cons, Twin.placeholder?,
      List.mem_append] at hold
    rcases hpq with (hpq | hpq | hpq | hpq) | hpq
    · exact hold (.inl hpq)
    · exact hnew p' q' hpq
    · exact hold (.inr (.inl hpq))
    · cases hpq
    · exact hold (.inr (.inr hpq))
  rigid a b hab := by
    have hnews : news.rigid = [] := List.filterMap_eq_nil_iff.2 fun e he => by
      obtain ⟨_, _, rfl⟩ := hn e he
      rfl
    have hold := h.rigid a b (by
      simpa [Twins.rigid_append, Twins.rigid_cons, hnews, Twin.rigid?] using hab)
    exact Nat.lt_of_lt_of_le hold htt
  named a ha := Nat.lt_of_lt_of_le (h.named a ha) htt

theorem closeScope {m : Marker} (h' : Paired names Ξ' s t) (h : Ξ.Sound names)
    (hm : .marker m ∉ Ξ) (hg : Twins.Grows (Ξ ++ [.marker m]) Ξ') :
    ∃ Ξ₁ s₁ t₁, Twins.Grows Ξ Ξ₁ ∧ Paired names Ξ₁ s₁ t₁ ∧
      (∀ {ε α : Type} [SearchError ε] (r : Outcome α ε), s.closeScope m r = (r, s₁)) ∧
      ∀ {ε α : Type} [SearchError ε] (r : Outcome α ε), t.closeScope m r = (r, t₁) := by
  obtain ⟨Ξ₁, rest, rfl, hr, hm₁⟩ := hg.cut hm
  have hsplit : ∀ side : Twin → Entry, (∀ e, side e = .marker m ↔ e = .marker m) →
      Context.splitAt? ((Ξ₁ ++ .marker m :: rest).map side) (.marker m) =
        some (Ξ₁.map side, rest.map side) := by
    intro side hside
    rw [List.map_append, List.map_cons, (hside _).2 rfl]
    refine Context.splitAt?_append _ fun hmem => hm₁ ?_
    obtain ⟨e, he, heq⟩ := List.mem_map.1 hmem
    exact (hside e).1 heq ▸ he
  have hleft := hsplit Twin.left fun e => by cases e <;> simp [Twin.left]
  have hright := hsplit Twin.right fun e => by cases e <;> simp [Twin.right]
  rw [← Twins.left, ← h'.left] at hleft
  rw [← Twins.right, ← h'.right] at hright
  have hsub : Twins.Grows Ξ₁ (Ξ₁ ++ .marker m :: rest) := .append ..
  refine ⟨Ξ₁, { s with context := Ξ₁.left }, { t with context := Ξ₁.right },
    ⟨Ξ₁, [], by simp, hr⟩, ⟨rfl, rfl, h.cut hr h'.sound, h'.markers,
      fun m hmem => h'.marked m (by simp [hmem]),
      fun p q hpq => h'.placeholders p q (hsub.placeholders hpq),
      fun a b hab => h'.rigid a b (hsub.rigid hab), h'.named⟩, fun r => ?_, fun r => ?_⟩
  · simp only [State.closeScope, hleft]
    rfl
  · simp only [State.closeScope, hright]
    rfl

end Paired

section Agreement

variable {α β α' β' : Type}

/-- How three runs from paired states, the first two from `s`, have ended: the first has stopped, or
all have the same outcome in states that are paired again. Where nothing was accepted and `kept` is
true, the context is what it was. -/
inductive Agree (names : List TypeId) (kept : Bool) (Ξ : Twins) (V : Twins → α → β → Prop)
    (s : State) (guarded : Outcome α Halt × State) (own : Outcome α × State)
    (fresh : Outcome β × State) : Prop where
  | stopped {s₁ : State} : guarded = (.aborted .stopped, s₁) →
      (kept = true → s₁.context = s.context) → Agree names kept Ξ V s guarded own fresh
  | accepted {Ξ' : Twins} {a : α} {b : β} {s₁ t₁ : State} : guarded = (.accepted a, s₁) →
      own = (.accepted a, s₁) → fresh = (.accepted b, t₁) → Twins.Grows Ξ Ξ' →
      Paired names Ξ' s₁ t₁ → V Ξ' a b → Agree names kept Ξ V s guarded own fresh
  | rejected {Ξ' : Twins} {s₁ t₁ : State} : guarded = (.rejected, s₁) → own = (.rejected, s₁) →
      fresh = (.rejected, t₁) → Twins.Grows Ξ Ξ' → (kept = true → Ξ' = Ξ) →
      Paired names Ξ' s₁ t₁ → Agree names kept Ξ V s guarded own fresh
  | aborted {Ξ' : Twins} {error error' : TypeError} {s₁ t₁ : State} :
      guarded = (.aborted (.failed error), s₁) → own = (.aborted error, s₁) →
      fresh = (.aborted error', t₁) → Twins.Grows Ξ Ξ' → (kept = true → Ξ' = Ξ) →
      Paired names Ξ' s₁ t₁ → error.Alike error' → Agree names kept Ξ V s guarded own fresh

/-- The three judgments agree from all states paired by the twins. -/
def Lockstep (names : List TypeId) (kept : Bool) (Ξ : Twins) (V : Twins → α → β → Prop)
    (guarded : Search Halt α) (own : Judgment α) (fresh : Judgment β) : Prop :=
  ∀ s t, Paired names Ξ s t → Agree names kept Ξ V s (guarded s) (own s) (fresh t)

def anyValue : Twins → α → β → Prop := fun _ _ _ => True

namespace Lockstep

variable {names : List TypeId} {kept : Bool} {Ξ : Twins} {V : Twins → α → β → Prop}
  {W : Twins → α' → β' → Prop} {g : Search Halt α} {o : Judgment α} {f : Judgment β}

theorem accept {a : α} {b : β} (hV : V Ξ a b) :
    Lockstep names kept Ξ V (accept a) (accept a) (accept b) :=
  fun _ _ h => .accepted rfl rfl rfl (.refl Ξ) h hV

theorem reject : Lockstep names kept Ξ V reject reject reject :=
  fun _ _ h => .rejected rfl rfl rfl (.refl Ξ) (fun _ => rfl) h

theorem abort {error error' : TypeError} (he : error.Alike error') :
    Lockstep names kept Ξ V (abort error) (abort error) (abort error') :=
  fun _ _ h => .aborted rfl rfl rfl (.refl Ξ) (fun _ => rfl) h he

theorem loosen (hx : Lockstep names kept Ξ V g o f) :
    Lockstep names false Ξ V g o f := by
  intro s t h
  cases hx s t h with
  | stopped hg _ => exact .stopped hg (by simp)
  | accepted hg ho hf hgrows hp hV => exact .accepted hg ho hf hgrows hp hV
  | rejected hg ho hf hgrows _ hp => exact .rejected hg ho hf hgrows (by simp) hp
  | aborted hg ho hf hgrows _ hp he => exact .aborted hg ho hf hgrows (by simp) hp he

theorem bind {gf : α → Search Halt α'} {of : α → Judgment α'} {ff : β → Judgment β'}
    (hx : Lockstep names kept Ξ V g o f)
    (hf : ∀ Ξ' a b, Twins.Grows Ξ Ξ' → V Ξ' a b →
      Lockstep names false Ξ' W (gf a) (of a) (ff b)) :
    Lockstep names false Ξ W (g >>= gf) (o >>= of) (f >>= ff) := by
  intro s t h
  cases hx s t h with
  | stopped hg _ => exact .stopped (bind_of_aborted hg) (by simp)
  | @accepted Ξ' a b s₁ t₁ hg ho hf' hgrows hp hV =>
    rw [bind_of_accepted hg, bind_of_accepted ho, bind_of_accepted hf']
    cases hf Ξ' a b hgrows hV s₁ t₁ hp with
    | stopped hg _ => exact .stopped hg (by simp)
    | accepted hg ho hf hgrows' hp hW => exact .accepted hg ho hf (hgrows.trans hgrows') hp hW
    | rejected hg ho hf hgrows' _ hp =>
      exact .rejected hg ho hf (hgrows.trans hgrows') (by simp) hp
    | aborted hg ho hf hgrows' _ hp he =>
      exact .aborted hg ho hf (hgrows.trans hgrows') (by simp) hp he
  | rejected hg ho hf hgrows _ hp =>
    exact .rejected (bind_of_rejected hg) (bind_of_rejected ho) (bind_of_rejected hf) hgrows
      (by simp) hp
  | aborted hg ho hf hgrows _ hp he =>
    exact .aborted (bind_of_aborted hg) (bind_of_aborted ho) (bind_of_aborted hf) hgrows
      (by simp) hp he

theorem bind_accept {φ : α → α'} {ψ : β → β'} (hx : Lockstep names kept Ξ V g o f)
    (hφ : ∀ Ξ' a b, Twins.Grows Ξ Ξ' → V Ξ' a b → W Ξ' (φ a) (ψ b)) :
    Lockstep names kept Ξ W (g >>= fun a => Judgment.accept (φ a))
      (o >>= fun a => Judgment.accept (φ a)) (f >>= fun b => Judgment.accept (ψ b)) := by
  intro s t h
  cases hx s t h with
  | stopped hg hk => exact .stopped (bind_of_aborted hg) hk
  | accepted hg ho hf hgrows hp hV =>
    exact .accepted (bind_of_accepted hg) (bind_of_accepted ho) (bind_of_accepted hf) hgrows hp
      (hφ _ _ _ hgrows hV)
  | rejected hg ho hf hgrows hk hp =>
    exact .rejected (bind_of_rejected hg) (bind_of_rejected ho) (bind_of_rejected hf) hgrows hk hp
  | aborted hg ho hf hgrows hk hp he =>
    exact .aborted (bind_of_aborted hg) (bind_of_aborted ho) (bind_of_aborted hf) hgrows hk hp he

theorem orElse {g' : Search Halt α} {o' : Judgment α} {f' : Judgment β}
    (hx : Lockstep names true Ξ V g o f) (hy : Lockstep names true Ξ V g' o' f') :
    Lockstep names true Ξ V (g <|> g') (o <|> o') (f <|> f') := by
  intro s t h
  cases hx s t h with
  | stopped hg hk => exact .stopped (orElse_of_aborted hg) hk
  | accepted hg ho hf hgrows hp hV =>
    exact .accepted (orElse_of_accepted hg) (orElse_of_accepted ho) (orElse_of_accepted hf)
      hgrows hp hV
  | @rejected Ξ' s₁ t₁ hg ho hf hgrows hk hp =>
    rw [orElse_of_rejected hg, orElse_of_rejected ho, orElse_of_rejected hf]
    rw [hk rfl] at hp
    -- The second attempt starts where the first one did.
    have hcontext : s₁.context = s.context := hp.left.trans h.left.symm
    cases hy s₁ t₁ hp with
    | stopped hg hk => exact .stopped hg fun hkept => (hk hkept).trans hcontext
    | accepted hg ho hf hgrows hp hV => exact .accepted hg ho hf hgrows hp hV
    | rejected hg ho hf hgrows hk hp => exact .rejected hg ho hf hgrows hk hp
    | aborted hg ho hf hgrows hk hp he => exact .aborted hg ho hf hgrows hk hp he
  | aborted hg ho hf hgrows hk hp he =>
    exact .aborted (orElse_of_aborted hg) (orElse_of_aborted ho) (orElse_of_aborted hf) hgrows hk
      hp he

theorem atomically (hx : Lockstep names false Ξ V g o f) :
    Lockstep names true Ξ V (atomically g) (atomically o) (atomically f) := by
  intro s t h
  cases hx s t h with
  | stopped hg _ => exact .stopped (atomically_of_aborted hg) fun _ => rfl
  | accepted hg ho hf hgrows hp hV =>
    exact .accepted (atomically_of_accepted hg) (atomically_of_accepted ho)
      (atomically_of_accepted hf) hgrows hp hV
  | rejected hg ho hf hgrows _ hp =>
    exact .rejected (atomically_of_rejected hg) (atomically_of_rejected ho)
      (atomically_of_rejected hf) (.refl Ξ) (fun _ => rfl) (h.restore hgrows hp)
  | aborted hg ho hf hgrows _ hp he =>
    exact .aborted (atomically_of_aborted hg) (atomically_of_aborted ho)
      (atomically_of_aborted hf) (.refl Ξ) (fun _ => rfl) (h.restore hgrows hp) he

theorem nested (hx : Lockstep names kept Ξ V g o f) :
    Lockstep names kept Ξ V (nested g) (nested o) (nested f) := by
  intro s t h
  have hrun : ∀ {ε γ : Type} {x : Search ε γ} {u u₁ : State} {r : Outcome γ ε},
      x { u with depth := u.depth + 1 } = (r, u₁) →
      Judgment.nested x u = (r, { u₁ with depth := u₁.depth - 1 }) := fun hx => by
    simp only [Judgment.nested, hx]
  have hdepth : ∀ {Ξ : Twins} {s t : State} (n n' : Nat), Paired names Ξ s t →
      Paired names Ξ { s with depth := n } { t with depth := n' } := fun _ _ h =>
    h.withSupply rfl rfl rfl rfl (Nat.le_refl _) (Nat.le_refl _)
  cases hx _ _ (hdepth (s.depth + 1) (t.depth + 1) h) with
  | stopped hg hk => exact .stopped (hrun hg) hk
  | accepted hg ho hf hgrows hp hV =>
    exact .accepted (hrun hg) (hrun ho) (hrun hf) hgrows (hdepth _ _ hp) hV
  | rejected hg ho hf hgrows hk hp =>
    exact .rejected (hrun hg) (hrun ho) (hrun hf) hgrows hk (hdepth _ _ hp)
  | aborted hg ho hf hgrows hk hp he =>
    exact .aborted (hrun hg) (hrun ho) (hrun hf) hgrows hk (hdepth _ _ hp) he

theorem scope {g' : Search Halt α} {o' : Judgment α} {f' : Judgment β} {e : Twin}
    {s t s₂ t₂ : State} (h : Paired names Ξ s t)
    (h₂ : Paired names (Ξ ++ [.marker ⟨s.supply.markers⟩] ++ [e]) s₂ t₂)
    (hx : Lockstep names true (Ξ ++ [.marker ⟨s.supply.markers⟩] ++ [e]) V g o f)
    (hg : g' s.openScope.2 = g s₂) (ho : o' s.openScope.2 = o s₂) (hf : f' t.openScope.2 = f t₂) :
    Agree names false Ξ anyValue s (inChildScope g' s) (inChildScope o' s)
      (inChildScope f' t) := by
  have hclose : ∀ {ε γ : Type} [SearchError ε] {x : Search ε γ} {u u₁ u₂ : State} {r : Outcome γ ε},
      x u.openScope.2 = (r, u₁) →
      u₁.closeScope ⟨u.supply.markers⟩ r = (r, u₂) → inChildScope x u = (r, u₂) := by
    intro ε γ _ x u u₁ u₂ r hx hclose
    rw [inChildScope_eq, hx]
    exact hclose
  have hend : ∀ {Ξ' : Twins} {s₃ t₃ : State},
      Twins.Grows (Ξ ++ [.marker ⟨s.supply.markers⟩] ++ [e]) Ξ' → Paired names Ξ' s₃ t₃ →
      ∃ Ξ₁ s₁ t₁, Twins.Grows Ξ Ξ₁ ∧ Paired names Ξ₁ s₁ t₁ ∧
        (∀ {ε γ : Type} [SearchError ε] (r : Outcome γ ε),
          s₃.closeScope ⟨s.supply.markers⟩ r = (r, s₁)) ∧
        ∀ {ε γ : Type} [SearchError ε] (r : Outcome γ ε),
          t₃.closeScope ⟨t.supply.markers⟩ r = (r, t₁) := by
    intro Ξ' s₃ t₃ hgrows hp
    rw [h.markers]
    exact hp.closeScope h.sound h.marker_fresh (.trans (.append ..) hgrows)
  cases hx s₂ t₂ h₂ with
  | @stopped s₃ hg' hk =>
    -- The marker is still there, so the end of the scope does not hide that the body stopped.
    have hmem : .marker ⟨s.supply.markers⟩ ∈ s₃.context := by
      rw [hk rfl, h₂.left]
      simp [Twins.left, Twin.left]
    rcases hsplit : s₃.context.splitAt? (.marker ⟨s.supply.markers⟩) with _ | ⟨before, after⟩
    · exact absurd hmem (Context.splitAt?_eq_none_iff.1 hsplit)
    · have hcut : s₃.closeScope ⟨s.supply.markers⟩ (.aborted .stopped) =
          ((.aborted .stopped : Outcome α Halt), { s₃ with context := before }) := by
        simp only [State.closeScope, hsplit]
      exact .stopped (hclose (hg.trans hg') hcut) (by simp)
  | accepted hg' ho' hf' hgrows hp _ =>
    obtain ⟨Ξ₁, s₁, t₁, hgrows₁, hp₁, hcs, hct⟩ := hend hgrows hp
    exact .accepted (hclose (hg.trans hg') (hcs _)) (hclose (ho.trans ho') (hcs _))
      (hclose (hf.trans hf') (hct _)) hgrows₁ hp₁ trivial
  | rejected hg' ho' hf' hgrows _ hp =>
    obtain ⟨Ξ₁, s₁, t₁, hgrows₁, hp₁, hcs, hct⟩ := hend hgrows hp
    exact .rejected (hclose (hg.trans hg') (hcs _)) (hclose (ho.trans ho') (hcs _))
      (hclose (hf.trans hf') (hct _)) hgrows₁ (by simp) hp₁
  | aborted hg' ho' hf' hgrows _ hp he =>
    obtain ⟨Ξ₁, s₁, t₁, hgrows₁, hp₁, hcs, hct⟩ := hend hgrows hp
    exact .aborted (hclose (hg.trans hg') (hcs _)) (hclose (ho.trans ho') (hcs _))
      (hclose (hf.trans hf') (hct _)) hgrows₁ (by simp) hp₁ he

end Lockstep
end Agreement
end HigherRank
