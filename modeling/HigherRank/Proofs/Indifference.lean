import HigherRank.Proofs.Insertion
import HigherRank.Proofs.Preservation

set_option autoImplicit false

/-!
# Runs in a context with more entries

Two runs of one judgment are compared. The second starts with entries `X` more, to which nothing
refers, and its supply may have other labels. The runs go on step by step in the same way: they have the
same outcome, and `X` stands unchanged somewhere in the context that the second one leaves.
-/
namespace HigherRank

open Judgment

/-- Supplies that have given out the same identifiers; and the same labels, if `exact` holds. -/
structure Supply.Alike (exact : Prop) (u v : Supply) : Prop where
  types : v.types.size = u.types.size
  bindings : v.bindings.size = u.bindings.size
  markers : v.markers = u.markers
  labels : exact → v = u

/-- The context of the second state has `X` between the two parts of the first one's. -/
structure State.Inserts (X : Context) (exact : Prop) (Γ₁ Γ₂ : Context) (s t : State) : Prop where
  context : s.context = Γ₁ ++ Γ₂
  context' : t.context = Γ₁ ++ X ++ Γ₂
  supply : s.supply.Alike exact t.supply
  depth : t.depth = s.depth
  valid : s.Valid
  valid' : t.Valid
  avoids : X.Avoids s.context
  minted : ∀ a ∈ X.declares, a.index < s.supply.types.size

/-- The first run has come from `s`, where the context was split into the first two parts, to `s'`. -/
structure State.Advances (Γ₁ Γ₂ : Context) (s : State) (Δ₁ Δ₂ : Context) (s' : State) : Prop where
  front : Context.Refines s.supply.types.size Γ₁ Δ₁
  back : Context.Grows .anything s.supply.types.size Γ₂ Δ₂
  types : s.supply.types.size ≤ s'.supply.types.size
  markers : s.supply.markers ≤ s'.supply.markers

theorem State.Advances.refl (Γ₁ Γ₂ : Context) (s : State) : Advances Γ₁ Γ₂ s Γ₁ Γ₂ s :=
  ⟨.refl .., .refl .., Nat.le_refl _, Nat.le_refl _⟩

theorem State.Advances.trans {Γ₁ Γ₂ Δ₁ Δ₂ Θ₁ Θ₂ : Context} {s s' s'' : State}
    (h : Advances Γ₁ Γ₂ s Δ₁ Δ₂ s') (h' : Advances Δ₁ Δ₂ s' Θ₁ Θ₂ s'') :
    Advances Γ₁ Γ₂ s Θ₁ Θ₂ s'' :=
  ⟨h.front.trans h.types h'.front, h.back.trans h.types h'.back, Nat.le_trans h.types h'.types,
    Nat.le_trans h.markers h'.markers⟩

/-- The two runs have come to states that differ by `X` again. -/
def State.Reaches (X : Context) (exact : Prop) (Γ₁ Γ₂ : Context) (s s' t' : State) : Prop :=
  ∃ Δ₁ Δ₂, Inserts X exact Δ₁ Δ₂ s' t' ∧ Advances Γ₁ Γ₂ s Δ₁ Δ₂ s'

/-- The same outcome, with a value that satisfies `V`, and states that differ by `X`. -/
inductive Agrees {α : Type} (X : Context) (exact : Prop) (V : α → Prop) (Γ₁ Γ₂ : Context)
    (s : State) : Outcome α × State → Outcome α × State → Prop where
  | accepted {a : α} {s' t' : State} : V a → s.Reaches X exact Γ₁ Γ₂ s' t' →
      Agrees X exact V Γ₁ Γ₂ s (.accepted a, s') (.accepted a, t')
  | rejected {s' t' : State} : s.Reaches X exact Γ₁ Γ₂ s' t' →
      Agrees X exact V Γ₁ Γ₂ s (.rejected, s') (.rejected, t')
  | aborted {error : TypeError} {s' t' : State} : s.Reaches X exact Γ₁ Γ₂ s' t' →
      Agrees X exact V Γ₁ Γ₂ s (.aborted error, s') (.aborted error, t')

theorem State.Valid.cut {s : State} {Γ Δ : Context} (h : s.Valid) (hctx : s.context = Γ ++ Δ) :
    { s with context := Γ }.Valid := by
  refine h.withContext (hctx ▸ h.ordered).left ?_ fun m hm => ?_
  · rw [hctx, Context.placeholders, Context.placeholders, List.filterMap_append]
    exact List.subset_append_left ..
  · rw [hctx]
    exact List.mem_append_left _ hm

section Runs

variable {α β : Type} {X : Context} {exact : Prop} {V : α → Prop} {W : β → Prop}
  {Γ₁ Γ₂ Δ₁ Δ₂ : Context} {s s' t t' : State}

open State

theorem State.Inserts.reaches (h : Inserts X exact Γ₁ Γ₂ s t) : s.Reaches X exact Γ₁ Γ₂ s t :=
  ⟨Γ₁, Γ₂, h, .refl ..⟩

theorem State.Reaches.after (ha : Advances Γ₁ Γ₂ s Δ₁ Δ₂ s') {s'' t'' : State}
    (h : s'.Reaches X exact Δ₁ Δ₂ s'' t'') : s.Reaches X exact Γ₁ Γ₂ s'' t'' := by
  obtain ⟨Θ₁, Θ₂, hi, ha'⟩ := h
  exact ⟨Θ₁, Θ₂, hi, ha.trans ha'⟩

theorem Agrees.after {r r' : Outcome α × State} (ha : Advances Γ₁ Γ₂ s Δ₁ Δ₂ s')
    (h : Agrees X exact V Δ₁ Δ₂ s' r r') : Agrees X exact V Γ₁ Γ₂ s r r' := by
  cases h with
  | accepted hv hr => exact .accepted hv (hr.after ha)
  | rejected hr => exact .rejected (hr.after ha)
  | aborted hr => exact .aborted (hr.after ha)

theorem State.Inserts.fresh (h : Inserts X exact Γ₁ Γ₂ s t) {a : TypeId}
    (ha : s.supply.types.size ≤ a.index) : a ∉ X.declares :=
  fun hmem => Nat.not_lt.2 ha (h.minted a hmem)

theorem State.Inserts.withDepth (h : Inserts X exact Γ₁ Γ₂ s t) {n m : Nat} (hn : m = n) :
    Inserts X exact Γ₁ Γ₂ { s with depth := n } { t with depth := m } :=
  { h with depth := hn, valid := h.valid.withDepth n, valid' := h.valid'.withDepth m }

theorem State.Reaches.restore (h : Inserts X exact Γ₁ Γ₂ s t)
    (hr : s.Reaches X exact Γ₁ Γ₂ s' t') :
    s.Reaches X exact Γ₁ Γ₂ { s' with context := s.context } { t' with context := t.context } := by
  obtain ⟨Δ₁, Δ₂, hi, ha⟩ := hr
  have htypes : t.supply.types.size ≤ t'.supply.types.size := by
    rw [h.supply.types, hi.supply.types]
    exact ha.types
  have hmarkers : t.supply.markers ≤ t'.supply.markers := by
    rw [h.supply.markers, hi.supply.markers]
    exact ha.markers
  refine ⟨Γ₁, Γ₂, ⟨h.context, h.context', hi.supply, hi.depth, ?_, ?_, h.avoids, hi.minted⟩,
    .refl .., .refl .., ha.types, ha.markers⟩
  · exact ⟨h.valid.ordered, fun p hp => Nat.lt_of_lt_of_le (h.valid.placeholders p hp) ha.types,
      fun m hm => Nat.lt_of_lt_of_le (h.valid.markers m hm) ha.markers⟩
  · exact ⟨h.valid'.ordered, fun p hp => Nat.lt_of_lt_of_le (h.valid'.placeholders p hp) htypes,
      fun m hm => Nat.lt_of_lt_of_le (h.valid'.markers m hm) hmarkers⟩

theorem State.Inserts.openScope (h : Inserts X exact Γ₁ Γ₂ s t) :
    Inserts X exact Γ₁ (Γ₂ ++ [.marker ⟨s.supply.markers⟩]) s.openScope.2 t.openScope.2 where
  context := by simp [State.openScope, Supply.mintMarker, h.context]
  context' := by simp [State.openScope, Supply.mintMarker, h.context', h.supply.markers]
  supply := {
    types := h.supply.types
    bindings := h.supply.bindings
    markers := congrArg (· + 1) h.supply.markers
    labels := fun he => by simp [State.openScope, Supply.mintMarker, h.supply.labels he] }
  depth := h.depth
  valid := h.valid.openScope
  valid' := h.valid'.openScope
  avoids := Context.avoids_append.2
    ⟨h.avoids, Context.avoids_cons.2 ⟨Entry.avoids_marker, Context.avoids_nil⟩⟩
  minted := h.minted

theorem State.Reaches.closeScope (h : Inserts X exact Γ₁ Γ₂ s t)
    (hr : s.openScope.2.Reaches X exact Γ₁ (Γ₂ ++ [.marker ⟨s.supply.markers⟩]) s' t')
    (o : Outcome α) :
    ∃ Δ Δ', s'.closeScope ⟨s.supply.markers⟩ o = (o, { s' with context := Δ }) ∧
      t'.closeScope ⟨t.supply.markers⟩ o = (o, { t' with context := Δ' }) ∧
      s.Reaches X exact Γ₁ Γ₂ { s' with context := Δ } { t' with context := Δ' } := by
  -- Both scopes end at their markers, which stand behind `X`.
  obtain ⟨Δ₁, Δ₂, hi, ha⟩ := hr
  have hfresh : .marker ⟨s.supply.markers⟩ ∉ Γ₁ ++ Γ₂ := h.context ▸ h.valid.marker_fresh
  have hfresh' : .marker ⟨s.supply.markers⟩ ∉ Γ₁ ++ X ++ Γ₂ := by
    have := h.valid'.marker_fresh
    rwa [h.context', h.supply.markers] at this
  simp only [List.mem_append, not_or] at hfresh hfresh'
  obtain ⟨Δ, rest, rfl, href, hsplit⟩ := ha.back.splitAt_marker hfresh.2
  have hfront : .marker ⟨s.supply.markers⟩ ∉ Δ₁ := fun hm =>
    hfresh.1 (ha.front.mem_of_mem rfl hm)
  have hback := (Context.eq_append_of_splitAt? hsplit).2
  have hctx : s'.context = Δ₁ ++ Δ ++ .marker ⟨s.supply.markers⟩ :: rest := by
    rw [hi.context, List.append_assoc]
  have hctx' : t'.context = Δ₁ ++ X ++ Δ ++ .marker ⟨s.supply.markers⟩ :: rest := by
    rw [hi.context', List.append_assoc (Δ₁ ++ X)]
  refine ⟨Δ₁ ++ Δ, Δ₁ ++ X ++ Δ, ?_, ?_, Δ₁, Δ, ?_, ?_⟩
  · rw [State.closeScope, hctx, Context.splitAt?_append rest (by simp [hfront, hback])]
  · rw [h.supply.markers, State.closeScope, hctx',
      Context.splitAt?_append rest (by simp [hfront, hback, hfresh'.1.2])]
  · refine ⟨rfl, rfl, hi.supply, hi.depth, ?_, ?_, ?_, hi.minted⟩
    · exact hi.valid.cut hctx
    · exact hi.valid'.cut hctx'
    · have hall := hi.avoids
      rw [hctx] at hall
      exact (Context.avoids_append.1 hall).1
  · exact ⟨ha.front, href.grows _, ha.types, Nat.le_of_succ_le ha.markers⟩

theorem Supply.Alike.mintType {u v : Supply} (h : u.Alike exact v) {label label' : String}
    (hl : exact → label' = label) : (u.mintType label).2.Alike exact (v.mintType label').2 where
  types := by simp [Supply.mintType, h.types]
  bindings := h.bindings
  markers := h.markers
  labels := fun he => by rw [hl he, h.labels he]

theorem State.Inserts.introduce (h : Inserts X exact Γ₁ Γ₂ s t) {label label' : String}
    (hl : exact → label' = label) :
    Inserts X exact Γ₁ (Γ₂ ++ [.unsolved ⟨s.supply.types.size⟩])
        ((introduce label : Judgment TypeId) s).2 ((introduce label' : Judgment TypeId) t).2 ∧
      Advances Γ₁ Γ₂ s Γ₁ (Γ₂ ++ [.unsolved ⟨s.supply.types.size⟩])
        ((introduce label : Judgment TypeId) s).2 := by
  have he : ∀ label, Judgment.Evolves .placeholders (Judgment.introduce label : Judgment TypeId) :=
    evolves_introduce
  have hsize := (he label s h.valid).types
  refine ⟨⟨?_, ?_, h.supply.mintType hl, h.depth, ?_, ?_, ?_, ?_⟩, .refl .., .snoc trivial, hsize,
    Nat.le_refl _⟩
  · change s.context ++ _ = _
    rw [h.context, List.append_assoc]
  · change t.context ++ [.unsolved ⟨t.supply.types.size⟩] = _
    rw [h.supply.types, h.context', List.append_assoc]
  · exact (he label s h.valid).valid
  · exact (he label' t h.valid').valid
  · refine Context.avoids_append.2 ⟨h.avoids, Context.avoids_cons.2 ⟨?_, Context.avoids_nil⟩⟩
    exact Entry.avoids_unsolved.2 (h.fresh (Nat.le_refl _))
  · exact fun a ha => Nat.lt_of_lt_of_le (h.minted a ha) hsize

theorem State.Inserts.introduce_bind {label label' : String} {f f' : TypeId → Judgment α}
    (h : Inserts X exact Γ₁ Γ₂ s t) (hl : exact → label' = label)
    (hf : ∀ p, p ∉ X.declares → ∀ Δ₁ Δ₂ s t, Inserts X exact Δ₁ Δ₂ s t →
      Agrees X exact V Δ₁ Δ₂ s (f p s) (f' p t)) :
    Agrees X exact V Γ₁ Γ₂ s ((Judgment.introduce label >>= f) s)
      ((Judgment.introduce label' >>= f') t) := by
  have hid : (⟨t.supply.types.size⟩ : TypeId) = ⟨s.supply.types.size⟩ := by rw [h.supply.types]
  obtain ⟨hi, ha⟩ := h.introduce hl
  change Agrees X exact V Γ₁ Γ₂ s
    (f ⟨s.supply.types.size⟩ ((Judgment.introduce label : Judgment TypeId) s).2)
    (f' ⟨t.supply.types.size⟩ ((Judgment.introduce label' : Judgment TypeId) t).2)
  rw [hid]
  exact (hf _ (h.fresh (Nat.le_refl _)) _ _ _ _ hi).after ha

theorem State.Inserts.fill {before after before' after' block : Context} {p : TypeId}
    (h : Inserts X exact Γ₁ Γ₂ s t)
    (hslot : Context.SlotPair X p Γ₁ Γ₂ before after before' after')
    (hblock : Filled Entry.Solves (Entry.MintedFrom s.supply.types.size) (.unsolved p) block)
    (havoids : X.Avoids block) (hctx : s'.context = before ++ block ++ after)
    (hctx' : t'.context = before' ++ block ++ after') (hsupply : s'.supply.Alike exact t'.supply)
    (hdepth : t'.depth = s'.depth) (hs : s.Evolves .nothing s') (ht : t.Evolves .nothing t') :
    s.Reaches X exact Γ₁ Γ₂ s' t' := by
  have hminted : ∀ a ∈ X.declares, a.index < s'.supply.types.size := fun a ha =>
    Nat.lt_of_lt_of_le (h.minted a ha) hs.types
  have hrefines : ∀ before after : Context, Context.Refines s.supply.types.size
      (before ++ .unsolved p :: after) (before ++ block ++ after) := fun before after => by
    rw [List.append_assoc]
    exact (Context.Refines.refl _ before).append (.cons hblock (Context.Refines.refl _ after))
  have hall := h.avoids
  rw [h.context] at hall
  cases hslot with
  | before before after Γ₂ =>
    refine ⟨before ++ block ++ after, Γ₂, ⟨?_, ?_, hsupply, hdepth, hs.valid, ht.valid, ?_, hminted⟩,
      hrefines before after, .refl .., hs.types, hs.markers⟩
    · simp [hctx]
    · simp [hctx']
    · rw [hctx]
      simp only [Context.avoids_append, Context.avoids_cons] at hall ⊢
      exact ⟨⟨hall.1.1, havoids⟩, hall.1.2.2, hall.2⟩
  | behind Γ₁ before after =>
    refine ⟨Γ₁, before ++ block ++ after, ⟨?_, ?_, hsupply, hdepth, hs.valid, ht.valid, ?_, hminted⟩,
      .refl .., (hrefines before after).grows _, hs.types, hs.markers⟩
    · simp [hctx]
    · simp [hctx']
    · rw [hctx]
      simp only [Context.avoids_append, Context.avoids_cons] at hall ⊢
      exact ⟨⟨⟨hall.1, hall.2.1⟩, havoids⟩, hall.2.2.2⟩

end Runs

namespace Judgment

variable {α β : Type} {X : Context} {exact : Prop} {V : α → Prop} {W : β → Prop}

/-- The judgment runs in the same way with `X` and without. -/
def Indifferent (X : Context) (exact : Prop) (V : α → Prop) (x : Judgment α) : Prop :=
  ∀ Γ₁ Γ₂ s t, State.Inserts X exact Γ₁ Γ₂ s t → Agrees X exact V Γ₁ Γ₂ s (x s) (x t)

namespace Indifferent

theorem accept {a : α} (ha : V a) : Indifferent X exact V (accept a) :=
  fun _ _ _ _ h => .accepted ha h.reaches

theorem reject : Indifferent X exact V (reject : Judgment α) := fun _ _ _ _ h => .rejected h.reaches

theorem abort (error : TypeError) : Indifferent X exact V (abort error : Judgment α) :=
  fun _ _ _ _ h => .aborted h.reaches

theorem bind {x : Judgment α} {f : α → Judgment β} (hx : Indifferent X exact V x)
    (hf : ∀ a, V a → Indifferent X exact W (f a)) : Indifferent X exact W (x >>= f) := by
  intro Γ₁ Γ₂ s t h
  have hagrees := hx Γ₁ Γ₂ s t h
  generalize hr : x s = r at hagrees
  generalize hr' : x t = r' at hagrees
  cases hagrees with
  | accepted hv hreach =>
    obtain ⟨Δ₁, Δ₂, hi, ha⟩ := hreach
    rw [bind_of_accepted hr, bind_of_accepted hr']
    exact (hf _ hv Δ₁ Δ₂ _ _ hi).after ha
  | rejected hreach =>
    rw [bind_of_rejected hr, bind_of_rejected hr']
    exact .rejected hreach
  | aborted hreach =>
    rw [bind_of_aborted hr, bind_of_aborted hr']
    exact .aborted hreach

theorem orElse {x y : Judgment α} (hx : Indifferent X exact V x) (hy : Indifferent X exact V y) :
    Indifferent X exact V (x <|> y) := by
  intro Γ₁ Γ₂ s t h
  have hagrees := hx Γ₁ Γ₂ s t h
  generalize hr : x s = r at hagrees
  generalize hr' : x t = r' at hagrees
  cases hagrees with
  | accepted hv hreach =>
    rw [orElse_of_accepted hr, orElse_of_accepted hr']
    exact .accepted hv hreach
  | rejected hreach =>
    obtain ⟨Δ₁, Δ₂, hi, ha⟩ := hreach
    rw [orElse_of_rejected hr, orElse_of_rejected hr']
    exact (hy Δ₁ Δ₂ _ _ hi).after ha
  | aborted hreach =>
    rw [orElse_of_aborted hr, orElse_of_aborted hr']
    exact .aborted hreach

theorem atomically {x : Judgment α} (hx : Indifferent X exact V x) :
    Indifferent X exact V (atomically x) := by
  intro Γ₁ Γ₂ s t h
  have hagrees := hx Γ₁ Γ₂ s t h
  generalize hr : x s = r at hagrees
  generalize hr' : x t = r' at hagrees
  cases hagrees with
  | accepted hv hreach =>
    rw [atomically_of_accepted hr, atomically_of_accepted hr']
    exact .accepted hv hreach
  | rejected hreach =>
    rw [atomically_of_rejected hr, atomically_of_rejected hr']
    exact .rejected (hreach.restore h)
  | aborted hreach =>
    rw [atomically_of_aborted hr, atomically_of_aborted hr']
    exact .aborted (hreach.restore h)

theorem nested {x : Judgment α} (hx : Indifferent X exact V x) :
    Indifferent X exact V (nested x) := by
  intro Γ₁ Γ₂ s t h
  have hagrees := hx Γ₁ Γ₂ _ _ (h.withDepth (congrArg (· + 1) h.depth))
  simp only [Judgment.nested]
  have hleave : ∀ {s' t' : State},
      State.Reaches X exact Γ₁ Γ₂ { s with depth := s.depth + 1 } s' t' →
      State.Reaches X exact Γ₁ Γ₂ s { s' with depth := s'.depth - 1 }
        { t' with depth := t'.depth - 1 } := by
    rintro s' t' ⟨Δ₁, Δ₂, hi, ha⟩
    exact ⟨Δ₁, Δ₂, hi.withDepth (congrArg (· - 1) hi.depth), ha.front, ha.back, ha.types, ha.markers⟩
  generalize x { s with depth := s.depth + 1 } = r at hagrees ⊢
  generalize x { t with depth := t.depth + 1 } = r' at hagrees ⊢
  cases hagrees with
  | accepted hv hreach => exact .accepted hv (hleave hreach)
  | rejected hreach => exact .rejected (hleave hreach)
  | aborted hreach => exact .aborted (hleave hreach)

theorem inChildScope {x : Judgment α} (hx : Indifferent X exact V x) :
    Indifferent X exact V (inChildScope x) := by
  intro Γ₁ Γ₂ s t h
  have hagrees := hx _ _ _ _ h.openScope
  rw [inChildScope_eq, inChildScope_eq]
  generalize x s.openScope.2 = r at hagrees ⊢
  generalize x t.openScope.2 = r' at hagrees ⊢
  cases hagrees with
  | @accepted a _ _ hv hreach =>
    obtain ⟨Δ, Δ', hs, ht, hclosed⟩ := hreach.closeScope h (.accepted a)
    rw [hs, ht]
    exact .accepted hv hclosed
  | rejected hreach =>
    obtain ⟨Δ, Δ', hs, ht, hclosed⟩ := hreach.closeScope h (.rejected : Outcome α)
    rw [hs, ht]
    exact .rejected hclosed
  | @aborted error _ _ hreach =>
    obtain ⟨Δ, Δ', hs, ht, hclosed⟩ := hreach.closeScope h (.aborted error : Outcome α)
    rw [hs, ht]
    exact .aborted hclosed

theorem read {x : Judgment α} (h : ∀ Γ₁ Γ₂ s t, State.Inserts X exact Γ₁ Γ₂ s t →
    ∃ a, V a ∧ x s = (.accepted a, s) ∧ x t = (.accepted a, t)) : Indifferent X exact V x := by
  intro Γ₁ Γ₂ s t hi
  obtain ⟨a, hv, hs, ht⟩ := h Γ₁ Γ₂ s t hi
  rw [hs, ht]
  exact .accepted hv hi.reaches

theorem resolve {ty : Ty} (hty : ty.Avoids X) : Indifferent X exact (Ty.Avoids X) (resolve ty) := by
  refine read fun Γ₁ Γ₂ s t h => ⟨s.context.apply ty, h.avoids.apply hty, rfl, ?_⟩
  have hs := h.valid.ordered
  have ht := h.valid'.ordered
  have havoids := h.avoids
  rw [h.context] at hs havoids
  rw [h.context'] at ht
  rw [Judgment.resolve, h.context, h.context', Context.apply_insert hs ht havoids hty]

theorem isWellFormed {ty : Ty} (hty : ty.Avoids X) :
    Indifferent X exact (fun _ => True) (isWellFormed ty) := by
  refine read fun Γ₁ Γ₂ s t h => ⟨s.context.wellFormed ty, trivial, rfl, ?_⟩
  rw [Judgment.isWellFormed, h.context, h.context', Context.wellFormed_insert hty]

theorem isUnsolved {p : TypeId} (hp : p ∉ X.declares) :
    Indifferent X exact (fun _ => True) (isUnsolved p) := by
  refine read fun Γ₁ Γ₂ s t h => ⟨s.context.isUnsolved p, trivial, rfl, ?_⟩
  rw [Judgment.isUnsolved, h.context, h.context', Context.isUnsolved_insert hp]

theorem lookup {x : BindingId} (hx : x ∉ X.binds) :
    Indifferent X exact (Ty.Avoids X) (lookup x) := by
  intro Γ₁ Γ₂ s t h
  have hsame : t.context.binding? x = s.context.binding? x := by
    rw [h.context, h.context', Context.binding?_insert hx]
  simp only [Judgment.lookup, hsame]
  cases hb : s.context.binding? x with
  | none => exact .rejected h.reaches
  | some ty => exact .accepted (h.avoids.binding? hb) h.reaches

theorem push {e : Entry} (he : e.Avoids X) (hp : e.placeholder? = none) (hm : ∀ m, e ≠ .marker m) :
    Indifferent X exact (fun _ => True) (push e) := by
  intro Γ₁ Γ₂ s t h
  have hpush : Evolves .anything (Judgment.push e : Judgment Unit) := evolves_push hp hm
  refine .accepted trivial ⟨Γ₁, Γ₂ ++ [e], ⟨?_, ?_, h.supply, h.depth, ?_, ?_, ?_, h.minted⟩, .refl ..,
    .snoc trivial, Nat.le_refl _, Nat.le_refl _⟩
  · rw [h.context, List.append_assoc]
  · rw [h.context', List.append_assoc]
  · exact (hpush s h.valid).valid
  · exact (hpush t h.valid').valid
  · exact Context.avoids_append.2 ⟨h.avoids, Context.avoids_cons.2 ⟨he, Context.avoids_nil⟩⟩

theorem rigidly {x : Judgment α} {a : TypeId} (ha : a ∉ X.declares) (hx : Indifferent X exact V x) :
    Indifferent X exact V (rigidly a x) := by
  have hpush : Indifferent X exact (fun _ => True) (Judgment.push (.var a)) :=
    push (Entry.avoids_var.2 ha) rfl (by simp)
  have hdeclare : Indifferent X exact (fun _ => True) (declare a) := by
    intro Γ₁ Γ₂ s t h
    cases hpush Γ₁ Γ₂ s t h with
    | accepted _ hreach => exact .accepted trivial hreach
  exact ((hdeclare.bind fun _ _ => hx).inChildScope).atomically

theorem assuming {y : Judgment α} {x : BindingId} {ty : Ty} (hty : ty.Avoids X)
    (hy : Indifferent X exact V y) :
    Indifferent X exact V (Judgment.inChildScope (assume x ty >>= fun _ => y)) :=
  ((push (Entry.avoids_binding.2 hty) rfl (by simp)).bind fun _ _ => hy).inChildScope

theorem introducing {a : TypeId} {ty : Ty} {f : Ty → Judgment α} (hty : ty.Avoids X)
    (hf : ∀ ty, ty.Avoids X → Indifferent X exact V (f ty)) :
    Indifferent X exact V (introducing a ty f) := by
  intro Γ₁ Γ₂ s t h
  have hlabel : exact → t.supply.typeLabel a = s.supply.typeLabel a := fun he => by
    rw [h.supply.labels he]
  exact h.introduce_bind hlabel fun p hp => hf _ (hty.subst (Ty.avoids_placeholder.2 hp) a)

theorem flexibly {a : TypeId} {ty : Ty} {f : Ty → Judgment α} (hty : ty.Avoids X)
    (hf : ∀ ty, ty.Avoids X → Indifferent X exact V (f ty)) :
    Indifferent X exact V (flexibly a ty f) :=
  (introducing hty hf).inChildScope.atomically

theorem articulate {p : TypeId} (hp : p ∉ X.declares) :
    Indifferent X exact (fun (q, r) => q ∉ X.declares ∧ r ∉ X.declares) (articulate p) := by
  intro Γ₁ Γ₂ s t h
  have hs := (atomic_articulate p s h.valid).1
  have ht := (atomic_articulate p t h.valid').1
  have hq := h.fresh (a := ⟨s.supply.types.size⟩) (Nat.le_refl _)
  have hr := h.fresh (a := ⟨s.supply.types.size + 1⟩) (Nat.le_succ _)
  have hsupply : (mintedArrow p s.supply).Alike exact (mintedArrow p t.supply) :=
    (h.supply.mintType fun he => by rw [h.supply.labels he]).mintType fun he => by
      rw [h.supply.labels he]
  rcases Context.slot_insert Γ₁ Γ₂ hp with ⟨hslot, hslot'⟩ | ⟨_, _, _, _, hpair, hslot, hslot'⟩
  all_goals
    rw [← h.context] at hslot
    rw [← h.context'] at hslot'
  · rw [articulate_of_error hslot] at hs ⊢
    rw [articulate_of_error hslot'] at ht ⊢
    refine .aborted ⟨Γ₁, Γ₂, ⟨h.context, h.context', hsupply, h.depth, hs.valid, ht.valid, h.avoids,
      fun a ha => ?_⟩, .refl .., .refl .., hs.types, hs.markers⟩
    exact Nat.lt_of_lt_of_le (h.minted a ha) hs.types
  · rw [articulate_of_slot hslot] at hs ⊢
    rw [articulate_of_slot hslot', h.supply.types] at ht ⊢
    let news : Context := [.unsolved ⟨s.supply.types.size⟩, .unsolved ⟨s.supply.types.size + 1⟩]
    let arrow : Ty := .arrow (.placeholder ⟨s.supply.types.size⟩)
      (.placeholder ⟨s.supply.types.size + 1⟩)
    have hnews : ∀ e ∈ news, e.MintedFrom s.supply.types.size := by
      intro e he
      rcases List.mem_cons.1 he with rfl | he
      · exact ⟨_, rfl, Nat.le_refl _⟩
      · rw [List.mem_singleton.1 he]
        exact ⟨_, rfl, Nat.le_succ _⟩
    have havoids : X.Avoids (news ++ [.solved p arrow]) := by
      simp only [news, arrow, List.cons_append, List.nil_append, Context.avoids_cons,
        Entry.avoids_unsolved, Entry.avoids_solved, Ty.avoids_arrow, Ty.avoids_placeholder]
      exact ⟨hq, hr, ⟨hp, hq, hr⟩, Context.avoids_nil⟩
    exact .accepted ⟨hq, hr⟩ (h.fill hpair (.filled news (.solved p arrow) hnews) havoids
      (by simp [news, arrow]) (by simp [news, arrow]) hsupply h.depth hs ht)

theorem solve {Γ₁ Γ₂ before after before' after' : Context} {s t : State} {p : TypeId} {τ : Ty}
    (h : State.Inserts X exact Γ₁ Γ₂ s t) (hp : p ∉ X.declares) (hτ : τ.Avoids X)
    (hpair : Context.SlotPair X p Γ₁ Γ₂ before after before' after')
    (hslot : s.context.slot p = .ok (before, after))
    (hslot' : t.context.slot p = .ok (before', after')) (hm : τ.isMonotype = true)
    (hw : before.wellFormed τ = true) :
    Agrees X exact (fun _ => True) Γ₁ Γ₂ s (Judgment.solve p τ s) (Judgment.solve p τ t) := by
  rw [solve_of_slot τ hslot, solve_of_slot τ hslot']
  have hs := evolves_solve h.valid (Context.slot_eq_ok.1 hslot).1 hm hw
  have ht := evolves_solve h.valid' (Context.slot_eq_ok.1 hslot').1 hm
    ((hpair.wellFormed hτ).trans hw)
  refine .accepted trivial (h.fill hpair (.filled [] (.solved p τ) (by simp)) ?_ (by simp) (by simp)
    h.supply h.depth hs ht)
  exact Context.avoids_cons.2 ⟨Entry.avoids_solved.2 ⟨hp, hτ⟩, Context.avoids_nil⟩

theorem solveLater {Γ₁ Γ₂ before after : Context} {s t : State} {p q : TypeId}
    (h : State.Inserts X exact Γ₁ Γ₂ s t) (hp : p ∉ X.declares) (hq : q ∉ X.declares)
    (hslot : s.context.slot p = .ok (before, after)) (hne : p ≠ q)
    (hlater : before.wellFormed (.placeholder q) = false) :
    Agrees X exact (fun _ => True) Γ₁ Γ₂ s
      (if s.context.isUnsolved q then Judgment.solve q (.placeholder p) s else (.rejected, s))
      (if t.context.isUnsolved q then Judgment.solve q (.placeholder p) t else (.rejected, t)) := by
  have hsame : t.context.isUnsolved q = s.context.isUnsolved q := by
    rw [h.context, h.context', Context.isUnsolved_insert hq]
  rw [hsame]
  rcases Context.slot_insert Γ₁ Γ₂ hq with ⟨hslotq, -⟩ | ⟨_, _, _, _, hpair, hslotq, hslotq'⟩
  all_goals rw [← h.context] at hslotq
  · have hmem := (Context.slot_eq_error.1 hslotq).1
    rw [if_neg (by simp [Context.isUnsolved, hmem]), if_neg (by simp [Context.isUnsolved, hmem])]
    exact .rejected h.reaches
  · rw [← h.context'] at hslotq'
    have hΓ := (Context.slot_eq_ok.1 hslot).1
    have hΓq := (Context.slot_eq_ok.1 hslotq).1
    have hopen : s.context.isUnsolved q = true := by simp [Context.isUnsolved, hΓq]
    have hbefore : q ∉ before.placeholders := fun hmem => by
      simp [Context.wellFormed_placeholder.2 hmem] at hlater
    have hpq := Context.mem_before_later (hΓ.symm.trans hΓq) hne hbefore
    rw [if_pos hopen, if_pos hopen]
    exact solve h hq (Ty.avoids_placeholder.2 hp) hpair hslotq hslotq' rfl
      (Context.wellFormed_placeholder.2 hpq)

theorem instantiateMonotype {p : TypeId} {ty : Ty} (hp : p ∉ X.declares) (hty : ty.Avoids X) :
    Indifferent X exact (fun _ => True) (instantiateMonotype p ty) := by
  intro Γ₁ Γ₂ s t h
  by_cases hsame : ty = .placeholder p
  · have hrun : ∀ s, HigherRank.instantiateMonotype p ty s = (.accepted (), s) := fun s => if_pos hsame
    rw [hrun s, hrun t]
    exact .accepted trivial h.reaches
  cases hmono : ty.isMonotype with
  | false =>
    have hrun : ∀ s, HigherRank.instantiateMonotype p ty s = (.rejected, s) := fun s => by
      simp [HigherRank.instantiateMonotype, hsame, hmono]
    rw [hrun s, hrun t]
    exact .rejected h.reaches
  | true =>
    rcases Context.slot_insert Γ₁ Γ₂ hp with ⟨hslot, hslot'⟩ | ⟨_, _, _, _, hpair, hslot, hslot'⟩
    all_goals
      rw [← h.context] at hslot
      rw [← h.context'] at hslot'
    · rw [instantiateMonotype_of_error hsame hmono hslot,
        instantiateMonotype_of_error hsame hmono hslot']
      exact .aborted h.reaches
    rename_i before after before' after'
    have hw' := hpair.wellFormed hty
    cases hw : before.wellFormed ty with
    | true =>
      rw [instantiateMonotype_of_wellFormed hsame hmono hslot hw,
        instantiateMonotype_of_wellFormed hsame hmono hslot' (hw'.trans hw)]
      exact solve h hp hty hpair hslot hslot' hmono hw
    | false =>
      by_cases hlater : ∃ q, ty = .placeholder q
      · obtain ⟨q, rfl⟩ := hlater
        rw [instantiateMonotype_of_later hsame hmono hslot hw rfl,
          instantiateMonotype_of_later hsame hmono hslot' (hw'.trans hw) rfl]
        exact solveLater h hp (Ty.avoids_placeholder.1 hty) hslot (fun hpq => hsame (hpq ▸ rfl)) hw
      · have hty' : ∀ q, ty ≠ .placeholder q := fun q hq => hlater ⟨q, hq⟩
        rw [instantiateMonotype_of_stuck hsame hmono hslot hw hty',
          instantiateMonotype_of_stuck hsame hmono hslot' (hw'.trans hw) hty']
        exact .rejected h.reaches

end Indifferent
end Judgment

end HigherRank
