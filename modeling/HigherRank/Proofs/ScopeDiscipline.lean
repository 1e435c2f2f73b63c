import HigherRank.Proofs.Errors

set_option autoImplicit false

/-!
# The discipline of child scopes

A body is any finite program over the actions on a context, with child scopes inside it, that ends
with a value or at the first action that fails. Whatever it does, the scope around it finds its marker
again: actions put solutions and new placeholders into slots and append at the end, so that the entries
from before the scope stay in front of the marker, in their order, and what is appended stays behind it.

The context need not be ordered, nor its identifiers distinct, and a body may append any entry: also a
second entry for a placeholder, or a marker that is there already. Only a marker that has not been
minted yet it cannot have.
-/
namespace HigherRank

open Judgment

inductive Action : Type → Type where
  | push (e : Entry) : Action Unit
  | declare (a : TypeId) : Action Ty
  | introduce (label : String) : Action TypeId
  | solve (p : TypeId) (solution : Ty) : Action Unit
  | insertBefore (fresh p : TypeId) : Action Unit
  | assume (x : BindingId) (ty : Ty) : Action Unit
  | articulate (p : TypeId) : Action (TypeId × TypeId)
  -- Mint a marker without using it.
  | mintMarker : Action Marker

/-- A finite program over the actions. What it does next may depend on the values so far and, through
`inspect`, on all of the state. -/
inductive Body : Type → Type 1 where
  | done {α : Type} (value : α) : Body α
  | act {α β : Type} (action : Action β) (next : β → Body α) : Body α
  | scope {α β : Type} (inner : Body β) (next : β → Body α) : Body α
  | inspect {α : Type} (next : State → Body α) : Body α

def Action.run {β : Type} : Action β → Judgment β
  | push e => Judgment.push e
  | declare a => Judgment.declare a
  | introduce label => Judgment.introduce label
  | solve p solution => Judgment.solve p solution
  | insertBefore fresh p => Judgment.insertBefore fresh p
  | assume x ty => Judgment.assume x ty
  | articulate p => Judgment.articulate p
  | mintMarker => fun s => (.accepted s.supply.mintMarker.1, { s with supply := s.supply.mintMarker.2 })

def Body.run {α : Type} : Body α → Judgment α
  | done value => accept value
  | act action next => action.run >>= fun b => (next b).run
  | scope inner next => inChildScope inner.run >>= fun b => (next b).run
  | inspect next => fun s => (next s).run s

/-- What a run has added: the entries at the end, and the placeholders put in front of others. -/
structure Additions where
  appended : Context := []
  inserted : List TypeId := []

def Action.additions {β : Type} : Action β → β → Additions
  | push e, _ => { appended := [e] }
  | declare a, _ => { appended := [.var a] }
  | introduce _, p => { appended := [.unsolved p] }
  | solve _ _, _ => {}
  | insertBefore fresh _, _ => { inserted := [fresh] }
  | assume x ty, _ => { appended := [.binding x ty] }
  | articulate _, (parameter, result) => { inserted := [parameter, result] }
  | mintMarker, _ => {}

/-- What a body adds. Of what it does in a child scope only the insertions count. -/
def Body.additions {α : Type} : Body α → State → Additions
  | done _, _ => {}
  | act action next, s =>
    match action.run s with
    | (.accepted b, s') =>
      { appended := (action.additions b).appended ++ ((next b).additions s').appended
        inserted := (action.additions b).inserted ++ ((next b).additions s').inserted }
    | _ => {}
  | scope inner next, s =>
    match inChildScope inner.run s with
    | (.accepted b, s') =>
      { appended := ((next b).additions s').appended
        inserted := (inner.additions s.openScope.2).inserted ++ ((next b).additions s').inserted }
    | _ => { inserted := (inner.additions s.openScope.2).inserted }
  | inspect next, s => (next s).additions s

inductive Entry.Becomes : Entry → Entry → Prop where
  | same (e : Entry) : Becomes e e
  | solved (p : TypeId) (τ : Ty) : Becomes (.unsolved p) (.solved p τ)

theorem Entry.Becomes.trans {e e' e'' : Entry} (h : e.Becomes e') (h' : e'.Becomes e'') :
    e.Becomes e'' := by
  cases h with
  | same => exact h'
  | solved p τ =>
    cases h'
    exact .solved p τ

theorem Entry.Becomes.placeholder? {e e' : Entry} (h : e.Becomes e') :
    e'.placeholder? = e.placeholder? := by
  cases h <;> rfl

def Entry.DeclaredIn (ids : List TypeId) (e : Entry) : Prop := ∃ q ∈ ids, e.placeholder? = some q

/-- An entry in its place. If it is a placeholder's, some of the given placeholders may stand in front
of it. -/
inductive Entry.Kept (ids : List TypeId) : Entry → List Entry → Prop where
  | self (e : Entry) : Kept ids e [e]
  | placeholder {e e' : Entry} {p : TypeId} (news : List Entry) : e.placeholder? = some p →
      e.Becomes e' → (∀ n ∈ news, n.DeclaredIn ids) → Kept ids e (news ++ [e'])

namespace Entry.Kept

variable {ids ids' : List TypeId} {e : Entry} {block block' : List Entry}

theorem mono (hids : ids ⊆ ids') (h : e.Kept ids block) : e.Kept ids' block := by
  cases h with
  | self => exact .self e
  | placeholder news hp he hnews =>
    refine .placeholder news hp he fun n hn => ?_
    obtain ⟨q, hq, hnq⟩ := hnews n hn
    exact ⟨q, hids hq, hnq⟩

theorem declaredIn {xs ys : List Entry} (h : Blockwise (Kept ids) xs ys)
    (hx : ∀ x ∈ xs, x.DeclaredIn ids) : ∀ y ∈ ys, y.DeclaredIn ids := by
  intro y hy
  obtain ⟨x, hmem, block, hb, hy⟩ := h.exists_block hy
  obtain ⟨q, hq, hxq⟩ := hx x hmem
  cases hb with
  | self => exact List.mem_singleton.1 hy ▸ ⟨q, hq, hxq⟩
  | placeholder news _ he hnews =>
    rcases List.mem_append.1 hy with hy | hy
    · exact hnews y hy
    · rw [List.mem_singleton.1 hy]
      exact ⟨q, hq, he.placeholder?.trans hxq⟩

theorem trans (h : e.Kept ids block) (hb : Blockwise (Kept ids) block block') :
    e.Kept ids block' := by
  cases h with
  | self =>
    obtain ⟨block, ys, rfl, he, hy⟩ := hb.of_cons
    cases hy
    rwa [List.append_nil]
  | placeholder news hp he hnews =>
    obtain ⟨news', last, rfl, hn, hl⟩ := hb.of_append
    obtain ⟨block, ys, rfl, hlast, hy⟩ := hl.of_cons
    cases hy
    have hnews' := declaredIn hn hnews
    cases hlast with
    | self => exact .placeholder news' hp he hnews'
    | placeholder more _ he' hmore =>
      rw [List.append_nil, ← List.append_assoc]
      refine .placeholder (news' ++ more) hp (he.trans he') fun n hn => ?_
      exact (List.mem_append.1 hn).elim (hnews' n) (hmore n)

end Entry.Kept

namespace Context

abbrev Kept (ids : List TypeId) (Γ Δ : Context) : Prop := Blockwise (Entry.Kept ids) Γ Δ

theorem Kept.refl (ids : List TypeId) (Γ : Context) : Kept ids Γ Γ := Blockwise.refl .self Γ

theorem Kept.mono {ids ids' : List TypeId} {Γ Δ : Context} (hids : ids ⊆ ids')
    (h : Kept ids Γ Δ) : Kept ids' Γ Δ :=
  Blockwise.mono (fun _ _ => Entry.Kept.mono hids) h

theorem Kept.trans {ids : List TypeId} {Γ Δ Θ : Context} (h : Kept ids Γ Δ)
    (h' : Kept ids Δ Θ) : Kept ids Γ Θ :=
  Blockwise.trans (fun _ _ _ => Entry.Kept.trans) h h'

theorem Kept.markers {ids : List TypeId} {Γ Δ : Context} {m : Marker} (h : Kept ids Γ Δ)
    (hm : .marker m ∈ Δ) : .marker m ∈ Γ := by
  obtain ⟨e, he, block, hb, hm⟩ := h.exists_block hm
  cases hb with
  | self => rwa [List.mem_singleton.1 hm]
  | placeholder news hp hbecomes hnews =>
    rcases List.mem_append.1 hm with hm | hm
    · obtain ⟨q, -, hq⟩ := hnews _ hm
      cases hq
    · rw [← hbecomes.placeholder?, ← List.mem_singleton.1 hm] at hp
      cases hp

theorem Kept.fill {ids : List TypeId} {p : TypeId} {e : Entry} {news : Context} (before after : Context)
    (he : (Entry.unsolved p).Becomes e) (hnews : ∀ n ∈ news, n.DeclaredIn ids) :
    Kept ids (before ++ .unsolved p :: after) (before ++ (news ++ e :: after)) := by
  have hslot : Kept ids [.unsolved p] (news ++ [e]) := .single (.placeholder news rfl he hnews)
  have hafter := hslot.append (Kept.refl ids after)
  simp only [List.append_assoc, List.singleton_append] at hafter
  exact (Kept.refl ids before).append hafter

end Context

def State.MarkersMinted (s : State) : Prop := ∀ m, .marker m ∈ s.context → m.index < s.supply.markers

def Action.UsesMinted {β : Type} (s : State) : Action β → Prop
  | push (.marker m) => m.index < s.supply.markers
  | _ => True

/-- A run keeps the entries it finds and, behind them, those that it appends. -/
structure State.Keeps (added : Additions) (s t : State) : Prop where
  context : Context.Kept added.inserted (s.context ++ added.appended) t.context
  markers : s.supply.markers ≤ t.supply.markers
  minted : t.MarkersMinted

def TypeError.OfSlot (error : TypeError) : Prop := ∃ p, error = .missingPlaceholder p

namespace State.Keeps

variable {s t u : State} {added added' : Additions}

theorem refl (hs : s.MarkersMinted) (ids : List TypeId) : s.Keeps { inserted := ids } s :=
  ⟨by simpa using Context.Kept.refl ids s.context, Nat.le_refl _, hs⟩

theorem trans (h : s.Keeps added t) (h' : t.Keeps added' u) :
    s.Keeps
      { appended := added.appended ++ added'.appended
        inserted := added.inserted ++ added'.inserted } u := by
  refine ⟨?_, Nat.le_trans h.markers h'.markers, h'.minted⟩
  have hfirst := h.context.mono (List.subset_append_left _ added'.inserted)
  have hsecond := h'.context.mono (List.subset_append_right added.inserted _)
  have hboth := Context.Kept.trans (hfirst.append (Context.Kept.refl _ added'.appended)) hsecond
  rwa [List.append_assoc] at hboth

theorem of_kept {added : Additions} {supply : Supply} {Γ : Context} (hs : s.MarkersMinted)
    (hadded : ∀ m, .marker m ∈ added.appended → m.index < s.supply.markers)
    (hΓ : Context.Kept added.inserted (s.context ++ added.appended) Γ)
    (hm : s.supply.markers ≤ supply.markers) : s.Keeps added { s with supply, context := Γ } := by
  refine ⟨hΓ, hm, fun m hmem => Nat.lt_of_lt_of_le ?_ hm⟩
  rcases List.mem_append.1 (hΓ.markers hmem) with hmem | hmem
  · exact hs m hmem
  · exact hadded m hmem

theorem fill {ids : List TypeId} {supply : Supply} {p : TypeId} {e : Entry}
    {before after news : Context} (hs : s.MarkersMinted)
    (hslot : s.context.slot p = .ok (before, after)) (he : (Entry.unsolved p).Becomes e)
    (hnews : ∀ n ∈ news, n.DeclaredIn ids) (hm : s.supply.markers ≤ supply.markers) :
    s.Keeps { inserted := ids } { s with supply, context := before ++ (news ++ e :: after) } := by
  refine of_kept hs (by simp) ?_ hm
  rw [(Context.slot_eq_ok.1 hslot).1, List.append_nil]
  exact Context.Kept.fill before after he hnews

end State.Keeps

/-- How an action can end: with its additions made, or with nothing done for want of a slot. -/
inductive Action.Ends {β : Type} (action : Action β) (s : State) : Outcome β → State → Prop where
  | accepted {b : β} {t : State} : s.Keeps (action.additions b) t → Ends action s (.accepted b) t
  | aborted {error : TypeError} {t : State} : error.OfSlot → s.Keeps {} t →
      Ends action s (.aborted error) t

theorem edit_ends {action : Action Unit} {s : State} {p : TypeId} {e : Entry} {news : Context}
    {ids : List TypeId} (f : Context → Except TypeError Context) (hs : s.MarkersMinted)
    (hrun : action.run = edit f) (hadded : action.additions () = { inserted := ids })
    (he : (Entry.unsolved p).Becomes e) (hnews : ∀ n ∈ news, n.DeclaredIn ids)
    (hf : f s.context = (s.context.slot p).map fun (before, after) => before ++ (news ++ e :: after)) :
    action.Ends s (action.run s).1 (action.run s).2 := by
  rcases hslot : s.context.slot p with error | ⟨before, after⟩
  · simp only [hrun, edit, hf, hslot, Except.map]
    exact .aborted ⟨p, (Context.slot_eq_error.1 hslot).2⟩ (.refl hs [])
  · simp only [hrun, edit, hf, hslot, Except.map]
    refine .accepted ?_
    rw [hadded]
    exact .fill hs hslot he hnews (Nat.le_refl _)

theorem articulate_ends {s : State} (p : TypeId) (hs : s.MarkersMinted) :
    (Action.articulate p).Ends s (articulate p s).1 (articulate p s).2 := by
  rcases hslot : s.context.slot p with error | ⟨before, after⟩
  · rw [articulate_of_error hslot]
    refine .aborted ⟨p, (Context.slot_eq_error.1 hslot).2⟩ ?_
    exact .of_kept hs (by simp) (by simpa using Context.Kept.refl [] s.context) (Nat.le_refl _)
  · rw [articulate_of_slot hslot]
    have hnews : ∀ n ∈ [Entry.unsolved ⟨s.supply.types.size⟩, .unsolved ⟨s.supply.types.size + 1⟩],
        n.DeclaredIn [⟨s.supply.types.size⟩, ⟨s.supply.types.size + 1⟩] := by
      simp [Entry.DeclaredIn, Entry.placeholder?]
    exact .accepted (.fill hs hslot (.solved p _) hnews (Nat.le_refl _))

theorem Action.run_ends {β : Type} (action : Action β) {s : State} (hs : s.MarkersMinted)
    (hu : action.UsesMinted s) : action.Ends s (action.run s).1 (action.run s).2 := by
  cases action with
  | push e =>
    refine .accepted (.of_kept hs ?_ (.refl _ _) (Nat.le_refl _))
    intro m hm
    rw [← List.mem_singleton.1 hm] at hu
    exact hu
  | declare a => exact .accepted (.of_kept hs (by simp [additions]) (.refl _ _) (Nat.le_refl _))
  | introduce label => exact .accepted (.of_kept hs (by simp [additions]) (.refl _ _) (Nat.le_refl _))
  | assume x ty => exact .accepted (.of_kept hs (by simp [additions]) (.refl _ _) (Nat.le_refl _))
  | mintMarker =>
    refine .accepted (.of_kept hs (by simp [additions]) ?_ (Nat.le_succ _))
    rw [additions, List.append_nil]
    exact .refl _ _
  | solve p τ =>
    have hnone : ∀ n ∈ ([] : Context), n.DeclaredIn [] := by simp
    exact edit_ends (·.solve p τ) hs rfl rfl (.solved p τ) hnone rfl
  | insertBefore fresh p =>
    have hfresh : ∀ n ∈ [Entry.unsolved fresh], n.DeclaredIn [fresh] := by
      simp [Entry.DeclaredIn, Entry.placeholder?]
    exact edit_ends (·.insertBefore fresh p) hs rfl rfl (.same (.unsolved p)) hfresh rfl
  | articulate p => exact articulate_ends p hs

def Body.UsesMinted {α : Type} : Body α → State → Prop
  | done _, _ => True
  | act action next, s =>
    action.UsesMinted s ∧
      ∀ b s', action.run s = (.accepted b, s') → (next b).UsesMinted s'
  | scope inner next, s =>
    inner.UsesMinted s.openScope.2 ∧
      ∀ b s', inChildScope inner.run s = (.accepted b, s') → (next b).UsesMinted s'
  | inspect next, s => (next s).UsesMinted s

/-- What holds of the run of a body. -/
structure Body.Disciplined {α : Type} (body : Body α) (s : State) : Prop where
  keeps : s.Keeps (body.additions s) (body.run s).2
  raises : RaisesOnly TypeError.OfSlot body.run s

theorem State.MarkersMinted.openScope {s : State} (hs : s.MarkersMinted) :
    s.openScope.2.MarkersMinted := by
  intro m hm
  rcases List.mem_append.1 hm with hm | hm
  · exact Nat.lt_succ_of_lt (hs m hm)
  · cases List.mem_singleton.1 hm
    exact Nat.lt_succ_self _

/-- The marker divides the context at the end: before it is what is kept of the entries from before
the scope, behind it what is kept of those that the body has appended. -/
theorem State.Keeps.at_marker {s t : State} {added : Additions} (hs : s.MarkersMinted)
    (h : s.openScope.2.Keeps added t) :
    ∃ Δ rest, t.context = Δ ++ .marker s.openScope.1 :: rest ∧
      Context.Kept added.inserted s.context Δ ∧ Context.Kept added.inserted added.appended rest ∧
      t.context.splitAt? (.marker s.openScope.1) = some (Δ, rest) := by
  have hctx := h.context
  obtain ⟨Δ', rest, hsplit, hΔ', hrest⟩ := hctx.of_append
  obtain ⟨Δ, last, rfl, hΔ, hlast⟩ := hΔ'.of_append
  obtain ⟨block, ys, rfl, hblock, hy⟩ := hlast.of_cons
  cases hy
  have hmarker : block = [.marker s.openScope.1] := by
    cases hblock with
    | self => rfl
    | placeholder _ hp _ _ => cases hp
  subst hmarker
  have hnot : .marker s.openScope.1 ∉ Δ := fun hmem =>
    Nat.lt_irrefl _ (hs _ (Context.Kept.markers hΔ hmem))
  have heq : t.context = Δ ++ .marker s.openScope.1 :: rest := by simpa using hsplit
  exact ⟨Δ, rest, heq, hΔ, hrest, heq ▸ Context.splitAt?_append rest hnot⟩

theorem Body.Disciplined.inChildScope_run {α : Type} {body : Body α} {s : State}
    (hs : s.MarkersMinted) (h : body.Disciplined s.openScope.2) :
    ∃ Δ rest, (body.run s.openScope.2).2.context = Δ ++ .marker s.openScope.1 :: rest ∧
      Context.Kept (body.additions s.openScope.2).inserted s.context Δ ∧
      Context.Kept (body.additions s.openScope.2).inserted
        (body.additions s.openScope.2).appended rest ∧
      inChildScope body.run s =
        ((body.run s.openScope.2).1, { (body.run s.openScope.2).2 with context := Δ }) := by
  obtain ⟨Δ, rest, heq, hΔ, hrest, hsplit⟩ := h.keeps.at_marker hs
  exact ⟨Δ, rest, heq, hΔ, hrest, inChildScope_of_split rfl hsplit⟩

theorem Body.Disciplined.inChildScope {α : Type} {body : Body α} {s : State}
    (hs : s.MarkersMinted) (h : body.Disciplined s.openScope.2) :
    s.Keeps { inserted := (body.additions s.openScope.2).inserted } (inChildScope body.run s).2 ∧
      RaisesOnly TypeError.OfSlot (Judgment.inChildScope body.run) s := by
  obtain ⟨Δ, rest, heq, hΔ, -, hrun⟩ := h.inChildScope_run hs
  have hle := Nat.le_trans (Nat.le_succ _) h.keeps.markers
  refine ⟨?_, ?_⟩
  · rw [hrun]
    refine ⟨by simpa using hΔ, hle, fun m hm => ?_⟩
    exact Nat.lt_of_lt_of_le (hs m (hΔ.markers hm)) hle
  · intro error t ht
    rw [hrun] at ht
    obtain ⟨hfst, -⟩ := Prod.mk.inj ht
    exact h.raises error _ (Prod.ext hfst rfl)

theorem Body.run_disciplined {α : Type} (body : Body α) {s : State} (hs : s.MarkersMinted)
    (hu : body.UsesMinted s) : body.Disciplined s := by
  induction body generalizing s with
  | done value => exact ⟨.refl hs [], RaisesOnly.accept⟩
  | inspect next ih => exact ⟨(ih s hs hu).keeps, (ih s hs hu).raises⟩
  | act action next ih =>
    have hends := action.run_ends hs hu.1
    rcases hr : action.run s with ⟨o, t⟩
    rw [hr] at hends
    cases hends with
    | @accepted b _ hk =>
      have hnext := ih b hk.minted (hu.2 b t hr)
      have hrun : (act action next).run s = (next b).run t := bind_of_accepted hr
      refine ⟨?_, fun error u h => hnext.raises error u (hrun ▸ h)⟩
      simp only [hrun, additions, hr]
      exact hk.trans hnext.keeps
    | @aborted error _ he hk =>
      have hrun : (act action next).run s = (.aborted error, t) := bind_of_aborted hr
      refine ⟨?_, ?_⟩
      · simp only [hrun, additions, hr]
        exact hk
      · intro error' u h
        cases hrun.symm.trans h
        exact he
  | scope inner next ihInner ih =>
    obtain ⟨hk, hraises⟩ := (ihInner hs.openScope hu.1).inChildScope hs
    refine ⟨?_, hraises.bind fun b t hr => ?_⟩
    · rcases hr : inChildScope inner.run s with ⟨b | _ | error, t⟩ <;> rw [hr] at hk
      · have hrun : (scope inner next).run s = (next b).run t := bind_of_accepted hr
        simp only [hrun, additions, hr]
        exact hk.trans (ih b hk.minted (hu.2 b t hr)).keeps
      · have hrun : (scope inner next).run s = (.rejected, t) := bind_of_rejected hr
        simp only [hrun, additions, hr]
        exact hk
      · have hrun : (scope inner next).run s = (.aborted error, t) := bind_of_aborted hr
        simp only [hrun, additions, hr]
        exact hk
    · rw [hr] at hk
      exact (ih b hk.minted (hu.2 b t hr)).raises

/-- A child scope with any body ends at its marker and returns what the body returns, never that the
marker is missing. Before the marker are the entries from before the scope, in their order, and what
is new among them are inserted placeholders, each in front of a placeholder that was there; all that the
body has appended is behind the marker, and goes. -/
theorem inChildScope_disciplined {α : Type} (body : Body α) (s : State) (hs : s.MarkersMinted)
    (hu : body.UsesMinted s.openScope.2) :
    (∃ Δ rest, (body.run s.openScope.2).2.context = Δ ++ .marker s.openScope.1 :: rest ∧
      Context.Kept (body.additions s.openScope.2).inserted s.context Δ ∧
      Context.Kept (body.additions s.openScope.2).inserted
        (body.additions s.openScope.2).appended rest ∧
      inChildScope body.run s =
        ((body.run s.openScope.2).1, { (body.run s.openScope.2).2 with context := Δ })) ∧
      ∀ m, (inChildScope body.run s).1 ≠ .aborted (.missingMarker m) := by
  have hbody := body.run_disciplined hs.openScope hu
  refine ⟨hbody.inChildScope_run hs, fun m hm => ?_⟩
  obtain ⟨p, hp⟩ := (hbody.inChildScope hs).2 _ _ (Prod.ext hm rfl)
  cases hp

namespace CrossedScope

def state : State where
  supply := { types := #["p", "a", "q"], markers := 1 }
  context := [.unsolved ⟨0⟩, .var ⟨1⟩, .unsolved ⟨2⟩, .marker ⟨0⟩]

/-- Works on both placeholders from two scopes further in, where it also repeats an old marker, and
fails in the end. -/
def body : Body Unit :=
  .act (.introduce "r") fun r =>
  .act (.articulate ⟨0⟩) fun (parameter, _) =>
  .scope
    (.act (.push (.marker ⟨0⟩)) fun _ =>
      .act (.solve parameter .void) fun _ =>
      .act (.insertBefore r ⟨2⟩) fun _ =>
      .act (.solve ⟨2⟩ (.arrow (.var ⟨1⟩) (.placeholder r))) fun _ =>
      .done ())
    fun _ =>
      .act (.solve ⟨0⟩ .void) fun _ =>
      .done ()

theorem state_markersMinted : state.MarkersMinted := by
  simp [State.MarkersMinted, state]

theorem body_usesMinted : body.UsesMinted state.openScope.2 := by
  refine ⟨trivial, ?_⟩
  rintro _ _ ⟨⟩
  refine ⟨trivial, ?_⟩
  rintro _ _ ⟨⟩
  refine ⟨⟨?_, ?_⟩, ?_⟩
  · exact Nat.zero_lt_succ 2
  · rintro _ _ ⟨⟩
    refine ⟨trivial, ?_⟩
    rintro _ _ ⟨⟩
    refine ⟨trivial, ?_⟩
    rintro _ _ ⟨⟩
    refine ⟨trivial, ?_⟩
    rintro _ _ ⟨⟩
    trivial
  · rintro _ _ ⟨⟩
    exact ⟨trivial, fun _ _ _ => trivial⟩

theorem body_disciplined :
    state.MarkersMinted ∧ body.UsesMinted state.openScope.2 ∧
    (∃ Δ rest, (body.run state.openScope.2).2.context = Δ ++ .marker ⟨1⟩ :: rest ∧
      Context.Kept [⟨4⟩, ⟨5⟩, ⟨3⟩] state.context Δ ∧
      Context.Kept [⟨4⟩, ⟨5⟩, ⟨3⟩] [.unsolved ⟨3⟩] rest ∧
      inChildScope body.run state =
        ((body.run state.openScope.2).1, { (body.run state.openScope.2).2 with context := Δ })) ∧
      ∀ m, (inChildScope body.run state).1 ≠ .aborted (.missingMarker m) :=
  ⟨state_markersMinted, body_usesMinted,
    inChildScope_disciplined body state state_markersMinted body_usesMinted⟩

example : inChildScope body.run state =
    (.aborted (.missingPlaceholder ⟨0⟩),
      { supply := { types := #["p", "a", "q", "r", "p-param", "p-result"], markers := 3 }
        context :=
          [.solved ⟨4⟩ .void, .unsolved ⟨5⟩, .solved ⟨0⟩ (.arrow (.placeholder ⟨4⟩) (.placeholder ⟨5⟩)),
            .var ⟨1⟩, .unsolved ⟨3⟩, .solved ⟨2⟩ (.arrow (.var ⟨1⟩) (.placeholder ⟨3⟩)),
            .marker ⟨0⟩] }) := by
  decide

end CrossedScope

end HigherRank
