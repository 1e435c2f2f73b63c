import HigherRank.Proofs.Inversion
import HigherRank.Proofs.Resolution

set_option autoImplicit false

/-!
# What the judgments on types are given

The premises under which instantiation and subtyping are meant to run, a placeholder that is still
unsolved and types that are in scope, and how each rule hands them on to the judgments it calls. Types
that are resolved stay so along most of the way.
-/
namespace HigherRank

open Judgment

namespace Context

variable {s : State} {a : TypeId} {body : Ty}

theorem wellFormed_declared (h : s.context.wellFormed (.forAll a body) = true) :
    (s.scopeWith (.var a)).context.wellFormed body = true := by
  refine wellFormed_body (wellFormed_childScope h) ?_
  simp [State.scopeWith, rigid_childScope, Entry.rigid?]

theorem wellFormed_opened (h : s.context.wellFormed (.forAll a body) = true) (label : String) :
    (s.scopeWithNew label).context.wellFormed
      (body.subst a (.placeholder ⟨s.supply.types.size⟩)) = true := by
  refine wellFormed_subst (wellFormed_childScope h) (wellFormed_placeholder.2 ?_)
  simp only [State.scopeWithNew, placeholders_childScope]
  simp [Entry.placeholder?]

end Context

theorem Ty.mentions_iff {p : TypeId} {ty : Ty} : ty.mentions p = true ↔ p ∈ ty.placeholders := by
  induction ty with
  | void => simp [mentions, placeholders]
  | var a => simp [mentions, placeholders]
  | placeholder q => exact beq_iff_eq.trans (List.mem_singleton.trans eq_comm).symm
  | forAll a body ih => exact ih
  | arrow parameter result ihp ihr => simp [mentions, placeholders, ihp, ihr]

/-- A placeholder that waits for a solution, and a type in scope. -/
structure Solvable (s : State) (p : TypeId) (ty : Ty) : Prop where
  valid : s.Valid
  unsolved : .unsolved p ∈ s.context
  wellFormed : s.context.wellFormed ty = true

/-- A placeholder has been split into two new ones. -/
structure Articulated (s s₁ : State) (p p₁ p₂ : TypeId) : Prop where
  evolves : s.Evolves .nothing s₁
  parameter : p₁.index = s.supply.types.size
  result : p₂.index = s.supply.types.size + 1
  minted : s₁.supply.types.size = s.supply.types.size + 2
  parameterOpen : .unsolved p₁ ∈ s₁.context
  resultOpen : .unsolved p₂ ∈ s₁.context
  solved : .solved p (.arrow (.placeholder p₁) (.placeholder p₂)) ∈ s₁.context
  others : ∀ q, .unsolved q ∈ s.context → q ≠ p → .unsolved q ∈ s₁.context

theorem articulated_of_accepted {ε : Type} [SearchError ε] {s s₁ : State} {p p₁ p₂ : TypeId}
    (hs : s.Valid) (h : (articulate p : Search ε (TypeId × TypeId)) s = (.accepted (p₁, p₂), s₁)) :
    Articulated s s₁ p p₁ p₂ := by
  have hevolves := (atomic_articulate p).evolves.result hs h
  obtain ⟨before, after, hbefore, hafter⟩ := articulate_accepted h
  rcases hslot : s.context.slot p with error | slot
  · rw [articulate_of_error hslot] at h
    cases h
  rw [articulate_of_slot hslot] at h
  cases h
  refine ⟨hevolves, rfl, rfl, size_mintedArrow p s.supply, ?_, ?_, ?_, fun q hq hne => ?_⟩
  · simp
  · simp
  · simp
  · rw [hbefore] at hq
    rw [hafter]
    have hq' : .unsolved q ∈ before ∨ .unsolved q ∈ after := by simpa [hne] using hq
    rcases hq' with hq' | hq' <;> simp [hq']

namespace State.Valid

variable {s : State} {p q : TypeId}

theorem unsolved_lt (hs : s.Valid) (hp : .unsolved p ∈ s.context) :
    p.index < s.supply.types.size :=
  hs.placeholders p (Context.placeholder_mem_of_unsolved hp)

theorem ne_of_minted (hs : s.Valid) (hp : .unsolved p ∈ s.context)
    (hq : s.supply.types.size ≤ q.index) : p ≠ q := by
  rintro rfl
  exact Nat.not_lt.2 hq (hs.unsolved_lt hp)

end State.Valid

namespace Solvable

variable {s s₁ : State} {p p₁ p₂ a : TypeId} {ty body : Ty}

theorem ordered (h : Solvable s p ty) : s.context.Ordered := h.valid.ordered

theorem apply (h : Solvable s p ty) : Solvable s p (s.context.apply ty) :=
  ⟨h.valid, h.unsolved, h.ordered.wellFormed_apply h.wellFormed⟩

theorem withDepth (h : Solvable s p ty) (depth : Nat) : Solvable { s with depth } p ty :=
  ⟨h.valid.withDepth depth, h.unsolved, h.wellFormed⟩

theorem parameter {τ υ : Ty} (h : Solvable s p (.arrow τ υ))
    (ha : Articulated s s₁ p p₁ p₂) : Solvable s₁ p₁ τ :=
  ⟨ha.evolves.valid, ha.parameterOpen,
    (ha.evolves.of_nothing .placeholders).context.wellFormed
      (Context.wellFormed_arrow.1 h.wellFormed).1⟩

theorem body_rigid (h : Solvable s p (.forAll a body)) : Solvable (s.scopeWith (.var a)) p body :=
  ⟨h.valid.scopeWith rfl (by simp), Context.mem_childScope.2 (.inl h.unsolved),
    Context.wellFormed_declared h.wellFormed⟩

theorem body_flexible (h : Solvable s p (.forAll a body)) (label : String) :
    Solvable (s.scopeWithNew label) p (body.subst a (.placeholder ⟨s.supply.types.size⟩)) :=
  ⟨h.valid.scopeWithNew label, Context.mem_childScope.2 (.inl h.unsolved),
    Context.wellFormed_opened h.wellFormed label⟩

end Solvable

structure Comparison (s : State) (sub sup : Ty) : Prop where
  valid : s.Valid
  sub : s.context.wellFormed sub = true
  sup : s.context.wellFormed sup = true

namespace Comparison

variable {s s' : State} {a p : TypeId} {sub sup body : Ty}

theorem apply (h : Comparison s sub sup) :
    Comparison s (s.context.apply sub) (s.context.apply sup) :=
  ⟨h.valid, h.valid.ordered.wellFormed_apply h.sub, h.valid.ordered.wellFormed_apply h.sup⟩

theorem withDepth (h : Comparison s sub sup) (depth : Nat) :
    Comparison { s with depth } sub sup :=
  ⟨h.valid.withDepth depth, h.sub, h.sup⟩

theorem later (h : Comparison s sub sup) (he : s.Evolves .nothing s') : Comparison s' sub sup :=
  ⟨he.valid, (he.of_nothing .placeholders).context.wellFormed h.sub,
    (he.of_nothing .placeholders).context.wellFormed h.sup⟩

theorem parts {parameter result parameter' result' : Ty}
    (h : Comparison s (.arrow parameter result) (.arrow parameter' result')) :
    Comparison s parameter' parameter ∧ Comparison s result result' := by
  obtain ⟨hp, hr⟩ := Context.wellFormed_arrow.1 h.sub
  obtain ⟨hp', hr'⟩ := Context.wellFormed_arrow.1 h.sup
  exact ⟨⟨h.valid, hp', hp⟩, h.valid, hr, hr'⟩

theorem body_flexible (h : Comparison s (.forAll a body) sup) (label : String) :
    Comparison (s.scopeWithNew label) (body.subst a (.placeholder ⟨s.supply.types.size⟩)) sup :=
  ⟨h.valid.scopeWithNew label, Context.wellFormed_opened h.sub label,
    Context.wellFormed_childScope h.sup⟩

theorem body_rigid (h : Comparison s sub (.forAll a body)) :
    Comparison (s.scopeWith (.var a)) sub body :=
  ⟨h.valid.scopeWith rfl (by simp), Context.wellFormed_childScope h.sub,
    Context.wellFormed_declared h.sup⟩

theorem solvable_sub (h : Comparison s (.placeholder p) sup) (hp : .unsolved p ∈ s.context) :
    Solvable s p sup :=
  ⟨h.valid, hp, h.sup⟩

theorem solvable_sup (h : Comparison s sub (.placeholder p)) (hp : .unsolved p ∈ s.context) :
    Solvable s p sub :=
  ⟨h.valid, hp, h.sub⟩

end Comparison

namespace Context.Resolved

variable {s s₁ : State} {p p₁ p₂ a : TypeId} {ty parameter result body : Ty}

theorem parts (h : s.context.Resolved (.arrow parameter result)) :
    s.context.Resolved parameter ∧ s.context.Resolved result := by
  refine ⟨fun p hp => h p ?_, fun p hp => h p ?_⟩ <;> simp [Ty.placeholders, hp]

theorem childScope {m : Marker} {e : Entry} (h : s.context.Resolved ty)
    (hw : s.context.wellFormed ty = true) (ho : (s.context.childScope m e).Ordered) :
    (s.context.childScope m e).Resolved ty :=
  ho.resolved_of_unsolved fun _ hq => mem_childScope.2 (.inl (h.unsolved hw hq))

theorem opened (h : s.context.Resolved (.forAll a body))
    (hw : s.context.wellFormed (.forAll a body) = true) (hs : s.Valid) (label : String) :
    (s.scopeWithNew label).context.Resolved
      (body.subst a (.placeholder ⟨s.supply.types.size⟩)) := by
  refine (hs.scopeWithNew label).ordered.resolved_of_unsolved fun q hq => ?_
  refine mem_childScope.2 ((Ty.placeholders_subst hq).imp (fun hq => ?_) fun hq => .inr ?_)
  · exact h.unsolved hw hq
  · rw [List.mem_singleton.1 hq]

end Context.Resolved

/-- A placeholder to be solved against a resolved type in which it does not occur. -/
structure Apart (s : State) (p : TypeId) (ty : Ty) : Prop extends Solvable s p ty where
  resolved : s.context.Resolved ty
  absent : p ∉ ty.placeholders

theorem Solvable.apart {s : State} {p : TypeId} {ty : Ty} (h : Solvable s p ty)
    (hp : p ∉ (s.context.apply ty).placeholders) : Apart s p (s.context.apply ty) :=
  { h.apply with resolved := h.ordered.resolved_apply ty, absent := hp }

namespace Apart

variable {s s₁ : State} {p p₁ p₂ q a : TypeId} {ty body τ υ : Ty}

theorem unsolved_of_mem (h : Apart s p ty) (hq : q ∈ ty.placeholders) :
    .unsolved q ∈ s.context ∧ q ≠ p :=
  ⟨h.resolved.unsolved h.wellFormed hq, fun heq => h.absent (heq ▸ hq)⟩

theorem resolved_articulated (h : Apart s p ty) (ha : Articulated s s₁ p p₁ p₂) :
    s₁.context.Resolved ty :=
  ha.evolves.valid.ordered.resolved_of_unsolved fun q hq =>
    ha.others q (h.unsolved_of_mem hq).1 (h.unsolved_of_mem hq).2

theorem parameter (h : Apart s p (.arrow τ υ)) (ha : Articulated s s₁ p p₁ p₂) :
    Apart s₁ p₁ τ := by
  refine { h.toSolvable.parameter ha with resolved := ?_, absent := fun hp => ?_ }
  · exact Context.Resolved.parts (h.resolved_articulated ha) |>.1
  · have hopen := (h.unsolved_of_mem (q := p₁) (by simp [Ty.placeholders, hp])).1
    exact h.valid.ne_of_minted hopen (Nat.le_of_eq ha.parameter.symm) rfl

theorem body_rigid (h : Apart s p (.forAll a body)) : Apart (s.scopeWith (.var a)) p body where
  toSolvable := h.toSolvable.body_rigid
  resolved := h.resolved.childScope h.wellFormed h.toSolvable.body_rigid.ordered
  absent := h.absent

theorem body_flexible (h : Apart s p (.forAll a body)) (label : String) :
    Apart (s.scopeWithNew label) p (body.subst a (.placeholder ⟨s.supply.types.size⟩)) where
  toSolvable := h.toSolvable.body_flexible label
  resolved := h.resolved.opened h.wellFormed h.valid label
  absent hp := by
    rcases Ty.placeholders_subst hp with hp | hp
    · exact h.absent hp
    · exact h.valid.ne_of_minted h.unsolved (Nat.le_refl _) (List.mem_singleton.1 hp)

end Apart

/-- Solving outright fails for arrows, quantified types and variables that are declared later. A later
placeholder is solved in its turn. -/
theorem form_of_instantiateMonotype_rejected {ε : Type} [SearchError ε] {s s' : State}
    {p : TypeId} {ty : Ty} (h : Solvable s p ty) (hr : s.context.Resolved ty)
    (hne : ty ≠ .placeholder p)
    (hrun : (instantiateMonotype p ty : Search ε Unit) s = (.rejected, s')) :
    (∃ τ υ, ty = .arrow τ υ) ∨ (∃ a body, ty = .forAll a body) ∨
      ∃ a before after, ty = .var a ∧ s.context = before ++ .unsolved p :: after ∧
        a ∉ Context.rigid before := by
  rcases hslot : s.context.slot p with error | ⟨before, after⟩
  · exact absurd h.unsolved (Context.slot_eq_error.1 hslot).1
  have hsolved : ty.isMonotype = true → before.wellFormed ty = true → False := fun hm hw => by
    rw [instantiateMonotype_of_wellFormed hne hm hslot hw, solve_of_slot ty hslot] at hrun
    cases hrun
  cases ty with
  | void => exact (hsolved rfl rfl).elim
  | var a =>
    refine .inr (.inr ⟨a, before, after, rfl, (Context.slot_eq_ok.1 hslot).1, fun ha => ?_⟩)
    refine hsolved rfl (Context.wellFormed_iff.2 ⟨fun b hb => ?_, by simp [Ty.placeholders]⟩)
    rwa [List.mem_singleton.1 hb]
  | placeholder q =>
    cases hw : before.wellFormed (.placeholder q) with
    | true => exact (hsolved rfl hw).elim
    | false =>
      have hq : .unsolved q ∈ s.context := hr.unsolved h.wellFormed (List.mem_singleton_self q)
      rcases hslot' : s.context.slot q with error | ⟨before', after'⟩
      · exact absurd hq (Context.slot_eq_error.1 hslot').1
      · rw [instantiateMonotype_of_later hne rfl hslot hw rfl,
          if_pos (by simpa [Context.isUnsolved] using hq), solve_of_slot _ hslot'] at hrun
        cases hrun
  | forAll a body => exact .inr (.inl ⟨a, body, rfl⟩)
  | arrow τ υ => exact .inl ⟨τ, υ, rfl⟩

theorem Judgment.EndsScope.apply_eq {s s' s₁ : State} {ty : Ty} (h : EndsScope s s' s₁)
    (hs₁ : s₁.Valid) (hw : s'.context.wellFormed ty = true) :
    s₁.context.apply ty = s'.context.apply ty := by
  obtain ⟨rest, hrest⟩ := h
  have ho := hs₁.ordered.stratified
  rw [hrest] at ho ⊢
  exact ho.apply_append hw

end HigherRank
