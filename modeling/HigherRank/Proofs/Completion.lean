import HigherRank.Proofs.Subsumption
import HigherRank.Proofs.Termination

set_option autoImplicit false

/-!
# Judgments that a model carries through

A model of the context stands for one way in which what is unknown may turn out. A judgment completes
under a model if with enough levels it is accepted, and the model goes on to the state that is left: it
may assign new placeholders as it has to, but what it has assigned to the old ones stays.
-/
namespace HigherRank

theorem Entry.Fits.congr {θ : Assignment} {before before' : Context} {e : Entry}
    (h : e.Fits θ before) (hr : before'.rigid = before.rigid) : e.Fits θ before' :=
  ⟨h.simple, fun p hp a ha => hr ▸ h.scope p hp a ha, h.solution⟩

namespace Context.ModeledBy

variable {θ : Assignment} {before after : Context} {p : TypeId}

theorem fill (h : ModeledBy (before ++ .unsolved p :: after) θ) (block : Context)
    (hnone : block.rigid = [])
    (hblock : Throughout (fun inner => Entry.Fits θ (before ++ inner)) block) :
    ModeledBy (before ++ (block ++ after)) θ := by
  obtain ⟨hbefore, hrest⟩ := throughout_append.1 h
  obtain ⟨-, hafter⟩ := throughout_cons.1 hrest
  refine throughout_append.2 ⟨hbefore, throughout_append.2 ⟨hblock, hafter.imp fun inner e he => ?_⟩⟩
  have hslot : List.filterMap Entry.rigid? (.unsolved p :: inner) =
      List.filterMap Entry.rigid? inner := rfl
  refine he.congr ?_
  simp only [Context.rigid] at hnone
  simp only [Context.rigid, List.filterMap_append, hnone, hslot, List.nil_append]

theorem fits_solved {τ : Ty} (h : ModeledBy (before ++ .unsolved p :: after) θ)
    (heq : θ p = τ.assign θ) : Entry.Fits θ before (.solved p τ) := by
  have hf := h before (.unsolved p) after rfl
  refine ⟨hf.simple, hf.scope, fun q υ hsolved => ?_⟩
  cases hsolved
  exact heq

theorem solve {τ : Ty} (h : ModeledBy (before ++ .unsolved p :: after) θ)
    (heq : θ p = τ.assign θ) : ModeledBy (before ++ .solved p τ :: after) θ := by
  refine h.fill [_] rfl (throughout_singleton.2 ?_)
  rw [List.append_nil]
  exact h.fits_solved heq

end Context.ModeledBy

theorem Solves.modeledBy {p : TypeId} {ty : Ty} {Γ Δ : Context} {θ : Assignment}
    (h : Solves p ty Γ Δ) (hθ : Γ.ModeledBy θ) (heq : θ p = ty.assign θ) : Δ.ModeledBy θ := by
  cases h with
  | same _ => exact hθ
  | direct _ _ => exact hθ.solve heq
  | reversed hty _ =>
    subst hty
    exact hθ.solve heq.symm

/-- The assignment models a valid state whose solutions have no quantifier. -/
structure State.ModeledBy (s : State) (θ : Assignment) : Prop where
  valid : s.Valid
  solved : s.context.SimplySolved
  model : s.context.ModeledBy θ

/-- The state goes on to another and the model with it. -/
structure State.Carries (s : State) (θ : Assignment) (s' : State) (θ' : Assignment) : Prop where
  evolves : s.Evolves .placeholders s'
  modeled : s'.ModeledBy θ'
  agrees : ∀ p ∈ s.context.placeholders, θ' p = θ p

namespace State

variable {s s₁ s₂ : State} {θ θ₁ θ₂ : Assignment} {ty : Ty}

theorem ModeledBy.withDepth (h : s.ModeledBy θ) (depth : Nat) : { s with depth }.ModeledBy θ :=
  ⟨h.valid.withDepth depth, h.solved, h.model⟩

theorem ModeledBy.scopeWith {e : Entry} (h : s.ModeledBy θ) (hp : e.placeholder? = none)
    (hm : ∀ m, e ≠ .marker m) : (s.scopeWith e).ModeledBy θ := by
  have hsolved : ∀ p τ, e ≠ .solved p τ := by
    rintro p τ rfl
    cases hp
  refine ⟨h.valid.scopeWith hp hm, h.solved.childScope hsolved, throughout_append.2
    ⟨throughout_append.2 ⟨h.model, throughout_singleton.2 ?_⟩, throughout_singleton.2 ?_⟩⟩
  · exact ⟨by simp [Entry.placeholder?], by simp [Entry.placeholder?], by simp⟩
  · exact ⟨by simp [hp], by simp [hp], fun p τ he => absurd he (hsolved p τ)⟩

theorem Carries.refl (h : s.ModeledBy θ) : s.Carries θ s θ :=
  ⟨.refl _ h.valid, h, fun _ _ => rfl⟩

theorem Carries.trans (h : s.Carries θ s₁ θ₁) (h' : s₁.Carries θ₁ s₂ θ₂) : s.Carries θ s₂ θ₂ where
  evolves := h.evolves.trans h'.evolves
  modeled := h'.modeled
  agrees p hp := by rw [h'.agrees p (h.evolves.context.placeholders hp), h.agrees p hp]

theorem Carries.assign_eq (h : s.Carries θ s₁ θ₁) (hw : s.context.wellFormed ty = true) :
    ty.assign θ₁ = ty.assign θ :=
  Ty.assign_agree hw h.agrees

end State

/-- A type that a model may assign where the given variables are declared. -/
structure Ty.SimpleOver (rigid : List TypeId) (ρ : Ty) : Prop where
  simple : ρ.simple = true
  scope : ∀ a ∈ ρ.free, a ∈ rigid

theorem Ty.simpleOver_arrow {rigid : List TypeId} {ρ₁ ρ₂ : Ty} :
    (Ty.arrow ρ₁ ρ₂).SimpleOver rigid ↔ ρ₁.SimpleOver rigid ∧ ρ₂.SimpleOver rigid := by
  constructor
  · intro h
    obtain ⟨hρ₁, hρ₂⟩ := simple_arrow h.simple
    exact ⟨⟨hρ₁, fun a ha => h.scope a (List.mem_append_left _ ha)⟩,
      hρ₂, fun a ha => h.scope a (List.mem_append_right _ ha)⟩
  · rintro ⟨h₁, h₂⟩
    refine ⟨?_, fun a ha => (List.mem_append.1 ha).elim (h₁.scope a) (h₂.scope a)⟩
    simp only [simple, quantifierFree, ground, Bool.and_eq_true]
    exact ⟨⟨quantifierFree_of_simple h₁.simple, quantifierFree_of_simple h₂.simple⟩,
      ground_of_simple h₁.simple, ground_of_simple h₂.simple⟩

structure Ty.SimpleIn (Γ : Context) (ty : Ty) : Prop where
  wellFormed : Γ.wellFormed ty = true
  quantifierFree : ty.quantifierFree = true

namespace Ty.SimpleIn

variable {Γ Δ : Context} {p : TypeId} {ty τ υ : Ty}

theorem placeholder (hp : p ∈ Γ.placeholders) : (Ty.placeholder p).SimpleIn Γ :=
  ⟨Context.wellFormed_placeholder.2 hp, rfl⟩

theorem arrow (hτ : τ.SimpleIn Γ) (hυ : υ.SimpleIn Γ) : (Ty.arrow τ υ).SimpleIn Γ :=
  ⟨Context.wellFormed_arrow.2 ⟨hτ.wellFormed, hυ.wellFormed⟩,
    Bool.and_eq_true_iff.2 ⟨hτ.quantifierFree, hυ.quantifierFree⟩⟩

theorem parts (h : (Ty.arrow τ υ).SimpleIn Γ) : τ.SimpleIn Γ ∧ υ.SimpleIn Γ := by
  obtain ⟨hwτ, hwυ⟩ := Context.wellFormed_arrow.1 h.wellFormed
  obtain ⟨hqτ, hqυ⟩ := Bool.and_eq_true_iff.1 h.quantifierFree
  exact ⟨⟨hwτ, hqτ⟩, hwυ, hqυ⟩

theorem apply (h : ty.SimpleIn Γ) (ho : Γ.Ordered) (hs : Γ.SimplySolved) :
    (Γ.apply ty).SimpleIn Γ :=
  ⟨ho.wellFormed_apply h.wellFormed,
    quantifierFree_replace h.quantifierFree (fun _ _ => rfl) fun p _ => hs.resolve p⟩

theorem grows {n : Nat} (h : ty.SimpleIn Γ) (hg : Context.Grows .placeholders n Γ Δ) :
    ty.SimpleIn Δ :=
  ⟨hg.wellFormed h.wellFormed, h.quantifierFree⟩

theorem childScope (h : ty.SimpleIn Γ) (m : Marker) (e : Entry) : ty.SimpleIn (Γ.childScope m e) :=
  ⟨Context.wellFormed_childScope h.wellFormed, h.quantifierFree⟩

theorem simpleOver {θ : Assignment} (h : ty.SimpleIn Γ) (hθ : Γ.ModeledBy θ) :
    (ty.assign θ).SimpleOver Γ.rigid := by
  obtain ⟨hfree, hplaceholders⟩ := Context.wellFormed_iff.1 h.wellFormed
  refine ⟨simple_assign (hθ.simple h.wellFormed) h.quantifierFree, fun a ha => ?_⟩
  rcases free_replace ha with ha | ⟨p, hp, ha⟩
  · exact hfree a ha
  · exact (hθ.fits (hplaceholders p hp)).2 a ha

end Ty.SimpleIn

/-- A type in scope without quantifiers that stands for the second under the assignment. -/
structure Context.Denotes (Γ : Context) (θ : Assignment) (ty ρ : Ty) : Prop
    extends ty.SimpleIn Γ where
  assign_eq : ty.assign θ = ρ

namespace Context.Denotes

variable {Γ : Context} {s s₁ : State} {θ θ₁ : Assignment} {ty τ υ ρ ρ₁ ρ₂ : Ty}

theorem apply (h : s.context.Denotes θ ty ρ) (hs : s.ModeledBy θ) :
    s.context.Denotes θ (s.context.apply ty) ρ :=
  ⟨h.toSimpleIn.apply hs.valid.ordered hs.solved, (hs.model.apply ty).trans h.assign_eq⟩

theorem later (h : s.context.Denotes θ ty ρ) (hc : s.Carries θ s₁ θ₁) :
    s₁.context.Denotes θ₁ ty ρ :=
  ⟨h.toSimpleIn.grows hc.evolves.context, (hc.assign_eq h.wellFormed).trans h.assign_eq⟩

theorem arrow (hτ : Γ.Denotes θ τ ρ₁) (hυ : Γ.Denotes θ υ ρ₂) :
    Γ.Denotes θ (.arrow τ υ) (.arrow ρ₁ ρ₂) :=
  ⟨hτ.toSimpleIn.arrow hυ.toSimpleIn, congrArg₂ Ty.arrow hτ.assign_eq hυ.assign_eq⟩

theorem parts (h : Γ.Denotes θ (.arrow τ υ) (.arrow ρ₁ ρ₂)) :
    Γ.Denotes θ τ ρ₁ ∧ Γ.Denotes θ υ ρ₂ := by
  obtain ⟨hτ, hυ⟩ := h.toSimpleIn.parts
  obtain ⟨heqτ, heqυ⟩ := Ty.arrow.inj h.assign_eq
  exact ⟨⟨hτ, heqτ⟩, hυ, heqυ⟩

theorem scopeWith (h : s.context.Denotes θ ty ρ) (e : Entry) :
    (s.scopeWith e).context.Denotes θ ty ρ :=
  ⟨h.toSimpleIn.childScope _ e, h.assign_eq⟩

theorem simpleOver (h : Γ.Denotes θ ty ρ) (hθ : Γ.ModeledBy θ) : ρ.SimpleOver Γ.rigid :=
  h.assign_eq ▸ h.toSimpleIn.simpleOver hθ

end Context.Denotes

namespace Judgment

variable {α β : Type} {s : State} {θ : Assignment}

/-- With enough levels the judgment is accepted, whatever limit is to be reported, always with the
same value and the same state. The model goes on to that state, where the property holds. -/
def Completes (x : (limit left : Nat) → Judgment α) (s : State) (θ : Assignment)
    (P : α → Context → Assignment → Prop) : Prop :=
  ∃ a s' θ', (∃ bound, ∀ limit left, bound ≤ left → x limit left s = (.accepted a, s')) ∧
    s.Carries θ s' θ' ∧ P a s'.context θ'

namespace Completes

variable {x y : (limit left : Nat) → Judgment α} {P : α → Context → Assignment → Prop}

theorem of_run {x : Judgment α} {a : α} {s' : State} {θ' : Assignment}
    (hx : x s = (.accepted a, s')) (h : s.Carries θ s' θ') (hP : P a s'.context θ') :
    Completes (fun _ _ => x) s θ P :=
  ⟨a, s', θ', ⟨0, fun _ _ _ => hx⟩, h, hP⟩

theorem accept {a : α} (h : s.ModeledBy θ) (hP : P a s.context θ) :
    Completes (fun _ _ => accept a) s θ P :=
  of_run rfl (.refl h) hP

theorem congr (h : ∀ limit left, x limit left s = y limit left s) (hy : Completes y s θ P) :
    Completes x s θ P := by
  obtain ⟨a, s', θ', ⟨bound, hy⟩, hcarries, hP⟩ := hy
  exact ⟨a, s', θ', ⟨bound, fun limit left hle => (h limit left).trans (hy limit left hle)⟩,
    hcarries, hP⟩

theorem below (h : Completes (fun limit left => x limit (left + 1)) s θ P) : Completes x s θ P := by
  obtain ⟨a, s', θ', ⟨bound, h⟩, hcarries, hP⟩ := h
  refine ⟨a, s', θ', ⟨bound + 1, fun limit left hle => ?_⟩, hcarries, hP⟩
  obtain ⟨left, rfl⟩ := Nat.exists_eq_add_of_le' hle
  exact h limit (left + bound) (Nat.le_add_left ..)

theorem bind {f : (limit left : Nat) → α → Judgment β} {R : β → Context → Assignment → Prop}
    (hx : Completes x s θ P)
    (hf : ∀ limit left a s₁ θ₁, x limit left s = (.accepted a, s₁) → s.Carries θ s₁ θ₁ →
      P a s₁.context θ₁ → Completes (fun limit left => f limit left a) s₁ θ₁ R) :
    Completes (fun limit left => x limit left >>= f limit left) s θ R := by
  obtain ⟨a, s₁, θ₁, ⟨bound, hx⟩, hcarries, hP⟩ := hx
  obtain ⟨b, s₂, θ₂, ⟨bound', hf⟩, hcarries', hR⟩ :=
    hf 0 bound a s₁ θ₁ (hx 0 bound (Nat.le_refl _)) hcarries hP
  refine ⟨b, s₂, θ₂, ⟨max bound bound', fun limit left hle => ?_⟩, hcarries.trans hcarries', hR⟩
  have hrun := hx limit left (Nat.le_trans (Nat.le_max_left ..) hle)
  exact (bind_of_accepted hrun).trans (hf limit left (Nat.le_trans (Nat.le_max_right ..) hle))

theorem read {x : Judgment α} {a : α} {f : (limit left : Nat) → α → Judgment β}
    {R : β → Context → Assignment → Prop} (hx : x s = (.accepted a, s))
    (hf : Completes (fun limit left => f limit left a) s θ R) :
    Completes (fun limit left => x >>= f limit left) s θ R :=
  hf.congr fun _ _ => bind_of_accepted hx

theorem orElse_left (hx : Completes x s θ P) :
    Completes (fun limit left => x limit left <|> y limit left) s θ P := by
  obtain ⟨a, s', θ', ⟨bound, hx⟩, hcarries, hP⟩ := hx
  exact ⟨a, s', θ', ⟨bound, fun limit left hle => orElse_of_accepted (hx limit left hle)⟩,
    hcarries, hP⟩

theorem orElse_right (hx : ∀ limit left, x limit left s = (.rejected, s))
    (hy : Completes y s θ P) :
    Completes (fun limit left => x limit left <|> y limit left) s θ P :=
  hy.congr fun limit left => orElse_of_rejected (hx limit left)

theorem atomically (hx : Completes x s θ P) :
    Completes (fun limit left => atomically (x limit left)) s θ P := by
  obtain ⟨a, s', θ', ⟨bound, hx⟩, hcarries, hP⟩ := hx
  exact ⟨a, s', θ', ⟨bound, fun limit left hle => atomically_of_accepted (hx limit left hle)⟩,
    hcarries, hP⟩

theorem nested (hx : Completes x { s with depth := s.depth + 1 } θ P) :
    Completes (fun limit left => nested (x limit left)) s θ P := by
  obtain ⟨a, s', θ', ⟨bound, hx⟩, hcarries, hP⟩ := hx
  have he := hcarries.evolves
  have hdepth : s'.depth = s.depth + 1 := he.depth
  refine ⟨a, { s' with depth := s'.depth - 1 }, θ', ⟨bound, fun limit left hle => ?_⟩, ?_, hP⟩
  · simp only [Judgment.nested, hx limit left hle]
  · refine ⟨⟨he.valid.withDepth _, he.context, he.types, he.markers, ?_⟩,
      hcarries.modeled.withDepth _, hcarries.agrees⟩
    change s'.depth - 1 = s.depth
    omega

theorem assuming {b : BindingId} {ty : Ty} (hx : ∀ limit left, Evolves .placeholders (x limit left))
    (hs : s.Valid) (h : Completes x (s.scopeWith (.binding b ty)) θ P) :
    Completes (fun limit left => inChildScope (assume b ty >>= fun _ => x limit left)) s θ
      fun _ _ _ => True := by
  obtain ⟨a, s₁, θ₁, ⟨bound, hrun⟩, hcarries, -⟩ := h
  have hscope : Evolves .anything (assume b ty >>= fun _ => x 0 bound) :=
    (evolves_push rfl (by simp)).bind fun _ => (hx 0 bound).anything
  obtain ⟨Δ, rest, hΔ, -, hclosed⟩ := hscope.inChildScope_run hs (hrun 0 bound (Nat.le_refl _))
  have hevolves := ((hx 0 bound).assuming b ty).result hs hclosed
  refine ⟨a, _, θ₁, ⟨bound, fun limit left hle => ?_⟩, ⟨hevolves.of_nothing _, ?_, fun p hp => ?_⟩,
    trivial⟩
  · rw [← hclosed]
    refine inChildScope_congr_run ?_
    change x limit left (s.scopeWith (.binding b ty)) = x 0 bound (s.scopeWith (.binding b ty))
    rw [hrun limit left hle, hrun 0 bound (Nat.le_refl _)]
  · refine ⟨hevolves.valid, fun p τ hp => hcarries.modeled.solved p τ ?_, ?_⟩
    · simp [hΔ, show Entry.solved p τ ∈ Δ from hp]
    · exact (hΔ ▸ hcarries.modeled.model).left
  · refine hcarries.agrees p ?_
    simp only [State.scopeWith, Context.placeholders_childScope]
    exact List.mem_append_left _ hp

end Completes
end Judgment

open Judgment

def Assignment.update (θ : Assignment) (p : TypeId) (ρ : Ty) : Assignment :=
  fun q => if q = p then ρ else θ q

namespace Assignment

variable {θ : Assignment} {p q : TypeId} {ρ : Ty}

theorem update_self : θ.update p ρ p = ρ := if_pos rfl

theorem update_ne (h : q ≠ p) : θ.update p ρ q = θ q := if_neg h

/-- The assignment with other types for the two placeholders that are minted next. -/
def split (θ : Assignment) (minted : Nat) (ρ₁ ρ₂ : Ty) : Assignment :=
  (θ.update ⟨minted⟩ ρ₁).update ⟨minted + 1⟩ ρ₂

theorem split_parameter (minted : Nat) (ρ₁ ρ₂ : Ty) : θ.split minted ρ₁ ρ₂ ⟨minted⟩ = ρ₁ :=
  (update_ne (by simp)).trans update_self

theorem split_result (minted : Nat) (ρ₁ ρ₂ : Ty) : θ.split minted ρ₁ ρ₂ ⟨minted + 1⟩ = ρ₂ :=
  update_self

end Assignment

theorem State.Valid.update_agrees {s : State} (h : s.Valid) (θ : Assignment) (ρ : Ty) :
    ∀ p ∈ s.context.placeholders, θ.update ⟨s.supply.types.size⟩ ρ p = θ p := fun p hp =>
  Assignment.update_ne fun heq => h.fresh (p := p) (by simp [heq]) hp

theorem State.Valid.split_agrees {s : State} (h : s.Valid) (θ : Assignment) (ρ₁ ρ₂ : Ty) :
    ∀ p ∈ s.context.placeholders, θ.split s.supply.types.size ρ₁ ρ₂ p = θ p := fun p hp => by
  have hlt := h.placeholders p hp
  have hne₁ : p ≠ ⟨s.supply.types.size⟩ := by
    rintro rfl
    exact Nat.lt_irrefl _ hlt
  have hne₂ : p ≠ ⟨s.supply.types.size + 1⟩ := by
    rintro rfl
    exact Nat.not_succ_lt_self hlt
  exact (Assignment.update_ne hne₂).trans (Assignment.update_ne hne₁)

theorem Entry.fits_unsolved {θ : Assignment} {before : Context} {p : TypeId}
    (h : (θ p).SimpleOver before.rigid) : Entry.Fits θ before (.unsolved p) := by
  refine ⟨fun q hq => ?_, fun q hq => ?_, by simp⟩
  · cases hq
    exact h.simple
  · cases hq
    exact h.scope

theorem Context.ModeledBy.split {θ : Assignment} {before after : Context} {p p₁ p₂ : TypeId}
    (h : ModeledBy (before ++ .unsolved p :: after) θ) (heq : θ p = .arrow (θ p₁) (θ p₂)) :
    ModeledBy (before ++ .unsolved p₁ :: .unsolved p₂ ::
      .solved p (.arrow (.placeholder p₁) (.placeholder p₂)) :: after) θ := by
  have hfits := h before _ after rfl
  have hover : (θ p).SimpleOver before.rigid := ⟨hfits.simple p rfl, hfits.scope p rfl⟩
  obtain ⟨h₁, h₂⟩ := Ty.simpleOver_arrow.1 (heq ▸ hover)
  refine h.fill [.unsolved p₁, .unsolved p₂, .solved p _] rfl (throughout_cons.2 ⟨?_,
    throughout_cons.2 ⟨?_, throughout_singleton.2 ?_⟩⟩)
  · exact (Entry.fits_unsolved h₁).congr (by simp)
  · exact (Entry.fits_unsolved h₂).congr (by simp [Entry.rigid?])
  · exact (h.fits_solved (τ := .arrow (.placeholder p₁) (.placeholder p₂)) heq).congr
      (by simp [Entry.rigid?])

section NewPlaceholders

variable {s : State} {θ : Assignment} {p : TypeId} {ρ ρ₁ ρ₂ : Ty}

theorem introduce_completes (label : String) (hs : s.ModeledBy θ)
    (hρ : ρ.SimpleOver s.context.rigid) :
    Completes (fun _ _ => introduce label) s θ fun p Γ θ' => Γ.Denotes θ' (.placeholder p) ρ := by
  let p : TypeId := ⟨s.supply.types.size⟩
  have hevolves := @evolves_introduce TypeError label s hs.valid
  have hself : θ.update p ρ p = ρ := Assignment.update_self
  have hagrees := hs.valid.update_agrees θ ρ
  have hmodel : Context.ModeledBy (s.context ++ [.unsolved p]) (θ.update p ρ) := by
    refine throughout_append.2 ⟨hs.model.agree hs.valid.ordered hagrees, throughout_singleton.2 ?_⟩
    rw [List.append_nil]
    refine Entry.fits_unsolved ?_
    rwa [hself]
  refine Completes.of_run rfl ⟨hevolves, ⟨hevolves.valid, fun q τ hq => hs.solved q τ ?_, hmodel⟩,
    hagrees⟩ ⟨.placeholder ?_, hself⟩
  · simpa [introduce] using hq
  · simp [Entry.placeholder?]

/-- A placeholder that is to be an arrow is split into two that are to be its parts. -/
theorem articulate_completes (hs : s.ModeledBy θ) (hp : .unsolved p ∈ s.context)
    (heq : θ p = .arrow ρ₁ ρ₂) :
    Completes (fun _ _ => articulate p) s θ fun parts Γ θ' =>
      Γ.Denotes θ' (.placeholder parts.1) ρ₁ ∧ Γ.Denotes θ' (.placeholder parts.2) ρ₂ := by
  let θ' := θ.split s.supply.types.size ρ₁ ρ₂
  have hp₁ : θ' ⟨s.supply.types.size⟩ = ρ₁ := Assignment.split_parameter ..
  have hp₂ : θ' ⟨s.supply.types.size + 1⟩ = ρ₂ := Assignment.split_result ..
  have hagrees : ∀ q ∈ s.context.placeholders, θ' q = θ q := hs.valid.split_agrees θ ρ₁ ρ₂
  rcases hslot : s.context.slot p with error | ⟨before, after⟩
  · exact absurd hp (Context.slot_eq_error.1 hslot).1
  have hrun := articulate_of_slot hslot
  have hevolves := (atomic_articulate p).evolves.result hs.valid hrun
  have hsolved := articulate_simplySolved hrun hs.solved
  refine Completes.of_run hrun ⟨hevolves.of_nothing _, ⟨hevolves.valid, hsolved, ?_⟩, hagrees⟩
    ⟨⟨.placeholder (by simp [Entry.placeholder?]), hp₁⟩,
      .placeholder (by simp [Entry.placeholder?]), hp₂⟩
  have hmodel := hs.model.agree hs.valid.ordered hagrees
  rw [(Context.slot_eq_ok.1 hslot).1] at hmodel
  refine hmodel.split ?_
  rw [hp₁, hp₂, ← heq]
  exact hagrees p (Context.placeholder_mem_of_unsolved hp)

end NewPlaceholders
end HigherRank
