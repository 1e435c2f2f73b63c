import HigherRank.Proofs.Completion
import HigherRank.Proofs.Scope
import HigherRank.Proofs.Soundness

set_option autoImplicit false

/-!
# Simple types

The simply typed lambda calculus over given type variables, where the parameters of lambdas are guessed
and annotations are not. A term that mentions placeholders is read through an assignment of the
unsolved ones that respects the order of the context: what it assigns to a placeholder uses the
variables declared before it only. Such an assignment is the same as a model of the context.
-/
namespace HigherRank

/-- The term has the simple type over the variables. An annotation is the type of the term below it. -/
inductive SimplyTyped (rigid : List TypeId) : Environment → Term → Ty → Prop where
  | unit {E : Environment} : SimplyTyped rigid E .unit .void
  | ref {E : Environment} {x : BindingId} {ρ : Ty} :
      E.lookup x = some ρ → SimplyTyped rigid E (.ref x) ρ
  | lam {E : Environment} {x : BindingId} {body : Term} {ρ₁ ρ₂ : Ty} : ρ₁.SimpleOver rigid →
      SimplyTyped rigid ((x, ρ₁) :: E) body ρ₂ → SimplyTyped rigid E (.lam x body) (.arrow ρ₁ ρ₂)
  | app {E : Environment} {function argument : Term} {ρ₁ ρ₂ : Ty} :
      SimplyTyped rigid E function (.arrow ρ₁ ρ₂) → SimplyTyped rigid E argument ρ₁ →
      SimplyTyped rigid E (.app function argument) ρ₂
  | ann {E : Environment} {term : Term} {ρ : Ty} :
      SimplyTyped rigid E term ρ → SimplyTyped rigid E (.ann term ρ) ρ

def Term.assign : Term → Assignment → Term
  | unit, _ => unit
  | ref x, _ => ref x
  | lam x body, θ => lam x (body.assign θ)
  | app function argument, θ => app (function.assign θ) (argument.assign θ)
  | ann term ty, θ => ann (term.assign θ) (ty.assign θ)

theorem SimplyTyped.simpleOver {rigid : List TypeId} {E : Environment} {term : Term} {τ : Ty}
    (h : SimplyTyped rigid E term τ) (hE : ∀ x σ, E.lookup x = some σ → σ.SimpleOver rigid)
    (hterm : ∀ σ ∈ term.annotations, σ.SimpleOver rigid) : τ.SimpleOver rigid := by
  induction h with
  | unit => exact ⟨rfl, by simp [Ty.free]⟩
  | ref hlookup => exact hE _ _ hlookup
  | @lam E x body ρ₁ ρ₂ hρ₁ _ ih =>
    refine Ty.simpleOver_arrow.2 ⟨hρ₁, ih (fun y σ hy => ?_) hterm⟩
    rw [List.lookup_cons] at hy
    split at hy
    · cases hy
      exact hρ₁
    · exact hE y σ hy
  | app _ _ ih _ =>
    exact (Ty.simpleOver_arrow.1 (ih hE fun σ hσ => hterm σ (List.mem_append_left _ hσ))).2
  | ann _ _ => exact hterm _ List.mem_cons_self

namespace Context

variable {Γ : Context} {θ : Assignment}

/-- Each unsolved placeholder is assigned a simple type over the variables declared before it. -/
def OrderRespectedBy (Γ : Context) (θ : Assignment) : Prop :=
  Throughout (fun before e => ∀ p, e = .unsolved p → (θ p).SimpleOver (rigid before)) Γ

/-- What becomes of all placeholders when the unsolved ones are assigned. -/
def through (Γ : Context) (θ : Assignment) : Assignment := fun p => (Γ.apply (.placeholder p)).assign θ

theorem assign_through (Γ : Context) (θ : Assignment) (ty : Ty) :
    ty.assign (Γ.through θ) = (Γ.apply ty).assign θ := by
  rw [apply_eq_replace, Ty.assign, Ty.assign, Ty.replace_replace]
  rfl

theorem Ordered.through_of_unsolved (ho : Γ.Ordered) {p : TypeId} (hp : .unsolved p ∈ Γ) :
    Γ.through θ p = θ p := by
  rw [through, ho.apply_of_unsolved hp]
  rfl

theorem Ordered.through_of_solved (ho : Γ.Ordered) {p : TypeId} {τ : Ty} (hp : .solved p τ ∈ Γ) :
    Γ.through θ p = τ.assign (Γ.through θ) := by
  rw [assign_through, through, ho.apply_of_solved hp]

theorem ModeledBy.orderRespectedBy (h : Γ.ModeledBy θ) : Γ.OrderRespectedBy θ := by
  refine Throughout.imp (fun before e hf p he => ?_) h
  subst he
  exact ⟨hf.simple p rfl, hf.scope p rfl⟩

theorem OrderRespectedBy.modeledBy_through (h : Γ.OrderRespectedBy θ) (ho : Γ.Ordered)
    (hs : Γ.SimplySolved) : Γ.ModeledBy (Γ.through θ) := by
  -- An assignment that respects the order becomes a model. The beginnings of the context are
  -- modeled one after another, since a solution depends on what comes before it.
  suffices ∀ before after, Γ = before ++ after → ModeledBy before (Γ.through θ) from
    this Γ [] (List.append_nil Γ).symm
  intro before
  induction before using List.reverseRecOn with
  | nil => exact fun _ _ => Throughout.nil _
  | append_singleton before e ih =>
    intro after hΓ
    have hbefore : ModeledBy before (Γ.through θ) := ih (e :: after) (by simp [hΓ])
    refine throughout_append.2 ⟨hbefore, throughout_singleton.2 ?_⟩
    rw [List.append_nil]
    have he : e ∈ Γ := by simp [hΓ]
    cases e with
    | unsolved p =>
      refine Entry.fits_unsolved ?_
      rw [ho.through_of_unsolved he]
      exact h before _ after (by simp [hΓ]) p rfl
    | solved p τ =>
      have hτ : wellFormed before τ = true :=
        (ho.solutions before _ after (by simp [hΓ]) p τ rfl).2
      have hdenotes : Denotes before (Γ.through θ) τ (Γ.through θ p) :=
        ⟨⟨hτ, hs p τ he⟩, (ho.through_of_solved he).symm⟩
      have hover := hdenotes.simpleOver hbefore
      refine ⟨fun q hq => ?_, fun q hq => ?_, fun q υ hq => ?_⟩
      · cases hq
        exact hover.simple
      · cases hq
        exact hover.scope
      · cases hq
        exact hdenotes.assign_eq.symm
    | _ => exact ⟨by simp [Entry.placeholder?], by simp [Entry.placeholder?], by simp⟩

end Context

/-- Under the assignment the term has the simple type in the context. -/
def Context.HasSimpleType (Γ : Context) (θ : Assignment) (term : Term) (τ : Ty) : Prop :=
  SimplyTyped Γ.rigid (Γ.environment.assign θ) (term.assign θ) τ

/-- A good state whose bindings and solutions have no quantifier, and a term with annotations in scope
that have none. -/
structure SimpleProgram (s : State) (term : Term) : Prop where
  good : s.Good
  solved : s.context.SimplySolved
  bindings : ∀ x σ, .binding x σ ∈ s.context → σ.quantifierFree = true
  annotations : ∀ σ ∈ term.annotations, σ.SimpleIn s.context

theorem Term.annotations_assign (term : Term) (θ : Assignment) :
    (term.assign θ).annotations = term.annotations.map (·.assign θ) := by
  induction term with
  | unit => rfl
  | ref x => rfl
  | lam x body ih => exact ih
  | app function argument ihf iha => simp only [assign, annotations, List.map_append, ihf, iha]
  | ann term ty ih => simp only [assign, annotations, List.map_cons, ih]

theorem Term.assign_congr {θ θ' : Assignment} {term : Term}
    (h : ∀ σ ∈ term.annotations, σ.assign θ' = σ.assign θ) : term.assign θ' = term.assign θ := by
  induction term with
  | unit => rfl
  | ref x => rfl
  | lam x body ih => exact congrArg (lam x) (ih h)
  | app function argument ihf iha =>
    obtain ⟨hf, ha⟩ := List.forall_mem_append.1 h
    exact congrArg₂ app (ihf hf) (iha ha)
  | ann term ty ih =>
    obtain ⟨hty, hterm⟩ := List.forall_mem_cons.1 h
    exact congrArg₂ ann (ih hterm) hty

namespace Context

variable {Γ Δ : Context} {θ : Assignment} {term : Term} {τ : Ty}

theorem Grows.hasSimpleType {n : Nat} (h : Grows .placeholders n Γ Δ) :
    Δ.HasSimpleType θ term τ ↔ Γ.HasSimpleType θ term τ := by
  rw [HasSimpleType, HasSimpleType, h.rigid, h.environment]

theorem hasSimpleType_childScope {m : Marker} {x : BindingId} {σ : Ty} :
    (Γ.childScope m (.binding x σ)).HasSimpleType θ term τ ↔
      SimplyTyped Γ.rigid ((x, σ.assign θ) :: Γ.environment.assign θ) (term.assign θ) τ := by
  have hrigid : (Γ.childScope m (.binding x σ)).rigid = Γ.rigid := by
    simp [rigid_childScope, Entry.rigid?]
  rw [HasSimpleType, hrigid, environment_childScope]
  rfl

end Context

namespace SimpleProgram

variable {s s₁ : State} {θ θ' : Assignment} {term function argument body : Term} {x : BindingId}
  {σ τ ρ : Ty}

theorem valid (h : SimpleProgram s term) : s.Valid := h.good.valid

theorem withDepth (h : SimpleProgram s term) (depth : Nat) : SimpleProgram { s with depth } term :=
  { h with good := h.good.withDepth depth }

theorem later (h : SimpleProgram s term) (he : s.Evolves .placeholders s₁)
    (hs : s₁.context.SimplySolved) : SimpleProgram s₁ term where
  good := h.good.later he
  solved := hs
  bindings x σ hx := h.bindings x σ (he.context.binding_mem.1 hx)
  annotations σ hσ := (h.annotations σ hσ).grows he.context

theorem app (h : SimpleProgram s (.app function argument)) :
    SimpleProgram s function ∧ SimpleProgram s argument := by
  obtain ⟨hf, ha⟩ := List.forall_mem_append.1 h.annotations
  exact ⟨{ h with annotations := hf }, { h with annotations := ha }⟩

theorem ann (h : SimpleProgram s (.ann term σ)) :
    SimpleProgram s term ∧ σ.SimpleIn s.context := by
  obtain ⟨hσ, hterm⟩ := List.forall_mem_cons.1 h.annotations
  exact ⟨{ h with annotations := hterm }, hσ⟩

theorem assume (h : SimpleProgram s (.lam x body)) (hσ : σ.SimpleIn s.context) :
    SimpleProgram (s.scopeWith (.binding x σ)) body where
  good := by
    refine h.good.scopeWith rfl (by simp) fun y τ heq => ?_
    cases heq
    exact hσ.wellFormed
  solved := h.solved.childScope (by simp)
  bindings y τ hy := by
    rcases Context.mem_childScope.1 hy with hy | hy | hy
    · exact h.bindings y τ hy
    · cases hy
    · cases hy
      exact hσ.quantifierFree
  annotations τ hτ := (h.annotations τ hτ).childScope _ _

theorem binding (h : SimpleProgram s term) (hx : .binding x σ ∈ s.context) :
    σ.SimpleIn s.context := by
  obtain ⟨before, after, heq⟩ := List.append_of_mem hx
  refine ⟨?_, h.bindings x σ hx⟩
  rw [heq]
  exact Context.wellFormed_append _ (h.good.bindings before _ after heq x σ rfl)

theorem lookup (h : SimpleProgram s term)
    (hx : (s.context.environment.assign θ).lookup x = some ρ) :
    ∃ σ, s.context.binding? x = some σ ∧ s.context.Denotes θ σ ρ := by
  rw [Environment.lookup_assign, Context.lookup_environment] at hx
  obtain ⟨σ, hσ, rfl⟩ := Option.map_eq_some_iff.1 hx
  exact ⟨σ, hσ, h.binding (Context.binding?_mem hσ), rfl⟩

theorem hasSimpleType_congr (h : SimpleProgram s term)
    (hagree : ∀ p ∈ s.context.placeholders, θ' p = θ p) :
    s.context.HasSimpleType θ' term τ ↔ s.context.HasSimpleType θ term τ := by
  have hterm : term.assign θ' = term.assign θ :=
    Term.assign_congr fun σ hσ => Ty.assign_agree (h.annotations σ hσ).wellFormed hagree
  have henv : s.context.environment.assign θ' = s.context.environment.assign θ :=
    List.map_congr_left fun ⟨x, σ⟩ hx => congrArg (x, ·)
      (Ty.assign_agree (h.binding (Context.mem_environment.1 hx)).wellFormed hagree)
  rw [Context.HasSimpleType, Context.HasSimpleType, hterm, henv]

theorem simpleOver (h : SimpleProgram s term) (hθ : s.context.ModeledBy θ)
    (htyped : s.context.HasSimpleType θ term τ) : τ.SimpleOver s.context.rigid := by
  refine SimplyTyped.simpleOver htyped (fun x ρ hx => ?_) fun ρ hρ => ?_
  · obtain ⟨σ, -, hσ⟩ := h.lookup hx
    exact hσ.simpleOver hθ
  · rw [Term.annotations_assign] at hρ
    obtain ⟨σ, hσ, rfl⟩ := List.mem_map.1 hρ
    exact (h.annotations σ hσ).simpleOver hθ

end SimpleProgram
end HigherRank
