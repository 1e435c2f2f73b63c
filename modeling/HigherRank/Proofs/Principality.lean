import HigherRank.Proofs.SimpleSoundness
import HigherRank.Proofs.Unification

set_option autoImplicit false

/-!
# Synthesis of simple types is complete and principal

If a program without quantifiers has a simple type under some assignment of its unsolved placeholders,
synthesis finds a type for it, and the assignment goes on to one that makes the simple type of what was
found. What is found does not depend on the assignment, so it has all simple types of the program as
instances.
-/
namespace HigherRank

open Judgment
open Opening (own)

/-- A program without quantifiers whose term has the type under a model of the context. -/
structure Typable (s : State) (θ : Assignment) (term : Term) (τ : Ty) : Prop where
  program : SimpleProgram s term
  model : s.context.ModeledBy θ
  typed : s.context.HasSimpleType θ term τ

namespace Typable

variable {s s₁ : State} {θ θ₁ : Assignment} {term function argument body : Term} {x : BindingId}
  {σ τ ρ₁ ρ₂ parameter : Ty}

theorem modeled (h : Typable s θ term τ) : s.ModeledBy θ :=
  ⟨h.program.valid, h.program.solved, h.model⟩

theorem withDepth (h : Typable s θ term τ) (depth : Nat) : Typable { s with depth } θ term τ :=
  { h with program := h.program.withDepth depth }

theorem later (h : Typable s θ term τ) (hc : s.Carries θ s₁ θ₁) : Typable s₁ θ₁ term τ where
  program := h.program.later hc.evolves hc.modeled.solved
  model := hc.modeled.model
  typed := hc.evolves.context.hasSimpleType.2 ((h.program.hasSimpleType_congr hc.agrees).2 h.typed)

theorem app (h : Typable s θ (.app function argument) τ) :
    ∃ ρ, Typable s θ function (.arrow ρ τ) ∧ Typable s θ argument ρ := by
  obtain ⟨hf, ha⟩ := h.program.app
  cases h.typed with
  | app hfunction hargument => exact ⟨_, ⟨hf, h.model, hfunction⟩, ha, h.model, hargument⟩

theorem ann (h : Typable s θ (.ann term σ) τ) :
    Typable s θ term τ ∧ s.context.Denotes θ σ τ := by
  obtain ⟨hterm, hσ⟩ := h.program.ann
  cases h.typed with
  | ann htyped => exact ⟨⟨hterm, h.model, htyped⟩, hσ, rfl⟩

theorem assume (h : Typable s θ (.lam x body) (.arrow ρ₁ ρ₂))
    (hp : s.context.Denotes θ parameter ρ₁) :
    Typable (s.scopeWith (.binding x parameter)) θ body ρ₂ where
  program := h.program.assume hp.toSimpleIn
  model := (h.modeled.scopeWith rfl (by simp)).model
  typed := by
    cases h.typed with
    | lam _ hbody => exact Context.hasSimpleType_childScope.2 (hp.assign_eq ▸ hbody)

end Typable

/-- Checking the term against a type that stands for its simple type completes. -/
def CheckCompletes (term : Term) : Prop :=
  ∀ {s θ ty τ}, Typable s θ term τ → s.context.Denotes θ ty τ →
    Completes (fun limit left => own.check limit left term ty) s θ fun _ _ _ => True

def SynthesisCompletes (term : Term) : Prop :=
  ∀ {s θ τ}, Typable s θ term τ →
    Completes (fun limit left => own.synthesize limit left term) s θ
      fun ty Γ θ' => Γ.Denotes θ' ty τ

section Levels

variable {s : State} {θ : Assignment} {term argument : Term} {ty : Ty}

theorem check_completes_of_step {P : Unit → Context → Assignment → Prop}
    (h : Completes (fun limit left => own.checkStep (own.check limit left)
      (own.synthesize limit left) (own.subtype limit left) term ty) { s with depth := s.depth + 1 } θ P) :
    Completes (fun limit left => own.check limit left term ty) s θ P :=
  .below (.congr (fun limit left => by rw [Opening.check]) (.nested h))

theorem synthesize_completes_of_step {P : Ty → Context → Assignment → Prop}
    (h : Completes (fun limit left => own.synthesizeStep (own.check limit left)
      (own.synthesize limit left) (own.synthesizeApplication limit left) term) { s with depth := s.depth + 1 } θ P) :
    Completes (fun limit left => own.synthesize limit left term) s θ P :=
  .below (.congr (fun limit left => by rw [Opening.synthesize]) (.nested h))

theorem synthesizeApplication_completes_of_step {P : Ty → Context → Assignment → Prop}
    (h : Completes (fun limit left => synthesizeApplicationStep (own.check limit left)
      (own.synthesizeApplication limit left) ty argument) { s with depth := s.depth + 1 } θ P) :
    Completes (fun limit left => own.synthesizeApplication limit left ty argument) s θ P :=
  .below (.congr (fun limit left => by rw [Opening.synthesizeApplication]) (.nested h))

end Levels

section Terms

variable {s : State} {θ : Assignment} {term argument body : Term} {x : BindingId}
  {ty parameter result τ ρ ρ₁ ρ₂ : Ty}

theorem lambda_completes (ih : CheckCompletes body)
    (h : Typable s θ (.lam x body) (.arrow ρ₁ ρ₂)) (hp : s.context.Denotes θ parameter ρ₁)
    (hr : s.context.Denotes θ result ρ₂) :
    Completes (fun limit left => inChildScope (assume x parameter >>= fun _ =>
      own.check limit left body result)) s θ fun _ _ _ => True :=
  .assuming (fun limit left => ((atomic_typing limit left).1 body result).evolves)
    h.modeled.valid (ih (h.assume hp) (hr.scopeWith _))

theorem synthesizeLambda_completes (ih : CheckCompletes body) (h : Typable s θ (.lam x body) τ) :
    Completes (fun limit left => synthesizeLambda (own.check limit left) x body) s θ
      fun ty Γ θ' => Γ.Denotes θ' ty τ := by
  obtain ⟨ρ₁, ρ₂, rfl⟩ : ∃ ρ₁ ρ₂, τ = .arrow ρ₁ ρ₂ := by
    cases h.typed
    exact ⟨_, _, rfl⟩
  obtain ⟨hρ₁, hρ₂⟩ := Ty.simpleOver_arrow.1 (h.program.simpleOver h.model h.typed)
  refine Completes.atomically (Completes.read rfl ?_)
  refine (introduce_completes _ h.modeled hρ₁).bind fun _ _ p s₁ θ₁ _ hcarries₁ hp => ?_
  rw [← hcarries₁.evolves.context.rigid] at hρ₂
  refine (introduce_completes _ hcarries₁.modeled hρ₂).bind fun _ _ q s₂ θ₂ _ hcarries₂ hq => ?_
  have h₂ := h.later (hcarries₁.trans hcarries₂)
  refine (lambda_completes ih h₂ (hp.later hcarries₂) hq).bind
    fun _ _ _ s₃ θ₃ _ hcarries₃ _ => ?_
  exact .accept hcarries₃.modeled
    (((hp.later hcarries₂).later hcarries₃).arrow (hq.later hcarries₃))

theorem synthesizeApplicationStep_completes {next : (limit left : Nat) → Ty → Term → Judgment Ty}
    (ih : CheckCompletes argument) (h : Typable s θ argument ρ₁)
    (hf : s.context.Denotes θ ty (.arrow ρ₁ ρ₂)) (hr : s.context.Resolved ty) :
    Completes (fun limit left => synthesizeApplicationStep (own.check limit left) (next limit left)
      ty argument) s θ fun ty Γ θ' => Γ.Denotes θ' ty ρ₂ := by
  cases ty with
  | void => cases hf.assign_eq
  | var a => cases hf.assign_eq
  | forAll a body => cases hf.quantifierFree
  | arrow parameter result =>
    refine (ih h hf.parts.1).bind fun _ _ _ s₁ θ₁ _ hcarries _ => ?_
    exact .accept hcarries.modeled (hf.parts.2.later hcarries)
  | placeholder p =>
    have hp := hr.unsolved hf.wellFormed (List.mem_singleton_self p)
    refine Completes.atomically ((articulate_completes h.modeled hp hf.assign_eq).bind ?_)
    rintro _ _ ⟨p₁, p₂⟩ s₁ θ₁ _ hcarries₁ ⟨hp₁, hp₂⟩
    refine (ih (h.later hcarries₁) hp₁).bind fun _ _ _ s₂ θ₂ _ hcarries₂ _ => ?_
    exact .accept hcarries₂.modeled (hp₂.later hcarries₂)

theorem synthesizeAnnotated_completes (ih : CheckCompletes term)
    (h : Typable s θ (.ann term ty) τ) :
    Completes (fun limit left => synthesizeAnnotated (own.check limit left) term ty) s θ
      fun ty Γ θ' => Γ.Denotes θ' ty τ := by
  obtain ⟨hterm, hty⟩ := h.ann
  refine Completes.read rfl ?_
  simp only [if_pos hty.wellFormed]
  refine (Completes.orElse_left (ih hterm hty)).bind fun _ _ _ s₁ θ₁ _ hcarries _ => ?_
  exact .accept hcarries.modeled (hty.later hcarries)

theorem checkBySynthesis_completes (hsynthesis : SynthesisCompletes term)
    (h : Typable s θ term τ) (hty : s.context.Denotes θ ty τ) :
    Completes (fun limit left => own.checkBySynthesis (own.synthesize limit left)
      (own.subtype limit left) term ty) s θ fun _ _ _ => True := by
  refine Completes.atomically ((hsynthesis h).bind fun _ _ found s₁ θ₁ _ hcarries hfound => ?_)
  refine Completes.read rfl (Completes.read rfl ?_)
  exact subtype_completes hcarries.modeled (hfound.apply hcarries.modeled)
    ((hty.later hcarries).apply hcarries.modeled)

end Terms

theorem checkStep_otherwise {check : Term → Ty → Judgment Unit} {synthesize : Term → Judgment Ty}
    {subtype : Ty → Ty → Judgment Unit} {term : Term} {ty : Ty} (h : term = .unit → ty ≠ .void) :
    own.checkStep check synthesize subtype term ty =
      (own.checkForAll check term ty <|> checkLambda check term ty <|>
        own.checkBySynthesis synthesize subtype term ty) := by
  unfold Opening.checkStep
  split
  · exact absurd rfl (h rfl)
  · rfl

theorem checkLambda_otherwise {check : Term → Ty → Judgment Unit} {term : Term} {ty : Ty}
    (h : ∀ x body parameter result, term = .lam x body → ty ≠ .arrow parameter result) :
    checkLambda check term ty = reject := by
  unfold checkLambda
  split
  · exact absurd rfl (h _ _ _ _ rfl)
  · rfl

theorem check_completes {term : Term} (hsynthesis : SynthesisCompletes term)
    (hbody : ∀ x body, term = .lam x body → CheckCompletes body) : CheckCompletes term := by
  -- A lambda is checked against an arrow by its body; all other terms are compared with what is
  -- synthesised for them.
  intro s θ ty τ h hty
  refine check_completes_of_step ?_
  replace h := h.withDepth (s.depth + 1)
  by_cases hunit : term = .unit ∧ ty = .void
  · obtain ⟨rfl, rfl⟩ := hunit
    exact .accept h.modeled trivial
  simp only [checkStep_otherwise fun hterm hvoid => hunit ⟨hterm, hvoid⟩]
  refine Completes.orElse_right (fun _ _ => ?_) ?_
  · cases ty with
    | forAll a body => cases hty.quantifierFree
    | _ => rfl
  by_cases hlambda : ∃ x body parameter result, term = .lam x body ∧ ty = .arrow parameter result
  · obtain ⟨x, body, parameter, result, rfl, rfl⟩ := hlambda
    obtain rfl : Ty.arrow (parameter.assign θ) (result.assign θ) = τ := hty.assign_eq
    exact Completes.orElse_left (Completes.atomically
      (lambda_completes (hbody x body rfl) h hty.parts.1 hty.parts.2))
  · refine Completes.orElse_right (fun _ _ => ?_) (checkBySynthesis_completes hsynthesis h hty)
    rw [checkLambda_otherwise fun x body parameter result hterm harrow =>
      hlambda ⟨x, body, parameter, result, hterm, harrow⟩]
    rfl

theorem typing_completes (term : Term) : SynthesisCompletes term ∧ CheckCompletes term := by
  -- By induction on the term. Synthesis for a term rests on its parts, and checking on synthesis
  -- for the same term.
  induction term with
  | unit =>
    have hsynthesis : SynthesisCompletes .unit := by
      intro s θ τ h
      refine synthesize_completes_of_step (.accept (h.modeled.withDepth _) ?_)
      cases h.typed
      exact ⟨⟨rfl, rfl⟩, rfl⟩
    exact ⟨hsynthesis, check_completes hsynthesis (by simp)⟩
  | ref x =>
    have hsynthesis : SynthesisCompletes (.ref x) := by
      intro s θ τ h
      refine synthesize_completes_of_step ?_
      cases h.typed with
      | ref hx =>
        obtain ⟨σ, hσ, hdenotes⟩ := h.program.lookup hx
        have hrun : ∀ depth, (lookup x : Judgment Ty) { s with depth } =
            (.accepted σ, { s with depth }) := by
          simp only [lookup, hσ, implies_true]
        exact .of_run (hrun _) (.refl (h.modeled.withDepth _)) hdenotes
    exact ⟨hsynthesis, check_completes hsynthesis (by simp)⟩
  | lam x body ih =>
    have hsynthesis : SynthesisCompletes (.lam x body) := fun h =>
      synthesize_completes_of_step (synthesizeLambda_completes ih.2 (h.withDepth _))
    refine ⟨hsynthesis, check_completes hsynthesis fun y body' heq => ?_⟩
    cases heq
    exact ih.2
  | app function argument ihf iha =>
    have hsynthesis : SynthesisCompletes (.app function argument) := by
      intro s θ τ h
      refine synthesize_completes_of_step ?_
      obtain ⟨ρ, hfunction, hargument⟩ := (h.withDepth (s.depth + 1)).app
      refine Completes.atomically ((ihf.1 hfunction).bind
        fun _ _ functionType s₁ θ₁ _ hcarries hf => Completes.read rfl ?_)
      exact synthesizeApplication_completes_of_step (synthesizeApplicationStep_completes iha.2
        ((hargument.later hcarries).withDepth _) (hf.apply hcarries.modeled)
        (hcarries.modeled.valid.ordered.resolved_apply _))
    exact ⟨hsynthesis, check_completes hsynthesis (by simp)⟩
  | ann term ty ih =>
    have hsynthesis : SynthesisCompletes (.ann term ty) := fun h =>
      synthesize_completes_of_step (synthesizeAnnotated_completes ih.2 (h.withDepth _))
    exact ⟨hsynthesis, check_completes hsynthesis (by simp)⟩

section Principal

variable {s s' : State} {term : Term} {ty τ : Ty} {θ : Assignment}

theorem synthesize_completes (h : SimpleProgram s term) (hθ : s.context.OrderRespectedBy θ)
    (hτ : s.context.HasSimpleType (s.context.through θ) term τ) :
    ∃ bound ty s', (∀ limit, bound ≤ limit →
        (Checker.upTo limit).synthesize term s = (.accepted ty, s')) ∧
      ∃ θ', s'.context.OrderRespectedBy θ' ∧ (s'.context.apply ty).assign θ' = τ ∧
        ∀ p, .unsolved p ∈ s.context → (s'.context.apply (.placeholder p)).assign θ' = θ p := by
  have hmodel := hθ.modeledBy_through h.valid.ordered h.solved
  obtain ⟨ty, s', θ', ⟨bound, hrun⟩, hcarries, hty⟩ := (typing_completes term).1 ⟨h, hmodel, hτ⟩
  have hmodel' := hcarries.modeled.model
  refine ⟨bound + s.depth, ty, s', fun limit hle => hrun limit _ (Nat.le_sub_of_add_le hle),
    θ', hmodel'.orderRespectedBy, (hmodel'.apply ty).trans hty.assign_eq, fun p hp => ?_⟩
  rw [hmodel'.apply]
  exact (hcarries.agrees p (Context.placeholder_mem_of_unsolved hp)).trans
    (h.valid.ordered.through_of_unsolved hp)

/-- Every assignment that respects the order of the context that is left gives the program a type. -/
theorem hasSimpleType_of_synthesize {c : Checker} {θ' : Assignment} (h : SimpleProgram s term)
    (hrun : c.synthesize term s = (.accepted ty, s')) (hθ' : s'.context.OrderRespectedBy θ')
    (hθ : ∀ p, .unsolved p ∈ s.context → (s'.context.apply (.placeholder p)).assign θ' = θ p) :
    s.context.OrderRespectedBy θ ∧
      s.context.HasSimpleType (s.context.through θ) term ((s'.context.apply ty).assign θ') := by
  have he := ((atomic_typing _ _).2.1 term).evolves.result h.valid hrun
  have hsynth := (typing_simplySound _ _).2.1 h hrun
  have hmodel' := hθ'.modeledBy_through he.valid.ordered hsynth.typed.simplySolved
  have hmodel : s.context.ModeledBy (s'.context.through θ') := hmodel'.of_grows he.context
  refine ⟨fun before e after hΓ p he => ?_, ?_⟩
  · subst he
    rw [← hθ p (by simp [hΓ])]
    exact hmodel.orderRespectedBy before _ after hΓ p rfl
  · rw [← Context.assign_through, h.hasSimpleType_congr fun p hp => ?_]
    · exact hsynth.typed.holds _ hmodel'
    -- The assignment was said to be right for the unsolved placeholders, so it is for all.
    · have hw : s.context.wellFormed (.placeholder p) = true := Context.wellFormed_placeholder.2 hp
      calc s.context.through θ p
        _ = (s.context.apply (.placeholder p)).assign (s'.context.through θ') :=
          Ty.assign_congr fun q hq => (hθ q (h.valid.ordered.unsolved_of_apply hw hq)).symm
        _ = s'.context.through θ' p := hmodel.apply (.placeholder p)

end Principal

/-- If a program without quantifiers has any simple type, then from some limit on synthesis finds one
type for it in one context, and the types of the program are exactly the instances of that type. -/
theorem synthesize_principal {s : State} {term : Term} {θ₀ : Assignment} {τ₀ : Ty}
    (h : SimpleProgram s term) (hθ₀ : s.context.OrderRespectedBy θ₀)
    (hτ₀ : s.context.HasSimpleType (s.context.through θ₀) term τ₀) :
    ∃ bound ty s', (∀ limit, bound ≤ limit →
        (Checker.upTo limit).synthesize term s = (.accepted ty, s')) ∧
      ∀ θ τ, (s.context.OrderRespectedBy θ ∧
          s.context.HasSimpleType (s.context.through θ) term τ) ↔
        ∃ θ', s'.context.OrderRespectedBy θ' ∧ (s'.context.apply ty).assign θ' = τ ∧
          ∀ p, .unsolved p ∈ s.context → (s'.context.apply (.placeholder p)).assign θ' = θ p := by
  obtain ⟨bound, ty, s', hrun, -⟩ := synthesize_completes h hθ₀ hτ₀
  refine ⟨bound, ty, s', hrun, fun θ τ => ⟨fun ⟨hθ, hτ⟩ => ?_, ?_⟩⟩
  · obtain ⟨bound', ty', s'', hrun', hinstance⟩ := synthesize_completes h hθ hτ
    -- Both runs are the same where both limits are large enough.
    have hsame := (hrun _ (Nat.le_max_left bound bound')).symm.trans
      (hrun' _ (Nat.le_max_right bound bound'))
    cases hsame
    exact hinstance
  · rintro ⟨θ', hθ', rfl, hθ⟩
    exact hasSimpleType_of_synthesize h (hrun bound (Nat.le_refl _)) hθ' hθ

namespace Iteration

def start : State where
  supply := { types := #["a", "p", "b", "q"], bindings := #["f", "x"] }
  context := [.var ⟨0⟩, .unsolved ⟨1⟩, .var ⟨2⟩, .solved ⟨3⟩ (.placeholder ⟨1⟩),
    .binding ⟨0⟩ (.placeholder ⟨3⟩)]

def twice : Term :=
  .lam ⟨1⟩ (.app (.ann (.ref ⟨0⟩) (.placeholder ⟨3⟩)) (.app (.ref ⟨0⟩) (.ref ⟨1⟩)))

def endo : Ty := .arrow (.var ⟨0⟩) (.var ⟨0⟩)

theorem start_program : SimpleProgram start twice := by
  refine ⟨by decide, by decide, ?_, ?_⟩
  · simp [start, Ty.quantifierFree]
  · simp only [twice, Term.annotations, List.append_nil, List.mem_singleton, forall_eq]
    exact ⟨by decide, rfl⟩

theorem endo_respects : start.context.OrderRespectedBy fun _ => endo := by
  have hendo : endo.SimpleOver [⟨0⟩] := ⟨rfl, by decide⟩
  simp [start, Context.OrderRespectedBy, throughout_cons, Throughout.nil, Entry.rigid?, hendo]

theorem twice_typed :
    start.context.HasSimpleType (start.context.through fun _ => endo) twice endo :=
  .lam ⟨rfl, by decide⟩ (.app (.ann (.ref rfl)) (.app (.ref rfl) (.ref rfl)))

theorem twice_principal : SimpleProgram start twice ∧
    (start.context.OrderRespectedBy fun _ => endo) ∧
    start.context.HasSimpleType (start.context.through fun _ => endo) twice endo ∧
    ∃ bound ty s', (∀ limit, bound ≤ limit →
        (Checker.upTo limit).synthesize twice start = (.accepted ty, s')) ∧
      ∀ θ τ, (start.context.OrderRespectedBy θ ∧
          start.context.HasSimpleType (start.context.through θ) twice τ) ↔
        ∃ θ', s'.context.OrderRespectedBy θ' ∧ (s'.context.apply ty).assign θ' = τ ∧
          ∀ p, .unsolved p ∈ start.context →
            (s'.context.apply (.placeholder p)).assign θ' = θ p :=
  ⟨start_program, endo_respects, twice_typed,
    synthesize_principal start_program endo_respects twice_typed⟩

end Iteration
end HigherRank
