import HigherRank.Proofs.SimpleTyping

set_option autoImplicit false

/-!
# Synthesis of simple types is sound

In a program without quantifiers, every model of the context that an accepted judgment leaves makes
the types it was given, or has found, types of the term. Unlike in the prenex system, annotations may
mention placeholders, and the types of a derivation are over the variables in scope.
-/
namespace HigherRank

open Judgment
open Opening (own)

def CheckSimplySound (check : Term → Ty → Judgment Unit) : Prop :=
  ∀ {term ty s s'}, SimpleProgram s term → ty.SimpleIn s.context →
    check term ty s = (.accepted (), s') →
    Settles s' fun θ => s.context.HasSimpleType θ term (ty.assign θ)

/-- The type found is in scope and has no quantifier, and in every model the term has it. -/
structure SimplySynthesized (s s' : State) (term : Term) (ty : Ty) : Prop where
  simple : ty.SimpleIn s'.context
  typed : Settles s' fun θ => s.context.HasSimpleType θ term (ty.assign θ)

def SynthesisSimplySound (synthesize : Term → Judgment Ty) : Prop :=
  ∀ {term ty s s'}, SimpleProgram s term → synthesize term s = (.accepted ty, s') →
    SimplySynthesized s s' term ty

/-- In every model the function takes the argument to the type found. -/
structure SimplyApplied (s s' : State) (functionType : Ty) (argument : Term) (ty : Ty) : Prop where
  simple : ty.SimpleIn s'.context
  typed : Settles s' fun θ => ∃ ρ, functionType.assign θ = .arrow ρ (ty.assign θ) ∧
    s.context.HasSimpleType θ argument ρ

def ApplicationSimplySound (next : Ty → Term → Judgment Ty) : Prop :=
  ∀ {functionType argument ty s s'}, SimpleProgram s argument → functionType.SimpleIn s.context →
    next functionType argument s = (.accepted ty, s') → SimplyApplied s s' functionType argument ty

theorem SubtypingSound.equates {subtype : Ty → Ty → Judgment Unit} {sub sup : Ty} {s s' : State}
    (hsub : ∀ sub sup, Atomic .nothing (subtype sub sup)) (h : SubtypingSound subtype)
    (hs : s.Valid) (hsolved : s.context.SimplySolved) (hlower : sub.SimpleIn s.context)
    (hupper : sup.SimpleIn s.context) (hrun : subtype sub sup s = (.accepted (), s')) :
    Settles s' fun θ => sub.assign θ = sup.assign θ := by
  have hcomp : Comparable s.context sub sup :=
    ⟨hsolved, .of_quantifierFree hlower.quantifierFree hlower.wellFormed,
      .of_quantifierFree hupper.quantifierFree hupper.wellFormed,
      by simp [Ty.leading_eq_nil_of_quantifierFree hlower.quantifierFree]⟩
  have hset := h _ _ _ _ hs hcomp hrun
  refine ⟨hset.simplySolved, fun θ hθ => ?_⟩
  have hθ₀ : s.context.ModeledBy θ := hθ.of_grows ((hsub _ _).evolves.result hs hrun).context
  exact (Ty.below_iff_eq (hθ₀.quantifierFree hlower.wellFormed hlower.quantifierFree)
    (hθ₀.quantifierFree hupper.wellFormed hupper.quantifierFree)).1 (hset.holds θ hθ)

section Typing

variable {check : Term → Ty → Judgment Unit} {synthesize : Term → Judgment Ty}
  {synthesizeApplication : Ty → Term → Judgment Ty} {subtype : Ty → Ty → Judgment Unit}
  (hc : ∀ term ty, Atomic .placeholders (check term ty))
  (hy : ∀ term, Atomic .placeholders (synthesize term))
  (ha : ∀ ty term, Atomic .placeholders (synthesizeApplication ty term))
  (hsub : ∀ sub sup, Atomic .nothing (subtype sub sup))
  (ihc : CheckSimplySound check) (ihy : SynthesisSimplySound synthesize)
  (iha : ApplicationSimplySound synthesizeApplication) (ihs : SubtypingSound subtype)

include hc ihc in
theorem lambda_simplySound {x : BindingId} {body : Term} {parameter result : Ty} {s s' : State}
    (h : SimpleProgram s (.lam x body)) (hp : parameter.SimpleIn s.context)
    (hr : result.SimpleIn s.context)
    (hrun : inChildScope (assume x parameter >>= fun _ => check body result) s = (.accepted (), s')) :
    Settles s' fun θ =>
      s.context.HasSimpleType θ (.lam x body) (.arrow (parameter.assign θ) (result.assign θ)) := by
  have hbody := h.assume hp
  refine assuming_settles (P := fun θ' =>
      (s.scopeWith (.binding x parameter)).context.HasSimpleType θ' body (result.assign θ'))
    (hc body result).evolves h.valid hrun (fun s₁ hrun => ?_) fun θ θ' hθ hagree htyped => ?_
  · exact ihc hbody (hr.childScope _ _) hrun
  · have hagree' : ∀ p ∈ (s.scopeWith (.binding x parameter)).context.placeholders,
        θ' p = θ p := by
      simpa [State.scopeWith, Context.placeholders_childScope, Entry.placeholder?] using hagree
    rw [hbody.hasSimpleType_congr hagree', Ty.assign_agree hr.wellFormed hagree] at htyped
    exact .lam (hp.simpleOver hθ) (Context.hasSimpleType_childScope.1 htyped)

include hc hy hsub ihc ihy ihs in
theorem checkRule_simplySound {term : Term} {ty : Ty} {s s' : State} (h : SimpleProgram s term)
    (hty : ty.SimpleIn s.context) (hrule : CheckRule check synthesize subtype s s' term ty) :
    Settles s' fun θ => s.context.HasSimpleType θ term (ty.assign θ) := by
  cases hrule with
  | unit hstate =>
    subst hstate
    exact ⟨h.solved, fun θ _ => .unit⟩
  | forAll _ _ => cases hty.quantifierFree
  | @lam x body parameter result s₁ hretry hrun =>
    have h₁ := h.later (hretry.evolves.of_nothing _) (hretry.context ▸ h.solved)
    rw [← hretry.context] at hty ⊢
    exact lambda_simplySound hc ihc h₁ hty.parts.1 hty.parts.2 hrun
  | @synthesis term ty found s₁ s₂ hretry hfound hrun =>
    have h₁ := h.later (hretry.evolves.of_nothing _) (hretry.context ▸ h.solved)
    rw [← hretry.context] at hty ⊢
    have he := (hy term).evolves.result h₁.valid hfound
    have hsynth := ihy h₁ hfound
    have hsolved := hsynth.typed.simplySolved
    have hset := ihs.equates hsub he.valid hsolved (hsynth.simple.apply he.valid.ordered hsolved)
      ((hty.grows he.context).apply he.valid.ordered hsolved) hrun
    refine ⟨hset.simplySolved, fun θ hθ => ?_⟩
    have hθ₂ : s₂.context.ModeledBy θ :=
      hθ.of_grows ((hsub _ _).evolves.result he.valid hrun).context
    have heq := hset.holds θ hθ
    rw [hθ₂.apply, hθ₂.apply] at heq
    rw [← heq]
    exact hsynth.typed.holds θ hθ₂

include hc hy ha ihc ihy iha in
theorem synthesizeRule_simplySound {term : Term} {ty : Ty} {s s' : State}
    (h : SimpleProgram s term)
    (hrule : SynthesizeRule check synthesize synthesizeApplication s s' term ty) :
    SimplySynthesized s s' term ty := by
  cases hrule with
  | unit hstate =>
    subst hstate
    exact ⟨⟨rfl, rfl⟩, h.solved, fun θ _ => .unit⟩
  | @ref x ty hx hstate =>
    subst hstate
    refine ⟨h.binding (Context.binding?_mem hx), h.solved, fun θ _ => .ref ?_⟩
    rw [Environment.lookup_assign, Context.lookup_environment, hx]
    rfl
  | @lam x body p q s₁ s₂ label label' hp hq hrun =>
    have he₁ := (evolves_introduce label).result h.valid hp
    have he₂ := he₁.trans ((evolves_introduce label').result he₁.valid hq)
    have hcontext : s₂.context = s.context ++ [.unsolved p] ++ [.unsolved q] := by
      rw [introduce_accepted hq, introduce_accepted hp]
    have hp₂ : (Ty.placeholder p).SimpleIn s₂.context :=
      .placeholder (by simp [hcontext, Entry.placeholder?])
    have hq₂ : (Ty.placeholder q).SimpleIn s₂.context :=
      .placeholder (by simp [hcontext, Entry.placeholder?])
    have h₂ := h.later he₂ fun r τ hr => h.solved r τ (by simpa [hcontext] using hr)
    have hset := lambda_simplySound hc ihc h₂ hp₂ hq₂ hrun
    have he₃ := ((hc body _).evolves.assuming x _).result he₂.valid hrun
    exact ⟨(hp₂.arrow hq₂).grows (he₃.of_nothing _).context, hset.simplySolved,
      fun θ hθ => he₂.context.hasSimpleType.1 (hset.holds θ hθ)⟩
  | @app function argument functionType ty s₁ hf hrun =>
    obtain ⟨hfunction, hargument⟩ := h.app
    have he₁ := (hy function).evolves.result h.valid hf
    have he₂ := (ha _ argument).evolves.result he₁.valid hrun
    have hsynth := ihy hfunction hf
    have hsolved := hsynth.typed.simplySolved
    have happ := iha (hargument.later he₁ hsolved)
      (hsynth.simple.apply he₁.valid.ordered hsolved) hrun
    refine ⟨happ.simple, happ.typed.simplySolved, fun θ hθ => ?_⟩
    have hθ₁ : s₁.context.ModeledBy θ := hθ.of_grows he₂.context
    obtain ⟨ρ, heq, htyped⟩ := happ.typed.holds θ hθ
    have hfunctionTyped := hsynth.typed.holds θ hθ₁
    rw [← hθ₁.apply, heq] at hfunctionTyped
    exact .app hfunctionTyped (he₁.context.hasSimpleType.1 htyped)
  | @ann term ty _ hrun =>
    obtain ⟨hterm, hty⟩ := h.ann
    have he := (hc term ty).evolves.result h.valid hrun
    have hset := ihc hterm hty hrun
    exact ⟨hty.grows he.context, hset.simplySolved, fun θ hθ => .ann (hset.holds θ hθ)⟩

include hc ihc in
theorem applyRule_simplySound {functionType ty : Ty} {argument : Term} {s s' : State}
    (h : SimpleProgram s argument) (hfunction : functionType.SimpleIn s.context)
    (hrule : ApplyRule check synthesizeApplication s s' argument functionType ty) :
    SimplyApplied s s' functionType argument ty := by
  cases hrule with
  | @arrow parameter result hrun =>
    obtain ⟨hp, hr⟩ := hfunction.parts
    have he := (hc argument parameter).evolves.result h.valid hrun
    have hset := ihc h hp hrun
    exact ⟨hr.grows he.context, hset.simplySolved,
      fun θ hθ => ⟨parameter.assign θ, rfl, hset.holds θ hθ⟩⟩
  | forAll _ _ => cases hfunction.quantifierFree
  | @placeholder p p₁ p₂ s₁ hp hrun =>
    have ha := articulated_of_accepted h.valid hp
    have he₁ := ha.evolves.of_nothing .placeholders
    have he₂ := (hc argument _).evolves.result he₁.valid hrun
    have h₁ := h.later he₁ (articulate_simplySolved hp h.solved)
    have hset := ihc h₁ (.placeholder (Context.placeholder_mem_of_unsolved ha.parameterOpen)) hrun
    have hresult := Context.placeholder_mem_of_unsolved ha.resultOpen
    refine ⟨.placeholder (he₂.context.placeholders hresult), hset.simplySolved, fun θ hθ => ?_⟩
    have hθ₁ : s₁.context.ModeledBy θ := hθ.of_grows he₂.context
    exact ⟨θ p₁, hθ₁.solved ha.solved, he₁.context.hasSimpleType.1 (hset.holds θ hθ)⟩

end Typing

theorem typing_simplySound (limit left : Nat) :
    CheckSimplySound (own.check limit left) ∧ SynthesisSimplySound (own.synthesize limit left) ∧
      ApplicationSimplySound (own.synthesizeApplication limit left) := by
  -- The three judgments on terms call each other one level further in, so they are treated
  -- together.
  induction left with
  | zero =>
    refine ⟨fun _ _ hrun => ?_, fun _ hrun => ?_, fun _ _ hrun => ?_⟩
    · rw [Opening.check] at hrun
      cases hrun
    · rw [Opening.synthesize] at hrun
      cases hrun
    · rw [Opening.synthesizeApplication] at hrun
      cases hrun
  | succ left ih =>
    obtain ⟨ihc, ihy, iha⟩ := ih
    obtain ⟨hc, hy, ha⟩ := atomic_typing limit left
    have hsub := atomic_subtype limit left
    refine ⟨fun {term ty s s'} h hty hrun => ?_, fun {term ty s s'} h hrun => ?_,
      fun {functionType argument ty s s'} h hfunction hrun => ?_⟩
    · rw [Opening.check] at hrun
      obtain ⟨s₁, hstep, rfl⟩ := nested_accepted hrun
      replace h := h.withDepth (s.depth + 1)
      have hset := checkRule_simplySound hc hy hsub ihc ihy (subtype_sound limit left) h hty
        (checkStep_accepted hc h.valid hstep)
      exact ⟨hset.simplySolved, hset.holds⟩
    · rw [Opening.synthesize] at hrun
      obtain ⟨s₁, hstep, rfl⟩ := nested_accepted hrun
      have hsynth := synthesizeRule_simplySound hc hy ha ihc ihy iha (h.withDepth (s.depth + 1))
        (synthesizeStep_accepted hstep)
      exact ⟨hsynth.simple, hsynth.typed.simplySolved, hsynth.typed.holds⟩
    · rw [Opening.synthesizeApplication] at hrun
      obtain ⟨s₁, hstep, rfl⟩ := nested_accepted hrun
      have happ := applyRule_simplySound hc ihc (h.withDepth (s.depth + 1)) hfunction
        (synthesizeApplicationStep_accepted hstep)
      exact ⟨happ.simple, happ.typed.simplySolved, happ.typed.holds⟩

end HigherRank
