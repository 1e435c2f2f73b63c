import HigherRank.Proofs.Subsumption

set_option autoImplicit false

/-!
# Checking prenex programs is sound

A program whose types are prenex and which is accepted has its type in the declarative system. The types
of a derivation are those that a model of the final context assigns, so what is said of a judgment
is said of all models of the context that it leaves.
-/
namespace HigherRank

open Judgment
open Opening (own)

def Environment.assign (E : Environment) (θ : Assignment) : Environment :=
  E.map fun (x, σ) => (x, σ.assign θ)

theorem Environment.lookup_assign (E : Environment) (θ : Assignment) (x : BindingId) :
    (E.assign θ).lookup x = (E.lookup x).map (·.assign θ) := by
  induction E with
  | nil => rfl
  | cons b E ih =>
    obtain ⟨y, σ⟩ := b
    change List.lookup x ((y, σ.assign θ) :: Environment.assign E θ) = _
    rw [List.lookup_cons, List.lookup_cons]
    cases x == y with
    | true => rfl
    | false => exact ih

namespace Context.Prenex

variable {Γ : Context} {θ θ' : Assignment}

theorem assign_agree (h : Γ.Prenex) (hagree : ∀ p ∈ Γ.placeholders, θ' p = θ p) :
    Γ.environment.assign θ' = Γ.environment.assign θ := by
  refine List.map_congr_left fun ⟨x, σ⟩ hx => ?_
  have hw := (h.bindings x σ (mem_environment.1 hx)).wellFormed
  exact congrArg (x, ·) (Ty.assign_agree hw hagree)

theorem avoids_assign {a : TypeId} (h : Γ.Prenex) (hθ : Γ.ModeledBy θ) (ha : Γ.New a) :
    (Γ.environment.assign θ).Avoids a := by
  intro x σ' hx
  obtain ⟨⟨y, σ⟩, hmem, heq⟩ := List.mem_map.1 hx
  cases heq
  have hw := (h.bindings x σ (mem_environment.1 hmem)).wellFormed
  have hold := ha.2 x σ hmem
  refine ⟨fun hocc => ?_, ?_⟩
  · rcases Ty.occurrences_replace hocc with hocc | ⟨p, hp, hocc⟩
    · exact hold.1 hocc
    · exact hθ.avoids ha.1 hw p hp hocc
  · rw [Ty.assign, Ty.quantifiers_replace (fun _ _ => rfl) fun p hp => Ty.quantifiers_eq_nil_of_quantifierFree
      (Ty.quantifierFree_of_simple (hθ.simple hw p hp))]
    exact hold.2

end Context.Prenex

/-- A term that may be checked against a type: the quantified variables of both are new and apart. -/
structure Checkable (Γ : Context) (term : Term) (ty : Ty) : Prop where
  context : Γ.Prenex
  subject : term.PrenexIn Γ
  expected : ty.PrenexIn Γ
  avoids : ∀ a ∈ ty.leading, Γ.environment.Avoids a
  apart : ∀ a ∈ ty.leading, a ∉ term.quantifiers

/-- Under every model the term has the matrix of the type that it was checked against. -/
def CheckSound (check : Term → Ty → Judgment Unit) : Prop :=
  ∀ term ty s s', s.Valid → Checkable s.context term ty →
    check term ty s = (.accepted (), s') →
    Settles s' fun θ => HasType (s.context.environment.assign θ) term (ty.assign θ).matrix

/-- The type found is in scope, its quantified variables come from the term or a binding, and under
every model the term has its instances. -/
structure Synthesized (s s' : State) (term : Term) (ty : Ty) : Prop where
  prenex : ty.PrenexIn s'.context
  origin : ∀ a ∈ ty.leading, a ∈ term.quantifiers ∨ ¬ s.context.environment.Avoids a
  typed : Settles s' fun θ => ∀ ρ, (ty.assign θ).IsInstance ρ →
    HasType (s.context.environment.assign θ) term ρ

def SynthesisSound (synthesize : Term → Judgment Ty) : Prop :=
  ∀ term ty s s', s.Valid → s.context.Prenex → term.PrenexIn s.context →
    synthesize term s = (.accepted ty, s') → Synthesized s s' term ty

/-- Under every model the function's type has an instance that takes the argument to the type found. -/
structure Applied (s s' : State) (functionType : Ty) (argument : Term) (ty : Ty) : Prop where
  quantifierFree : ty.quantifierFree = true
  wellFormed : s'.context.wellFormed ty = true
  typed : Settles s' fun θ => ∃ ρ, (functionType.assign θ).IsInstance (.arrow ρ (ty.assign θ)) ∧
    HasType (s.context.environment.assign θ) argument ρ

def ApplicationSound (next : Ty → Term → Judgment Ty) : Prop :=
  ∀ functionType argument ty s s', s.Valid → s.context.Prenex → argument.PrenexIn s.context →
    functionType.PrenexIn s.context → next functionType argument s = (.accepted ty, s') →
    Applied s s' functionType argument ty

theorem Checkable.of_quantifierFree {Γ : Context} {term : Term} {ty : Ty} (hΓ : Γ.Prenex)
    (hterm : term.PrenexIn Γ) (hq : ty.quantifierFree = true) (hw : Γ.wellFormed ty = true) :
    Checkable Γ term ty := by
  have hl := Ty.leading_eq_nil_of_quantifierFree hq
  exact ⟨hΓ, hterm, .of_quantifierFree hq hw, by simp [hl], by simp [hl]⟩

theorem Checkable.assume {Γ : Context} {x : BindingId} {body : Term} {parameter result : Ty}
    (hΓ : Γ.Prenex) (hterm : (Term.lam x body).PrenexIn Γ)
    (hty : (Ty.arrow parameter result).PrenexIn Γ) (m : Marker) :
    Checkable (Γ.childScope m (.binding x parameter)) body result := by
  obtain ⟨hp, hr⟩ := hty.parts
  obtain ⟨hqp, hqr⟩ := hty.quantifierFree_parts
  have hbody : body.PrenexIn Γ := ⟨hterm.annotations, hterm.distinct, hterm.new⟩
  refine .of_quantifierFree (hΓ.assume hp m) ?_ hqr (Context.wellFormed_childScope hr.wellFormed)
  exact hbody.mono fun a _ ha => ha.assume hqp hp.wellFormed m

theorem Checkable.body {Γ : Context} {term : Term} {a : TypeId} {body : Ty}
    (h : Checkable Γ term (.forAll a body)) (m : Marker) :
    Checkable (Γ.childScope m (.var a)) term body where
  context := h.context.declare (h.avoids a (by simp [Ty.leading])) m
  subject := h.subject.mono fun b hb hnew => by
    refine hnew.declare (fun heq => ?_) m
    subst heq
    exact h.apart b (by simp [Ty.leading]) hb
  expected := h.expected.body_rigid m
  avoids := fun b hb => by
    rw [Context.environment_childScope]
    exact h.avoids b (List.mem_cons_of_mem _ hb)
  apart := fun b hb => h.apart b (List.mem_cons_of_mem _ hb)

theorem Checkable.comparable {n : Nat} {s s' : State} {term : Term} {found ty : Ty}
    (h : Checkable s.context term ty) (hg : Context.Grows .placeholders n s.context s'.context)
    (hsynth : Synthesized s s' term found) : Comparable s'.context found ty := by
  refine ⟨hsynth.typed.simplySolved, hsynth.prenex, h.expected.grows hg, fun a hfound hty => ?_⟩
  rcases hsynth.origin a hfound with hq | havoids
  · exact h.apart a hty hq
  · exact havoids (h.avoids a hty)

theorem introduce_prenex {label : String} {p : TypeId} {s s' : State} (hs : s.Valid)
    (h : (introduce label : Judgment TypeId) s = (.accepted p, s')) (hΓ : s.context.Prenex) :
    s'.context.Prenex ∧ p ∈ s'.context.placeholders := by
  have heq := introduce_accepted h
  refine ⟨hΓ.grows ((evolves_introduce label).result hs h).context fun q τ hq => ?_, ?_⟩
  · exact hΓ.simplySolved q τ (by simpa [heq] using hq)
  · simp [heq, Entry.placeholder?]

theorem introduce_arrow {x : BindingId} {body : Term} {label label' : String} {p q : TypeId}
    {s s₁ s₂ : State} (hs : s.Valid) (hΓ : s.context.Prenex)
    (hterm : (Term.lam x body).PrenexIn s.context)
    (hp : (introduce label : Judgment TypeId) s = (.accepted p, s₁))
    (hq : (introduce label' : Judgment TypeId) s₁ = (.accepted q, s₂)) :
    s.Evolves .placeholders s₂ ∧ s₂.context.Prenex ∧ (Term.lam x body).PrenexIn s₂.context ∧
      (Ty.arrow (.placeholder p) (.placeholder q)).PrenexIn s₂.context := by
  have he₁ := (evolves_introduce label).result hs hp
  have he₂ := (evolves_introduce label').result he₁.valid hq
  have he := he₁.trans he₂
  obtain ⟨hΓ₁, hp₁⟩ := introduce_prenex hs hp hΓ
  obtain ⟨hΓ₂, hq₂⟩ := introduce_prenex he₁.valid hq hΓ₁
  have hw : s₂.context.wellFormed (.arrow (.placeholder p) (.placeholder q)) = true :=
    Context.wellFormed_arrow.2 ⟨Context.wellFormed_placeholder.2 (he₂.context.placeholders hp₁),
      Context.wellFormed_placeholder.2 hq₂⟩
  exact ⟨he, hΓ₂, hterm.mono fun a _ ha => ha.grows he.context, .of_quantifierFree rfl hw⟩

section Typing

variable {check : Term → Ty → Judgment Unit} {synthesize : Term → Judgment Ty}
  {synthesizeApplication : Ty → Term → Judgment Ty} {subtype : Ty → Ty → Judgment Unit}
  (hc : ∀ term ty, Atomic .placeholders (check term ty))
  (hy : ∀ term, Atomic .placeholders (synthesize term))
  (ha : ∀ ty term, Atomic .placeholders (synthesizeApplication ty term))
  (hsub : ∀ sub sup, Atomic .nothing (subtype sub sup))
  (ihc : CheckSound check) (ihy : SynthesisSound synthesize)
  (iha : ApplicationSound synthesizeApplication) (ihs : SubtypingSound subtype)

include hc ihc in
theorem lambda_settles {x : BindingId} {body : Term} {parameter result : Ty} {s s' : State}
    (hs : s.Valid) (hΓ : s.context.Prenex) (hterm : (Term.lam x body).PrenexIn s.context)
    (hty : (Ty.arrow parameter result).PrenexIn s.context)
    (h : inChildScope (assume x parameter >>= fun _ => check body result) s = (.accepted (), s')) :
    Settles s' fun θ => HasType (s.context.environment.assign θ) (.lam x body)
      ((Ty.arrow parameter result).assign θ) := by
  obtain ⟨hp, hr⟩ := hty.parts
  obtain ⟨hqp, hqr⟩ := hty.quantifierFree_parts
  let inner := (s.scopeWith (.binding x parameter)).context.environment
  refine assuming_settles (P := fun θ' => HasType (inner.assign θ') body (result.assign θ').matrix)
    (hc body result).evolves hs h (fun s₁ hrun => ?_) fun θ θ' hθ hagree hbody => ?_
  · exact ihc _ _ _ _ (hs.scopeWith rfl (by simp)) (.assume hΓ hterm hty _) hrun
  · have hscope : inner.assign θ' =
        (x, parameter.assign θ') :: s.context.environment.assign θ' := by
      simp only [inner, State.scopeWith, Context.environment_childScope]
      rfl
    rw [hscope, hΓ.assign_agree hagree, Ty.assign_agree hp.wellFormed hagree,
      Ty.assign_agree hr.wellFormed hagree,
      Ty.matrix_eq_of_quantifierFree (hθ.quantifierFree hr.wellFormed hqr)] at hbody
    exact .lam (Ty.simple_assign (hθ.simple hp.wellFormed) hqp) hbody

include hc hy hsub ihc ihy ihs in
theorem checkRule_sound {term : Term} {ty : Ty} {s s' : State} (hs : s.Valid)
    (hterm : Checkable s.context term ty)
    (h : CheckRule check synthesize subtype s s' term ty) :
    Settles s' fun θ => HasType (s.context.environment.assign θ) term (ty.assign θ).matrix := by
  cases h with
  | unit hstate =>
    subst hstate
    exact ⟨hterm.context.simplySolved, fun θ _ => .unit⟩
  | @forAll term a body s₁ hretry h =>
    rw [← hretry.context] at hterm ⊢
    let inner := (s₁.scopeWith (.var a)).context.environment
    refine rigidly_settles (P := fun θ' => HasType (inner.assign θ') term (body.assign θ').matrix)
      (hc _ _).evolves hretry.evolves.valid h (fun s₂ hrun => ?_) fun θ θ' hθ hagree hbody => ?_
    · exact ihc _ _ _ _ (hretry.evolves.valid.scopeWith rfl (by simp)) (hterm.body _) hrun
    · have hscope : inner = s₁.context.environment := Context.environment_childScope ..
      rw [hscope, hterm.context.assign_agree hagree,
        Ty.assign_agree_body hterm.expected.wellFormed hagree] at hbody
      exact hbody
  | @lam x body parameter result s₁ hretry h =>
    rw [← hretry.context] at hterm ⊢
    exact lambda_settles hc ihc hretry.evolves.valid hterm.context hterm.subject hterm.expected h
  | @synthesis term ty found s₁ s₂ hretry hfound h =>
    rw [← hretry.context] at hterm ⊢
    have he := (hy _).evolves.result hretry.evolves.valid hfound
    have hsynth := ihy _ _ _ _ hretry.evolves.valid hterm.context hterm.subject hfound
    have hcomp := (hterm.comparable he.context hsynth).apply he.valid.ordered
    have hset := ihs _ _ _ _ he.valid hcomp h
    refine ⟨hset.simplySolved, fun θ hθ => ?_⟩
    have hθ₂ : s₂.context.ModeledBy θ :=
      hθ.of_grows ((hsub _ _).evolves.result he.valid h).context
    have hbelow := hset.holds θ hθ
    rw [hθ₂.apply, hθ₂.apply] at hbelow
    exact hsynth.typed.holds θ hθ₂ _ hbelow

include hc hy ha ihc ihy iha in
theorem synthesizeRule_sound {term : Term} {ty : Ty} {s s' : State} (hs : s.Valid)
    (hΓ : s.context.Prenex) (hterm : term.PrenexIn s.context)
    (h : SynthesizeRule check synthesize synthesizeApplication s s' term ty) :
    Synthesized s s' term ty := by
  cases h with
  | unit hstate =>
    subst hstate
    refine ⟨.of_quantifierFree rfl rfl, by simp [Ty.leading], hΓ.simplySolved, fun θ _ ρ hρ => ?_⟩
    rw [(Ty.isInstance_of_quantifierFree rfl).1 hρ]
    exact .unit
  | @ref x ty hx hstate =>
    subst hstate
    have hmem := Context.binding?_mem hx
    have hty := hΓ.bindings x ty hmem
    refine ⟨hty, fun a ha => .inr fun havoids => ?_, hΓ.simplySolved, fun θ _ ρ hρ => ?_⟩
    · rw [← Ty.quantifiers_of_prenex hty.prenex] at ha
      exact (havoids x ty (Context.mem_environment.2 hmem)).2 ha
    · refine .ref ?_ hρ
      rw [Environment.lookup_assign, Context.lookup_environment, hx]
      rfl
  | @lam x body p q s₁ s₂ label label' hp hq h =>
    obtain ⟨he, hΓ₂, hterm₂, hty⟩ := introduce_arrow hs hΓ hterm hp hq
    have hset := lambda_settles hc ihc he.valid hΓ₂ hterm₂ hty h
    have he₃ := ((hc body (.placeholder q)).evolves.assuming x (.placeholder p)).result he.valid h
    have hw₃ := (he₃.of_nothing .placeholders).context.wellFormed hty.wellFormed
    refine ⟨.of_quantifierFree rfl hw₃, by simp [Ty.leading], hset.simplySolved,
      fun θ hθ ρ hρ => ?_⟩
    rw [(Ty.isInstance_of_quantifierFree (hθ.quantifierFree hw₃ rfl)).1 hρ,
      ← he.context.environment]
    exact hset.holds θ hθ
  | @app function argument functionType ty s₁ hf h =>
    obtain ⟨hfunction, hargument⟩ := hterm.app
    have he₁ := (hy function).evolves.result hs hf
    have he₂ := (ha _ argument).evolves.result he₁.valid h
    have hsynth := ihy _ _ _ _ hs hΓ hfunction hf
    have hsolved := hsynth.typed.simplySolved
    have happ := iha _ _ _ _ _ he₁.valid (hΓ.grows he₁.context hsolved)
      (hargument.mono fun a _ ha => ha.grows he₁.context)
      (hsynth.prenex.apply hsolved he₁.valid.ordered) h
    refine ⟨.of_quantifierFree happ.quantifierFree happ.wellFormed, ?_, happ.typed.simplySolved,
      fun θ hθ ρ hρ => ?_⟩
    · simp [Ty.leading_eq_nil_of_quantifierFree happ.quantifierFree]
    · have hθ₁ : s₁.context.ModeledBy θ := hθ.of_grows he₂.context
      obtain ⟨ρ₁, hinstance, htyped⟩ := happ.typed.holds θ hθ
      rw [hθ₁.apply] at hinstance
      rw [he₁.context.environment] at htyped
      rw [(Ty.isInstance_of_quantifierFree
        (hθ.quantifierFree happ.wellFormed happ.quantifierFree)).1 hρ]
      exact .app (hsynth.typed.holds θ hθ₁ _ hinstance) htyped
  | @ann term ty hw h =>
    obtain ⟨hinner, hty, hground, havoids, hapart⟩ := hterm.ann hw
    have he := (hc term ty).evolves.result hs h
    have hset := ihc _ _ _ _ hs ⟨hΓ, hinner, hty, havoids, hapart⟩ h
    refine ⟨hty.grows he.context, fun a ha => .inl ?_, hset.simplySolved, fun θ hθ ρ hρ => ?_⟩
    · rw [← Ty.quantifiers_of_prenex hty.prenex] at ha
      simp [Term.quantifiers, Term.annotations, ha]
    · have hθ₀ : s.context.ModeledBy θ := hθ.of_grows he.context
      have htyped := hset.holds θ hθ
      rw [Ty.assign_of_ground hground] at hρ htyped
      refine .ann hty.prenex (fun a ha => ?_) htyped hρ
      exact hΓ.avoids_assign hθ₀ ⟨hty.apart a ha, havoids a ha⟩

include hc ha ihc iha in
theorem applyRule_sound {functionType ty : Ty} {argument : Term} {s s' : State} (hs : s.Valid)
    (hΓ : s.context.Prenex) (hargument : argument.PrenexIn s.context)
    (hfunction : functionType.PrenexIn s.context)
    (h : ApplyRule check synthesizeApplication s s' argument functionType ty) :
    Applied s s' functionType argument ty := by
  cases h with
  | @arrow parameter result h =>
    obtain ⟨hp, hr⟩ := hfunction.parts
    obtain ⟨hqp, hqr⟩ := hfunction.quantifierFree_parts
    have he := (hc argument parameter).evolves.result hs h
    have hset := ihc _ _ _ _ hs (.of_quantifierFree hΓ hargument hqp hp.wellFormed) h
    refine ⟨hqr, he.context.wellFormed hr.wellFormed, hset.simplySolved, fun θ hθ => ?_⟩
    have hθ₀ : s.context.ModeledBy θ := hθ.of_grows he.context
    have htyped := hset.holds θ hθ
    rw [Ty.matrix_eq_of_quantifierFree (hθ₀.quantifierFree hp.wellFormed hqp)] at htyped
    refine ⟨parameter.assign θ, ?_, htyped⟩
    exact (Ty.isInstance_of_quantifierFree
      (hθ₀.quantifierFree hfunction.wellFormed hfunction.prenex)).2 rfl
  | @forAll a p body ty s₁ label hp h =>
    have he₁ := (evolves_introduce label).result hs hp
    have he₂ := (ha _ argument).evolves.result he₁.valid h
    obtain ⟨hΓ₁, hp₁⟩ := introduce_prenex hs hp hΓ
    have happ := iha _ _ _ _ _ he₁.valid hΓ₁ (hargument.mono fun a _ ha => ha.grows he₁.context)
      (hfunction.body_flexible he₁.context.rigid he₁.context.placeholders hp₁) h
    refine ⟨happ.quantifierFree, happ.wellFormed, happ.typed.simplySolved, fun θ hθ => ?_⟩
    have hθ₁ : s₁.context.ModeledBy θ := hθ.of_grows he₂.context
    obtain ⟨ρ, hinstance, htyped⟩ := happ.typed.holds θ hθ
    rw [he₁.context.environment] at htyped
    exact ⟨ρ, hfunction.isInstance_of_open (hθ₁.of_grows he₁.context) (fun _ _ => rfl)
      (hθ₁.fits hp₁).1 hinstance, htyped⟩
  | @placeholder p p₁ p₂ s₁ hp h =>
    obtain ⟨before, after, -, hafter⟩ := articulate_accepted hp
    have he₁ := ((atomic_articulate p).evolves.result hs hp).of_nothing .placeholders
    have he₂ := (hc argument _).evolves.result he₁.valid h
    have hΓ₁ := hΓ.grows he₁.context (articulate_simplySolved hp hΓ.simplySolved)
    have hp₁ : p₁ ∈ s₁.context.placeholders := by simp [hafter, Entry.placeholder?]
    have hp₂ : p₂ ∈ s₁.context.placeholders := by simp [hafter, Entry.placeholder?]
    have hset := ihc _ _ _ _ he₁.valid (.of_quantifierFree hΓ₁
      (hargument.mono fun a _ ha => ha.grows he₁.context) rfl
      (Context.wellFormed_placeholder.2 hp₁)) h
    refine ⟨rfl, Context.wellFormed_placeholder.2 (he₂.context.placeholders hp₂),
      hset.simplySolved, fun θ hθ => ?_⟩
    have hθ₁ : s₁.context.ModeledBy θ := hθ.of_grows he₂.context
    have hsolved : .solved p (.arrow (.placeholder p₁) (.placeholder p₂)) ∈ s₁.context := by
      simp [hafter]
    have heq : θ p = .arrow (θ p₁) (θ p₂) := hθ₁.solved hsolved
    have hq := Ty.quantifierFree_of_simple (hθ₁.fits (he₁.context.placeholders
      (Context.wellFormed_placeholder.1 hfunction.wellFormed))).1
    have hq₁ := Ty.quantifierFree_of_simple (hθ₁.fits hp₁).1
    have htyped := hset.holds θ hθ
    rw [he₁.context.environment] at htyped
    change HasType _ argument (θ p₁).matrix at htyped
    rw [Ty.matrix_eq_of_quantifierFree hq₁] at htyped
    exact ⟨θ p₁, (Ty.isInstance_of_quantifierFree hq).2 heq.symm, htyped⟩

end Typing

theorem typing_sound (limit left : Nat) :
    CheckSound (own.check limit left) ∧ SynthesisSound (own.synthesize limit left) ∧
      ApplicationSound (own.synthesizeApplication limit left) := by
  -- The three judgments on terms call each other one level further in, so they are treated
  -- together.
  induction left with
  | zero =>
    refine ⟨fun term ty s s' _ _ h => ?_, fun term ty s s' _ _ _ h => ?_,
      fun functionType argument ty s s' _ _ _ _ h => ?_⟩
    · rw [Opening.check] at h
      cases h
    · rw [Opening.synthesize] at h
      cases h
    · rw [Opening.synthesizeApplication] at h
      cases h
  | succ left ih =>
    obtain ⟨ihc, ihy, iha⟩ := ih
    obtain ⟨hc, hy, ha⟩ := atomic_typing limit left
    have hsub := atomic_subtype limit left
    refine ⟨fun term ty s s' hs hterm h => ?_, fun term ty s s' hs hΓ hterm h => ?_,
      fun functionType argument ty s s' hs hΓ hargument hfunction h => ?_⟩
    · rw [Opening.check] at h
      obtain ⟨s₁, hrun, rfl⟩ := nested_accepted h
      have hs₁ := hs.withDepth (s.depth + 1)
      have hset := checkRule_sound hc hy hsub ihc ihy (subtype_sound limit left) hs₁ hterm
        (checkStep_accepted hc hs₁ hrun)
      exact ⟨hset.simplySolved, hset.holds⟩
    · rw [Opening.synthesize] at h
      obtain ⟨s₁, hrun, rfl⟩ := nested_accepted h
      have hsynth := synthesizeRule_sound hc hy ha ihc ihy iha (hs.withDepth (s.depth + 1)) hΓ
        hterm (synthesizeStep_accepted hrun)
      exact ⟨hsynth.prenex, hsynth.origin, hsynth.typed.simplySolved, hsynth.typed.holds⟩
    · rw [Opening.synthesizeApplication] at h
      obtain ⟨s₁, hrun, rfl⟩ := nested_accepted h
      have happ := applyRule_sound hc ha ihc iha (hs.withDepth (s.depth + 1)) hΓ hargument
        hfunction (synthesizeApplicationStep_accepted hrun)
      exact ⟨happ.quantifierFree, happ.wellFormed, happ.typed.simplySolved, happ.typed.holds⟩

/-- The expected type and the types written in a program, in a context without placeholders. -/
structure PrenexProgram (Γ : Context) (term : Term) (ty : Ty) : Prop where
  hygienic : Hygienic Γ term ty
  prenex : ∀ σ ∈ Γ.bindingTypes ++ ty :: term.annotations, σ.prenex = true ∧ σ.ground = true
  wellFormed : ∀ σ ∈ ty :: Γ.bindingTypes, Γ.wellFormed σ = true

namespace Hygienic

variable {Γ : Context} {term : Term} {ty : Ty}

theorem valid {s : State} (h : Hygienic s.context term ty) : s.Valid := by
  refine ⟨⟨by simp [h.placeholders], fun before e after heq p τ hp => ?_⟩, ?_, fun m hm => ?_⟩
  · rcases h.plain e (by simp [heq]) with ⟨a, rfl⟩ | ⟨x, σ, rfl⟩ <;> cases hp
  · simp [h.placeholders]
  · rcases h.plain _ hm with ⟨a, ha⟩ | ⟨x, σ, ha⟩ <;> cases ha

theorem avoids (h : Hygienic Γ term ty) (hw : ∀ σ ∈ Γ.bindingTypes, Γ.wellFormed σ = true)
    {a : TypeId} (ha : a ∈ ty.quantifiers ++ term.quantifiers) : Γ.environment.Avoids a := by
  obtain ⟨-, hdistinct, hundeclared⟩ := h
  rw [List.append_assoc] at hdistinct hundeclared
  intro x σ hx
  have hσ : σ ∈ Γ.bindingTypes :=
    Context.mem_bindingTypes.2 ⟨x, Context.mem_environment.1 hx⟩
  have hq : a ∉ σ.quantifiers := fun hq =>
    (List.nodup_append.1 hdistinct).2.2 a (List.mem_flatMap.2 ⟨σ, hσ, hq⟩) a ha rfl
  refine ⟨fun hocc => ?_, hq⟩
  rcases Ty.free_or_quantified hocc with hf | hq'
  · exact hundeclared a (List.mem_append_right _ ha)
      ((Context.wellFormed_iff.1 (hw σ hσ)).1 a hf)
  · exact hq hq'

end Hygienic

theorem PrenexProgram.checkable {Γ : Context} {term : Term} {ty : Ty}
    (h : PrenexProgram Γ term ty) : Checkable Γ term ty := by
  obtain ⟨hhyg, hprenex, hw⟩ := h
  simp only [List.mem_append, List.mem_cons] at hprenex hw
  have hty := (hprenex ty (by simp)).1
  have hquantifiers := Ty.quantifiers_of_prenex hty
  have havoids := fun {a} => hhyg.avoids (a := a) fun σ hσ => hw σ (.inr hσ)
  have hdistinct := hhyg.distinct
  have hundeclared := hhyg.undeclared
  simp only [List.mem_append, List.nodup_append, hquantifiers] at hdistinct hundeclared havoids
  refine ⟨⟨fun p τ hp => ?_, fun x σ hx => ?_⟩, ⟨fun σ hσ => ?_, hdistinct.2.1, fun a ha => ?_⟩,
    ⟨hty, hw ty (.inl rfl), hdistinct.1.2.1, fun a ha => ?_⟩, fun a ha => havoids (.inl ha),
    fun a ha ha' => hdistinct.2.2 a (.inr ha) a ha' rfl⟩
  · rcases hhyg.plain _ hp with ⟨a, ha⟩ | ⟨x, σ, ha⟩ <;> cases ha
  · have hσ : σ ∈ Γ.bindingTypes := Context.mem_bindingTypes.2 ⟨x, hx⟩
    have hpre := (hprenex σ (.inl hσ)).1
    have hl := Ty.quantifiers_of_prenex hpre
    refine ⟨hpre, hw σ (.inr hσ), hl ▸ (List.pairwise_flatMap.1 hdistinct.1.1).1 σ hσ,
      fun a ha => hundeclared a (.inl (.inl (List.mem_flatMap.2 ⟨σ, hσ, hl ▸ ha⟩)))⟩
  · exact hprenex σ (.inr (.inr hσ))
  · exact ⟨hundeclared a (.inr ha), havoids (.inr ha)⟩
  · exact hundeclared a (.inl (.inr ha))

/-- A prenex program that is accepted is typed by the matrix of the expected type, whose quantified
variables do not occur in the environment. -/
theorem hasType_of_check (c : Checker) (term : Term) (ty : Ty) (s s' : State)
    (hprogram : PrenexProgram s.context term ty) (h : c.check term ty s = (.accepted (), s')) :
    HasType s.context.environment term ty.matrix ∧
      ∀ b ∈ ty.leading, s.context.environment.Avoids b := by
  have hs : s.Valid := hprogram.hygienic.valid
  have hcheckable := hprogram.checkable
  have hset := (typing_sound _ _).1 term ty s s' hs hcheckable h
  have he := (((atomic_typing _ _).1 term ty).evolves.result hs h)
  obtain ⟨θ, -, hθ⟩ := Context.ModeledBy.extend (Γ := []) (Δ := s'.context)
    (θ := fun _ => .void) (Throughout.nil _) he.valid.ordered hset.simplySolved
  have htyped := hset.holds θ hθ
  have henv : s.context.environment.assign θ = s.context.environment := by
    refine (List.map_congr_left fun ⟨x, σ⟩ hx => ?_).trans (List.map_id _)
    have hσ : σ ∈ s.context.bindingTypes :=
      Context.mem_bindingTypes.2 ⟨x, Context.mem_environment.1 hx⟩
    exact congrArg (x, ·) (Ty.assign_of_ground (hprogram.prenex σ (by simp [hσ])).2)
  rw [henv, Ty.assign_of_ground (hprogram.prenex ty (by simp)).2] at htyped
  exact ⟨htyped, hcheckable.avoids⟩

namespace AppliedIdentity

def start : State where
  supply := { types := #["r", "a", "b", "c"], bindings := #["f", "x", "y"] }
  context := [.var ⟨0⟩, .binding ⟨0⟩ (.forAll ⟨1⟩ (.arrow (.var ⟨1⟩) (.var ⟨0⟩)))]

def term : Term :=
  .lam ⟨1⟩ (.app
    (.ann (.lam ⟨2⟩ (.ref ⟨2⟩)) (.forAll ⟨2⟩ (.arrow (.var ⟨2⟩) (.var ⟨2⟩))))
    (.app (.ref ⟨0⟩) (.ref ⟨1⟩)))

def ty : Ty := .forAll ⟨3⟩ (.arrow (.var ⟨3⟩) (.var ⟨0⟩))

theorem term_hasType :
    PrenexProgram start.context term ty ∧
      (({} : Checker).check term ty start).1 = .accepted () ∧
      HasType start.context.environment term (.arrow (.var ⟨3⟩) (.var ⟨0⟩)) := by
  have hprogram : PrenexProgram start.context term ty := by
    refine ⟨⟨?_, by decide, by decide⟩, by decide, by decide⟩
    simp [start]
  have haccepted : (({} : Checker).check term ty start).1 = .accepted () := by decide +kernel
  refine ⟨hprogram, haccepted, ?_⟩
  rcases hrun : ({} : Checker).check term ty start with ⟨outcome, s'⟩
  rw [hrun] at haccepted
  cases haccepted
  exact (hasType_of_check {} term ty start s' hprogram hrun).1

end AppliedIdentity
end HigherRank
