import HigherRank.Proofs.Prenex

set_option autoImplicit false

/-!
# Accepted subtyping of prenex types is subsumption

Where types are prenex, a judgment on types that is accepted leaves a context whose models all make
the one type an instance of the other. A child scope is left with a model of what remains, which is
extended to a model of what the scope had when it ended.
-/
namespace HigherRank

open Judgment
open Opening (own)

/-- The matrix of the second type is an instance of the first. -/
def Ty.Below (σ σ' : Ty) : Prop := σ.IsInstance σ'.matrix

/-- The first type stands to the second as a constraint of this variance asks. -/
def Variance.Relates : Variance → Ty → Ty → Prop
  | covariant, τ, σ => τ.Below σ
  | contravariant, τ, σ => σ.Below τ

theorem Ty.below_iff_eq {σ σ' : Ty} (h : σ.quantifierFree = true)
    (h' : σ'.quantifierFree = true) : σ.Below σ' ↔ σ = σ' := by
  rw [Below, matrix_eq_of_quantifierFree h', isInstance_of_quantifierFree h]
  exact eq_comm

theorem Variance.relates_iff_eq {v : Variance} {τ σ : Ty} (h : τ.quantifierFree = true)
    (h' : σ.quantifierFree = true) : v.Relates τ σ ↔ τ = σ := by
  cases v with
  | covariant => exact Ty.below_iff_eq h h'
  | contravariant => exact (Ty.below_iff_eq h' h).trans eq_comm

/-- Solutions are simple, and the property holds of every model of the context. -/
structure Settles (s : State) (P : Assignment → Prop) : Prop where
  simplySolved : s.context.SimplySolved
  holds : ∀ θ, s.context.ModeledBy θ → P θ

section Scopes

variable {ε α : Type} [SearchError ε] {g : Growth} {x : Search ε α} {s s' s₁ : State} {v : α}
  {P Q : Assignment → Prop}

theorem Settles.leave (h : Settles s₁ P) (hs : s₁.Valid) (he : s.Evolves .nothing s')
    (hend : EndsScope s s' s₁)
    (hQ : ∀ θ θ', s.context.ModeledBy θ → s₁.context.ModeledBy θ' →
      (∀ p ∈ s.context.placeholders, θ' p = θ p) → P θ' → Q θ) : Settles s' Q := by
  obtain ⟨rest, hrest⟩ := hend
  refine ⟨fun p τ hp => h.simplySolved p τ (by simp [hrest, hp]), fun θ hθ => ?_⟩
  obtain ⟨θ', hagree, hθ'⟩ := hθ.extend (hrest ▸ hs.ordered) (hrest ▸ h.simplySolved)
  rw [← hrest] at hθ'
  exact hQ θ θ' (hθ.of_grows he.context) hθ'
    (fun p hp => hagree p (he.context.placeholders hp)) (h.holds θ' hθ')

theorem rigidly_settles {a : TypeId} (hx : Evolves g x) (hs : s.Valid)
    (h : rigidly a x s = (.accepted v, s'))
    (hbody : ∀ s₁, x (s.scopeWith (.var a)) = (.accepted v, s₁) → Settles s₁ P)
    (hQ : ∀ θ θ', s.context.ModeledBy θ → (∀ p ∈ s.context.placeholders, θ' p = θ p) →
      P θ' → Q θ) : Settles s' Q := by
  obtain ⟨s₁, hrun, hend⟩ := rigidly_accepted h
  have hvalid := (hx.result (hs.scopeWith rfl (by simp)) hrun).valid
  exact (hbody s₁ hrun).leave hvalid ((hx.rigidly a).evolves.result hs h) hend
    fun θ θ' hθ _ hagree => hQ θ θ' hθ hagree

theorem assuming_settles {b : BindingId} {ty : Ty} (hx : Evolves g x) (hs : s.Valid)
    (h : inChildScope (assume b ty >>= fun _ => x) s = (.accepted v, s'))
    (hbody : ∀ s₁, x (s.scopeWith (.binding b ty)) = (.accepted v, s₁) → Settles s₁ P)
    (hQ : ∀ θ θ', s.context.ModeledBy θ → (∀ p ∈ s.context.placeholders, θ' p = θ p) →
      P θ' → Q θ) : Settles s' Q := by
  obtain ⟨s₁, hrun, hend⟩ := assuming_accepted h
  have hvalid := (hx.result (hs.scopeWith rfl (by simp)) hrun).valid
  exact (hbody s₁ hrun).leave hvalid ((hx.assuming b ty).result hs h) hend
    fun θ θ' hθ _ hagree => hQ θ θ' hθ hagree

theorem flexibly_settles {a : TypeId} {ty : Ty} {f : Ty → Search ε α}
    (hf : ∀ ty, Evolves .placeholders (f ty)) (hs : s.Valid)
    (h : flexibly a ty f s = (.accepted v, s'))
    (hbody : ∀ label s₁, f (ty.subst a (.placeholder ⟨s.supply.types.size⟩))
      (s.scopeWithNew label) = (.accepted v, s₁) → Settles s₁ P)
    (hQ : ∀ θ θ', s.context.ModeledBy θ → (∀ p ∈ s.context.placeholders, θ' p = θ p) →
      (θ' ⟨s.supply.types.size⟩).simple = true →
      (∀ b ∈ (θ' ⟨s.supply.types.size⟩).free, b ∈ s.context.rigid) → P θ' → Q θ) :
    Settles s' Q := by
  obtain ⟨label, s₁, hrun, hend⟩ := flexibly_accepted h
  have he := (hf _).result (hs.scopeWithNew label) hrun
  have hrigid : s₁.context.rigid = s.context.rigid :=
    he.context.rigid.trans (s.rigid_scopeWithNew label)
  refine (hbody label s₁ hrun).leave he.valid ((atomic_flexibly a ty hf).evolves.result hs h) hend
    fun θ θ' hθ hθ' hagree => ?_
  have hfits := hθ'.fits (p := ⟨s.supply.types.size⟩) (he.context.placeholders (by
    simp [State.scopeWithNew, Context.placeholders_childScope, Entry.placeholder?]))
  exact hQ θ θ' hθ hagree hfits.1 (hrigid ▸ hfits.2)

theorem Context.SimplySolved.childScope {Γ : Context} {m : Marker} {e : Entry}
    (h : Γ.SimplySolved) (he : ∀ p τ, e ≠ .solved p τ) : (Γ.childScope m e).SimplySolved := by
  intro p τ hp
  rcases mem_childScope.1 hp with hp | hp | hp
  · exact h p τ hp
  · cases hp
  · exact absurd hp.symm (he p τ)

theorem Context.SimplySolved.fill {before after : Context} {p : TypeId}
    (h : SimplySolved (before ++ .unsolved p :: after)) (block : Context)
    (hb : block.SimplySolved) :
    SimplySolved (before ++ (block ++ after)) := by
  intro q τ hq
  simp only [List.mem_append] at hq
  rcases hq with hq | hq | hq
  · exact h q τ (by simp [hq])
  · exact hb q τ hq
  · exact h q τ (by simp [hq])

end Scopes

section Models

variable {Γ Δ : Context} {θ θ' : Assignment} {ty : Ty}

theorem Context.ModeledBy.simple (h : Γ.ModeledBy θ) (hw : Γ.wellFormed ty = true) :
    ∀ p ∈ ty.placeholders, (θ p).simple = true :=
  fun p hp => (h.fits ((wellFormed_iff.1 hw).2 p hp)).1

theorem Context.ModeledBy.quantifierFree (h : Γ.ModeledBy θ) (hw : Γ.wellFormed ty = true)
    (hq : ty.quantifierFree = true) : (ty.assign θ).quantifierFree = true :=
  Ty.quantifierFree_of_simple (Ty.simple_assign (h.simple hw) hq)

theorem Ty.assign_agree (hw : Γ.wellFormed ty = true) (h : ∀ p ∈ Γ.placeholders, θ' p = θ p) :
    ty.assign θ' = ty.assign θ :=
  assign_congr fun p hp => h p ((Context.wellFormed_iff.1 hw).2 p hp)

theorem Ty.assign_agree_body {a : TypeId} {body : Ty} (hw : Γ.wellFormed (.forAll a body) = true)
    (h : ∀ p ∈ Γ.placeholders, θ' p = θ p) : body.assign θ' = body.assign θ :=
  assign_congr fun p hp => h p ((Context.wellFormed_iff.1 hw).2 p hp)

theorem Context.ModeledBy.avoids {a : TypeId} (h : Γ.ModeledBy θ) (ha : a ∉ Γ.rigid)
    (hw : Γ.wellFormed ty = true) : ∀ p ∈ ty.placeholders, a ∉ (θ p).occurrences := by
  intro p hp hmem
  have hfits := h.fits ((wellFormed_iff.1 hw).2 p hp)
  rw [← Ty.free_eq_occurrences_of_quantifierFree (Ty.quantifierFree_of_simple hfits.1)] at hmem
  exact ha (hfits.2 a hmem)

theorem Context.ModeledBy.assign_opened {a q : TypeId} {body : Ty} (hθ : Γ.ModeledBy θ)
    (hagree : ∀ p ∈ Γ.placeholders, θ' p = θ p) (ha : a ∉ Γ.rigid)
    (hw : Γ.wellFormed (.forAll a body) = true) :
    (body.subst a (.placeholder q)).assign θ' = (body.assign θ).subst a (θ' q) := by
  have havoids : ∀ p ∈ body.placeholders, a ∉ (θ' p).occurrences := fun p hp => by
    rw [hagree p ((wellFormed_iff.1 hw).2 p hp)]
    exact hθ.avoids ha hw p hp
  rw [Ty.assign_subst havoids, Ty.assign_agree_body hw hagree]

theorem Ty.PrenexIn.isInstance_of_open {a q : TypeId} {body ρ : Ty}
    (h : (Ty.forAll a body).PrenexIn Γ) (hθ : Γ.ModeledBy θ)
    (hagree : ∀ p ∈ Γ.placeholders, θ' p = θ p) (hq : (θ' q).simple = true)
    (hρ : ((body.subst a (.placeholder q)).assign θ').IsInstance ρ) :
    ((Ty.forAll a body).assign θ).IsInstance ρ := by
  rw [hθ.assign_opened hagree (h.apart a (by simp [Ty.leading])) h.wellFormed] at hρ
  exact hρ.forAll hq

end Models

theorem Solves.simplySolved {p : TypeId} {ty : Ty} {Γ Δ : Context} (h : Solves p ty Γ Δ)
    (hty : ty.prenex = true) (hΓ : Γ.SimplySolved) : Δ.SimplySolved := by
  have hfill : ∀ {before after : Context} {q : TypeId} {τ : Ty}, τ.quantifierFree = true →
      Context.SimplySolved (before ++ .unsolved q :: after) →
      Context.SimplySolved (before ++ .solved q τ :: after) := fun hτ h =>
    h.fill [_] fun r υ hr => by
      cases List.mem_singleton.1 hr
      exact hτ
  cases h with
  | same => exact hΓ
  | direct hm _ => exact hfill (Ty.quantifierFree_of_isMonotype hty hm) hΓ
  | reversed _ _ => exact hfill rfl hΓ

theorem Solves.assign_eq {p : TypeId} {ty : Ty} {Γ Δ : Context} {θ : Assignment}
    (h : Solves p ty Γ Δ) (hθ : Δ.ModeledBy θ) : θ p = ty.assign θ := by
  cases h with
  | same heq =>
    rw [heq]
    rfl
  | direct _ _ => exact hθ.solved (by simp)
  | @reversed q _ _ heq _ =>
    have hq : θ q = (Ty.placeholder p).assign θ := hθ.solved (by simp)
    rw [heq]
    exact hq.symm

theorem articulate_simplySolved {ε : Type} [SearchError ε] {p p₁ p₂ : TypeId} {s s' : State}
    (h : (articulate p : Search ε (TypeId × TypeId)) s = (.accepted (p₁, p₂), s'))
    (hs : s.context.SimplySolved) :
    s'.context.SimplySolved := by
  obtain ⟨before, after, hbefore, hafter⟩ := articulate_accepted h
  rw [hafter]
  refine (hbefore ▸ hs).fill [_, _, _] fun q τ hq => ?_
  simp only [List.mem_cons, reduceCtorEq, Entry.solved.injEq, List.not_mem_nil, or_false,
    false_or] at hq
  rw [hq.2]
  rfl

structure Instantiable (Γ : Context) (p : TypeId) (ty : Ty) : Prop where
  solved : Γ.SimplySolved
  declared : p ∈ Γ.placeholders
  prenex : ty.PrenexIn Γ

namespace Instantiable

variable {Γ : Context} {p a : TypeId} {ty body : Ty} {s : State}

theorem apply (h : Instantiable Γ p ty) (ho : Γ.Ordered) : Instantiable Γ p (Γ.apply ty) :=
  ⟨h.solved, h.declared, h.prenex.apply h.solved ho⟩

theorem body_rigid (h : Instantiable Γ p (.forAll a body)) (m : Marker) :
    Instantiable (Γ.childScope m (.var a)) p body where
  solved := h.solved.childScope (by simp)
  declared := by
    rw [Context.placeholders_childScope]
    exact List.mem_append_left _ h.declared
  prenex := h.prenex.body_rigid m

theorem body_flexible (h : Instantiable s.context p (.forAll a body)) (label : String) :
    Instantiable (s.scopeWithNew label).context p
      (body.subst a (.placeholder ⟨s.supply.types.size⟩)) := by
  refine ⟨h.solved.childScope (by simp), ?_, h.prenex.body_flexible ?_ ?_ ?_⟩
  all_goals simp [State.scopeWithNew, Context.placeholders_childScope, Context.rigid_childScope,
    h.declared, Entry.placeholder?, Entry.rigid?, -List.mem_filterMap]

end Instantiable

/-- Every accepted constraint between a placeholder and a prenex type holds in the models of the
context that is left. -/
def InstantiationSound (next : Variance → TypeId → Ty → Judgment Unit) : Prop :=
  ∀ v p ty s s', s.Valid → Instantiable s.context p ty → next v p ty s = (.accepted (), s') →
    Settles s' fun θ => v.Relates (θ p) (ty.assign θ)

section Instantiation

variable {next : Variance → TypeId → Ty → Judgment Unit}
  (hn : ∀ v p ty, Atomic .nothing (next v p ty)) (ih : InstantiationSound next)
include hn ih

theorem instantiateRule_sound {v : Variance} {p : TypeId} {ty : Ty} {s s' : State} (hs : s.Valid)
    (hinst : Instantiable s.context p ty) (h : InstantiateRule next v p s s' ty) :
    Settles s' fun θ => v.Relates (θ p) (ty.assign θ) := by
  have hsolved := hinst.solved
  have hp := hinst.declared
  have hty := hinst.prenex
  cases h with
  | solves h =>
    refine ⟨h.simplySolved hty.prenex hsolved, fun θ hθ => ?_⟩
    have heq := h.assign_eq hθ
    have hΓ : s.context.ModeledBy θ := hθ.of_grows (h.evolves hs).context
    have hq := Ty.quantifierFree_of_simple (hΓ.fits hp).1
    exact (Variance.relates_iff_eq hq (heq ▸ hq)).2 heq
  | @arrow parameter result p₁ p₂ s₁ s₂ ha h₁ h₂ =>
    obtain ⟨before, after, -, hafter⟩ := articulate_accepted ha
    have he₁ := (atomic_articulate p).evolves.result hs ha
    have he₂ := (hn _ _ _).evolves.result he₁.valid h₁
    have he₃ := (hn _ _ _).evolves.result he₂.valid h₂
    have hsolved₁ := articulate_simplySolved ha hsolved
    have hp₁ : p₁ ∈ s₁.context.placeholders := by simp [hafter, Entry.placeholder?]
    have hp₂ : p₂ ∈ s₁.context.placeholders := by simp [hafter, Entry.placeholder?]
    obtain ⟨hparameter, hresult⟩ := hty.parts
    obtain ⟨hqp, hqr⟩ := hty.quantifierFree_parts
    have hw₁ := hparameter.grows (he₁.of_nothing .placeholders).context
    have hw₂ := hresult.grows ((he₁.trans he₂).of_nothing .placeholders).context
    have hset₁ := ih _ _ _ _ _ he₁.valid ⟨hsolved₁, hp₁, hw₁⟩ h₁
    have hset₂ := ih _ _ _ _ _ he₂.valid ⟨hset₁.simplySolved, he₂.context.placeholders hp₂,
      hw₂.apply hset₁.simplySolved he₂.valid.ordered⟩ h₂
    refine ⟨hset₂.simplySolved, fun θ hθ => ?_⟩
    have hθ₂ : s₂.context.ModeledBy θ := hθ.of_grows he₃.context
    have hθ₁ : s₁.context.ModeledBy θ := hθ₂.of_grows he₂.context
    have hsimple := fun {q} (hq : q ∈ s₁.context.placeholders) =>
      Ty.quantifierFree_of_simple (hθ₁.fits hq).1
    -- Between simple types the constraints on the two parts are equations.
    have heq₁ : θ p₁ = parameter.assign θ :=
      (Variance.relates_iff_eq (hsimple hp₁) (hθ₁.quantifierFree hw₁.wellFormed hqp)).1
        (hset₁.holds θ hθ₂)
    have heq₂ : θ p₂ = result.assign θ := by
      have hrel := hset₂.holds θ hθ
      rw [hθ₂.apply] at hrel
      exact (Variance.relates_iff_eq (hsimple hp₂) (hθ₂.quantifierFree hw₂.wellFormed hqr)).1 hrel
    have heq : θ p = (Ty.arrow parameter result).assign θ := by
      have hmem : .solved p (.arrow (.placeholder p₁) (.placeholder p₂)) ∈ s₁.context := by
        simp [hafter]
      rw [hθ₁.solved hmem]
      change Ty.arrow (θ p₁) (θ p₂) = _
      rw [heq₁, heq₂]
      rfl
    have hq := hsimple (he₁.context.placeholders hp)
    exact (Variance.relates_iff_eq hq (heq ▸ hq)).2 heq
  | @rigid a body hv h =>
    subst hv
    refine rigidly_settles (P := fun θ' => (θ' p).Below (body.assign θ')) (hn _ _ _).evolves hs h
      (fun s₁ hrun => ?_) fun θ θ' hθ hagree hrel => ?_
    · exact ih _ _ _ _ _ (hs.scopeWith rfl (by simp)) (hinst.body_rigid _) hrun
    · change (θ p).Below (body.assign θ)
      rwa [← hagree p hp, ← Ty.assign_agree_body hty.wellFormed hagree]
  | @flexible a body hv h =>
    subst hv
    refine flexibly_settles
      (P := fun θ' => ((body.subst a (.placeholder ⟨s.supply.types.size⟩)).assign θ').Below (θ' p))
      (fun _ => (hn _ _ _).of_nothing.evolves) hs h (fun label s₁ hrun => ?_)
      fun θ θ' hθ hagree hq _ hrel => ?_
    · exact ih _ _ _ _ _ (hs.scopeWithNew label) (hinst.body_flexible label) hrun
    · have hbelow := hty.isInstance_of_open hθ hagree hq hrel
      rw [hagree p hp] at hbelow
      exact hbelow

theorem instantiateStep_sound : InstantiationSound (own.instantiateStep next) := by
  intro v p ty s s' hs hinst h
  have hset := instantiateRule_sound hn ih hs (hinst.apply hs.ordered) (instantiateStep_accepted h)
  have he := (atomic_instantiateStep hn v p ty).evolves.result hs h
  refine ⟨hset.simplySolved, fun θ hθ => ?_⟩
  have hrel := hset.holds θ hθ
  rwa [(hθ.of_grows he.context).apply] at hrel

end Instantiation

theorem instantiate_sound (limit left : Nat) : InstantiationSound (own.instantiate limit left) := by
  induction left with
  | zero =>
    intro v p ty s s' _ _ h
    cases h
  | succ left ih =>
    intro v p ty s s' hs hinst h
    obtain ⟨s₁, hrun, rfl⟩ := nested_accepted h
    have hset := instantiateStep_sound (atomic_instantiate limit left) ih v p ty _ _
      (hs.withDepth (s.depth + 1)) hinst hrun
    exact ⟨hset.simplySolved, hset.holds⟩

/-- Prenex types that may be compared: they have no common quantifier. -/
structure Comparable (Γ : Context) (sub sup : Ty) : Prop where
  solved : Γ.SimplySolved
  lower : sub.PrenexIn Γ
  upper : sup.PrenexIn Γ
  apart : ∀ a ∈ sub.leading, a ∉ sup.leading

namespace Comparable

variable {Γ : Context} {a : TypeId} {sub sup body : Ty} {s : State}

theorem apply (h : Comparable Γ sub sup) (ho : Γ.Ordered) :
    Comparable Γ (Γ.apply sub) (Γ.apply sup) where
  solved := h.solved
  lower := h.lower.apply h.solved ho
  upper := h.upper.apply h.solved ho
  apart := by
    rw [h.solved.leading_apply, h.solved.leading_apply]
    exact h.apart

theorem body_flexible (h : Comparable s.context (.forAll a body) sup) (label : String) :
    Comparable (s.scopeWithNew label).context
      (body.subst a (.placeholder ⟨s.supply.types.size⟩)) sup := by
  refine ⟨h.solved.childScope (by simp), h.lower.body_flexible ?_ ?_ ?_, h.upper.mono ?_ ?_, ?_⟩
  · simp [State.scopeWithNew, Context.rigid_childScope, Entry.rigid?]
  · simp [State.scopeWithNew, Context.placeholders_childScope]
  · simp [State.scopeWithNew, Context.placeholders_childScope, Entry.placeholder?]
  · simp [State.scopeWithNew, Context.rigid_childScope, Entry.rigid?]
  · simp [State.scopeWithNew, Context.placeholders_childScope]
  · rw [Ty.leading_subst rfl]
    exact fun b hb => h.apart b (List.mem_cons_of_mem _ hb)

theorem body_rigid (h : Comparable Γ sub (.forAll a body)) (m : Marker) :
    Comparable (Γ.childScope m (.var a)) sub body := by
  refine ⟨h.solved.childScope (by simp), h.lower.declare ?_ m, h.upper.body_rigid m, ?_⟩
  · exact fun ha => h.apart a ha (by simp [Ty.leading])
  · exact fun b hb hb' => h.apart b hb (List.mem_cons_of_mem _ hb')

theorem instantiable_upper {p : TypeId} (h : Comparable Γ (.placeholder p) sup) :
    Instantiable Γ p sup :=
  ⟨h.solved, Context.wellFormed_placeholder.1 h.lower.wellFormed, h.upper⟩

theorem instantiable_lower {p : TypeId} (h : Comparable Γ sub (.placeholder p)) :
    Instantiable Γ p sub :=
  ⟨h.solved, Context.wellFormed_placeholder.1 h.upper.wellFormed, h.lower⟩

theorem parts {parameter result parameter' result' : Ty}
    (h : Comparable Γ (.arrow parameter result) (.arrow parameter' result')) :
    Comparable Γ parameter' parameter ∧ ∀ {n : Nat} {Δ : Context},
      Context.Grows .placeholders n Γ Δ → Δ.SimplySolved → Comparable Δ result result' := by
  obtain ⟨hp, hr⟩ := h.lower.parts
  obtain ⟨hp', hr'⟩ := h.upper.parts
  have hqp := Ty.leading_eq_nil_of_quantifierFree h.lower.quantifierFree_parts.1
  have hqr' := Ty.leading_eq_nil_of_quantifierFree h.upper.quantifierFree_parts.2
  exact ⟨⟨h.solved, hp', hp, by simp [hqp]⟩, fun hg hΔ => ⟨hΔ, hr.grows hg, hr'.grows hg,
    by simp [hqr']⟩⟩

end Comparable

def SubtypingSound (next : Ty → Ty → Judgment Unit) : Prop :=
  ∀ sub sup s s', s.Valid → Comparable s.context sub sup → next sub sup s = (.accepted (), s') →
    Settles s' fun θ => (sub.assign θ).Below (sup.assign θ)

theorem Ty.eq_of_sameAtom {sub sup : Ty} (h : sub.sameAtom sup = true) :
    sub = sup ∧ sub.quantifierFree = true := by
  cases sub <;> cases sup <;> simp [sameAtom] at h
  · exact ⟨rfl, rfl⟩
  · exact ⟨congrArg _ h, rfl⟩
  · exact ⟨congrArg _ h, rfl⟩

section Subtyping

variable {next : Ty → Ty → Judgment Unit} {instantiate : Variance → TypeId → Ty → Judgment Unit}
  (hn : ∀ sub sup, Atomic .nothing (next sub sup))
  (hi : ∀ v p ty, Atomic .nothing (instantiate v p ty))
  (ih : SubtypingSound next) (ihi : InstantiationSound instantiate)
include hn ih ihi

theorem subtypeRule_sound {sub sup : Ty} {s s' : State} (hs : s.Valid)
    (hcomp : Comparable s.context sub sup) (h : SubtypeRule next instantiate s s' sub sup) :
    Settles s' fun θ => (sub.assign θ).Below (sup.assign θ) := by
  have hsub := hcomp.lower
  have hsup := hcomp.upper
  cases h with
  | @arrow parameter result parameter' result' s₁ h₁ h₂ =>
    have he₁ := (hn _ _).evolves.result hs h₁
    have he₂ := (hn _ _).evolves.result he₁.valid h₂
    have hg := (he₁.of_nothing .placeholders).context
    obtain ⟨hp, hr⟩ := hsub.parts
    obtain ⟨hp', hr'⟩ := hsup.parts
    obtain ⟨hqp, hqr⟩ := hsub.quantifierFree_parts
    obtain ⟨hqp', hqr'⟩ := hsup.quantifierFree_parts
    obtain ⟨hparameter, hresult⟩ := hcomp.parts
    have hset₁ := ih _ _ _ _ hs hparameter h₁
    have hset₂ := ih _ _ _ _ he₁.valid (hresult hg hset₁.simplySolved) h₂
    refine ⟨hset₂.simplySolved, fun θ hθ => ?_⟩
    have hθ₁ : s₁.context.ModeledBy θ := hθ.of_grows he₂.context
    have hθ₀ : s.context.ModeledBy θ := hθ₁.of_grows he₁.context
    have hfree := fun {ty : Ty} (h : ty.PrenexIn s.context) => hθ₀.quantifierFree h.wellFormed
    have heq₁ : parameter'.assign θ = parameter.assign θ :=
      (Ty.below_iff_eq (hfree hp' hqp') (hfree hp hqp)).1 (hset₁.holds θ hθ₁)
    have heq₂ : result.assign θ = result'.assign θ :=
      (Ty.below_iff_eq (hfree hr hqr) (hfree hr' hqr')).1 (hset₂.holds θ hθ)
    have heq : (Ty.arrow parameter result).assign θ = (Ty.arrow parameter' result').assign θ := by
      change Ty.arrow (parameter.assign θ) (result.assign θ) = _
      rw [← heq₁, heq₂]
      rfl
    exact (Ty.below_iff_eq (hfree hsub hsub.prenex) (hfree hsup hsup.prenex)).2 heq
  | atom hatom hstate =>
    subst hstate
    obtain ⟨rfl, hq⟩ := Ty.eq_of_sameAtom hatom
    refine ⟨hcomp.solved, fun θ hθ => ?_⟩
    have hfree := hθ.quantifierFree hsub.wellFormed hq
    exact (Ty.below_iff_eq hfree hfree).2 rfl
  | @openSub a body sup s₁ hretry h =>
    have hs₁ := hretry.evolves.valid
    rw [← hretry.context] at hcomp hsub hsup
    refine flexibly_settles
      (P := fun θ' => ((body.subst a (.placeholder ⟨s₁.supply.types.size⟩)).assign θ').Below
        (sup.assign θ'))
      (fun _ => (hn _ _).of_nothing.evolves) hs₁ h (fun label s₂ hrun => ?_)
      fun θ θ' hθ hagree hq _ hrel => ?_
    · exact ih _ _ _ _ (hs₁.scopeWithNew label) (hcomp.body_flexible label) hrun
    · have hbelow := hsub.isInstance_of_open hθ hagree hq hrel
      rwa [Ty.assign_agree hsup.wellFormed hagree] at hbelow
  | @openSup a sub body s₁ hretry h =>
    have hs₁ := hretry.evolves.valid
    rw [← hretry.context] at hcomp hsub hsup
    refine rigidly_settles (P := fun θ' => (sub.assign θ').Below (body.assign θ'))
      (hn _ _).evolves hs₁ h (fun s₂ hrun => ?_) fun θ θ' hθ hagree hrel => ?_
    · exact ih _ _ _ _ (hs₁.scopeWith rfl (by simp)) (hcomp.body_rigid _) hrun
    · change (sub.assign θ).Below (body.assign θ)
      rwa [← Ty.assign_agree hsub.wellFormed hagree,
        ← Ty.assign_agree_body hsup.wellFormed hagree]
  | @solveSub p sup s₁ hretry h =>
    rw [← hretry.context] at hcomp
    exact ihi .covariant p sup s₁ s' hretry.evolves.valid hcomp.instantiable_upper h
  | @solveSup p sub s₁ hretry h =>
    rw [← hretry.context] at hcomp
    exact ihi .contravariant p sub s₁ s' hretry.evolves.valid hcomp.instantiable_lower h

include hi

theorem subtypeStep_sound : SubtypingSound (own.subtypeStep next instantiate) := by
  intro sub sup s s' hs hcomp h
  have hset := subtypeRule_sound hn ih ihi hs (hcomp.apply hs.ordered)
    (subtypeStep_accepted hn hi hs h)
  have he := (atomic_subtypeStep hn hi sub sup).evolves.result hs h
  refine ⟨hset.simplySolved, fun θ hθ => ?_⟩
  have hrel := hset.holds θ hθ
  have hΓ : s.context.ModeledBy θ := hθ.of_grows he.context
  rwa [hΓ.apply, hΓ.apply] at hrel

end Subtyping

theorem subtype_sound (limit left : Nat) : SubtypingSound (own.subtype limit left) := by
  induction left with
  | zero =>
    intro sub sup s s' _ _ h
    cases h
  | succ left ih =>
    intro sub sup s s' hs hcomp h
    obtain ⟨s₁, hrun, rfl⟩ := nested_accepted h
    have hset := subtypeStep_sound (atomic_subtype limit left) (atomic_instantiate limit left) ih
      (instantiate_sound limit left) sub sup _ _ (hs.withDepth (s.depth + 1)) hcomp hrun
    exact ⟨hset.simplySolved, hset.holds⟩

end HigherRank
