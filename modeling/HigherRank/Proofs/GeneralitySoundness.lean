import HigherRank.Proofs.Generality

set_option autoImplicit false

/-!
# Accepted predicative subtyping follows the order

A comparison that is accepted before a placeholder was solved to a type with a quantifier inside leaves a
context whose models all make the one type at least as general as the other. This is for types of any
rank, as long as no identifier is quantified twice or declared besides.
-/
namespace HigherRank

open Judgment
open Opening (own)

theorem State.rigid_scopeWith (s : State) (a : TypeId) :
    (s.scopeWith (.var a)).context.rigid = s.context.rigid ++ [a] :=
  Context.rigid_childScope

theorem Context.ModeledBy.simpleOver {Γ : Context} {θ : Assignment} {p : TypeId}
    (h : Γ.ModeledBy θ) (hp : p ∈ Γ.placeholders) : (θ p).SimpleOver Γ.rigid :=
  ⟨(h.fits hp).1, (h.fits hp).2⟩

/-- A placeholder that may be constrained by a type of any rank. -/
structure Constrained (Γ : Context) (p : TypeId) (ty : Ty) : Prop where
  solved : Γ.SimplySolved
  declared : p ∈ Γ.placeholders
  wellFormed : Γ.wellFormed ty = true
  separate : Ty.Separate Γ.rigid ty.quantifiers

namespace Constrained

variable {Γ : Context} {p a : TypeId} {ty body τ υ : Ty} {s : State}

theorem apply (h : Constrained Γ p ty) (ho : Γ.Ordered) : Constrained Γ p (Γ.apply ty) := by
  refine ⟨h.solved, h.declared, ho.wellFormed_apply h.wellFormed, ?_⟩
  rw [h.solved.quantifiers_apply]
  exact h.separate

theorem not_mem (h : Constrained Γ p (.forAll a body)) : a ∉ Γ.rigid :=
  h.separate.not_mem (List.mem_cons_self ..)

theorem body_rigid (h : Constrained s.context p (.forAll a body)) :
    Constrained (s.scopeWith (.var a)).context p body where
  solved := h.solved.childScope (by simp)
  declared := by
    rw [State.scopeWith, Context.placeholders_childScope]
    exact List.mem_append_left _ h.declared
  wellFormed := Context.wellFormed_declared h.wellFormed
  separate := by
    rw [s.rigid_scopeWith]
    have hseparate : Ty.Separate s.context.rigid ([] ++ (Ty.forAll a body).quantifiers) := h.separate
    exact hseparate.declared

theorem body_flexible (h : Constrained s.context p (.forAll a body)) (label : String) :
    Constrained (s.scopeWithNew label).context p
      (body.subst a (.placeholder ⟨s.supply.types.size⟩)) where
  solved := h.solved.childScope (by simp)
  declared := by
    rw [State.scopeWithNew, Context.placeholders_childScope]
    exact List.mem_append_left _ h.declared
  wellFormed := Context.wellFormed_opened h.wellFormed label
  separate := by
    rw [s.rigid_scopeWithNew, Ty.quantifiers_subst rfl]
    refine h.separate.of_le fun c => ?_
    rw [Ty.count_forAll]
    omega

theorem part {n : Nat} {Δ : Context} {q : TypeId} (h : Constrained Γ p (.arrow τ υ))
    (hpart : ty = τ ∨ ty = υ) (hg : Context.Grows .placeholders n Γ Δ) (hΔ : Δ.SimplySolved)
    (hq : q ∈ Δ.placeholders) : Constrained Δ q ty := by
  obtain ⟨hτ, hυ⟩ := Context.wellFormed_arrow.1 h.wellFormed
  refine ⟨hΔ, hq, hg.wellFormed ?_, ?_⟩
  · rcases hpart with rfl | rfl
    · exact hτ
    · exact hυ
  · rw [hg.rigid]
    refine h.separate.of_le fun c => ?_
    rw [Ty.count_arrow]
    rcases hpart with rfl | rfl <;> omega

end Constrained

theorem Ty.Generalizes.of_open {Γ : Context} {θ θ' : Assignment} {a q : TypeId} {body ρ : Ty}
    (hw : Γ.wellFormed (.forAll a body) = true) (ha : a ∉ Γ.rigid) (hθ : Γ.ModeledBy θ)
    (hagree : ∀ p ∈ Γ.placeholders, θ' p = θ p) (hq : (θ' q).SimpleOver Γ.rigid)
    (h : Generalizes Γ.rigid ((body.subst a (.placeholder q)).assign θ') ρ) :
    Generalizes Γ.rigid ((Ty.forAll a body).assign θ) ρ := by
  rw [hθ.assign_opened hagree ha hw] at h
  exact .opened hq h

/-- Every accepted constraint between a placeholder and a type holds in the models of the context that
is left. -/
def InstantiationOrders (next : Variance → TypeId → Ty → Search Halt Unit) : Prop :=
  ∀ v p ty s s', s.Valid → Constrained s.context p ty → next v p ty s = (.accepted (), s') →
    Settles s' fun θ => v.Between s.context.rigid (θ p) (ty.assign θ)

section Instantiation

variable {next : Variance → TypeId → Ty → Search Halt Unit}
  (hn : ∀ v p ty, Atomic .nothing (next v p ty)) (ih : InstantiationOrders next)
include hn ih

theorem instantiateRule_orders {v : Variance} {p : TypeId} {ty : Ty} {s s' : State} (hs : s.Valid)
    (h : Constrained s.context p ty) (hpred : s.context.impredicative p ty = false)
    (hrule : InstantiateRule next v p s s' ty) :
    Settles s' fun θ => v.Between s.context.rigid (θ p) (ty.assign θ) := by
  cases hrule with
  | solves hsolves =>
    -- The search would have stopped before a solution with a quantifier, for which equal is too much.
    have he := hsolves.evolves hs
    have hfree := hsolves.quantifierFree he.valid.ordered hpred
    refine ⟨hsolves.simplySolved (Ty.prenex_of_quantifierFree hfree) h.solved, fun θ hθ => ?_⟩
    rw [← hsolves.assign_eq hθ]
    exact .refl ((hθ.of_grows he.context).simpleOver h.declared)
  | @arrow τ υ p₁ p₂ s₁ s₂ ha h₁ h₂ =>
    have hsolved₁ := articulate_simplySolved ha h.solved
    have ha := articulated_of_accepted hs ha
    have he₁ := (hn _ _ _).evolves.result ha.evolves.valid h₁
    have he₂ := (hn _ _ _).evolves.result he₁.valid h₂
    have hg₁ := (ha.evolves.of_nothing .placeholders).context
    have hg₂ := ((ha.evolves.trans he₁).of_nothing .placeholders).context
    have hp₁ := Context.placeholder_mem_of_unsolved ha.parameterOpen
    have hp₂ := Context.placeholder_mem_of_unsolved ha.resultOpen
    have hset₁ := ih _ _ _ _ _ ha.evolves.valid (h.part (.inl rfl) hg₁ hsolved₁ hp₁) h₁
    have hset₂ := ih _ _ _ _ _ he₁.valid ((h.part (.inr rfl) hg₂ hset₁.simplySolved
      (he₁.context.placeholders hp₂)).apply he₁.valid.ordered) h₂
    refine ⟨hset₂.simplySolved, fun θ hθ => ?_⟩
    have hθ₂ : s₂.context.ModeledBy θ := hθ.of_grows he₂.context
    have hparameter := hset₁.holds θ hθ₂
    have hresult := hset₂.holds θ hθ
    rw [hg₁.rigid] at hparameter
    rw [hθ₂.apply, hg₂.rigid] at hresult
    rw [(hθ₂.of_grows he₁.context).solved ha.solved]
    exact .arrow hparameter hresult
  | @rigid a body hv hrun =>
    subst hv
    refine rigidly_settles
      (P := fun θ' => (θ' p).Generalizes (s.context.rigid ++ [a]) (body.assign θ'))
      (hn _ _ _).evolves hs hrun (fun s₁ hrun => ?_) fun θ θ' hθ hagree hbody => ?_
    · rw [← s.rigid_scopeWith]
      exact ih _ _ _ _ _ (hs.scopeWith rfl (by simp)) h.body_rigid hrun
    · rw [hagree p h.declared, Ty.assign_agree_body h.wellFormed hagree] at hbody
      exact .declared hbody
  | @flexible a body hv hrun =>
    subst hv
    refine flexibly_settles
      (P := fun θ' => ((body.subst a (.placeholder ⟨s.supply.types.size⟩)).assign θ').Generalizes
        s.context.rigid (θ' p))
      (fun _ => (hn _ _ _).of_nothing.evolves) hs hrun (fun label s₁ hrun => ?_)
      fun θ θ' hθ hagree hq hscope hbody => ?_
    · rw [← s.rigid_scopeWithNew label]
      exact ih _ _ _ _ _ (hs.scopeWithNew label) (h.body_flexible label) hrun
    · rw [hagree p h.declared] at hbody
      exact .of_open h.wellFormed h.not_mem hθ hagree ⟨hq, hscope⟩ hbody

theorem instantiateStep_orders {v : Variance} {p : TypeId} {ty : Ty} {s s' : State} (hs : s.Valid)
    (h : Constrained s.context p ty)
    (hrun : predicatively p ty (own.instantiateStep next v p ty) s = (.accepted (), s')) :
    Settles s' fun θ => v.Between s.context.rigid (θ p) (ty.assign θ) := by
  obtain ⟨hpred, hrun⟩ := predicatively_accepted hrun
  have hset := instantiateRule_orders hn ih hs (h.apply hs.ordered) hpred
    (instantiateStep_accepted hrun)
  have he := (atomic_instantiateStep hn v p ty).evolves.result hs hrun
  refine ⟨hset.simplySolved, fun θ hθ => ?_⟩
  rw [← (hθ.of_grows he.context).apply ty]
  exact hset.holds θ hθ

end Instantiation

theorem Predicative.instantiate_orders (limit left : Nat) :
    InstantiationOrders (instantiate limit left) := by
  induction left with
  | zero =>
    intro v p ty s s' _ _ h
    cases h
  | succ left ih =>
    intro v p ty s s' hs h haccepted
    obtain ⟨s₁, hrun, rfl⟩ := nested_accepted haccepted
    have hset := instantiateStep_orders (atomic_instantiate limit left) ih
      (hs.withDepth (s.depth + 1)) h hrun
    exact ⟨hset.simplySolved, hset.holds⟩

/-- Types of any rank that may be compared. -/
structure Comparands (Γ : Context) (sub sup : Ty) : Prop where
  solved : Γ.SimplySolved
  lower : Γ.wellFormed sub = true
  upper : Γ.wellFormed sup = true
  separate : Ty.Separate Γ.rigid (sub.quantifiers ++ sup.quantifiers)

namespace Comparands

variable {Γ : Context} {a p : TypeId} {sub sup body : Ty} {s : State}

theorem apply (h : Comparands Γ sub sup) (ho : Γ.Ordered) :
    Comparands Γ (Γ.apply sub) (Γ.apply sup) := by
  refine ⟨h.solved, ho.wellFormed_apply h.lower, ho.wellFormed_apply h.upper, ?_⟩
  rw [h.solved.quantifiers_apply, h.solved.quantifiers_apply]
  exact h.separate

theorem not_mem (h : Comparands Γ (.forAll a body) sup) : a ∉ Γ.rigid :=
  h.separate.not_mem (List.mem_cons_self ..)

theorem body_flexible (h : Comparands s.context (.forAll a body) sup) (label : String) :
    Comparands (s.scopeWithNew label).context
      (body.subst a (.placeholder ⟨s.supply.types.size⟩)) sup where
  solved := h.solved.childScope (by simp)
  lower := Context.wellFormed_opened h.lower label
  upper := Context.wellFormed_childScope h.upper
  separate := by
    rw [s.rigid_scopeWithNew, Ty.quantifiers_subst rfl]
    refine h.separate.of_le fun c => ?_
    simp only [List.count_append, Ty.count_forAll]
    omega

theorem body_rigid (h : Comparands s.context sub (.forAll a body)) :
    Comparands (s.scopeWith (.var a)).context sub body where
  solved := h.solved.childScope (by simp)
  lower := Context.wellFormed_childScope h.lower
  upper := Context.wellFormed_declared h.upper
  separate := by
    rw [s.rigid_scopeWith]
    exact h.separate.declared

theorem parts {τ υ τ' υ' : Ty} (h : Comparands Γ (.arrow τ υ) (.arrow τ' υ')) :
    Comparands Γ τ' τ ∧ ∀ {n : Nat} {Δ : Context}, Context.Grows .placeholders n Γ Δ →
      Δ.SimplySolved → Comparands Δ υ υ' := by
  obtain ⟨hτ, hυ⟩ := Context.wellFormed_arrow.1 h.lower
  obtain ⟨hτ', hυ'⟩ := Context.wellFormed_arrow.1 h.upper
  exact ⟨⟨h.solved, hτ', hτ, h.separate.parts.1⟩, fun hg hΔ => ⟨hΔ, hg.wellFormed hυ,
    hg.wellFormed hυ', hg.rigid ▸ h.separate.parts.2⟩⟩

theorem constrained_upper (h : Comparands Γ (.placeholder p) sup) : Constrained Γ p sup :=
  ⟨h.solved, Context.wellFormed_placeholder.1 h.lower, h.upper, h.separate⟩

theorem constrained_lower (h : Comparands Γ sub (.placeholder p)) : Constrained Γ p sub :=
  ⟨h.solved, Context.wellFormed_placeholder.1 h.upper, h.lower,
    List.append_nil sub.quantifiers ▸ h.separate⟩

end Comparands

/-- Accepted subtyping holds in the models of the context that is left. -/
def SubtypingOrders (next : Ty → Ty → Search Halt Unit) : Prop :=
  ∀ sub sup s s', s.Valid → Comparands s.context sub sup → next sub sup s = (.accepted (), s') →
    Settles s' fun θ => (sub.assign θ).Generalizes s.context.rigid (sup.assign θ)

section Subtyping

variable {next : Ty → Ty → Search Halt Unit}
  {instantiate : Variance → TypeId → Ty → Search Halt Unit}
  (hn : ∀ sub sup, Atomic .nothing (next sub sup))
  (hi : ∀ v p ty, Atomic .nothing (instantiate v p ty))
  (ih : SubtypingOrders next) (ihi : InstantiationOrders instantiate)
include hn ih ihi

theorem subtypeRule_orders {sub sup : Ty} {s s' : State} (hs : s.Valid)
    (h : Comparands s.context sub sup) (hrule : SubtypeRule next instantiate s s' sub sup) :
    Settles s' fun θ => (sub.assign θ).Generalizes s.context.rigid (sup.assign θ) := by
  cases hrule with
  | @arrow τ υ τ' υ' s₁ h₁ h₂ =>
    have he₁ := (hn _ _).evolves.result hs h₁
    have he₂ := (hn _ _).evolves.result he₁.valid h₂
    have hg := (he₁.of_nothing .placeholders).context
    have hset₁ := ih _ _ _ _ hs h.parts.1 h₁
    have hset₂ := ih _ _ _ _ he₁.valid (h.parts.2 hg hset₁.simplySolved) h₂
    refine ⟨hset₂.simplySolved, fun θ hθ => ?_⟩
    have hresult := hset₂.holds θ hθ
    rw [hg.rigid] at hresult
    exact .arrow (hset₁.holds θ (hθ.of_grows he₂.context)) hresult
  | atom hatom hstate =>
    subst hstate
    obtain ⟨rfl, hq⟩ := Ty.eq_of_sameAtom hatom
    exact ⟨h.solved, fun θ hθ => .refl (Ty.SimpleIn.simpleOver ⟨h.lower, hq⟩ hθ)⟩
  | @openSub a body sup s₁ hretry hrun =>
    have hs₁ := hretry.evolves.valid
    rw [← hretry.context] at h ⊢
    refine flexibly_settles
      (P := fun θ' => ((body.subst a (.placeholder ⟨s₁.supply.types.size⟩)).assign θ').Generalizes
        s₁.context.rigid (sup.assign θ'))
      (fun _ => (hn _ _).of_nothing.evolves) hs₁ hrun (fun label s₂ hrun => ?_)
      fun θ θ' hθ hagree hq hscope hbody => ?_
    · rw [← s₁.rigid_scopeWithNew label]
      exact ih _ _ _ _ (hs₁.scopeWithNew label) (h.body_flexible label) hrun
    · rw [Ty.assign_agree h.upper hagree] at hbody
      exact .of_open h.lower h.not_mem hθ hagree ⟨hq, hscope⟩ hbody
  | @openSup a sub body s₁ hretry hrun =>
    have hs₁ := hretry.evolves.valid
    rw [← hretry.context] at h ⊢
    refine rigidly_settles
      (P := fun θ' => (sub.assign θ').Generalizes (s₁.context.rigid ++ [a]) (body.assign θ'))
      (hn _ _).evolves hs₁ hrun (fun s₂ hrun => ?_) fun θ θ' hθ hagree hbody => ?_
    · rw [← s₁.rigid_scopeWith]
      exact ih _ _ _ _ (hs₁.scopeWith rfl (by simp)) h.body_rigid hrun
    · rw [Ty.assign_agree h.lower hagree, Ty.assign_agree_body h.upper hagree] at hbody
      exact .declared hbody
  | @solveSub p sup s₁ hretry hrun =>
    rw [← hretry.context] at h ⊢
    exact ihi .covariant p sup s₁ s' hretry.evolves.valid h.constrained_upper hrun
  | @solveSup p sub s₁ hretry hrun =>
    rw [← hretry.context] at h ⊢
    exact ihi .contravariant p sub s₁ s' hretry.evolves.valid h.constrained_lower hrun

include hi

theorem subtypeStep_orders : SubtypingOrders (own.subtypeStep next instantiate) := by
  intro sub sup s s' hs h hrun
  have hset := subtypeRule_orders hn ih ihi hs (h.apply hs.ordered)
    (subtypeStep_accepted hn hi hs hrun)
  have he := (atomic_subtypeStep hn hi sub sup).evolves.result hs hrun
  refine ⟨hset.simplySolved, fun θ hθ => ?_⟩
  have hΓ : s.context.ModeledBy θ := hθ.of_grows he.context
  rw [← hΓ.apply sub, ← hΓ.apply sup]
  exact hset.holds θ hθ

end Subtyping

theorem Predicative.subtype_orders (limit left : Nat) : SubtypingOrders (subtype limit left) := by
  induction left with
  | zero =>
    intro sub sup s s' _ _ h
    cases h
  | succ left ih =>
    intro sub sup s s' hs h haccepted
    obtain ⟨s₁, hrun, rfl⟩ := nested_accepted haccepted
    have hset := subtypeStep_orders (atomic_subtype limit left) (atomic_instantiate limit left) ih
      (instantiate_orders limit left) sub sup _ _ (hs.withDepth (s.depth + 1)) h hrun
    exact ⟨hset.simplySolved, hset.holds⟩

end HigherRank
