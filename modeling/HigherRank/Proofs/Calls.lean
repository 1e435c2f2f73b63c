import HigherRank.Proofs.Frame

set_option autoImplicit false

/-!
# What a level calls

The judgments that one level of instantiation or of subtyping may call, and the states it calls them
from. What a judgment hands on to those it calls holds throughout a search; the premises of the
judgments on types are handed on.
-/
namespace HigherRank

open Judgment

variable {ε : Type}

/-- The instantiations that one level may call, for a resolved type. -/
inductive InstantiateCalls (next : Variance → TypeId → Ty → Search ε Unit) (v : Variance)
    (p : TypeId) (s : State) : Ty → Variance → TypeId → Ty → State → Prop where
  | parameter {τ υ : Ty} {p₁ p₂ : TypeId} {s₁ : State} : Articulated s s₁ p p₁ p₂ →
      InstantiateCalls next v p s (.arrow τ υ) v.flip p₁ τ s₁
  | result {τ υ : Ty} {p₁ p₂ : TypeId} {s₁ s₂ : State} : Articulated s s₁ p p₁ p₂ →
      next v.flip p₁ τ s₁ = (.accepted (), s₂) →
      InstantiateCalls next v p s (.arrow τ υ) v p₂ (s₂.context.apply υ) s₂
  | rigid {a : TypeId} {body : Ty} :
      InstantiateCalls next v p s (.forAll a body) .covariant p body (s.scopeWith (.var a))
  | flexible {a : TypeId} {body : Ty} (label : String) :
      InstantiateCalls next v p s (.forAll a body) .contravariant p
        (body.subst a (.placeholder ⟨s.supply.types.size⟩)) (s.scopeWithNew label)

inductive SubtypeCalls (next : Ty → Ty → Search ε Unit) (s : State) :
    Ty → Ty → Ty → Ty → State → Prop where
  | parameters {τ υ τ' υ' : Ty} : SubtypeCalls next s (.arrow τ υ) (.arrow τ' υ') τ' τ s
  | results {τ υ τ' υ' : Ty} {s₁ : State} : next τ' τ s = (.accepted (), s₁) →
      SubtypeCalls next s (.arrow τ υ) (.arrow τ' υ') υ υ' s₁
  | openSub {a : TypeId} {body sup : Ty} {s₁ : State} (label : String) : s.Retries s₁ →
      SubtypeCalls next s (.forAll a body) sup
        (body.subst a (.placeholder ⟨s₁.supply.types.size⟩)) sup (s₁.scopeWithNew label)
  | openSup {a : TypeId} {sub body : Ty} {s₁ : State} : s.Retries s₁ →
      SubtypeCalls next s sub (.forAll a body) sub body (s₁.scopeWith (.var a))

inductive SubtypeInstantiates (s : State) : Ty → Ty → Variance → TypeId → Ty → State → Prop where
  | sub {p : TypeId} {sup : Ty} {s₁ : State} : s.Retries s₁ →
      SubtypeInstantiates s (.placeholder p) sup .covariant p sup s₁
  | sup {p : TypeId} {sub : Ty} {s₁ : State} : s.Retries s₁ →
      SubtypeInstantiates s sub (.placeholder p) .contravariant p sub s₁

theorem Apart.call {next : Variance → TypeId → Ty → Search ε Unit} {v v' : Variance}
    {p p' : TypeId} {ty ty' : Ty} {s s' : State} (hn : ∀ v p ty, Atomic .nothing (next v p ty))
    (hr : InstantiationRenames next) (h : Apart s p ty)
    (hc : InstantiateCalls next v p s ty v' p' ty' s') : Apart s' p' ty' := by
  cases hc with
  | parameter ha => exact h.parameter ha
  | result ha h₁ => exact h.result hn hr ha h₁
  | rigid => exact h.body_rigid
  | flexible label => exact h.body_flexible label

section Subtyping

variable {next : Ty → Ty → Search ε Unit} {v : Variance} {p : TypeId} {sub sup sub' sup' ty : Ty}
  {s s' : State}

theorem Comparison.call (hn : ∀ sub sup, Atomic .nothing (next sub sup)) (h : Comparison s sub sup)
    (hc : SubtypeCalls next s sub sup sub' sup' s') : Comparison s' sub' sup' := by
  cases hc with
  | parameters => exact h.parts.1
  | results h₁ => exact h.parts.2.later ((hn _ _).evolves.result h.valid h₁)
  | openSub label hr => exact (h.later hr.evolves).body_flexible label
  | openSup hr => exact (h.later hr.evolves).body_rigid

theorem Comparison.instantiates (h : Comparison s sub sup) (hsub : s.context.Resolved sub)
    (hsup : s.context.Resolved sup) (hc : SubtypeInstantiates s sub sup v p ty s') :
    Solvable s' p ty := by
  -- A placeholder that is compared stands for itself, so it is unsolved.
  cases hc with
  | sub hr =>
    refine (h.later hr.evolves).solvable_sub (hr.context ▸ hsub.unsolved h.sub ?_)
    simp [Ty.placeholders]
  | sup hr =>
    refine (h.later hr.evolves).solvable_sup (hr.context ▸ hsup.unsolved h.sup ?_)
    simp [Ty.placeholders]

end Subtyping
end HigherRank
