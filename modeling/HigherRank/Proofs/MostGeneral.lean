import HigherRank.Proofs.Decision
import HigherRank.Proofs.SimpleTyping
import HigherRank.Proofs.Unification

set_option autoImplicit false

/-!
# Comparison without quantifiers is most general unification

Types without quantifiers are compared by making them equal. The context that is left resolves both to
one type, and every way to make them equal that respects the order of the context goes through it. If
there is no such way, the comparison is rejected.
-/
namespace HigherRank

open Judgment
open Opening (own)

theorem Solves.apply_eq {p : TypeId} {ty : Ty} {Γ Δ : Context} (h : Solves p ty Γ Δ)
    (ho : Δ.Ordered) : Δ.apply (.placeholder p) = Δ.apply ty := by
  cases h with
  | same heq => rw [heq]
  | direct _ _ => exact ho.apply_of_solved (by simp)
  | reversed heq _ =>
    rw [heq]
    exact (ho.apply_of_solved (by simp)).symm

/-- Accepted instantiations by types without quantifiers make the placeholder equal to the type, and
solve nothing to a type with quantifiers. -/
def InstantiationEquates (next : Variance → TypeId → Ty → Judgment Unit) : Prop :=
  ∀ v p ty s s', s.Valid → s.context.SimplySolved → p ∈ s.context.placeholders →
    ty.SimpleIn s.context → next v p ty s = (.accepted (), s') →
    s'.context.SimplySolved ∧ s'.context.apply (.placeholder p) = s'.context.apply ty

theorem instantiateStep_equates {next : Variance → TypeId → Ty → Judgment Unit}
    (hn : ∀ v p ty, Atomic .nothing (next v p ty)) (ih : InstantiationEquates next) :
    InstantiationEquates (own.instantiateStep next) := by
  intro v p ty s s' hs hsolved hp hty h
  have he := (atomic_instantiateStep hn v p ty).evolves.result hs h
  have hrule := instantiateStep_accepted h
  rw [← he.context.apply_apply hs.ordered he.valid.ordered ty]
  replace hty := hty.apply hs.ordered hsolved
  generalize s.context.apply ty = ty at hty hrule
  cases hrule with
  | solves h =>
    exact ⟨h.simplySolved (Ty.prenex_of_quantifierFree hty.quantifierFree) hsolved,
      h.apply_eq he.valid.ordered⟩
  | @arrow τ υ p₁ p₂ s₁ s₂ ha h₁ h₂ =>
    have hsolved₁ := articulate_simplySolved ha hsolved
    have ha := articulated_of_accepted hs ha
    have he₁ := (hn _ _ _).evolves.result ha.evolves.valid h₁
    have he₂ := (hn _ _ _).evolves.result he₁.valid h₂
    obtain ⟨hτ, hυ⟩ := hty.parts
    have hp₁ := Context.placeholder_mem_of_unsolved ha.parameterOpen
    have hp₂ := he₁.context.placeholders (Context.placeholder_mem_of_unsolved ha.resultOpen)
    obtain ⟨hsolved₂, heq₁⟩ := ih _ _ _ _ _ ha.evolves.valid hsolved₁ hp₁
      (hτ.grows (ha.evolves.of_nothing .placeholders).context) h₁
    have hυ₂ := hυ.grows ((ha.evolves.trans he₁).of_nothing .placeholders).context
    obtain ⟨hsolved', heq₂⟩ := ih _ _ _ _ _ he₁.valid hsolved₂ hp₂
      (hυ₂.apply he₁.valid.ordered hsolved₂) h₂
    refine ⟨hsolved', ?_⟩
    have hmem := (he₁.trans he₂).context.solved_mem ha.solved
    -- What the first half has made equal stays equal.
    have heq₁' := congrArg s'.context.apply heq₁
    simp only [he₂.context.apply_apply he₁.valid.ordered he.valid.ordered] at heq₁' heq₂
    rw [he.valid.ordered.apply_of_solved hmem, Context.apply_arrow, Context.apply_arrow, heq₁', heq₂]
  | rigid => cases hty.quantifierFree
  | flexible => cases hty.quantifierFree

theorem instantiate_equates (limit left : Nat) :
    InstantiationEquates (own.instantiate limit left) := by
  induction left with
  | zero =>
    intro v p ty s s' _ _ _ _ h
    cases h
  | succ left ih =>
    intro v p ty s s' hs hsolved hp hty h
    obtain ⟨s₁, hrun, rfl⟩ := nested_accepted h
    exact instantiateStep_equates (atomic_instantiate limit left) ih v p ty
      { s with depth := s.depth + 1 } s₁ (hs.withDepth _) hsolved hp hty hrun

def SubtypingEquates (next : Ty → Ty → Judgment Unit) : Prop :=
  ∀ sub sup s s', s.Valid → s.context.SimplySolved → sub.SimpleIn s.context → sup.SimpleIn s.context →
    next sub sup s = (.accepted (), s') →
    s'.context.SimplySolved ∧ s'.context.apply sub = s'.context.apply sup

theorem subtypeStep_equates {next : Ty → Ty → Judgment Unit}
    {instantiate : Variance → TypeId → Ty → Judgment Unit}
    (hn : ∀ sub sup, Atomic .nothing (next sub sup))
    (hi : ∀ v p ty, Atomic .nothing (instantiate v p ty)) (ih : SubtypingEquates next)
    (ihi : InstantiationEquates instantiate) :
    SubtypingEquates (own.subtypeStep next instantiate) := by
  intro sub sup s s' hs hsolved hsub hsup h
  have he := (atomic_subtypeStep hn hi sub sup).evolves.result hs h
  have hrule := subtypeStep_accepted hn hi hs h
  have ho := he.valid.ordered
  rw [← he.context.apply_apply hs.ordered ho sub, ← he.context.apply_apply hs.ordered ho sup]
  replace hsub := hsub.apply hs.ordered hsolved
  replace hsup := hsup.apply hs.ordered hsolved
  generalize s.context.apply sub = sub at hsub hrule
  generalize s.context.apply sup = sup at hsup hrule
  cases hrule with
  | @arrow τ υ τ' υ' s₁ h₁ h₂ =>
    have he₁ := (hn _ _).evolves.result hs h₁
    have he₂ := (hn _ _).evolves.result he₁.valid h₂
    have hg := (he₁.of_nothing .placeholders).context
    obtain ⟨hsolved₁, heq₁⟩ := ih _ _ _ _ hs hsolved hsup.parts.1 hsub.parts.1 h₁
    obtain ⟨hsolved', heq₂⟩ :=
      ih _ _ _ _ he₁.valid hsolved₁ (hsub.parts.2.grows hg) (hsup.parts.2.grows hg) h₂
    refine ⟨hsolved', ?_⟩
    have heq₁' := congrArg s'.context.apply heq₁
    simp only [he₂.context.apply_apply he₁.valid.ordered ho] at heq₁'
    rw [Context.apply_arrow, Context.apply_arrow, heq₁', heq₂]
  | atom hatom heq =>
    subst heq
    exact ⟨hsolved, congrArg _ (Ty.eq_of_sameAtom hatom).1⟩
  | openSub => cases hsub.quantifierFree
  | openSup => cases hsup.quantifierFree
  | solveSub hr h =>
    rw [← hr.context] at hsolved hsub hsup
    exact ihi _ _ _ _ _ hr.evolves.valid hsolved (Context.wellFormed_placeholder.1 hsub.wellFormed)
      hsup h
  | solveSup hr h =>
    rw [← hr.context] at hsolved hsub hsup
    exact (ihi _ _ _ _ _ hr.evolves.valid hsolved
      (Context.wellFormed_placeholder.1 hsup.wellFormed) hsub h).imp_right Eq.symm

theorem subtype_equates (limit left : Nat) : SubtypingEquates (own.subtype limit left) := by
  induction left with
  | zero =>
    intro sub sup s s' _ _ _ _ h
    cases h
  | succ left ih =>
    intro sub sup s s' hs hsolved hsub hsup h
    obtain ⟨s₁, hrun, rfl⟩ := nested_accepted h
    exact subtypeStep_equates (atomic_subtype limit left) (atomic_instantiate limit left) ih
      (instantiate_equates limit left) sub sup { s with depth := s.depth + 1 } s₁ (hs.withDepth _)
      hsolved hsub hsup hrun

/-- The assignment respects the order of the context, and makes the two types equal. -/
structure Context.UnifiedBy (Γ : Context) (θ : Assignment) (sub sup : Ty) : Prop where
  ordered : Γ.OrderRespectedBy θ
  equal : (Γ.apply sub).assign θ = (Γ.apply sup).assign θ

/-- On what is unsolved in the first context, the first assignment is the second after resolution in the
second context. -/
def Assignment.FactorsThrough (θ : Assignment) (Γ Δ : Context) (θ' : Assignment) : Prop :=
  ∀ p, .unsolved p ∈ Γ → (Δ.apply (.placeholder p)).assign θ' = θ p

section Unifiers

variable {s s' : State} {sub sup : Ty} {θ θ' : Assignment} (hs : s.Valid)
  (hsolved : s.context.SimplySolved) (hsub : sub.SimpleIn s.context) (hsup : sup.SimpleIn s.context)
include hs hsolved hsub hsup

theorem subtype_completes_of_unified (h : s.context.UnifiedBy θ sub sup) :
    ∃ s', ComesTo (fun limit left => own.subtype limit left sub sup) s (.accepted (), s') ∧
      ∃ θ', s'.context.OrderRespectedBy θ' ∧ θ.FactorsThrough s.context s'.context θ' := by
  have hmodel := h.ordered.modeledBy_through hs.ordered hsolved
  have hequal : sub.assign (s.context.through θ) = sup.assign (s.context.through θ) := by
    rw [Context.assign_through, Context.assign_through, h.equal]
  obtain ⟨⟨⟩, s', θ', hrun, hcarries, -⟩ :=
    subtype_completes ⟨hs, hsolved, hmodel⟩ ⟨hsub, rfl⟩ ⟨hsup, hequal.symm⟩
  have hmodel' := hcarries.modeled.model
  refine ⟨s', hrun, θ', hmodel'.orderRespectedBy, fun p hp => ?_⟩
  rw [hmodel'.apply]
  exact (hcarries.agrees p (Context.placeholder_mem_of_unsolved hp)).trans
    (hs.ordered.through_of_unsolved hp)

theorem unifiedBy_of_subtype {limit left : Nat}
    (hrun : own.subtype limit left sub sup s = (.accepted (), s'))
    (hθ' : s'.context.OrderRespectedBy θ') (hθ : θ.FactorsThrough s.context s'.context θ') :
    s.context.UnifiedBy θ sub sup := by
  have he := (atomic_subtype limit left sub sup).evolves.result hs hrun
  obtain ⟨hsolved', hequal⟩ := subtype_equates limit left sub sup s s' hs hsolved hsub hsup hrun
  have hmodel : s.context.ModeledBy (s'.context.through θ') :=
    (hθ'.modeledBy_through he.valid.ordered hsolved').of_grows he.context
  have hassign : ∀ ty : Ty, ty.SimpleIn s.context →
      (s.context.apply ty).assign θ = (s'.context.apply ty).assign θ' := fun ty hty => by
    rw [← Context.assign_through s'.context, ← hmodel.apply]
    exact Ty.assign_congr fun p hp => (hθ p (hs.ordered.unsolved_of_apply hty.wellFormed hp)).symm
  refine ⟨fun before e after hΓ p he => ?_, ?_⟩
  · subst he
    rw [← hθ p (by simp [hΓ])]
    exact hmodel.orderRespectedBy before _ after hΓ p rfl
  · rw [hassign sub hsub, hassign sup hsup, hequal]

theorem exists_unifiedBy_of_subtype {limit left : Nat}
    (hrun : own.subtype limit left sub sup s = (.accepted (), s')) :
    ∃ θ, s.context.UnifiedBy θ sub sup := by
  have he := (atomic_subtype limit left sub sup).evolves.result hs hrun
  obtain ⟨hsolved', -⟩ := subtype_equates limit left sub sup s s' hs hsolved hsub hsup hrun
  obtain ⟨θ', -, hmodel⟩ := Context.ModeledBy.extend (Γ := []) (Δ := s'.context)
    (θ := fun _ => .void) (Throughout.nil _) he.valid.ordered hsolved'
  exact ⟨_, unifiedBy_of_subtype hs hsolved hsub hsup hrun hmodel.orderRespectedBy fun _ _ => rfl⟩

theorem subtype_decides_of_simple :
    Decides True (fun limit left => own.subtype limit left sub sup) s fun _ => True := by
  have hprenex : ∀ {ty : Ty}, ty.SimpleIn s.context → (s.context.apply ty).prenex = true := fun h =>
    Ty.prenex_of_quantifierFree (h.apply hs.ordered hsolved).quantifierFree
  exact Comparison.decides ⟨hs, hsub.wellFormed, hsup.wellFormed⟩ (.inl ⟨hprenex hsub, hprenex hsup⟩)

end Unifiers

/-- Comparison of types without quantifiers makes them equal if it is accepted, under any limit. Under
every limit that is large enough it is accepted if the types have a unifier, in a context through
which exactly the unifiers factor, and rejected otherwise. -/
theorem subtype_most_general {s : State} {sub sup : Ty} (hs : s.Valid)
    (hsolved : s.context.SimplySolved) (hsub : sub.SimpleIn s.context)
    (hsup : sup.SimpleIn s.context) :
    (∀ (c : Checker) (s' : State), c.subtype sub sup s = (.accepted (), s') →
      s'.context.apply sub = s'.context.apply sup) ∧
    ∃ bound, ∀ limit, bound ≤ limit →
      ((∃ θ, s.context.UnifiedBy θ sub sup) →
        ∃ s', (Checker.upTo limit).subtype sub sup s = (.accepted (), s') ∧
          ∀ θ, s.context.UnifiedBy θ sub sup ↔
            ∃ θ', s'.context.OrderRespectedBy θ' ∧ θ.FactorsThrough s.context s'.context θ') ∧
      ((¬ ∃ θ, s.context.UnifiedBy θ sub sup) →
        ∃ s', (Checker.upTo limit).subtype sub sup s = (.rejected, s')) := by
  refine ⟨fun c s' hrun => (subtype_equates _ _ sub sup s s' hs hsolved hsub hsup hrun).2, ?_⟩
  obtain ⟨o, s', ⟨bound, hrun⟩, ho⟩ := subtype_decides_of_simple hs hsolved hsub hsup
  refine ⟨bound + s.depth, fun limit hle => ?_⟩
  have hrun' : (Checker.upTo limit).subtype sub sup s = (o, s') :=
    hrun limit (limit - s.depth) (by omega)
  refine ⟨fun ⟨θ₀, hθ₀⟩ => ⟨s', ?_, fun θ => ⟨fun hθ => ?_, fun ⟨θ', hθ', hfactors⟩ => ?_⟩⟩, ?_⟩
  · obtain ⟨s'', haccepted, -⟩ := subtype_completes_of_unified hs hsolved hsub hsup hθ₀
    cases haccepted.unique ⟨bound, hrun⟩
    exact hrun'
  · obtain ⟨s'', haccepted, hfactors⟩ := subtype_completes_of_unified hs hsolved hsub hsup hθ
    cases haccepted.unique ⟨bound, hrun⟩
    exact hfactors
  · obtain ⟨s'', haccepted, -⟩ := subtype_completes_of_unified hs hsolved hsub hsup hθ₀
    cases haccepted.unique ⟨bound, hrun⟩
    exact unifiedBy_of_subtype hs hsolved hsub hsup hrun' hθ' hfactors
  · intro hnone
    rcases ho with ⟨rfl, -⟩ | ⟨-, rfl⟩
    · exact absurd (exists_unifiedBy_of_subtype hs hsolved hsub hsup hrun') hnone
    · exact ⟨s', hrun'⟩

namespace Interleaved

def later : Ty := .arrow (.placeholder ⟨2⟩) (.placeholder ⟨2⟩)

theorem later_unified : interleaved.context.UnifiedBy
    (fun p => if p = ⟨0⟩ then .arrow .void .void else .void) (.placeholder ⟨0⟩) later := by
  refine ⟨?_, by decide⟩
  have hvoid : ∀ rigid, Ty.void.SimpleOver rigid := fun _ => ⟨rfl, by simp [Ty.free]⟩
  have harrow : (Ty.arrow .void .void).SimpleOver [] := ⟨rfl, by simp [Ty.free]⟩
  simp [interleaved, Context.OrderRespectedBy, throughout_cons, Throughout.nil, hvoid, harrow]

theorem variable_not_unified :
    ¬ ∃ θ, interleaved.context.UnifiedBy θ (.placeholder ⟨0⟩) (.var ⟨1⟩) := by
  -- The first placeholder cannot be the variable, which is declared after it.
  rintro ⟨θ, hordered, hequal⟩
  have hover : (θ ⟨0⟩).SimpleOver [] := hordered [] _ _ rfl ⟨0⟩ rfl
  have heq : θ ⟨0⟩ = .var ⟨1⟩ := hequal
  have hscope := hover.scope ⟨1⟩ (by simp [heq, Ty.free])
  cases hscope

theorem start_most_general :
    interleaved.Valid ∧ interleaved.context.SimplySolved ∧
    (Ty.placeholder ⟨0⟩).SimpleIn interleaved.context ∧ later.SimpleIn interleaved.context ∧
    (Ty.var ⟨1⟩).SimpleIn interleaved.context ∧
    (∃ bound, ∀ limit, bound ≤ limit →
      ∃ s', (Checker.upTo limit).subtype (.placeholder ⟨0⟩) later interleaved = (.accepted (), s') ∧
        s'.context.apply (.placeholder ⟨0⟩) = s'.context.apply later ∧
        ∀ θ, interleaved.context.UnifiedBy θ (.placeholder ⟨0⟩) later ↔
          ∃ θ', s'.context.OrderRespectedBy θ' ∧
            θ.FactorsThrough interleaved.context s'.context θ') ∧
    ∃ bound, ∀ limit, bound ≤ limit →
      ∃ s', (Checker.upTo limit).subtype (.placeholder ⟨0⟩) (.var ⟨1⟩) interleaved =
        (.rejected, s') := by
  -- The one comparison splits the placeholder, since it may not be solved outright; the other
  -- fails.
  have hp : (Ty.placeholder ⟨0⟩).SimpleIn interleaved.context := ⟨by decide, rfl⟩
  have hlater : later.SimpleIn interleaved.context := ⟨by decide, rfl⟩
  have ha : (Ty.var ⟨1⟩).SimpleIn interleaved.context := ⟨by decide, rfl⟩
  obtain ⟨hequal, bound, h⟩ :=
    subtype_most_general interleaved_valid interleaved_solved hp hlater
  obtain ⟨-, bound', h'⟩ := subtype_most_general interleaved_valid interleaved_solved hp ha
  refine ⟨interleaved_valid, interleaved_solved, hp, hlater, ha, ⟨bound, fun limit hle => ?_⟩,
    bound', fun limit hle => (h' limit hle).2 variable_not_unified⟩
  obtain ⟨s', hrun, hunifiers⟩ := (h limit hle).1 ⟨_, later_unified⟩
  exact ⟨s', hrun, hequal _ s' hrun, hunifiers⟩

end Interleaved
end HigherRank
