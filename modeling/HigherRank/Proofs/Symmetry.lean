import HigherRank.Proofs.Budget
import HigherRank.Proofs.Convergence
import HigherRank.Proofs.Subsumption

set_option autoImplicit false

/-!
# Comparison without quantifiers is symmetric

Two types without quantifiers are compared by the same run in either order: with the same outcome, the
same context and the same supply after it. Arrows compare their parameters in the other order, so this
is proved for all pairs at once. Below arrows a placeholder is solved from below in one order and from
above in the other, which makes no difference before a quantifier is met; and of two placeholders the
later one is solved, whichever comes first. Nothing is asked of the scope of the types.
-/
namespace HigherRank

open Judgment
open Opening (own)

namespace Judgment

variable {α : Type} {x : Judgment α} {s : State}

theorem orElse_reject : (x <|> (reject : Judgment α)) s = x s := by
  rcases hr : x s with ⟨a | _ | error, s₁⟩
  · exact orElse_of_accepted hr
  · exact orElse_of_rejected hr
  · exact orElse_of_aborted hr

theorem reject_orElse : ((reject : Judgment α) <|> x) s = x s := orElse_of_rejected rfl

end Judgment

theorem Context.SimplySolved.quantifierFree_apply {Γ : Context} {ty : Ty} (h : Γ.SimplySolved)
    (hty : ty.quantifierFree = true) : (Γ.apply ty).quantifierFree = true :=
  Ty.quantifierFree_replace hty (fun _ _ => rfl) fun p _ => h.resolve p

def InstantiationStaysSimple (next : Variance → TypeId → Ty → Judgment Unit) : Prop :=
  ∀ v p ty s s', s.context.SimplySolved → ty.quantifierFree = true →
    next v p ty s = (.accepted (), s') → s'.context.SimplySolved

def SubtypingStaysSimple (next : Ty → Ty → Judgment Unit) : Prop :=
  ∀ sub sup s s', s.Valid → s.context.SimplySolved → sub.quantifierFree = true →
    sup.quantifierFree = true → next sub sup s = (.accepted (), s') → s'.context.SimplySolved

theorem instantiateStep_staysSimple {next : Variance → TypeId → Ty → Judgment Unit}
    (ih : InstantiationStaysSimple next) : InstantiationStaysSimple (own.instantiateStep next) := by
  intro v p ty s s' hsolved hty h
  have hrule := instantiateStep_accepted h
  replace hty := hsolved.quantifierFree_apply hty
  generalize s.context.apply ty = ty at hty hrule
  cases hrule with
  | solves h => exact h.simplySolved (Ty.prenex_of_quantifierFree hty) hsolved
  | arrow ha h₁ h₂ =>
    obtain ⟨hτ, hυ⟩ := Bool.and_eq_true_iff.1 hty
    have hsolved₁ := ih _ _ _ _ _ (articulate_simplySolved ha hsolved) hτ h₁
    exact ih _ _ _ _ _ hsolved₁ (hsolved₁.quantifierFree_apply hυ) h₂
  | rigid => cases hty
  | flexible => cases hty

theorem instantiate_staysSimple (limit left : Nat) :
    InstantiationStaysSimple (own.instantiate limit left) := by
  induction left with
  | zero =>
    intro v p ty s s' _ _ h
    cases h
  | succ left ih =>
    intro v p ty s s' hsolved hty h
    obtain ⟨s₁, hrun, rfl⟩ := nested_accepted h
    exact instantiateStep_staysSimple ih v p ty { s with depth := s.depth + 1 } s₁ hsolved hty hrun

theorem subtypeStep_staysSimple {next : Ty → Ty → Judgment Unit}
    {instantiate : Variance → TypeId → Ty → Judgment Unit}
    (hn : ∀ sub sup, Atomic .nothing (next sub sup))
    (hi : ∀ v p ty, Atomic .nothing (instantiate v p ty)) (ih : SubtypingStaysSimple next)
    (ihi : InstantiationStaysSimple instantiate) :
    SubtypingStaysSimple (own.subtypeStep next instantiate) := by
  intro sub sup s s' hs hsolved hsub hsup h
  have hrule := subtypeStep_accepted hn hi hs h
  replace hsub := hsolved.quantifierFree_apply hsub
  replace hsup := hsolved.quantifierFree_apply hsup
  generalize s.context.apply sub = sub at hsub hrule
  generalize s.context.apply sup = sup at hsup hrule
  cases hrule with
  | arrow h₁ h₂ =>
    obtain ⟨hτ, hυ⟩ := Bool.and_eq_true_iff.1 hsub
    obtain ⟨hτ', hυ'⟩ := Bool.and_eq_true_iff.1 hsup
    have hs₁ := ((hn _ _).evolves.result hs h₁).valid
    exact ih _ _ _ _ hs₁ (ih _ _ _ _ hs hsolved hτ' hτ h₁) hυ hυ' h₂
  | atom _ heq =>
    subst heq
    exact hsolved
  | openSub => cases hsub
  | openSup => cases hsup
  | solveSub hr h =>
    rw [← hr.context] at hsolved
    exact ihi _ _ _ _ _ hsolved hsup h
  | solveSup hr h =>
    rw [← hr.context] at hsolved
    exact ihi _ _ _ _ _ hsolved hsub h

theorem subtype_staysSimple (limit left : Nat) : SubtypingStaysSimple (own.subtype limit left) := by
  induction left with
  | zero =>
    intro sub sup s s' _ _ _ _ h
    cases h
  | succ left ih =>
    intro sub sup s s' hs hsolved hsub hsup h
    obtain ⟨s₁, hrun, rfl⟩ := nested_accepted h
    exact subtypeStep_staysSimple (atomic_subtype limit left) (atomic_instantiate limit left) ih
      (instantiate_staysSimple limit left) sub sup { s with depth := s.depth + 1 } s₁
      (hs.withDepth _) hsolved hsub hsup hrun

/-- Against a type without quantifiers the direction of the constraint makes no difference. -/
def InstantiatesEitherWay (next : Variance → TypeId → Ty → Judgment Unit) : Prop :=
  ∀ v v' p ty s, s.context.SimplySolved → ty.quantifierFree = true → next v p ty s = next v' p ty s

theorem instantiateStep_eitherWay {next : Variance → TypeId → Ty → Judgment Unit}
    (hsimple : InstantiationStaysSimple next) (ih : InstantiatesEitherWay next) :
    InstantiatesEitherWay (own.instantiateStep next) := by
  intro v v' p ty s hsolved hty
  refine bind_congr_run rfl fun ty' s' hr => ?_
  cases hr
  replace hty := hsolved.quantifierFree_apply hty
  generalize s.context.apply ty = ty at hty
  split
  · rfl
  split
  · rfl
  refine orElse_congr_run rfl fun s₁ h₁ => ?_
  cases instantiateMonotype_rejected h₁
  cases ty with
  | forAll a body => cases hty
  | arrow τ υ =>
    obtain ⟨hτ, hυ⟩ := Bool.and_eq_true_iff.1 hty
    refine atomically_congr_run (bind_congr_run rfl fun halves s₁ ha => ?_)
    have hsolved₁ := articulate_simplySolved ha hsolved
    refine bind_congr_run (ih _ _ _ _ _ hsolved₁ hτ) fun _ s₂ h₂ => ?_
    have hsolved₂ := hsimple _ _ _ _ _ hsolved₁ hτ h₂
    refine bind_congr_run rfl fun υ' s₃ hr => ?_
    cases hr
    exact ih _ _ _ _ _ hsolved₂ (hsolved₂.quantifierFree_apply hυ)
  | _ => rfl

theorem instantiate_eitherWay (limit left : Nat) :
    InstantiatesEitherWay (own.instantiate limit left) := by
  induction left with
  | zero => exact fun _ _ _ _ _ _ _ => rfl
  | succ left ih =>
    intro v v' p ty s hsolved hty
    exact nested_congr_run (instantiateStep_eitherWay (instantiate_staysSimple limit left) ih v v' p
      ty { s with depth := s.depth + 1 } hsolved hty)

section Placeholders

variable {p q : TypeId} {s : State}

theorem Context.Ordered.slots_apart {before after before' after' : Context}
    (ho : Context.Ordered (before ++ .unsolved p :: after))
    (heq : before ++ .unsolved p :: after = before' ++ .unsolved q :: after')
    (hq : q ∈ before.placeholders) : p ∉ before'.placeholders := by
  have hp : p ∉ before.placeholders := ho.not_mem_before rfl
  have hq' : q ∉ before'.placeholders := (heq ▸ ho).not_mem_before rfl
  rcases List.append_eq_append_iff.1 heq with ⟨inner, rfl, -⟩ | ⟨inner, rfl, -⟩
  · simp only [Context.placeholders, List.filterMap_append, List.mem_append, not_or] at hq'
    exact absurd hq hq'.1
  · simp only [Context.placeholders, List.filterMap_append, List.mem_append, not_or] at hp
    exact hp.1

/-- The later one is solved to the earlier one. -/
theorem instantiateMonotype_placeholders (ho : s.context.Ordered) (hp : .unsolved p ∈ s.context)
    (hq : .unsolved q ∈ s.context) (hne : p ≠ q) :
    instantiateMonotype p (.placeholder q) s = instantiateMonotype q (.placeholder p) s := by
  have hpq : Ty.placeholder p ≠ .placeholder q := by simpa using hne
  rcases hslot : s.context.slot p with error | ⟨before, after⟩
  · exact absurd hp (Context.slot_eq_error.1 hslot).1
  rcases hslot' : s.context.slot q with error | ⟨before', after'⟩
  · exact absurd hq (Context.slot_eq_error.1 hslot').1
  have hΓ := (Context.slot_eq_ok.1 hslot).1
  have heq := hΓ.symm.trans (Context.slot_eq_ok.1 hslot').1
  have hopen : ∀ {r}, .unsolved r ∈ s.context → s.context.isUnsolved r = true := by
    simp [Context.isUnsolved]
  by_cases hbefore : q ∈ Context.placeholders before
  · have hafter := (hΓ ▸ ho).slots_apart heq hbefore
    rw [instantiateMonotype_of_wellFormed hpq.symm rfl hslot (Context.wellFormed_placeholder.2 hbefore),
      instantiateMonotype_of_later hpq rfl hslot' ?_ rfl, if_pos (hopen hp)]
    exact Bool.eq_false_iff.2 fun hw => hafter (Context.wellFormed_placeholder.1 hw)
  · have hafter := Context.mem_before_later heq hne hbefore
    rw [instantiateMonotype_of_wellFormed hpq rfl hslot' (Context.wellFormed_placeholder.2 hafter),
      instantiateMonotype_of_later hpq.symm rfl hslot ?_ rfl, if_pos (hopen hq)]
    exact Bool.eq_false_iff.2 fun hw => hbefore (Context.wellFormed_placeholder.1 hw)

theorem instantiateStep_placeholders {next : Variance → TypeId → Ty → Judgment Unit} {v : Variance}
    (ho : s.context.Ordered) (hq : .unsolved q ∈ s.context) (hne : p ≠ q) :
    own.instantiateStep next v p (.placeholder q) s = instantiateMonotype p (.placeholder q) s := by
  have hr : (own : Opening TypeError).resolve (.placeholder q) s =
      (.accepted (.placeholder q), s) :=
    congrArg (fun ty => (Outcome.accepted ty, s)) (ho.apply_of_unsolved hq)
  rw [Opening.instantiateStep, bind_of_accepted hr]
  have hqp : Ty.placeholder q ≠ .placeholder p := by simpa using hne.symm
  have hmentions : (Ty.placeholder q).mentions p = false := by simp [Ty.mentions, hne.symm]
  rw [if_neg hqp, hmentions]
  exact orElse_reject

/-- Of two unsolved placeholders it makes no difference which is instantiated by the other. -/
def InstantiatesEitherOne (next : Variance → TypeId → Ty → Judgment Unit) : Prop :=
  ∀ v v' p q s, s.context.Ordered → .unsolved p ∈ s.context → .unsolved q ∈ s.context → p ≠ q →
    next v p (.placeholder q) s = next v' q (.placeholder p) s

theorem instantiate_eitherOne (limit left : Nat) :
    InstantiatesEitherOne (own.instantiate limit left) := by
  intro v v' p q s ho hp hq hne
  cases left with
  | zero => rfl
  | succ left =>
    let t : State := { s with depth := s.depth + 1 }
    have hmonotype := instantiateMonotype_placeholders (s := t) ho hp hq hne
    rw [← instantiateStep_placeholders (s := t) ho hq hne,
      ← instantiateStep_placeholders (s := t) ho hp hne.symm] at hmonotype
    exact nested_congr_run hmonotype

end Placeholders

theorem Ty.sameAtom_comm (sub sup : Ty) : sub.sameAtom sup = sup.sameAtom sub := by
  cases sub <;> cases sup <;> simp [sameAtom, Bool.beq_eq_decide_eq, eq_comm]

section Comparison

variable {next : Ty → Ty → Judgment Unit} {instantiate : Variance → TypeId → Ty → Judgment Unit}
  {sub sup : Ty} {p q : TypeId} {s : State}

theorem instantiateIfOpen_of_solved {f : TypeId → Ty → Judgment Unit} (other : Ty)
    (hp : .unsolved p ∉ s.context) : instantiateIfOpen f p other s = (.rejected, s) := by
  have hr : (isUnsolved p : Judgment Bool) s = (.accepted false, s) := by
    simp [isUnsolved, Context.isUnsolved, hp]
  rw [instantiateIfOpen, bind_of_accepted hr]
  rfl

theorem instantiateIfOpen_congr {f f' : TypeId → Ty → Judgment Unit} {other : Ty}
    (h : f p other s = f' p other s) :
    instantiateIfOpen f p other s = instantiateIfOpen f' p other s := by
  refine bind_congr_run rfl fun b s₁ hr => ?_
  cases hr
  split
  · exact h
  · rfl

theorem instantiateIfOpen_of_unsolved {f : TypeId → Ty → Judgment Unit} (hp : .unsolved p ∈ s.context)
    (hne : p ≠ q) : instantiateIfOpen f p (.placeholder q) s = f p (.placeholder q) s := by
  have hr : (isUnsolved p : Judgment Bool) s = (.accepted true, s) := by
    simp [isUnsolved, Context.isUnsolved, hp]
  have hmentions : (Ty.placeholder q).mentions p = false := by simp [Ty.mentions, hne.symm]
  rw [instantiateIfOpen, bind_of_accepted hr, hmentions]
  rfl

theorem subtypeOtherwise_of_quantifierFree (hsub : sub.quantifierFree = true)
    (hsup : sup.quantifierFree = true) (hatom : sub.sameAtom sup = false) :
    own.subtypeOtherwise next instantiate sub sup s =
      (subtypeSolvingSub instantiate sub sup <|> subtypeSolvingSup instantiate sub sup) s := by
  have hopenSub : subtypeOpeningSub next sub sup = reject := by
    cases sub with
    | forAll => cases hsub
    | _ => rfl
  have hopenSup : own.subtypeOpeningSup next sub sup = reject := by
    cases sup with
    | forAll => cases hsup
    | _ => rfl
  rw [Opening.subtypeOtherwise, hatom, hopenSub, hopenSup]
  exact reject_orElse.trans reject_orElse

theorem subtypeSolvingSub_of_ne (h : ∀ p, sub ≠ .placeholder p) :
    subtypeSolvingSub instantiate sub sup = reject := by
  cases sub with
  | placeholder p => exact absurd rfl (h p)
  | _ => rfl

theorem subtypeSolvingSup_of_ne (h : ∀ p, sup ≠ .placeholder p) :
    subtypeSolvingSup instantiate sub sup = reject := by
  cases sup with
  | placeholder p => exact absurd rfl (h p)
  | _ => rfl

theorem solving_placeholder (ih : InstantiatesEitherWay instantiate)
    (hsolved : s.context.SimplySolved) (hsup : sup.quantifierFree = true)
    (hne : ∀ q, sup ≠ .placeholder q) :
    (subtypeSolvingSub instantiate (.placeholder p) sup <|>
        subtypeSolvingSup instantiate (.placeholder p) sup) s =
      (subtypeSolvingSub instantiate sup (.placeholder p) <|>
        subtypeSolvingSup instantiate sup (.placeholder p)) s := by
  rw [subtypeSolvingSup_of_ne hne, orElse_reject, subtypeSolvingSub_of_ne hne, reject_orElse]
  exact instantiateIfOpen_congr (ih _ _ _ _ _ hsolved hsup)

theorem solving_placeholders (hi : ∀ v p ty, Atomic .nothing (instantiate v p ty))
    (ih : InstantiatesEitherWay instantiate) (ihp : InstantiatesEitherOne instantiate) (hs : s.Valid)
    (hsolved : s.context.SimplySolved) (hne : p ≠ q) :
    (subtypeSolvingSub instantiate (.placeholder p) (.placeholder q) <|>
        subtypeSolvingSup instantiate (.placeholder p) (.placeholder q)) s =
      (subtypeSolvingSub instantiate (.placeholder q) (.placeholder p) <|>
        subtypeSolvingSup instantiate (.placeholder q) (.placeholder p)) s := by
  -- Both sides are placeholders. If only one of them is unsolved, the rule for the other does
  -- nothing.
  have hretries : ∀ {v p q s₁}, instantiateIfOpen (instantiate v) p (.placeholder q) s = (.rejected, s₁) →
      s₁.context = s.context := fun {v p q s₁} h => by
    have h' := (atomic_instantiateIfOpen (hi v) p (.placeholder q) s hs).2
    rw [h] at h'
    exact h' (by simp)
  change (instantiateIfOpen (instantiate .covariant) p (.placeholder q) <|>
      instantiateIfOpen (instantiate .contravariant) q (.placeholder p)) s =
    (instantiateIfOpen (instantiate .covariant) q (.placeholder p) <|>
      instantiateIfOpen (instantiate .contravariant) p (.placeholder q)) s
  have hboth : ∀ {v v' t}, t.context = s.context → .unsolved p ∈ s.context → .unsolved q ∈ s.context →
      instantiateIfOpen (instantiate v) p (.placeholder q) t =
        instantiateIfOpen (instantiate v') q (.placeholder p) t := fun {v v' t} ht hp hq => by
    rw [← ht] at hp hq
    rw [instantiateIfOpen_of_unsolved hp hne, instantiateIfOpen_of_unsolved hq hne.symm]
    exact ihp _ _ _ _ _ (ht ▸ hs.ordered) hp hq hne
  by_cases hp : .unsolved p ∈ s.context <;> by_cases hq : .unsolved q ∈ s.context
  · exact orElse_congr_run (hboth rfl hp hq) fun s₁ h₁ => (hboth (hretries h₁) hp hq).symm
  · rw [orElse_of_rejected (instantiateIfOpen_of_solved _ hq)]
    refine (orElse_congr_run rfl fun s₁ h₁ => ?_).trans (orElse_reject.trans
      (instantiateIfOpen_congr (ih _ _ _ (.placeholder q) _ hsolved rfl)))
    exact instantiateIfOpen_of_solved _ (hretries h₁ ▸ hq)
  · rw [orElse_of_rejected (instantiateIfOpen_of_solved _ hp)]
    refine ((orElse_congr_run rfl fun s₁ h₁ => ?_).trans (orElse_reject.trans
      (instantiateIfOpen_congr (ih _ _ _ (.placeholder p) _ hsolved rfl)))).symm
    exact instantiateIfOpen_of_solved _ (hretries h₁ ▸ hp)
  · rw [orElse_of_rejected (instantiateIfOpen_of_solved _ hp),
      orElse_of_rejected (instantiateIfOpen_of_solved _ hq), instantiateIfOpen_of_solved _ hp,
      instantiateIfOpen_of_solved _ hq]

theorem subtypeOtherwise_symmetric (hi : ∀ v p ty, Atomic .nothing (instantiate v p ty))
    (ih : InstantiatesEitherWay instantiate) (ihp : InstantiatesEitherOne instantiate) (hs : s.Valid)
    (hsolved : s.context.SimplySolved) (hsub : sub.quantifierFree = true)
    (hsup : sup.quantifierFree = true) :
    own.subtypeOtherwise next instantiate sub sup s =
      own.subtypeOtherwise next instantiate sup sub s := by
  cases hatom : sub.sameAtom sup with
  | true => simp only [Opening.subtypeOtherwise, ← Ty.sameAtom_comm sub sup, hatom, if_true]
  | false =>
    rw [subtypeOtherwise_of_quantifierFree hsub hsup hatom,
      subtypeOtherwise_of_quantifierFree hsup hsub (Ty.sameAtom_comm sub sup ▸ hatom)]
    by_cases hp : ∃ p, sub = .placeholder p <;> by_cases hq : ∃ q, sup = .placeholder q
    · obtain ⟨p, rfl⟩ := hp
      obtain ⟨q, rfl⟩ := hq
      exact solving_placeholders hi ih ihp hs hsolved fun heq => by simp [Ty.sameAtom, heq] at hatom
    · obtain ⟨p, rfl⟩ := hp
      exact solving_placeholder ih hsolved hsup (not_exists.1 hq)
    · obtain ⟨q, rfl⟩ := hq
      exact (solving_placeholder ih hsolved hsub (not_exists.1 hp)).symm
    · rw [subtypeSolvingSub_of_ne (not_exists.1 hp), subtypeSolvingSup_of_ne (not_exists.1 hq),
        subtypeSolvingSub_of_ne (not_exists.1 hq), subtypeSolvingSup_of_ne (not_exists.1 hp)]

end Comparison

def SubtypingSymmetric (next : Ty → Ty → Judgment Unit) : Prop :=
  ∀ sub sup s, s.Valid → s.context.SimplySolved → sub.quantifierFree = true →
    sup.quantifierFree = true → next sub sup s = next sup sub s

theorem subtypeStep_symmetric {next : Ty → Ty → Judgment Unit}
    {instantiate : Variance → TypeId → Ty → Judgment Unit}
    (hn : ∀ sub sup, Atomic .nothing (next sub sup))
    (hi : ∀ v p ty, Atomic .nothing (instantiate v p ty)) (hsimple : SubtypingStaysSimple next)
    (ihw : InstantiatesEitherWay instantiate) (iho : InstantiatesEitherOne instantiate)
    (ih : SubtypingSymmetric next) : SubtypingSymmetric (own.subtypeStep next instantiate) := by
  intro sub sup s hs hsolved hsub hsup
  have hsub' := hsolved.quantifierFree_apply hsub
  have hsup' := hsolved.quantifierFree_apply hsup
  by_cases harrows : ∃ τ υ τ' υ', s.context.apply sub = .arrow τ υ ∧
      s.context.apply sup = .arrow τ' υ'
  · obtain ⟨τ, υ, τ', υ', heq, heq'⟩ := harrows
    rw [heq] at hsub'
    rw [heq'] at hsup'
    obtain ⟨hτ, hυ⟩ := Bool.and_eq_true_iff.1 hsub'
    obtain ⟨hτ', hυ'⟩ := Bool.and_eq_true_iff.1 hsup'
    rw [subtypeStep_arrows heq heq', subtypeStep_arrows heq' heq]
    refine atomically_congr_run (bind_congr_run (ih _ _ _ hs hsolved hτ' hτ) fun _ s₁ h₁ => ?_)
    exact ih _ _ _ ((hn _ _).evolves.result hs h₁).valid
      (hsimple _ _ _ _ hs hsolved hτ hτ' h₁) hυ hυ'
  · rw [subtypeStep_otherwise fun τ υ τ' υ' h h' => harrows ⟨τ, υ, τ', υ', h, h'⟩,
      subtypeStep_otherwise fun τ υ τ' υ' h h' => harrows ⟨τ', υ', τ, υ, h', h⟩]
    exact subtypeOtherwise_symmetric hi ihw iho hs hsolved hsub' hsup'

theorem subtype_symmetric_at (limit left : Nat) : SubtypingSymmetric (own.subtype limit left) := by
  induction left with
  | zero => exact fun _ _ _ _ _ _ _ => rfl
  | succ left ih =>
    intro sub sup s hs hsolved hsub hsup
    exact nested_congr_run (subtypeStep_symmetric (atomic_subtype limit left)
      (atomic_instantiate limit left) (subtype_staysSimple limit left)
      (instantiate_eitherWay limit left) (instantiate_eitherOne limit left) ih sub sup
      { s with depth := s.depth + 1 } (hs.withDepth _) hsolved hsub hsup)

/-- Where solutions have no quantifiers, two types without quantifiers are compared by the same run in
either order, under every limit: outcome, context, supply and depth are equal. -/
theorem subtype_symmetric (c : Checker) {sub sup : Ty} {s : State} (hs : s.Valid)
    (hsolved : s.context.SimplySolved) (hsub : sub.quantifierFree = true)
    (hsup : sup.quantifierFree = true) : c.subtype sub sup s = c.subtype sup sub s :=
  subtype_symmetric_at _ _ sub sup s hs hsolved hsub hsup

namespace Bridged

def first : Ty := .arrow (.placeholder ⟨0⟩) (.placeholder ⟨3⟩)

def second : Ty := .arrow (.arrow (.placeholder ⟨2⟩) .void) (.placeholder ⟨3⟩)

theorem start_symmetric :
    interleaved.Valid ∧ interleaved.context.SimplySolved ∧
    interleaved.context.wellFormed first = false ∧
    ((Checker.upTo 9).subtype first second interleaved).1 = .accepted () ∧
    (Checker.upTo 9).subtype first second interleaved =
      (Checker.upTo 9).subtype second first interleaved :=
  ⟨interleaved_valid, interleaved_solved, by decide, by decide +kernel,
    subtype_symmetric _ interleaved_valid interleaved_solved rfl rfl⟩

end Bridged
end HigherRank
