import HigherRank.Proofs.Divergence
import HigherRank.Proofs.Errors
import HigherRank.Proofs.Predicative

set_option autoImplicit false

/-!
# Predicative search is finite

From a comparison to those that it calls the number of quantifiers gets smaller; or it stays the same
and the unsolved placeholders get fewer; or both stay the same and the types get smaller. This rests on
solutions without quantifiers: a quantifier that comes back with a solution can be opened again, and so
on without end.
-/
namespace HigherRank

open Judgment
open Opening (own)

namespace Ty

def size : Ty → Nat
  | forAll _ body => body.size + 1
  | arrow parameter result => parameter.size + result.size + 1
  | _ => 1

theorem size_replace {f g : TypeId → Ty} {ty : Ty} (hf : ∀ a ∈ ty.occurrences, (f a).size = 1)
    (hg : ∀ p ∈ ty.placeholders, (g p).size = 1) : (ty.replace f g).size = ty.size := by
  induction ty with
  | void => rfl
  | var a => exact hf a (by simp [occurrences])
  | placeholder p => exact hg p (by simp [placeholders])
  | forAll a body ih => simp only [replace, size, ih hf hg]
  | arrow parameter result ihp ihr =>
    simp only [occurrences, placeholders, List.mem_append] at hf hg
    simp only [replace, size, ihp (fun a ha => hf a (.inl ha)) fun p hp => hg p (.inl hp),
      ihr (fun a ha => hf a (.inr ha)) fun p hp => hg p (.inr hp)]

theorem size_subst (ty : Ty) (a q : TypeId) : (ty.subst a (.placeholder q)).size = ty.size :=
  size_replace (fun b _ => by split <;> rfl) fun _ _ => rfl

theorem quantifierFree_iff {ty : Ty} : ty.quantifierFree = true ↔ ty.quantifiers = [] := by
  refine ⟨quantifiers_eq_nil_of_quantifierFree, fun h => ?_⟩
  induction ty with
  | void => rfl
  | var a => rfl
  | placeholder p => rfl
  | forAll a body => cases h
  | arrow parameter result ihp ihr =>
    obtain ⟨hp, hr⟩ := List.append_eq_nil_iff.1 h
    simp [quantifierFree, ihp hp, ihr hr]

end Ty

section Instantiation

variable {next : Variance → TypeId → Ty → Search Halt Unit} {v v' : Variance} {p p' : TypeId}
  {ty ty' : Ty} {s s' : State} (hn : ∀ v p ty, Atomic .nothing (next v p ty))
  (hr : InstantiationRenames next) (h : Apart s p ty)
  (hc : InstantiateCalls next v p s ty v' p' ty' s')
include hn hr h hc

theorem InstantiateCalls.size_lt : ty'.size < ty.size := by
  cases hc with
  | parameter =>
    simp only [Ty.size]
    omega
  | @result τ υ p₁ _ s₁ _ ha h₁ =>
    have hsize : (s'.context.apply υ).size = υ.size := by
      refine Ty.size_replace (fun _ _ => rfl) fun q hq => ?_
      obtain ⟨q', heq, -⟩ := result_renamed hn hr h ha h₁ hq
      exact congrArg Ty.size heq
    simp only [Ty.size, hsize]
    omega
  | rigid =>
    simp only [Ty.size]
    omega
  | flexible =>
    simp only [Ty.size_subst, Ty.size]
    omega

theorem InstantiateCalls.prenex (hty : ty.prenex = true) : ty'.prenex = true := by
  cases hc with
  | parameter => exact Ty.prenex_of_quantifierFree (Bool.and_eq_true_iff.1 hty).1
  | result ha h₁ =>
    refine Ty.prenex_replace (Ty.prenex_of_quantifierFree (Bool.and_eq_true_iff.1 hty).2) fun q hq => ?_
    obtain ⟨q', heq, -⟩ := result_renamed hn hr h ha h₁ hq
    exact congrArg Ty.quantifierFree heq
  | rigid => exact hty
  | flexible => exact Ty.prenex_subst hty rfl

end Instantiation

theorem predicatively_converges {x : (limit left : Nat) → Search Halt Unit} {p : TypeId} {ty : Ty}
    {s : State} (hx : Converges x s) :
    Converges (fun limit left => predicatively p ty (x limit left)) s := by
  by_cases hpred : s.context.impredicative p (s.context.apply ty) = true
  · exact Converges.congr (fun _ _ => if_pos hpred) (.const stop)
  · exact hx.congr fun _ _ => if_neg hpred

namespace Predicative

theorem instantiate_converges {v : Variance} {p : TypeId} {ty : Ty} {s : State}
    (h : Solvable s p ty) : Converges (fun limit left => instantiate limit left v p ty) s := by
  induction hsize : (s.context.apply ty).size using Nat.strongRecOn generalizing v p ty s with
  | ind n ih =>
    subst hsize
    refine .below (.nested (predicatively_converges (instantiateStep_converges (h.withDepth _)
      fun hapart limit left v' p' ty' s' hc => ?_)))
    have hn := atomic_instantiate limit left
    have hr := instantiate_renames limit left
    have hapart' := hapart.call hn hr hc
    exact ih _ (hc.size_lt hn hr hapart) hapart'.toSolvable
      (congrArg Ty.size hapart'.resolved.apply_eq)

end Predicative

/-- The number of quantifiers, the number of unsolved placeholders, and the size. -/
def weight (Γ : Context) (sub sup : Ty) : Nat × Nat × Nat :=
  ((Γ.apply sub).quantifiers.length + (Γ.apply sup).quantifiers.length, Γ.unknowns,
    (Γ.apply sub).size + (Γ.apply sup).size)

abbrev Lighter : Nat × Nat × Nat → Nat × Nat × Nat → Prop :=
  Prod.Lex (· < ·) (Prod.Lex (· < ·) (· < ·))

theorem lighter_wf : WellFounded Lighter :=
  (Prod.lex Nat.lt_wfRel (Prod.lex Nat.lt_wfRel Nat.lt_wfRel)).wf

theorem lighter_of_quantifiers {q u n q' u' n' : Nat} (h : q < q') :
    Lighter (q, u, n) (q', u', n') :=
  .left _ _ h

theorem lighter_of_unknowns {q u n q' u' n' : Nat} (hq : q ≤ q') (h : u < u') :
    Lighter (q, u, n) (q', u', n') := by
  rcases Nat.lt_or_eq_of_le hq with hq | rfl
  · exact .left _ _ hq
  · exact .right _ (.left _ _ h)

theorem lighter_of_size {q u n q' n' : Nat} (hq : q ≤ q') (h : n < n') :
    Lighter (q, u, n) (q', u, n') := by
  rcases Nat.lt_or_eq_of_le hq with hq | rfl
  · exact .left _ _ hq
  · exact .right _ (.right _ h)

/-- Types whose comparison gives rise to no solution with a quantifier: both are prenex, or one of them
is simple. -/
def Ty.Tame (sub sup : Ty) : Prop :=
  (sub.prenex = true ∧ sup.prenex = true) ∨ sub.simple = true ∨ sup.simple = true

instance (sub sup : Ty) : Decidable (sub.Tame sup) := inferInstanceAs (Decidable (_ ∨ _))

namespace Ty

theorem simple_arrow {τ υ : Ty} (h : (arrow τ υ).simple = true) :
    τ.simple = true ∧ υ.simple = true := by
  simp only [simple, quantifierFree, ground, Bool.and_eq_true] at h ⊢
  exact ⟨⟨h.1.1, h.2.1⟩, h.1.2, h.2.2⟩

theorem apply_of_simple {ty : Ty} (h : ty.simple = true) (Γ : Context) : Γ.apply ty = ty := by
  refine Context.Resolved.apply_eq fun p hp => ?_
  simp [placeholders_eq_nil_of_ground (Bool.and_eq_true_iff.1 h).2] at hp

end Ty

section Subtyping

variable {next : Ty → Ty → Search Halt Unit} {sub sup sub' sup' body : Ty} {a : TypeId}
  {s s' : State}

theorem Comparison.resolved_flexible (h : Comparison s (.forAll a body) sup)
    (hsub : s.context.Resolved (.forAll a body)) (hsup : s.context.Resolved sup) (label : String) :
    (s.scopeWithNew label).context.Resolved (body.subst a (.placeholder ⟨s.supply.types.size⟩)) ∧
      (s.scopeWithNew label).context.Resolved sup :=
  ⟨hsub.opened h.sub h.valid label,
    hsup.childScope h.sup (h.body_flexible label).valid.ordered⟩

theorem Comparison.resolved_rigid (h : Comparison s sub (.forAll a body))
    (hsub : s.context.Resolved sub) (hsup : s.context.Resolved (.forAll a body)) :
    (s.scopeWith (.var a)).context.Resolved sub ∧
      (s.scopeWith (.var a)).context.Resolved body := by
  have hquantified : (s.scopeWith (.var a)).context.Resolved (.forAll a body) :=
    hsup.childScope h.sup h.body_rigid.valid.ordered
  exact ⟨hsub.childScope h.sub h.body_rigid.valid.ordered, hquantified⟩

/-- If the parameters have quantifiers, the results have fewer. If not, the comparison of the parameters
has used up a placeholder or done nothing. -/
theorem results_lighter {τ υ τ' υ' : Ty} (hplain : SubtypingPlain next)
    (hcounts : SubtypingCounts next) (h : Comparison s (.arrow τ υ) (.arrow τ' υ'))
    (hsub : s.context.Resolved (.arrow τ υ)) (hsup : s.context.Resolved (.arrow τ' υ'))
    (h₁ : next τ' τ s = (.accepted (), s')) :
    Lighter (weight s'.context υ υ') (weight s.context (.arrow τ υ) (.arrow τ' υ')) := by
  have hplain₁ := hplain _ _ _ _ h.parts.1 h₁
  simp only [weight, hsub.apply_eq, hsup.apply_eq,
    hplain₁.quantifiers_apply hsub.parts.2 h.parts.2.sub,
    hplain₁.quantifiers_apply hsup.parts.2 h.parts.2.sup]
  by_cases hfree : τ.quantifierFree = true ∧ τ'.quantifierFree = true
  · have hle : υ.quantifiers.length + υ'.quantifiers.length ≤
        (Ty.arrow τ υ).quantifiers.length + (Ty.arrow τ' υ').quantifiers.length := by
      simp only [Ty.quantifiers, List.length_append]
      omega
    have hcount := hcounts _ _ _ _ h.parts.1 (by rw [hsup.parts.1.apply_eq]; exact hfree.2)
      (by rw [hsub.parts.1.apply_eq]; exact hfree.1) h₁
    rcases hcount with heq | hlt
    · rw [heq, hsub.parts.2.apply_eq, hsup.parts.2.apply_eq]
      refine lighter_of_size hle ?_
      simp only [Ty.size]
      omega
    · exact lighter_of_unknowns hle hlt
  · refine lighter_of_quantifiers ?_
    have hlength : 0 < τ.quantifiers.length + τ'.quantifiers.length := by
      refine Nat.pos_of_ne_zero fun hzero => hfree ⟨?_, ?_⟩ <;>
        exact Ty.quantifierFree_iff.2 (List.eq_nil_of_length_eq_zero (by omega))
    simp only [Ty.quantifiers, List.length_append]
    omega

variable (hplain : SubtypingPlain next) (h : Comparison s sub sup) (hsub : s.context.Resolved sub)
  (hsup : s.context.Resolved sup) (hc : SubtypeCalls next s sub sup sub' sup' s')
include hplain h hsub hsup hc

theorem SubtypeCalls.lighter (hcounts : SubtypingCounts next) :
    Lighter (weight s'.context sub' sup') (weight s.context sub sup) := by
  cases hc with
  | parameters =>
    simp only [weight, hsub.apply_eq, hsup.apply_eq, hsub.parts.1.apply_eq, hsup.parts.1.apply_eq]
    refine lighter_of_size ?_ ?_ <;> simp only [Ty.quantifiers, Ty.size, List.length_append] <;> omega
  | results h₁ => exact results_lighter hplain hcounts h hsub hsup h₁
  | openSub label hr =>
    rw [← hr.context] at hsub hsup ⊢
    obtain ⟨hsub', hsup'⟩ := (h.later hr.evolves).resolved_flexible hsub hsup label
    simp only [weight, hsub.apply_eq, hsup.apply_eq, hsub'.apply_eq, hsup'.apply_eq,
      Ty.quantifiers_subst (κ := .placeholder _) rfl]
    refine lighter_of_quantifiers ?_
    simp only [Ty.quantifiers, List.length_cons]
    omega
  | openSup hr =>
    rw [← hr.context] at hsub hsup ⊢
    obtain ⟨hsub', hsup'⟩ := (h.later hr.evolves).resolved_rigid hsub hsup
    simp only [weight, hsub.apply_eq, hsup.apply_eq, hsub'.apply_eq, hsup'.apply_eq]
    refine lighter_of_quantifiers ?_
    simp only [Ty.quantifiers, List.length_cons]
    omega

theorem SubtypeCalls.tame (htame : sub.Tame sup) :
    (s'.context.apply sub').Tame (s'.context.apply sup') := by
  cases hc with
  | parameters =>
    rw [hsub.parts.1.apply_eq, hsup.parts.1.apply_eq]
    rcases htame with ⟨hq, hq'⟩ | hs | hs
    · exact .inl ⟨Ty.prenex_of_quantifierFree (Bool.and_eq_true_iff.1 hq').1,
        Ty.prenex_of_quantifierFree (Bool.and_eq_true_iff.1 hq).1⟩
    · exact .inr (.inr (Ty.simple_arrow hs).1)
    · exact .inr (.inl (Ty.simple_arrow hs).1)
  | results h₁ =>
    rcases htame with ⟨hq, hq'⟩ | hs | hs
    · have hplain₁ := hplain _ _ _ _ h.parts.1 h₁
      refine .inl ⟨Ty.prenex_of_quantifierFree ?_, Ty.prenex_of_quantifierFree ?_⟩
      · exact hplain₁.quantifierFree_apply hsub.parts.2 h.parts.2.sub (Bool.and_eq_true_iff.1 hq).2
      · exact hplain₁.quantifierFree_apply hsup.parts.2 h.parts.2.sup (Bool.and_eq_true_iff.1 hq').2
    · obtain ⟨-, hs⟩ := Ty.simple_arrow hs
      exact .inr (.inl (by rwa [Ty.apply_of_simple hs]))
    · obtain ⟨-, hs⟩ := Ty.simple_arrow hs
      exact .inr (.inr (by rwa [Ty.apply_of_simple hs]))
  | openSub label hr =>
    rw [← hr.context] at hsub hsup
    obtain ⟨hsub', hsup'⟩ := (h.later hr.evolves).resolved_flexible hsub hsup label
    rw [hsub'.apply_eq, hsup'.apply_eq]
    rcases htame with ⟨hp, hp'⟩ | hs | hs
    · exact .inl ⟨Ty.prenex_subst hp rfl, hp'⟩
    · cases hs
    · exact .inr (.inr hs)
  | openSup hr =>
    rw [← hr.context] at hsub hsup
    obtain ⟨hsub', hsup'⟩ := (h.later hr.evolves).resolved_rigid hsub hsup
    rw [hsub'.apply_eq, hsup'.apply_eq]
    rcases htame with ⟨hp, hp'⟩ | hs | hs
    · exact .inl ⟨hp, hp'⟩
    · exact .inr (.inl hs)
    · cases hs

end Subtyping

theorem SubtypeInstantiates.resolved {v : Variance} {p : TypeId} {sub sup ty : Ty} {s s' : State}
    (hc : SubtypeInstantiates s sub sup v p ty s') (hsub : s.context.Resolved sub)
    (hsup : s.context.Resolved sup) : s'.context.Resolved ty := by
  cases hc with
  | sub hr => exact hr.context ▸ hsup
  | sup hr => exact hr.context ▸ hsub

theorem SubtypeInstantiates.prenex {v : Variance} {p : TypeId} {sub sup ty : Ty} {s s' : State}
    (hc : SubtypeInstantiates s sub sup v p ty s') (htame : sub.Tame sup) : ty.prenex = true := by
  have hsimple : ∀ {τ : Ty}, τ.simple = true → τ.prenex = true := fun h =>
    Ty.prenex_of_quantifierFree (Bool.and_eq_true_iff.1 h).1
  cases hc with
  | sub =>
    rcases htame with ⟨-, hp⟩ | hs | hs
    · exact hp
    · cases hs
    · exact hsimple hs
  | sup =>
    rcases htame with ⟨hp, -⟩ | hs | hs
    · exact hp
    · exact hsimple hs
    · cases hs

namespace Predicative

theorem subtype_converges {sub sup : Ty} {s : State} (h : Comparison s sub sup) :
    Converges (fun limit left => subtype limit left sub sup) s := by
  induction hweight : weight s.context sub sup using lighter_wf.induction generalizing sub sup s with
  | _ w ih =>
    subst hweight
    have hcomp := (h.withDepth (s.depth + 1)).apply
    have hsub := h.valid.ordered.resolved_apply sub
    have hsup := h.valid.ordered.resolved_apply sup
    have hw : weight s.context (s.context.apply sub) (s.context.apply sup) =
        weight s.context sub sup := by
      simp only [weight, hsub.apply_eq, hsup.apply_eq]
    refine .below (.nested (subtypeStep_converges atomic_subtype atomic_instantiate hcomp.valid
      (fun limit left sub' sup' s' hc => ?_) fun v p ty s' hc => ?_))
    · have hlighter := hc.lighter (subtype_plain limit left) hcomp hsub hsup
        (subtype_counts limit left)
      exact ih _ (hw ▸ hlighter) (hcomp.call (atomic_subtype limit left) hc) rfl
    · exact instantiate_converges (hcomp.instantiates hsub hsup hc)

end Predicative

theorem predicatively_raises {allowed : Halt → Prop} {p : TypeId} {ty : Ty} {x : Search Halt Unit}
    {s : State} (hx : RaisesOnly allowed x s)
    (h : (s.context.apply ty).prenex = false → allowed .stopped) :
    RaisesOnly allowed (predicatively p ty x) s := by
  intro error s' hrun
  unfold predicatively at hrun
  split at hrun
  · rename_i hpred
    cases hrun
    refine h (Bool.eq_false_iff.2 fun hprenex => ?_)
    unfold Context.impredicative at hpred
    split at hpred
    · simp only [Bool.and_eq_true, Bool.not_eq_true'] at hpred
      rw [Ty.quantifierFree_of_isMonotype hprenex hpred.1.1] at hpred
      exact absurd hpred.1.2 (by simp)
    · cases hpred
  · exact hx error s' hrun

namespace Predicative

theorem instantiate_raises (limit left : Nat) {v : Variance} {p : TypeId} {ty : Ty} {s : State}
    (h : Solvable s p ty) :
    RaisesOnly (fun error => error = .failed (.depthLimitExceeded limit) ∨
      (s.context.apply ty).prenex = false ∧ error = .stopped)
      (instantiate limit left v p ty) s := by
  induction left generalizing v p ty s with
  | zero => exact .abort (.inl rfl)
  | succ left ih =>
    have hi := atomic_instantiate limit left
    have hr := instantiate_renames limit left
    refine .nested (predicatively_raises ?_ fun hprenex => .inr ⟨hprenex, rfl⟩)
    refine instantiateStep_raises hi (h.withDepth _) fun hapart v' p' ty' s' hc => ?_
    have hapart' := hapart.call hi hr hc
    refine (ih hapart'.toSolvable).mono fun error => .imp_right fun ⟨hprenex, hstopped⟩ => ?_
    rw [hapart'.resolved.apply_eq] at hprenex
    refine ⟨Bool.eq_false_iff.2 fun hty => ?_, hstopped⟩
    simp [hc.prenex hi hr hapart hty] at hprenex

theorem subtype_raises (limit left : Nat) {sub sup : Ty} {s : State} (h : Comparison s sub sup) :
    RaisesOnly (fun error => error = .failed (.depthLimitExceeded limit) ∨
      ¬ (s.context.apply sub).Tame (s.context.apply sup) ∧ error = .stopped)
      (subtype limit left sub sup) s := by
  induction left generalizing sub sup s with
  | zero => exact .abort (.inl rfl)
  | succ left ih =>
    have hn := atomic_subtype limit left
    have hcomp := (h.withDepth (s.depth + 1)).apply
    have hsub := h.valid.ordered.resolved_apply sub
    have hsup := h.valid.ordered.resolved_apply sup
    refine .nested (subtypeStep_raises hn (atomic_instantiate limit left) hcomp.valid
      (fun sub' sup' s' hc => ?_) fun v p ty s' hc => ?_)
    · refine (ih (hcomp.call hn hc)).mono fun error => .imp_right fun ⟨htame, hstopped⟩ => ?_
      exact ⟨fun h => htame (hc.tame (subtype_plain limit left) hcomp hsub hsup h), hstopped⟩
    · have hsolvable := hcomp.instantiates hsub hsup hc
      refine (instantiate_raises limit left hsolvable).mono fun error =>
        .imp_right fun ⟨hprenex, hstopped⟩ => ⟨fun htame => ?_, hstopped⟩
      rw [(hc.resolved hsub hsup).apply_eq] at hprenex
      simp [hc.prenex htame] at hprenex

theorem subtype_ends {sub sup : Ty} {s : State} (h : Comparison s sub sup) :
    ∃ bound, ∀ limit left, bound ≤ left → ¬ (subtype limit left sub sup s).1.Exceeded := by
  -- What the search comes to does not depend on the limit, so it is not the error of one.
  obtain ⟨⟨o, s'⟩, bound, hrun⟩ := subtype_converges h
  refine ⟨bound, fun limit left hle ⟨n, hn⟩ => ?_⟩
  obtain rfl : o = .aborted (.failed (.depthLimitExceeded n)) :=
    (congrArg Prod.fst (hrun limit left hle)).symm.trans hn
  rcases subtype_raises (n + 1) bound h _ _ (hrun (n + 1) bound (Nat.le_refl _)) with heq | ⟨-, heq⟩
  · simp at heq
  · cases heq

end Predicative

/-- Under the limit, the search for the comparison comes to solve a placeholder to a type with a
quantifier inside. -/
def Impredicative (limit : Nat) (s : State) (sub sup : Ty) : Prop :=
  (Predicative.subtype limit (limit - s.depth) sub sup s).1 = .aborted .stopped

instance (limit : Nat) (s : State) (sub sup : Ty) : Decidable (Impredicative limit s sub sup) :=
  inferInstanceAs (Decidable (_ = _))

theorem Comparison.not_impredicative {limit : Nat} {s : State} {sub sup : Ty}
    (h : Comparison s sub sup) (htame : (s.context.apply sub).Tame (s.context.apply sup)) :
    ¬ Impredicative limit s sub sup := by
  intro hstopped
  rcases Predicative.subtype_raises _ _ h _ _ (Prod.ext hstopped rfl) with heq | ⟨hwild, -⟩
  · cases heq
  · exact hwild htame

/-- A comparison of types in scope is decided under all limits that are large enough, unless its search
is impredicative. The search for tame types never is. -/
theorem subtype_decided (s : State) (sub sup : Ty) (h : Comparison s sub sup) :
    (∃ bound, ∀ limit, bound ≤ limit → ¬ Impredicative limit s sub sup →
      ¬ ((Checker.upTo limit).subtype sub sup s).1.Exceeded) ∧
    ((s.context.apply sub).Tame (s.context.apply sup) →
      ∀ limit, ¬ Impredicative limit s sub sup) := by
  constructor
  · obtain ⟨bound, hends⟩ := Predicative.subtype_ends h
    refine ⟨bound + s.depth, fun limit hle hpred => ?_⟩
    replace hends := hends limit (limit - s.depth) (by omega)
    have hruns := Predicative.subtype_runsAs limit (limit - s.depth) sub sup s h.valid
    unfold Impredicative at hpred
    change ¬ (own.subtype limit (limit - s.depth) sub sup s).1.Exceeded
    generalize Predicative.subtype limit (limit - s.depth) sub sup s = run at hends hruns hpred
    generalize own.subtype limit (limit - s.depth) sub sup s = run' at hruns
    rintro ⟨n, hexceeded⟩
    cases hruns with
    | gaveUp hstopped => exact hpred (congrArg Outcome.aborted hstopped)
    | accepted => cases hexceeded
    | rejected => cases hexceeded
    | aborted _ =>
      cases hexceeded
      exact hends ⟨n, rfl⟩
  · exact fun htame limit => h.not_impredicative htame

def blank : State where
  supply := { types := #["a", "b", "c"] }

def identity (a : TypeId) : Ty := .forAll a (.arrow (.var a) (.var a))

theorem blank_valid : blank.Valid := by decide

theorem identities_decided :
    (∃ bound, ∀ limit, bound ≤ limit →
      ¬ ((Checker.upTo limit).subtype (identity ⟨0⟩) (.arrow .void .void) blank).1.Exceeded) ∧
    ¬ Impredicative 10 blank (.arrow (identity ⟨0⟩) .void) (.arrow (identity ⟨1⟩) .void) ∧
    ∃ bound, ∀ limit, bound ≤ limit →
      ¬ Impredicative limit blank (.arrow (identity ⟨0⟩) .void) (.arrow (identity ⟨1⟩) .void) →
      ¬ ((Checker.upTo limit).subtype (.arrow (identity ⟨0⟩) .void) (.arrow (identity ⟨1⟩) .void)
        blank).1.Exceeded := by
  obtain ⟨⟨bound, hdecided⟩, hpredicative⟩ := subtype_decided blank (identity ⟨0⟩)
    (.arrow .void .void) ⟨blank_valid, by decide, by decide⟩
  exact ⟨⟨bound, fun limit hle => hdecided limit hle (hpredicative (by decide) limit)⟩,
    by decide +kernel, (subtype_decided blank _ _ ⟨blank_valid, by decide, by decide⟩).1⟩

/-- The quantifiers are distinct, all is in scope and nothing has been solved; and every limit, however
large, is exceeded. -/
theorem SelfFeeding.never_decided :
    Comparison blank (seed ⟨0⟩) (.arrow (thunk ⟨1⟩) (negation (thunk ⟨2⟩))) ∧
    ((seed ⟨0⟩).quantifiers ++ (Ty.arrow (thunk ⟨1⟩) (negation (thunk ⟨2⟩))).quantifiers).Nodup ∧
    ∀ limit, ((Checker.upTo limit).subtype (seed ⟨0⟩)
      (.arrow (thunk ⟨1⟩) (negation (thunk ⟨2⟩))) blank).1 =
        .aborted (.depthLimitExceeded limit) :=
  ⟨⟨blank_valid, by decide, by decide⟩, by decide,
    fun limit => seed_aborts limit blank_valid ⟨0⟩ ⟨1⟩ ⟨2⟩⟩

end HigherRank
