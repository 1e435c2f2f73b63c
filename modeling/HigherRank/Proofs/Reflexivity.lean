import HigherRank.Proofs.Reading
import HigherRank.Proofs.Unification

set_option autoImplicit false

/-!
# Subtyping is reflexive

Every type in scope is below itself, whatever its rank, and the comparison leaves the context as it was.
Both sides open the same quantifiers, the one by placeholders and the other by variables, and read the
same throughout. The attempt that opens the type below first may fail, since its placeholder is declared
before the variable that it is read as; but it always ends. Once the variable is declared, the same
quantifier is opened below by a placeholder that reaches it.
-/
namespace HigherRank

open Judgment
open Opening (own)

namespace Judgment.Decides

variable {mayReject : Prop} {s : State} {θ : Assignment} {a : TypeId}

theorem rigidly_read {g : Growth} {x : (limit left : Nat) → Judgment Unit}
    (he : ∀ limit left, Evolves g (x limit left)) (hs : s.Valid)
    (hx : Decides mayReject x (s.scopeWith (.var a))
      ((s.scopeWith (.var a)).context.SolvedAsRead θ)) :
    Decides mayReject (fun limit left => Judgment.rigidly a (x limit left)) s (s.context.SolvedAsRead θ) :=
  .rigidly he hs hx fun _ _ hmarker hΔ => hΔ.leave (fun _ _ => rfl) hs.marker_fresh hmarker

theorem flexibly_read {ty : Ty} {f : (limit left : Nat) → Ty → Judgment Unit}
    (he : ∀ limit left ty, Evolves .placeholders (f limit left ty)) (hs : s.Valid)
    (hx : ∀ label, Decides mayReject
      (fun limit left => f limit left (ty.subst a (.placeholder ⟨s.supply.types.size⟩)))
      (s.scopeWithNew label)
      ((s.scopeWithNew label).context.SolvedAsRead (θ.update ⟨s.supply.types.size⟩ (.var a)))) :
    Decides mayReject (fun limit left => Judgment.flexibly a ty (f limit left)) s
      (s.context.SolvedAsRead θ) :=
  .flexibly (P := (s.context.childScope _ _).SolvedAsRead _) he hs hx fun _ _ hmarker hΔ =>
    hΔ.leave (hs.update_agrees θ (.var a)) hs.marker_fresh hmarker

end Judgment.Decides

section Instantiation

variable {mayReject : Prop} {s : State} {θ : Assignment} {v : Variance} {p : TypeId} {ty : Ty}

theorem Apart.read_eq_var (h : Apart s p ty) (hθ : s.context.ReadBy θ) (heq : ty.assign θ = θ p) :
    ∃ a, θ p = .var a := by
  rcases hθ.unsolved p h.unsolved with hp | hp
  · rw [hp] at heq
    cases ty with
    | placeholder q =>
      obtain ⟨hq, hne⟩ := h.unsolved_of_mem (List.mem_singleton_self q)
      replace heq : θ q = .placeholder p := heq
      rcases hθ.unsolved q hq with hq | ⟨a, hq⟩
      · cases hq.symm.trans heq
        exact absurd rfl hne
      · cases hq.symm.trans heq
    | _ => cases heq
  · exact hp

theorem Solves.solvedAsRead {a : TypeId} {Δ : Context} (h : Solves p ty s.context Δ) (hs : s.Valid)
    (hp : θ p = .var a) (hty : ty.assign θ = .var a) : s.context.SolvedAsRead θ Δ := by
  refine ⟨(h.evolves hs).valid.ordered, ?_⟩
  generalize s.context = Γ at h
  have hkept := Blockwise.refl (Entry.SolvedAsRead.self (θ := θ))
  cases h with
  | same => exact hkept _
  | direct => exact (hkept _).append (.cons (.solved hp hty) (hkept _))
  | reversed heq =>
    subst heq
    exact (hkept _).append (.cons (.solved (τ := .placeholder p) hty hp) (hkept _))

/-- A type that reads as the placeholder is its solution, or has the placeholder as its own. This fails
only if it is a variable that is declared later. -/
theorem instantiateMonotype_reads (h : Apart s p ty) (hθ : s.context.ReadBy θ)
    (heq : ty.assign θ = θ p) (hreached : mayReject ∨ s.context.ReachedBy θ) :
    Decides mayReject (fun _ _ => instantiateMonotype p ty) s (s.context.SolvedAsRead θ) := by
  obtain ⟨a, ha⟩ := h.read_eq_var hθ heq
  rcases instantiateMonotype_run p ty s with ⟨Γ, hrun, hsolves⟩ | hrun | ⟨-, hmissing⟩
  · exact ⟨_, _, .of_run hrun, .inl ⟨rfl, hsolves.solvedAsRead h.valid ha (heq.trans ha)⟩⟩
  · refine ⟨_, _, .of_run hrun, .inr ⟨hreached.resolve_right fun hreached => ?_, rfl⟩⟩
    rcases form_of_instantiateMonotype_rejected h.toSolvable h.resolved h.ne_placeholder hrun with
      ⟨τ, υ, rfl⟩ | ⟨b, body, rfl⟩ | ⟨b, before, after, rfl, hΓ, hb⟩
    · cases heq.trans ha
    · cases heq.trans ha
    · exact hb (hreached before _ after hΓ p b rfl heq.symm)
  · exact absurd h.unsolved hmissing

theorem Context.ReadBy.matrix_assign {Γ : Context} (h : Γ.ReadBy θ) (hr : Γ.Resolved ty)
    (hw : Γ.wellFormed ty = true) (hm : ty.isMonotype = true) :
    (ty.assign θ).matrix = ty.assign θ := by
  cases ty with
  | placeholder p => exact h.matrix_unsolved (hr.unsolved hw (List.mem_singleton_self p))
  | forAll a body => cases hm
  | _ => rfl

theorem instantiateStep_reads {next : (limit left : Nat) → Variance → TypeId → Ty → Judgment Unit}
    (hn : ∀ limit left v p ty, Atomic .nothing (next limit left v p ty))
    (ih : ∀ {s : State} {θ' : Assignment} {ty' : Ty}, (ty'.assign θ').size < (ty.assign θ).size →
      Solvable s p ty' → s.context.ReadBy θ' → (ty'.assign θ').matrix = θ' p →
      Decides True (fun limit left => next limit left v p ty') s (s.context.SolvedAsRead θ'))
    (h : Solvable s p ty) (hθ : s.context.ReadBy θ) (heq : (ty.assign θ).matrix = θ p) :
    Decides True (fun limit left => own.instantiateStep (next limit left) v p ty) s
      (s.context.SolvedAsRead θ) := by
  refine Decides.read rfl ?_
  have hresolved := h.ordered.resolved_apply ty
  replace h := h.apply
  rw [← hθ.apply] at ih heq
  generalize s.context.apply ty = ty at h ih heq hresolved
  by_cases hsame : ty = .placeholder p
  · simp only [if_pos hsame]
    exact .accept (.refl θ h.ordered)
  by_cases hmentions : ty.mentions p = true
  · simp only [if_neg hsame, if_pos hmentions]
    exact .reject
  simp only [if_neg hsame, if_neg hmentions]
  have hapart : Apart s p ty := ⟨h, hresolved, fun hp => hmentions (Ty.mentions_iff.2 hp)⟩
  refine Decides.orElse (fun _ _ => atomic_instantiateMonotype p ty) h.valid ?_ fun s₁ hretry => ?_
  · cases hm : ty.isMonotype with
    | true =>
      rw [hθ.matrix_assign hresolved h.wellFormed hm] at heq
      exact instantiateMonotype_reads hapart hθ heq (.inl trivial)
    | false => exact ⟨_, s, .of_run (by simp [instantiateMonotype, hsame, hm]), .inr ⟨trivial, rfl⟩⟩
  · rw [← hretry.context] at hθ ⊢
    replace h : Solvable s₁ p ty :=
      ⟨hretry.evolves.valid, hretry.context ▸ h.unsolved, hretry.context ▸ h.wellFormed⟩
    cases ty with
    | forAll a body =>
      cases v with
      | covariant =>
        exact .rigidly_read (fun limit left => (hn limit left _ _ _).evolves) h.valid
          (ih (Nat.lt_succ_self _) h.body_rigid (hθ.scopeWith rfl) heq)
      | contravariant =>
        have hbody := h.valid.assign_opened h.wellFormed θ
        have hp := h.valid.update_agrees θ (.var a) p (Context.placeholder_mem_of_unsolved h.unsolved)
        refine .flexibly_read (fun limit left _ => (hn limit left _ _ _).of_nothing.evolves) h.valid
          fun label => ih ?_ (h.body_flexible label) (hθ.scopeWithNew h.valid label a) ?_
        · rw [hbody]
          exact Nat.lt_succ_self _
        · rw [hbody, hp]
          exact heq
    | arrow τ υ =>
      rcases hθ.unsolved p h.unsolved with hp | ⟨a, hp⟩ <;> cases heq.trans hp
    | _ => exact .reject

theorem instantiate_reads (h : Solvable s p ty) (hθ : s.context.ReadBy θ)
    (heq : (ty.assign θ).matrix = θ p) :
    Decides True (fun limit left => own.instantiate limit left v p ty) s
      (s.context.SolvedAsRead θ) := by
  induction hsize : (ty.assign θ).size using Nat.strongRecOn generalizing s θ ty with
  | ind n ih =>
    subst hsize
    exact .below (.nested (instantiateStep_reads atomic_instantiate
      (fun hlt h hθ heq => ih _ hlt h hθ heq rfl) (h.withDepth _) hθ heq))

/-- Where the placeholders reach the variables they are read as, one is solved against a type that is
read as it is. -/
theorem instantiate_accepts (h : Apart s p ty) (hθ : s.context.ReadBy θ) (heq : ty.assign θ = θ p)
    (hreached : s.context.ReachedBy θ) :
    Decides False (fun limit left => own.instantiate limit left v p ty) s
      (s.context.SolvedAsRead θ) := by
  refine .below (.nested (.read rfl ?_))
  have happly : s.context.apply ty = ty := h.resolved.apply_eq
  have hmentions : ¬ ty.mentions p = true := fun hp => h.absent (Ty.mentions_iff.1 hp)
  simp only [happly, if_neg h.ne_placeholder, if_neg hmentions]
  have hdeep : Apart { s with depth := s.depth + 1 } p ty :=
    ⟨h.toSolvable.withDepth _, h.resolved, h.absent⟩
  exact .orElse_left (instantiateMonotype_reads hdeep hθ heq (.inr hreached))

end Instantiation

/-- Two types in scope, and what they are read as. -/
structure ReadAs (s : State) (θ : Assignment) (τ υ ρ ρ' : Ty) : Prop extends Comparison s τ υ where
  readBy : s.context.ReadBy θ
  lower : τ.assign θ = ρ
  upper : υ.assign θ = ρ'

namespace ReadAs

variable {s s₁ : State} {θ : Assignment} {sub sup τ υ : Ty} {a : TypeId}

theorem apply (h : ReadAs s θ sub sup τ υ) :
    ReadAs s θ (s.context.apply sub) (s.context.apply sup) τ υ :=
  ⟨h.toComparison.apply, h.readBy, (h.readBy.apply sub).trans h.lower,
    (h.readBy.apply sup).trans h.upper⟩

theorem later (h : ReadAs s θ sub sup τ υ) (hs₁ : s₁.Valid)
    (hΔ : s.context.SolvedAsRead θ s₁.context) : ReadAs s₁ θ sub sup τ υ :=
  ⟨⟨hs₁, hΔ.wellFormed h.sub, hΔ.wellFormed h.sup⟩, hΔ.readBy h.readBy, h.lower, h.upper⟩

theorem retries (h : ReadAs s θ sub sup τ υ) (hretry : s.Retries s₁) : ReadAs s₁ θ sub sup τ υ :=
  h.later hretry.evolves.valid (hretry.context.symm ▸ .refl θ h.valid.ordered)

theorem withDepth (h : ReadAs s θ sub sup τ υ) (depth : Nat) :
    ReadAs { s with depth } θ sub sup τ υ :=
  h.later (h.valid.withDepth depth) (.refl θ h.valid.ordered)

theorem body_flexible {body : Ty} (h : ReadAs s θ (.forAll a body) sup (.forAll a τ) υ)
    (label : String) :
    ReadAs (s.scopeWithNew label) (θ.update ⟨s.supply.types.size⟩ (.var a))
      (body.subst a (.placeholder ⟨s.supply.types.size⟩)) sup τ υ where
  toComparison := h.toComparison.body_flexible label
  readBy := h.readBy.scopeWithNew h.valid label a
  lower := (h.valid.assign_opened h.sub θ).trans (Ty.forAll.inj h.lower).2
  upper := (Ty.assign_agree h.toComparison.sup (h.valid.update_agrees θ _)).trans h.upper

theorem body_rigid {body : Ty} (h : ReadAs s θ sub (.forAll a body) τ (.forAll a υ)) :
    ReadAs (s.scopeWith (.var a)) θ sub body τ υ where
  toComparison := h.toComparison.body_rigid
  readBy := h.readBy.scopeWith rfl
  lower := h.lower
  upper := (Ty.forAll.inj h.upper).2

theorem parts {parameter result parameter' result' : Ty}
    (h : ReadAs s θ (.arrow parameter result) (.arrow parameter' result') τ υ)
    (hm : τ.matrix = υ.matrix) :
    ∃ ρ ρ', τ = .arrow ρ ρ' ∧ υ = .arrow ρ ρ' ∧ ReadAs s θ parameter' parameter ρ ρ ∧
      ReadAs s θ result result' ρ' ρ' := by
  obtain rfl : Ty.arrow (parameter.assign θ) (result.assign θ) = τ := h.lower
  obtain rfl : Ty.arrow (parameter'.assign θ) (result'.assign θ) = υ := h.upper
  obtain ⟨hp, hr⟩ := Ty.arrow.inj hm
  exact ⟨_, _, rfl, congrArg₂ Ty.arrow hp.symm hr.symm,
    ⟨h.toComparison.parts.1, h.readBy, hp.symm, rfl⟩, h.toComparison.parts.2, h.readBy, rfl, hr.symm⟩

end ReadAs

section Deciding

variable {mayReject : Prop} {s : State} {θ : Assignment} {sub sup τ υ : Ty}
  {next : (limit left : Nat) → Ty → Ty → Judgment Unit}
  (hn : ∀ limit left sub sup, Atomic .nothing (next limit left sub sup))

theorem instantiateIfOpen_reads {v : Variance} {p : TypeId} {other : Ty}
    (h : Solvable s p other) (hθ : s.context.ReadBy θ) (heq : (other.assign θ).matrix = θ p) :
    Decides True (fun limit left => instantiateIfOpen (own.instantiate limit left v) p other) s
      (s.context.SolvedAsRead θ) := by
  refine .read rfl ?_
  split
  · exact instantiate_reads h hθ heq
  · exact .reject

theorem subtypeSolvingSub_reads (h : ReadAs s θ sub sup τ υ) (hr : s.context.Resolved sub)
    (hm : τ.matrix = υ.matrix) :
    Decides True (fun limit left => subtypeSolvingSub (own.instantiate limit left) sub sup) s
      (s.context.SolvedAsRead θ) := by
  cases sub with
  | placeholder p =>
    have hp := hr.unsolved h.sub (List.mem_singleton_self p)
    refine instantiateIfOpen_reads (h.solvable_sub hp) h.readBy ?_
    rw [h.upper, ← hm, ← h.lower]
    exact h.readBy.matrix_unsolved hp
  | _ => exact .reject

theorem subtypeSolvingSup_reads (h : ReadAs s θ sub sup τ υ) (hr : s.context.Resolved sup)
    (hm : τ.matrix = υ.matrix) :
    Decides True (fun limit left => subtypeSolvingSup (own.instantiate limit left) sub sup) s
      (s.context.SolvedAsRead θ) := by
  cases sup with
  | placeholder p =>
    have hp := hr.unsolved h.sup (List.mem_singleton_self p)
    refine instantiateIfOpen_reads (h.solvable_sup hp) h.readBy ?_
    rw [h.lower, hm, ← h.upper]
    exact h.readBy.matrix_unsolved hp
  | _ => exact .reject

include hn

theorem arrows_read {parameter result parameter' result' : Ty}
    (hp : Decides mayReject (fun limit left => next limit left parameter' parameter) s
      (s.context.SolvedAsRead θ))
    (hr : ∀ s₁ : State, s₁.Valid → s.context.SolvedAsRead θ s₁.context →
      Decides mayReject (fun limit left => next limit left result result') s₁
        (s₁.context.SolvedAsRead θ))
    (hs : s.Valid) :
    Decides mayReject (fun limit left => atomically (next limit left parameter' parameter >>= fun _ =>
      next limit left result result')) s (s.context.SolvedAsRead θ) := by
  refine .atomically (hp.bind fun limit left s₁ hrun hΔ => ?_)
  exact (hr s₁ ((hn limit left _ _).evolves.result hs hrun).valid hΔ).mono fun _ => hΔ.trans

section Openings

variable (ih : ∀ {s θ sub sup τ' υ'}, τ'.size + υ'.size < τ.size + υ.size → ReadAs s θ sub sup τ' υ' →
    τ'.matrix = υ'.matrix →
    Decides True (fun limit left => next limit left sub sup) s (s.context.SolvedAsRead θ))
  (h : ReadAs s θ sub sup τ υ) (hm : τ.matrix = υ.matrix)
include ih h hm

theorem subtypeOpeningSub_reads :
    Decides True (fun limit left => subtypeOpeningSub (next limit left) sub sup) s
      (s.context.SolvedAsRead θ) := by
  cases sub with
  | forAll a body =>
    obtain rfl : Ty.forAll a (body.assign θ) = τ := h.lower
    refine .flexibly_read (fun limit left _ => (hn limit left _ _).of_nothing.evolves) h.valid
      fun label => ih ?_ (h.body_flexible label) hm
    exact Nat.add_lt_add_right (Nat.lt_succ_self _) _
  | _ => exact .reject

theorem subtypeOpeningSup_reads :
    Decides True (fun limit left => own.subtypeOpeningSup (next limit left) sub sup) s
      (s.context.SolvedAsRead θ) := by
  cases sup with
  | forAll a body =>
    obtain rfl : Ty.forAll a (body.assign θ) = υ := h.upper
    refine .rigidly_read (fun limit left => (hn limit left _ _).evolves) h.valid
      (ih ?_ h.body_rigid hm)
    exact Nat.add_lt_add_left (Nat.lt_succ_self _) _
  | _ => exact .reject

theorem subtypeOtherwise_reads (hr : s.context.Resolved sub) (hr' : s.context.Resolved sup) :
    Decides True (fun limit left => own.subtypeOtherwise (next limit left)
      (own.instantiate limit left) sub sup) s (s.context.SolvedAsRead θ) := by
  unfold Opening.subtypeOtherwise
  by_cases hatom : sub.sameAtom sup = true
  · simp only [if_pos hatom]
    exact .accept (.refl θ h.valid.ordered)
  simp only [if_neg hatom]
  refine .orElse (fun limit left => atomic_subtypeOpeningSub (hn limit left) _ _) h.valid
    (subtypeOpeningSub_reads hn ih h hm) fun s₁ hretry₁ => ?_
  rw [← hretry₁.context] at hr hr' ⊢
  replace h := h.retries hretry₁
  refine .orElse (fun limit left => atomic_subtypeOpeningSup (hn limit left) _ _) h.valid
    (subtypeOpeningSup_reads hn ih h hm) fun s₂ hretry₂ => ?_
  rw [← hretry₂.context] at hr hr' ⊢
  replace h := h.retries hretry₂
  refine .orElse (fun limit left => atomic_subtypeSolvingSub (atomic_instantiate limit left) _ _)
    h.valid (subtypeSolvingSub_reads h hr hm) fun s₃ hretry₃ => ?_
  rw [← hretry₃.context] at hr' ⊢
  exact subtypeSolvingSup_reads (h.retries hretry₃) hr' hm

theorem subtypeStep_reads :
    Decides True (fun limit left => own.subtypeStep (next limit left) (own.instantiate limit left)
      sub sup) s (s.context.SolvedAsRead θ) := by
  have hr := h.valid.ordered.resolved_apply sub
  have hr' := h.valid.ordered.resolved_apply sup
  replace h := h.apply
  by_cases harrows : ∃ τ υ τ' υ', s.context.apply sub = .arrow τ υ ∧ s.context.apply sup = .arrow τ' υ'
  · obtain ⟨parameter, result, parameter', result', hsub, hsup⟩ := harrows
    refine .congr (fun _ _ => subtypeStep_arrows hsub hsup) ?_
    rw [hsub, hsup] at h
    obtain ⟨ρ₁, ρ₂, rfl, rfl, hp, hres⟩ := h.parts hm
    refine arrows_read hn (ih ?_ hp rfl) (fun s₁ hs₁ hΔ => ih ?_ (hres.later hs₁ hΔ) rfl) h.valid
    · simp only [Ty.size]
      omega
    · simp only [Ty.size]
      omega
  · exact .congr (fun _ _ => subtypeStep_otherwise fun τ υ τ' υ' hsub hsup =>
      harrows ⟨τ, υ, τ', υ', hsub, hsup⟩) (subtypeOtherwise_reads hn ih h hm hr hr')

end Openings
end Deciding

/-- Types whose readings have the same matrix are compared to an end, and nothing is solved but as it
is read. -/
theorem subtype_reads {s : State} {θ : Assignment} {sub sup τ υ : Ty} (h : ReadAs s θ sub sup τ υ)
    (hm : τ.matrix = υ.matrix) :
    Decides True (fun limit left => own.subtype limit left sub sup) s
      (s.context.SolvedAsRead θ) := by
  induction hsize : τ.size + υ.size using Nat.strongRecOn generalizing s θ sub sup τ υ with
  | ind n ih =>
    subst hsize
    exact subtype_decides_of_step (subtypeStep_reads atomic_subtype
      (fun hlt h hm => ih _ hlt h hm rfl) (h.withDepth _) hm)

theorem Context.ReadBy.forAll_of_assign {Γ : Context} {θ : Assignment} {ty τ : Ty} {a : TypeId}
    (h : Γ.ReadBy θ) (hr : Γ.Resolved ty) (hw : Γ.wellFormed ty = true)
    (heq : ty.assign θ = .forAll a τ) : ∃ body, ty = .forAll a body := by
  cases ty with
  | placeholder p =>
    have hp : θ p = .forAll a τ := heq
    rcases h.unsolved p (hr.unsolved hw (List.mem_singleton_self p)) with hp' | ⟨b, hp'⟩
    · cases hp'.symm.trans hp
    · cases hp'.symm.trans hp
  | forAll b body =>
    cases (Ty.forAll.inj heq).1
    exact ⟨body, rfl⟩
  | _ => cases heq

theorem Context.ReadBy.arrow_of_assign {Γ : Context} {θ : Assignment} {ty τ υ : Ty}
    (h : Γ.ReadBy θ) (hr : Γ.Resolved ty) (hw : Γ.wellFormed ty = true)
    (heq : ty.assign θ = .arrow τ υ) : ∃ τ' υ', ty = .arrow τ' υ' := by
  cases ty with
  | placeholder p =>
    have hp : θ p = .arrow τ υ := heq
    rcases h.unsolved p (hr.unsolved hw (List.mem_singleton_self p)) with hp' | ⟨b, hp'⟩
    · cases hp'.symm.trans hp
    · cases hp'.symm.trans hp
  | arrow τ' υ' => exact ⟨τ', υ', rfl⟩
  | _ => cases heq

section Accepting

variable {s : State} {θ : Assignment} {sub sup τ : Ty}

theorem instantiateIfOpen_accepts {v : Variance} {p : TypeId} {other : Ty} (h : Apart s p other)
    (hθ : s.context.ReadBy θ) (heq : other.assign θ = θ p) (hreached : s.context.ReachedBy θ) :
    Decides False (fun limit left => instantiateIfOpen (own.instantiate limit left v) p other) s
      (s.context.SolvedAsRead θ) := by
  have hmentions : other.mentions p = false :=
    Bool.eq_false_iff.2 fun hp => h.absent (Ty.mentions_iff.1 hp)
  have hopen : (s.context.isUnsolved p && !other.mentions p) = true := by
    simp [Context.isUnsolved, h.unsolved, hmentions]
  refine .read rfl ?_
  simp only [if_pos hopen]
  exact instantiate_accepts h hθ heq hreached

theorem subtypeOtherwise_accepts {next : (limit left : Nat) → Ty → Ty → Judgment Unit}
    (h : ReadAs s θ sub sup τ τ) (hr : s.context.Resolved sub) (hr' : s.context.Resolved sup)
    (hq : sub.quantifierFree = true) (hq' : sup.quantifierFree = true)
    (hreached : s.context.ReachedBy θ)
    (hform : sub.sameAtom sup = true ∨ (∃ p, sub = .placeholder p) ∨ ∃ p, sup = .placeholder p) :
    Decides False (fun limit left => own.subtypeOtherwise (next limit left)
      (own.instantiate limit left) sub sup) s (s.context.SolvedAsRead θ) := by
  have heq : sub.assign θ = sup.assign θ := h.lower.trans h.upper.symm
  unfold Opening.subtypeOtherwise
  by_cases hatom : sub.sameAtom sup = true
  · simp only [if_pos hatom]
    exact .accept (.refl θ h.valid.ordered)
  simp only [if_neg hatom]
  have hopenSub : ∀ limit left, subtypeOpeningSub (next limit left) sub sup s = (.rejected, s) := by
    cases sub with
    | forAll a body => cases hq
    | _ => exact fun _ _ => rfl
  have hopenSup : ∀ limit left, own.subtypeOpeningSup (next limit left) sub sup s =
      (.rejected, s) := by
    cases sup with
    | forAll a body => cases hq'
    | _ => exact fun _ _ => rfl
  refine .congr (fun limit left => (orElse_of_rejected (hopenSub limit left)).trans
    (orElse_of_rejected (hopenSup limit left))) ?_
  by_cases hp : ∃ p, sub = .placeholder p
  · obtain ⟨p, rfl⟩ := hp
    have hne : sup ≠ .placeholder p := by
      rintro rfl
      exact hatom (beq_self_eq_true p)
    have hunsolved := hr.unsolved h.sub (List.mem_singleton_self p)
    exact .orElse_left (instantiateIfOpen_accepts
      ⟨h.solvable_sub hunsolved, hr', Ty.not_mem_of_assign_eq heq hne⟩ h.readBy heq.symm hreached)
  · obtain ⟨q, rfl⟩ := (hform.resolve_left hatom).resolve_left hp
    have hne : sub ≠ .placeholder q := fun hsub => hp ⟨q, hsub⟩
    have hunsolved := hr'.unsolved h.sup (List.mem_singleton_self q)
    have hsolveSub : ∀ limit left,
        subtypeSolvingSub (own.instantiate limit left) sub (.placeholder q) s = (.rejected, s) := by
      cases sub with
      | placeholder p => exact absurd ⟨p, rfl⟩ hp
      | _ => exact fun _ _ => rfl
    refine .congr (fun limit left => orElse_of_rejected (hsolveSub limit left)) ?_
    exact instantiateIfOpen_accepts
      ⟨h.solvable_sup hunsolved, hr, Ty.not_mem_of_assign_eq heq.symm hne⟩ h.readBy heq hreached

theorem subtype_accepts_atoms (h : ReadAs s θ sub sup τ τ) (hreached : s.context.ReachedBy θ)
    (hatom : τ.sameAtom τ = true) :
    Decides False (fun limit left => own.subtype limit left sub sup) s
      (s.context.SolvedAsRead θ) := by
  have hfree : ∀ ty : Ty, ty.assign θ = τ → ty.quantifierFree = true := by
    rintro ty rfl
    cases ty with
    | forAll a body => simp [Ty.assign, Ty.replace, Ty.sameAtom] at hatom
    | arrow parameter result => simp [Ty.assign, Ty.replace, Ty.sameAtom] at hatom
    | _ => rfl
  have hr := h.valid.ordered.resolved_apply sub
  have hr' := h.valid.ordered.resolved_apply sup
  replace h := h.apply
  refine subtype_decides_of_step ?_
  rcases Ty.form_of_assign_eq (hfree _ h.lower) (h.lower.trans h.upper.symm) with
    ⟨parameter, result, _, _, hsub, -⟩ | hform
  · rw [← h.lower, hsub] at hatom
    simp [Ty.assign, Ty.replace, Ty.sameAtom] at hatom
  · refine .congr (fun _ _ => subtypeStep_otherwise fun τ υ τ' υ' harrow harrow' => ?_)
      (subtypeOtherwise_accepts (h.withDepth _) hr hr' (hfree _ h.lower) (hfree _ h.upper) hreached hform)
    rw [harrow, harrow'] at hform
    simp [Ty.sameAtom] at hform

variable {a : TypeId} (ih : ∀ {s θ sub sup}, ReadAs s θ sub sup τ τ → s.context.ReachedBy θ →
  Decides False (fun limit left => own.subtype limit left sub sup) s (s.context.SolvedAsRead θ))
include ih

theorem subtype_accepts_opened (h : ReadAs s θ sub sup (.forAll a τ) τ)
    (hreached : s.context.ReachedBy θ) (ha : a ∈ s.context.rigid) :
    Decides False (fun limit left => own.subtype limit left sub sup) s
      (s.context.SolvedAsRead θ) := by
  have hr := h.valid.ordered.resolved_apply sub
  obtain ⟨body, hbody⟩ := h.readBy.forAll_of_assign hr h.apply.sub h.apply.lower
  refine subtype_decides_of_step (.congr (fun _ _ => subtypeStep_quantified (.inl hbody))
    (.orElse_left ?_))
  replace h := h.apply.withDepth (s.depth + 1)
  rw [hbody] at h ⊢
  exact .flexibly_read (fun limit left _ => (atomic_subtype limit left _ _).of_nothing.evolves)
    h.valid fun label => ih (h.body_flexible label)
      (Context.ReachedBy.scopeWithNew (s := { s with depth := s.depth + 1 }) hreached h.valid ha label)

/-- If the attempt that opens the type below first fails, the type above is opened by the variable. -/
theorem subtype_accepts_forAll (h : ReadAs s θ sub sup (.forAll a τ) (.forAll a τ))
    (hreached : s.context.ReachedBy θ) :
    Decides False (fun limit left => own.subtype limit left sub sup) s
      (s.context.SolvedAsRead θ) := by
  have hr' := h.valid.ordered.resolved_apply sup
  obtain ⟨body, hbody⟩ := h.readBy.forAll_of_assign hr' h.apply.sup h.apply.upper
  refine subtype_decides_of_step (.congr (fun _ _ => subtypeStep_quantified (.inr hbody)) ?_)
  replace h := h.apply.withDepth (s.depth + 1)
  rw [hbody] at h ⊢
  generalize s.context.apply sub = sub at h ⊢
  refine .orElse (fun limit left => atomic_subtypeOpeningSub (atomic_subtype limit left) _ _) h.valid
    (subtypeOpeningSub_reads atomic_subtype (fun _ => subtype_reads) h rfl) fun s₁ hretry => ?_
  replace h := h.retries hretry
  have hΓ : s₁.context = s.context := hretry.context
  rw [← hΓ] at hreached ⊢
  refine .orElse_left (.rigidly_read (fun limit left => (atomic_subtype limit left _ _).evolves) h.valid
    (subtype_accepts_opened ih h.body_rigid (hreached.scopeWith rfl) ?_))
  simp [State.scopeWith, Context.rigid_childScope, Entry.rigid?]

end Accepting

/-- Types that are read as the same are compared successfully, by induction on what they are read as. -/
theorem subtype_accepts_read {s : State} {θ : Assignment} {sub sup τ : Ty}
    (h : ReadAs s θ sub sup τ τ) (hreached : s.context.ReachedBy θ) :
    Decides False (fun limit left => own.subtype limit left sub sup) s
      (s.context.SolvedAsRead θ) := by
  induction τ generalizing s θ sub sup with
  | forAll a τ ih => exact subtype_accepts_forAll ih h hreached
  | arrow ρ ρ' ihp ihr =>
    have hr := h.valid.ordered.resolved_apply sub
    have hr' := h.valid.ordered.resolved_apply sup
    obtain ⟨parameter, result, hsub⟩ := h.readBy.arrow_of_assign hr h.apply.sub h.apply.lower
    obtain ⟨parameter', result', hsup⟩ := h.readBy.arrow_of_assign hr' h.apply.sup h.apply.upper
    replace h := h.apply.withDepth (s.depth + 1)
    refine subtype_decides_of_step (.congr (fun _ _ => subtypeStep_arrows hsub hsup) ?_)
    rw [hsub, hsup] at h
    obtain ⟨_, _, ⟨⟩, -, hparameter, hresult⟩ := h.parts rfl
    exact arrows_read atomic_subtype (ihp hparameter hreached)
      (fun s₁ hs₁ hΔ => ihr (hresult.later hs₁ hΔ) (hΔ.reachedBy hreached)) h.valid
  | placeholder p => exact subtype_accepts_atoms h hreached (beq_self_eq_true p)
  | var a => exact subtype_accepts_atoms h hreached (beq_self_eq_true a)
  | void => exact subtype_accepts_atoms h hreached rfl

/-- Every type in scope is below itself under every limit that is large enough, and comparing it with
itself changes nothing that was known. -/
theorem subtype_reflexive {s : State} {ty : Ty} (hs : s.Valid)
    (hty : s.context.wellFormed ty = true) :
    ∃ bound, ∀ limit, bound ≤ limit → ∃ s',
      (Checker.upTo limit).subtype ty ty s = (.accepted (), s') ∧ s'.context = s.context := by
  have hreads : ReadAs s (fun p => s.context.apply (.placeholder p)) ty ty _ _ :=
    ⟨⟨hs, hty, hty⟩, hs.ordered.readBy, rfl, rfl⟩
  have hinert : ∀ p, .unsolved p ∈ s.context → s.context.apply (.placeholder p) = .placeholder p :=
    fun _ => hs.ordered.apply_of_unsolved
  have hreached : s.context.ReachedBy fun p => s.context.apply (.placeholder p) := by
    rintro before _ after hΓ p a rfl hp
    cases (hinert p (by simp [hΓ])).symm.trans hp
  obtain ⟨_, s', ⟨bound, hrun⟩, ⟨rfl, hΔ⟩ | ⟨hfalse, -⟩⟩ := subtype_accepts_read hreads hreached
  · exact ⟨bound + s.depth, fun limit hle =>
      ⟨s', hrun limit (limit - s.depth) (by omega), hΔ.eq_of_inert hinert⟩⟩
  · exact hfalse.elim

namespace Nested

def start : State where
  supply := { types := #["p", "a", "b", "c", "d"] }
  context := [.unsolved ⟨0⟩, .var ⟨1⟩]

def rankTwo : Ty :=
  .forAll ⟨2⟩ (.arrow (.forAll ⟨3⟩ (.arrow (.var ⟨3⟩) (.arrow (.var ⟨2⟩) (.placeholder ⟨0⟩))))
    (.forAll ⟨4⟩ (.arrow (.arrow (.var ⟨4⟩) (.var ⟨1⟩)) (.placeholder ⟨0⟩))))

theorem start_valid : start.Valid := by decide

theorem rankTwo_reflexive :
    start.Valid ∧ start.context.wellFormed rankTwo = true ∧
    ∃ bound, ∀ limit, bound ≤ limit → ∃ s',
      (Checker.upTo limit).subtype rankTwo rankTwo start = (.accepted (), s') ∧
        s'.context = start.context :=
  ⟨start_valid, by decide, subtype_reflexive start_valid (by decide)⟩

end Nested
end HigherRank
