import HigherRank.Proofs.Decision
import HigherRank.Proofs.Unification

set_option autoImplicit false

/-!
# Comparison of prenex types is the generic instance relation

A prenex type is below another if the matrix of the other is an instance of it, by types over the variables
in scope and those that the other quantifies. Opening the type below comes first, and may come too early:
the new placeholder is then declared before a variable that it has to stand for. Such an attempt is
rejected without a trace, and the type above is opened instead.
-/
namespace HigherRank

open Judgment
open Opening (own)

namespace Ty

/-- The second type is the matrix of the first, with simple types over the given variables for the
quantified ones. -/
def IsInstanceOver (rigid : List TypeId) (σ ρ : Ty) : Prop :=
  ∃ f : TypeId → Ty, (∀ a ∈ σ.leading, (f a).SimpleOver rigid) ∧
    ρ = σ.matrix.replace (fun a => if a ∈ σ.leading then f a else .var a) .placeholder

variable {rigid : List TypeId} {σ ρ body : Ty} {a : TypeId}

theorem IsInstanceOver.isInstance (h : σ.IsInstanceOver rigid ρ) : σ.IsInstance ρ := by
  obtain ⟨f, hf, hρ⟩ := h
  exact ⟨f, fun a ha => (hf a ha).simple, hρ⟩

theorem SimpleOver.replace_eq {κ : Ty} {g : TypeId → Ty} (h : κ.SimpleOver rigid)
    (hg : ∀ b ∈ rigid, g b = .var b) : κ.replace g .placeholder = κ := by
  have hoccurs := free_eq_occurrences_of_quantifierFree (quantifierFree_of_simple h.simple)
  have hleaves : κ.replace g .placeholder = κ.replace .var .placeholder :=
    replace_congr (fun b hb => hg b (h.scope b (hoccurs ▸ hb))) fun _ _ => rfl
  rw [hleaves, replace_leaves]

theorem IsInstanceOver.opened (h : (forAll a body).IsInstanceOver rigid ρ) (ha : a ∉ body.leading)
    (hapart : ∀ b ∈ body.leading, b ∉ rigid) :
    ∃ κ : Ty, κ.SimpleOver rigid ∧ (body.subst a κ).IsInstanceOver rigid ρ := by
  obtain ⟨f, hf, rfl⟩ := h
  have hκ : (f a).SimpleOver rigid := hf a List.mem_cons_self
  have hqf := quantifierFree_of_simple hκ.simple
  refine ⟨f a, hκ, f, fun b hb => hf b ?_, ?_⟩
  · rw [leading_subst hqf] at hb
    exact List.mem_cons_of_mem _ hb
  · rw [matrix_subst hqf, leading_subst hqf, subst, replace_replace]
    refine replace_congr (fun b _ => ?_) fun _ _ => rfl
    simp only [leading, List.mem_cons]
    by_cases hb : b = a
    · subst hb
      have hsame : (f b).replace (fun c => if c ∈ body.leading then f c else .var c) .placeholder =
          f b := hκ.replace_eq fun c hc => if_neg fun hc' => hapart c hc' hc
      simp [hsame]
    · simp [hb, replace]

theorem occurrences_matrix (ty : Ty) : ty.matrix.occurrences = ty.occurrences := by
  induction ty with
  | forAll a body ih => exact ih
  | _ => rfl

theorem IsInstance.over (h : σ.IsInstance ρ) (hρ : ∀ b ∈ ρ.occurrences, b ∈ rigid) :
    σ.IsInstanceOver rigid ρ := by
  refine InstanceBy.parts (P := fun κ => κ.simple = true) h ⟨rfl, by simp [free]⟩
    fun κ hκ hoccurs _ => ⟨hκ, fun b hb => hρ b (hoccurs ?_)⟩
  rwa [← free_eq_occurrences_of_quantifierFree (quantifierFree_of_simple hκ)]

end Ty

namespace State

variable {s : State} {θ : Assignment}

theorem ModeledBy.scopeWithNew {κ : Ty} (h : s.ModeledBy θ) (hκ : κ.SimpleOver s.context.rigid)
    (label : String) : (s.scopeWithNew label).ModeledBy (θ.update ⟨s.supply.types.size⟩ κ) := by
  refine ⟨h.valid.scopeWithNew label, h.solved.childScope (by simp), throughout_append.2
    ⟨throughout_append.2 ⟨?_, throughout_singleton.2 ?_⟩, throughout_singleton.2 ?_⟩⟩
  · exact h.model.agree h.valid.ordered (h.valid.update_agrees θ κ)
  · exact ⟨by simp [Entry.placeholder?], by simp [Entry.placeholder?], by simp⟩
  · refine Entry.fits_unsolved ?_
    rw [Assignment.update_self]
    simpa [Context.rigid, List.filterMap_cons, Entry.rigid?] using hκ

theorem Valid.denotes_scopeWithNew {ty ρ : Ty} (hs : s.Valid) (h : s.context.Denotes θ ty ρ) (κ : Ty)
    (label : String) :
    (s.scopeWithNew label).context.Denotes (θ.update ⟨s.supply.types.size⟩ κ) ty ρ :=
  ⟨h.toSimpleIn.childScope _ _,
    (Ty.assign_agree h.wellFormed (hs.update_agrees θ κ)).trans h.assign_eq⟩

end State

section Instances

variable {s : State} {θ : Assignment} {a : TypeId} {sub sup body ρ : Ty}

theorem Ty.PrenexIn.opened_isInstanceOver (h : (Ty.forAll a body).PrenexIn s.context)
    (hs : s.ModeledBy θ)
    (hρ : ((Ty.forAll a body).assign θ).IsInstanceOver s.context.rigid ρ) :
    ∃ κ : Ty, κ.SimpleOver s.context.rigid ∧
      ((body.subst a (.placeholder ⟨s.supply.types.size⟩)).assign
        (θ.update ⟨s.supply.types.size⟩ κ)).IsInstanceOver s.context.rigid ρ := by
  have hdeclared := (Context.wellFormed_iff.1 h.wellFormed).2
  have hleading : (body.assign θ).leading = body.leading :=
    Ty.leading_replace (fun _ _ => rfl) fun p hp => Ty.leading_eq_nil_of_quantifierFree
      (Ty.quantifierFree_of_simple (hs.model.fits (hdeclared p hp)).1)
  obtain ⟨κ, hκ, hinstance⟩ := Ty.IsInstanceOver.opened hρ (hleading ▸ h.not_mem_leading)
    (hleading ▸ fun b hb => h.apart b (List.mem_cons_of_mem _ hb))
  refine ⟨κ, hκ, ?_⟩
  have hagree := hs.valid.update_agrees θ κ
  have havoids : ∀ p ∈ body.placeholders,
      a ∉ (θ.update ⟨s.supply.types.size⟩ κ p).occurrences := fun p hp => by
    rw [hagree p (hdeclared p hp)]
    exact hs.model.avoids (h.apart a List.mem_cons_self) h.wellFormed p hp
  rwa [Ty.assign_subst havoids, Ty.assign_agree_body h.wellFormed hagree, Assignment.update_self]

theorem Comparable.decides (h : Comparable s.context sub sup) (hs : s.Valid) :
    Decides True (fun limit left => own.subtype limit left sub sup) s fun _ => True :=
  Comparison.decides ⟨hs, h.lower.wellFormed, h.upper.wellFormed⟩
    (.inl ⟨(h.apply hs.ordered).lower.prenex, (h.apply hs.ordered).upper.prenex⟩)

theorem flexibly_accepts_instance
    (ih : ∀ {s θ sub}, sub.leading = body.leading → s.ModeledBy θ → Comparable s.context sub sup →
      s.context.Denotes θ sup ρ → (sub.assign θ).IsInstanceOver s.context.rigid ρ →
      Decides False (fun limit left => own.subtype limit left sub sup) s fun _ => True)
    (hs : s.ModeledBy θ) (hcomp : Comparable s.context (.forAll a body) sup)
    (hsup : s.context.Denotes θ sup ρ)
    (h : ((Ty.forAll a body).assign θ).IsInstanceOver s.context.rigid ρ) :
    Decides False (fun limit left => flexibly a body fun body => own.subtype limit left body sup) s
      fun _ => True := by
  -- The outermost quantifier below is opened by a placeholder, and the model assigns to it what the
  -- instance has there.
  obtain ⟨κ, hκ, hinstance⟩ := hcomp.lower.opened_isInstanceOver hs h
  refine Decides.flexibly (P := fun _ => True)
    (fun limit left _ => (atomic_subtype limit left _ _).of_nothing.evolves) hs.valid
    (fun label => ?_) fun _ _ _ => id
  exact ih (Ty.leading_subst rfl) (hs.scopeWithNew hκ label) (hcomp.body_flexible label)
    (hs.valid.denotes_scopeWithNew hsup κ label) (s.rigid_scopeWithNew label ▸ hinstance)

/-- A type without quantifiers is compared with one that it is an instance of, by induction on the
quantifiers that are left. -/
theorem subtype_accepts_instance (hs : s.ModeledBy θ) (hcomp : Comparable s.context sub sup)
    (hsup : s.context.Denotes θ sup ρ) (h : (sub.assign θ).IsInstanceOver s.context.rigid ρ) :
    Decides False (fun limit left => own.subtype limit left sub sup) s fun _ => True := by
  induction hleading : sub.leading generalizing s θ sub sup with
  | nil =>
    have hqf : sub.quantifierFree = true := by
      cases sub with
      | forAll a body => cases hleading
      | _ => exact hcomp.lower.prenex
    have heq : ρ = sub.assign θ :=
      (Ty.isInstance_of_quantifierFree (hs.model.quantifierFree hcomp.lower.wellFormed hqf)).1
        h.isInstance
    obtain ⟨⟨⟩, s', -, hrun, -⟩ :=
      subtype_completes hs ⟨⟨hcomp.lower.wellFormed, hqf⟩, heq.symm⟩ hsup
    exact ⟨_, s', hrun, .inl ⟨rfl, trivial⟩⟩
  | cons a leading ih =>
    cases sub with
    | forAll a' body =>
      rw [← hs.model.apply] at h
      obtain ⟨-, hbody⟩ := List.cons.inj ((hs.solved.leading_apply _).trans hleading)
      refine subtype_decides_of_step (.congr (fun _ _ => subtypeStep_quantified (.inl rfl))
        (.orElse_left ?_))
      exact flexibly_accepts_instance
        (fun hopened hs hcomp hsup h => ih hs hcomp hsup h (hopened.trans hbody))
        (hs.withDepth (s.depth + 1)) (hcomp.apply hs.valid.ordered) (hsup.apply hs) h
    | _ => cases hleading

end Instances

namespace Context

variable {Γ : Context} {ty : Ty} (hnone : Γ.placeholders = [])
include hnone

theorem placeholders_eq_nil (hw : Γ.wellFormed ty = true) : ty.placeholders = [] :=
  List.eq_nil_iff_forall_not_mem.2 fun p hp => by
    have hdeclared := (wellFormed_iff.1 hw).2 p hp
    simp [hnone] at hdeclared

theorem apply_of_no_placeholders (hw : Γ.wellFormed ty = true) : Γ.apply ty = ty :=
  Resolved.apply_eq fun p hp => by simp [placeholders_eq_nil hnone hw] at hp

theorem assign_of_no_placeholders (hw : Γ.wellFormed ty = true) (θ : Assignment) :
    ty.assign θ = ty := by
  have hleaves : ty.assign θ = ty.replace .var .placeholder :=
    Ty.replace_congr (fun _ _ => rfl) (by simp [placeholders_eq_nil hnone hw])
  rw [hleaves, Ty.replace_leaves]

theorem modeledBy_of_no_placeholders (θ : Assignment) : Γ.ModeledBy θ := by
  rintro before e after rfl
  have he : e.placeholder? = none := List.filterMap_eq_nil_iff.1 hnone e (by simp)
  refine ⟨by simp [he], by simp [he], ?_⟩
  rintro p τ rfl
  cases he

theorem simplySolved_of_no_placeholders : Γ.SimplySolved := fun p τ hp => by
  have hmem := placeholder_mem_of_solved hp
  simp [hnone] at hmem

end Context

section Rigid

variable {s : State} {sub sup : Ty}

theorem subtypeOpeningSub_decides (hs : s.Valid) (hcomp : Comparable s.context sub sup) :
    Decides True (fun limit left => subtypeOpeningSub (own.subtype limit left) sub sup) s
      fun _ => True := by
  cases sub with
  | forAll a body =>
    exact Decides.flexibly (fun limit left _ => (atomic_subtype limit left _ _).of_nothing.evolves) hs
      (fun label => (hcomp.body_flexible label).decides (hs.scopeWithNew label)) fun _ _ _ => id
  | _ => exact .reject

theorem subtype_accepts_of_quantifierFree (hs : s.Valid) (hnone : s.context.placeholders = [])
    (hcomp : Comparable s.context sub sup) (hqf : sup.quantifierFree = true)
    (h : sub.IsInstanceOver (s.context.rigid ++ sup.leading) sup.matrix) :
    Decides False (fun limit left => own.subtype limit left sub sup) s fun _ => True := by
  have hmodel := Context.modeledBy_of_no_placeholders hnone fun _ => .void
  have hlower := Context.assign_of_no_placeholders hnone hcomp.lower.wellFormed fun _ => .void
  have hupper := Context.assign_of_no_placeholders hnone hcomp.upper.wellFormed fun _ => .void
  rw [Ty.leading_eq_nil_of_quantifierFree hqf, List.append_nil,
    Ty.matrix_eq_of_quantifierFree hqf] at h
  exact subtype_accepts_instance ⟨hs, hcomp.solved, hmodel⟩ hcomp
    ⟨⟨hcomp.upper.wellFormed, hqf⟩, hupper⟩ (hlower.symm ▸ h)

/-- The quantifiers above are opened one after another, unless the comparison was accepted before. -/
theorem subtype_accepts (hs : s.Valid) (hnone : s.context.placeholders = [])
    (hcomp : Comparable s.context sub sup)
    (h : sub.IsInstanceOver (s.context.rigid ++ sup.leading) sup.matrix) :
    Decides False (fun limit left => own.subtype limit left sub sup) s fun _ => True := by
  induction sup generalizing s with
  | forAll b body ih =>
    have hsub := Context.apply_of_no_placeholders hnone hcomp.lower.wellFormed
    have hsup := Context.apply_of_no_placeholders hnone hcomp.upper.wellFormed
    refine subtype_decides_of_step (.congr (fun _ _ => subtypeStep_quantified (.inr hsup)) ?_)
    replace hs := hs.withDepth (s.depth + 1)
    rw [hsub, hsup]
    refine Decides.orElse (fun limit left => atomic_subtypeOpeningSub (atomic_subtype limit left) _ _)
      hs (subtypeOpeningSub_decides hs hcomp) fun s₁ hretry => .orElse_left ?_
    have hs₁ := hretry.evolves.valid
    have hΓ : s₁.context = s.context := hretry.context
    rw [← hΓ] at hnone hcomp h
    refine Decides.rigidly (fun limit left => (atomic_subtype limit left _ _).evolves) hs₁
      (ih (hs₁.scopeWith rfl (by simp)) ?_ (hcomp.body_rigid _) ?_) fun _ _ _ => id
    · simp [State.scopeWith, Context.placeholders_childScope, hnone, Entry.placeholder?]
    · simpa [State.scopeWith, Context.rigid_childScope, Entry.rigid?, Ty.leading, Ty.matrix] using h
  | _ => exact subtype_accepts_of_quantifierFree hs hnone hcomp hcomp.upper.prenex h

theorem subtype_leaves_context (hs : s.Valid) (hnone : s.context.placeholders = []) {limit left : Nat}
    {o : Outcome Unit} {s' : State} (hrun : own.subtype limit left sub sup s = (o, s')) :
    s'.context = s.context := by
  have he := (atomic_subtype limit left sub sup).evolves.result hs hrun
  refine Context.Refines.eq_of_solved (Context.grows_nothing.1 he.context) fun p hp => ?_
  have hmem := Context.placeholder_mem_of_unsolved hp
  simp [hnone] at hmem

theorem isInstanceOver_of_subtype (hs : s.Valid) (hnone : s.context.placeholders = [])
    (hcomp : Comparable s.context sub sup) {limit left : Nat} {s' : State}
    (hrun : own.subtype limit left sub sup s = (.accepted (), s')) :
    sub.IsInstanceOver (s.context.rigid ++ sup.leading) sup.matrix := by
  have hset := subtype_sound limit left sub sup s s' hs hcomp hrun
  have hbelow := hset.holds (fun _ => .void) (by
    rw [subtype_leaves_context hs hnone hrun]
    exact Context.modeledBy_of_no_placeholders hnone _)
  rw [Context.assign_of_no_placeholders hnone hcomp.lower.wellFormed,
    Context.assign_of_no_placeholders hnone hcomp.upper.wellFormed] at hbelow
  refine Ty.IsInstance.over hbelow fun b hb => List.mem_append.2 ?_
  rw [Ty.occurrences_matrix] at hb
  rw [← Ty.quantifiers_of_prenex hcomp.upper.prenex]
  exact (Ty.free_or_quantified hb).imp_left ((Context.wellFormed_iff.1 hcomp.upper.wellFormed).1 b)

end Rigid

/-- In a context without placeholders, prenex types whose quantified variables are distinct and not
declared are compared under every limit that is large enough: accepted if the matrix of the one is
an instance of the other, over the variables declared and those quantified above, and rejected if it is
not. -/
theorem subtype_decides_instance {s : State} {sub sup : Ty} (hs : s.Valid)
    (hnone : s.context.placeholders = []) (hsub : sub.PrenexIn s.context)
    (hsup : sup.PrenexIn s.context) (hapart : ∀ a ∈ sub.leading, a ∉ sup.leading) :
    ∃ bound, ∀ limit, bound ≤ limit → ∃ s', s'.context = s.context ∧
      (sub.IsInstanceOver (s.context.rigid ++ sup.leading) sup.matrix →
        (Checker.upTo limit).subtype sub sup s = (.accepted (), s')) ∧
      (¬ sub.IsInstanceOver (s.context.rigid ++ sup.leading) sup.matrix →
        (Checker.upTo limit).subtype sub sup s = (.rejected, s')) := by
  have hcomp : Comparable s.context sub sup :=
    ⟨Context.simplySolved_of_no_placeholders hnone, hsub, hsup, hapart⟩
  obtain ⟨o, s', ⟨bound, hrun⟩, ho⟩ := hcomp.decides hs
  refine ⟨bound + s.depth, fun limit hle => ⟨s', ?_, fun hinstance => ?_, fun hother => ?_⟩⟩
  · exact subtype_leaves_context hs hnone (hrun 0 bound (Nat.le_refl _))
  · obtain ⟨_, s'', haccepted, ⟨rfl, -⟩ | ⟨hfalse, -⟩⟩ := subtype_accepts hs hnone hcomp hinstance
    · cases haccepted.unique ⟨bound, hrun⟩
      exact hrun limit (limit - s.depth) (by omega)
    · exact hfalse.elim
  · have hrun' := hrun limit (limit - s.depth) (by omega)
    rcases ho with ⟨rfl, -⟩ | ⟨-, rfl⟩
    · exact absurd (isInstanceOver_of_subtype hs hnone hcomp hrun') hother
    · exact hrun'

namespace Specialisation

def consumer : Ty := .arrow (.var ⟨1⟩) .void

def atConsumers : Ty := .forAll ⟨1⟩ (.arrow consumer consumer)

theorem prenexIn_blank {ty : Ty} (hprenex : ty.prenex = true)
    (hw : blank.context.wellFormed ty = true) (hdistinct : ty.leading.Nodup) :
    ty.PrenexIn blank.context :=
  ⟨hprenex, hw, hdistinct, by simp [blank]⟩

theorem identity_decides_instance :
    blank.Valid ∧ blank.context.placeholders = [] ∧ (identity ⟨0⟩).PrenexIn blank.context ∧
    atConsumers.PrenexIn blank.context ∧ (Ty.forAll ⟨1⟩ consumer).PrenexIn blank.context ∧
    (∃ bound, ∀ limit, bound ≤ limit → ∃ s', s'.context = blank.context ∧
      (Checker.upTo limit).subtype (identity ⟨0⟩) atConsumers blank = (.accepted (), s')) ∧
    ∃ bound, ∀ limit, bound ≤ limit → ∃ s', s'.context = blank.context ∧
      (Checker.upTo limit).subtype (identity ⟨0⟩) (.forAll ⟨1⟩ consumer) blank = (.rejected, s') := by
  -- The identity can be used at consumers, of a variable that is not declared when it is first
  -- opened; and it is not itself a consumer.
  have hidentity : (identity ⟨0⟩).PrenexIn blank.context :=
    prenexIn_blank (by decide) (by decide) (by decide)
  have hat : atConsumers.PrenexIn blank.context :=
    prenexIn_blank (by decide) (by decide) (by decide)
  have hconsumer : (Ty.forAll ⟨1⟩ consumer).PrenexIn blank.context :=
    prenexIn_blank (by decide) (by decide) (by decide)
  obtain ⟨bound, h⟩ := subtype_decides_instance blank_valid rfl hidentity hat (by decide)
  obtain ⟨bound', h'⟩ := subtype_decides_instance blank_valid rfl hidentity hconsumer (by decide)
  refine ⟨blank_valid, rfl, hidentity, hat, hconsumer, ⟨bound, fun limit hle => ?_⟩, bound',
    fun limit hle => ?_⟩
  · obtain ⟨s', hcontext, haccepted, -⟩ := h limit hle
    have hover : consumer.SimpleOver (blank.context.rigid ++ atConsumers.leading) :=
      ⟨rfl, by decide⟩
    exact ⟨s', hcontext, haccepted ⟨fun _ => consumer, fun _ _ => hover, by decide⟩⟩
  · obtain ⟨s', hcontext, -, hrejected⟩ := h' limit hle
    refine ⟨s', hcontext, hrejected ?_⟩
    rintro ⟨f, -, hf⟩
    -- The variable would be replaced by a variable, as the parameter, and by `void`, as the result.
    obtain ⟨hparameter, hresult⟩ := Ty.arrow.inj hf
    cases hparameter.trans hresult.symm

end Specialisation
end HigherRank
