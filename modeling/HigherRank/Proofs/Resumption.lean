import HigherRank.Proofs.Blame
import HigherRank.Proofs.Equivariance
import HigherRank.Proofs.Scope

set_option autoImplicit false

/-!
# The same question asked later

A judgment may be asked again in the same context, after others have failed there. These have given out
identifiers, and so the second run has other new ones. If everything in the question was minted before the
first run, the second has the same outcome, and an annotation error is the same to the letter.
-/
namespace HigherRank

open Judgment
open Opening (own)

/-- All identifiers in the context, the term and the type have been given out. -/
structure Minted (s : State) (term : Term) (ty : Ty) : Prop where
  context : ∀ e ∈ s.context, ∀ a ∈ e.names, a.index < s.supply.types.size
  term : ∀ τ ∈ term.annotations, ∀ a ∈ τ.names, a.index < s.supply.types.size
  type : ∀ a ∈ ty.names, a.index < s.supply.types.size

/-- The second state has the context of the first, and may have given out more. -/
structure State.Resumes (s t : State) : Prop where
  context : t.context = s.context
  types : s.supply.types.size ≤ t.supply.types.size
  markers : s.supply.markers ≤ t.supply.markers

namespace State

variable {s t u : State} {term : Term} {ty : Ty}

theorem Retries.resumes (h : s.Retries t) : s.Resumes t :=
  ⟨h.context, h.evolves.types, h.evolves.markers⟩

namespace Resumes

theorem trans (h : s.Resumes t) (h' : t.Resumes u) : s.Resumes u :=
  ⟨h'.context.trans h.context, Nat.le_trans h.types h'.types, Nat.le_trans h.markers h'.markers⟩

theorem withDepth (s : State) (depth : Nat) : s.Resumes { s with depth } :=
  ⟨rfl, Nat.le_refl _, Nat.le_refl _⟩

theorem valid (h : s.Resumes t) (hs : s.Valid) : t.Valid := by
  refine ⟨h.context ▸ hs.ordered, fun p hp => ?_, fun m hm => ?_⟩
  · exact Nat.lt_of_lt_of_le (hs.placeholders p (h.context ▸ hp)) h.types
  · exact Nat.lt_of_lt_of_le (hs.markers m (h.context ▸ hm)) h.markers

theorem good (h : s.Resumes t) (hs : s.Good) : t.Good :=
  ⟨h.valid hs.valid, h.context ▸ hs.bindings⟩

theorem renames (h : s.Resumes t) (hs : s.Valid) (hm : Minted s term ty) :
    ∃ ρ : Renaming, s.Renames ρ t ∧ term.renamed ρ = term ∧ ty.renamed ρ = ty := by
  -- What was minted in between is skipped.
  obtain ⟨moved, htypes⟩ := Nat.exists_eq_add_of_le h.types
  obtain ⟨moved', hmarkers⟩ := Nat.exists_eq_add_of_le h.markers
  let ρ := Renaming.shift s.supply.types.size moved s.supply.markers moved'
  have hfixed : ∀ a : TypeId, a.index < s.supply.types.size → ρ.types a = a := fun a ha => if_pos ha
  refine ⟨ρ, ⟨?_, fun k => ?_, fun k => ?_⟩, Term.renamed_of_fixed fun τ hτ a ha =>
    hfixed a (hm.term τ hτ a ha), Ty.renamed_of_fixed fun a ha => hfixed a (hm.type a ha)⟩
  · rw [h.context]
    exact (Context.renamed_of_fixed (fun e he a ha => hfixed a (hm.context e he a ha))
      fun m hmem => if_pos (hs.markers m hmem)).symm
  · have hk : ¬ s.supply.types.size + k < s.supply.types.size := by omega
    simp only [ρ, Renaming.shift, if_neg hk, htypes, TypeId.mk.injEq]
    omega
  · have hk : ¬ s.supply.markers + k < s.supply.markers := by omega
    simp only [ρ, Renaming.shift, if_neg hk, hmarkers, Marker.mk.injEq]
    omega

end Resumes
end State

namespace RunRenamed

variable {α β : Type} {ρ : Renaming} {R : α → β → Prop} {r : Outcome α × State}
  {r' : Outcome β × State}

theorem rejected_iff (h : RunRenamed ρ R r r') : r'.1 = .rejected ↔ r.1 = .rejected := by
  cases h <;> simp

theorem aborted_iff {error : TypeError} (h : RunRenamed ρ R r r')
    (hfixed : ∀ error, r.1 = .aborted error → error.renamed ρ = error) :
    r'.1 = .aborted error ↔ r.1 = .aborted error := by
  cases h with
  | accepted _ _ => simp
  | rejected _ => simp
  | aborted _ => rw [hfixed _ rfl]; simp

end RunRenamed

variable {ρ : Renaming} {term : Term} {ty : Ty} {limit : Nat} {error : TypeError} {s t : State}

theorem Term.renamed_annotated {part : Term} {τ : Ty} (hterm : term.renamed ρ = term)
    (h : (part, τ) ∈ term.annotated) : part.renamed ρ = part ∧ τ.renamed ρ = τ := by
  induction term with
  | unit => cases h
  | ref x => cases h
  | lam x body ih => exact ih (lam.inj hterm).2 h
  | app function argument ihf iha =>
    obtain ⟨hf, ha⟩ := app.inj hterm
    exact (List.mem_append.1 h).elim (ihf hf) (iha ha)
  | ann term ty ih =>
    obtain ⟨hinner, hty⟩ := ann.inj hterm
    rcases List.mem_cons.1 h with h | h
    · cases h
      exact ⟨hinner, hty⟩
    · exact ih hinner h

theorem TypeError.Expected.renamed_eq (h : error.Expected limit) (hb : error.Blames term)
    (hterm : term.renamed ρ = term) : error.renamed ρ = error := by
  rcases h with h | rfl
  · cases error with
    | annotationIllFormed τ =>
      obtain ⟨part, hpart⟩ := hb
      exact congrArg annotationIllFormed (Term.renamed_annotated hterm hpart).2
    | annotationMismatch part τ =>
      obtain ⟨hpart, hτ⟩ := Term.renamed_annotated hterm hb
      exact congrArg₂ annotationMismatch hpart hτ
    | _ => cases h
  · rfl

/-- Synthesis raises the same errors as before. -/
theorem synthesize_resumed (hs : s.Good) (hm : Minted s term ty) (h : s.Resumes t)
    (limit left : Nat) (error : TypeError) : (own.synthesize limit left term t).1 = .aborted error ↔
      (own.synthesize limit left term s).1 = .aborted error := by
  obtain ⟨ρ, hρ, hterm, -⟩ := h.renames hs.valid hm
  have hrun := (equivariant_typing ρ limit left).2.1 term s t hρ
  rw [hterm] at hrun
  refine hrun.aborted_iff fun error herror => ?_
  have hraised : own.synthesize limit left term s = (.aborted error, _) := Prod.ext herror rfl
  exact ((typing_raises limit left).2.1 term s hs error _ hraised).renamed_eq
    ((typing_blames limit left).2.1 term s error _ hraised) hterm

theorem check_resumed (hs : s.Valid) (hm : Minted s term ty) (h : s.Resumes t) (limit left : Nat) :
    (own.check limit left term ty t).1 = .rejected ↔
      (own.check limit left term ty s).1 = .rejected := by
  obtain ⟨ρ, hρ, hterm, hty⟩ := h.renames hs hm
  have hrun := (equivariant_typing ρ limit left).1 term ty s t hρ
  rw [hterm, hty] at hrun
  exact hrun.rejected_iff

end HigherRank
