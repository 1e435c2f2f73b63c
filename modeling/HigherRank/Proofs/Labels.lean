import HigherRank.Proofs.Weakening

set_option autoImplicit false

/-!
# Labels

Types, terms, contexts and errors hold identifiers only, and the labels of all identifiers are in the
supply. Judgments read labels to make the labels of new placeholders. Nothing else comes of them: two
runs that start with the same identifiers under different labels differ by labels to the end.
-/
namespace HigherRank

open Judgment

def Supply.erase (label : String) (supply : Supply) : Supply :=
  { supply with
    types := supply.types.map fun _ => label
    bindings := supply.bindings.map fun _ => label }

def State.erase (label : String) (s : State) : State := { s with supply := s.supply.erase label }

def eraseRun {α : Type} (label : String) (r : Outcome α × State) : Outcome α × State :=
  (r.1, r.2.erase label)

theorem Supply.erase_eq_iff {label : String} {u v : Supply} :
    v.erase label = u.erase label ↔ u.Alike False v := by
  have hsize : ∀ xs ys : Array String,
      ((xs.map fun _ => label) = ys.map fun _ => label) ↔ xs.size = ys.size := fun xs ys => by
    simp [Array.map_const', Array.replicate_inj]
  simp only [erase, Supply.mk.injEq, hsize]
  constructor
  · rintro ⟨ht, hb, hm⟩
    exact ⟨ht, hb, hm, False.elim⟩
  · rintro ⟨ht, hb, hm, -⟩
    exact ⟨ht, hb, hm⟩

theorem State.erase_eq_iff {label : String} {s t : State} :
    t.erase label = s.erase label ↔
      s.supply.Alike False t.supply ∧ t.context = s.context ∧ t.depth = s.depth := by
  simp only [erase, State.mk.injEq, Supply.erase_eq_iff]

theorem State.erase_erase (label : String) (s : State) :
    (s.erase label).erase label = s.erase label := by
  simp [erase, Supply.erase, Function.comp_def]

theorem State.Valid.relabel {s t : State} (hs : s.Valid) (hsupply : s.supply.Alike False t.supply)
    (hctx : t.context = s.context) : t.Valid := by
  refine ⟨hctx ▸ hs.ordered, ?_, ?_⟩
  · rw [hctx, hsupply.types]
    exact hs.placeholders
  · rw [hctx, hsupply.markers]
    exact hs.markers

theorem Ty.avoids_nil (ty : Ty) : ty.Avoids [] := fun _ _ => List.not_mem_nil

theorem Term.avoids_nil (term : Term) : term.Avoids [] :=
  ⟨fun ty _ => ty.avoids_nil, fun _ _ => List.not_mem_nil⟩

theorem Query.avoids_nil (q : Query) : q.Avoids [] := by
  cases q with
  | check term ty => exact ⟨term.avoids_nil, ty.avoids_nil⟩
  | synthesize term => exact term.avoids_nil
  | synthesizeApplication ty term => exact ⟨ty.avoids_nil, term.avoids_nil⟩
  | subtype sub sup => exact ⟨sub.avoids_nil, sup.avoids_nil⟩
  | instantiate v p ty => exact ⟨List.not_mem_nil, ty.avoids_nil⟩

theorem State.inserts_nil {label : String} {s t : State} (hs : s.Valid)
    (h : t.erase label = s.erase label) : State.Inserts [] False s.context [] s t := by
  -- Two states that differ by labels are a case of two that differ by labels and entries.
  obtain ⟨hsupply, hctx, hdepth⟩ := State.erase_eq_iff.1 h
  refine ⟨by simp, by simp [hctx], hsupply, hdepth, hs, hs.relabel hsupply hctx, ?_, ?_⟩
  · exact fun e _ a _ => List.not_mem_nil
  · exact fun a ha => absurd ha List.not_mem_nil

/-- Without labels the judgment ends in the same way from the erased state, and from every state that
differs by labels. -/
structure Judgment.IgnoresLabels {α : Type} (label : String) (x : Judgment α) (s : State) : Prop where
  erased : eraseRun label (x (s.erase label)) = eraseRun label (x s)
  relabelled : ∀ t : State, t.erase label = s.erase label →
    eraseRun label (x t) = eraseRun label (x s)

theorem Judgment.Indifferent.ignoresLabels {α : Type} {V : α → Prop} {x : Judgment α} {s : State}
    (label : String) (hx : Indifferent [] False V x) (hs : s.Valid) : IgnoresLabels label x s := by
  have hrelabelled : ∀ t : State, t.erase label = s.erase label →
      eraseRun label (x t) = eraseRun label (x s) := by
    intro t ht
    have hagrees := hx _ _ s t (State.inserts_nil hs ht)
    generalize x s = r at hagrees ⊢
    generalize x t = r' at hagrees ⊢
    have hends : ∀ {s' t' : State}, s.Reaches [] False s.context [] s' t' →
        t'.erase label = s'.erase label := by
      rintro s' t' ⟨Δ₁, Δ₂, hi, -⟩
      refine State.erase_eq_iff.2 ⟨hi.supply, ?_, hi.depth⟩
      rw [hi.context, hi.context', List.append_nil]
    cases hagrees with
    | accepted _ hreach => simp only [eraseRun, hends hreach]
    | rejected hreach => simp only [eraseRun, hends hreach]
    | aborted hreach => simp only [eraseRun, hends hreach]
  exact ⟨hrelabelled _ (s.erase_erase label), hrelabelled⟩

/-- No label has an influence on a verdict, a type, an error or an identifier. -/
theorem run_ignoresLabels (label : String) (c : Checker) (s : State) (hs : s.Valid) :
    (∀ q : Query, IgnoresLabels label (q.run c) s) ∧
    (∀ p ty, IgnoresLabels label (instantiateMonotype p ty) s) ∧
    ∀ p, IgnoresLabels label (articulate p) s := by
  refine ⟨fun q => ?_, fun p ty => ?_, fun p => ?_⟩
  · obtain ⟨V, hrun⟩ := q.run_indifferent c q.avoids_nil
    exact hrun.ignoresLabels label hs
  · exact (Indifferent.instantiateMonotype List.not_mem_nil ty.avoids_nil).ignoresLabels label hs
  · exact (Indifferent.articulate List.not_mem_nil).ignoresLabels label hs

/-- The run on the erased state is itself not without labels: those of new placeholders are made from
the one label by a suffix. -/
theorem crossing_suffixed :
    let q : Query := .subtype (.placeholder ⟨0⟩) (.arrow (.placeholder ⟨1⟩) .void)
    crossing.Valid ∧
      (q.run {} (crossing.erase "L")).2.supply.types = #["L", "L", "L-param", "L-result"] ∧
      (eraseRun "L" (q.run {} crossing)).2.supply.types = #["L", "L", "L", "L"] ∧
      q.run {} (crossing.erase "L") ≠ eraseRun "L" (q.run {} crossing) := by
  intro q
  have hsuffixed : (q.run {} (crossing.erase "L")).2.supply.types =
    #["L", "L", "L-param", "L-result"] := by decide +kernel
  have herased : (eraseRun "L" (q.run {} crossing)).2.supply.types = #["L", "L", "L", "L"] := by
    decide +kernel
  refine ⟨crossing_valid, hsuffixed, herased, fun heq => ?_⟩
  rw [heq, herased] at hsuffixed
  exact absurd hsuffixed (by decide)

def sameLabels : State :=
  { crossing with supply := { types := #["p", "p"], markers := 1 } }

theorem crossing_ignoresLabels :
    let q : Query := .subtype (.placeholder ⟨0⟩) (.arrow (.placeholder ⟨1⟩) .void)
    crossing.Valid ∧ (q.run {} crossing).1 = .accepted () ∧
      eraseRun "L" (q.run {} (crossing.erase "L")) = eraseRun "L" (q.run {} crossing) ∧
      sameLabels.erase "L" = crossing.erase "L" ∧
      eraseRun "L" (q.run {} sameLabels) = eraseRun "L" (q.run {} crossing) := by
  intro q
  have hsame : sameLabels.erase "L" = crossing.erase "L" :=
    State.erase_eq_iff.2 ⟨⟨rfl, rfl, rfl, False.elim⟩, rfl, rfl⟩
  have hignores := (run_ignoresLabels "L" {} crossing crossing_valid).1 q
  exact ⟨crossing_valid, rfl, hignores.erased, hsame, hignores.relabelled sameLabels hsame⟩

end HigherRank
