import Mathlib.Data.List.Induction
import HigherRank.Proofs.Order

set_option autoImplicit false

/-!
# Resolution in an ordered context

Resolution follows solutions for as many steps as the context is long. In an ordered context this is
always enough, so that it satisfies the equation one would write down: a solved placeholder is resolved
as its solution is, and any other stays. From this equation, by induction along the order, a resolved
type mentions no solved placeholder, a context that has grown forgets nothing that was resolved before,
and entries at the end do not matter to types that do not reach them.
-/
namespace HigherRank

theorem Ty.replace_eq_self {g : TypeId → Ty} {ty : Ty}
    (h : ∀ p ∈ ty.placeholders, g p = .placeholder p) : ty.replace .var g = ty :=
  (replace_congr (fun _ _ => rfl) h).trans ty.replace_leaves

namespace Context

variable {Γ Δ : Context} {p q : TypeId} {τ ty : Ty}

theorem not_solved_of_solution? (h : Γ.solution? p = none) (τ : Ty) : .solved p τ ∉ Γ := by
  intro hp
  have hnone := List.findSome?_eq_none_iff.1 h _ hp
  simp at hnone

theorem placeholder_mem_of_solved (h : .solved p τ ∈ Γ) : p ∈ Γ.placeholders :=
  List.mem_filterMap.2 ⟨_, h, rfl⟩

theorem placeholder_mem_of_unsolved (h : .unsolved p ∈ Γ) : p ∈ Γ.placeholders :=
  List.mem_filterMap.2 ⟨_, h, rfl⟩

theorem unsolved_of_solution? (h : Γ.solution? p = none) (hp : p ∈ Γ.placeholders) :
    .unsolved p ∈ Γ := by
  obtain ⟨e, he, hep⟩ := List.mem_filterMap.1 hp
  cases e with
  | unsolved q =>
    cases hep
    exact he
  | solved q τ =>
    cases hep
    exact absurd he (not_solved_of_solution? h τ)
  | _ => cases hep

/-- Each placeholder is declared once, and each solution is well-formed in the entries before its slot.
A quantifier at the top of a solution does not matter to resolution, so it is not excluded here. -/
structure Stratified (Γ : Context) : Prop where
  distinct : Γ.placeholders.Nodup
  solutions : Throughout (fun (before : Context) e =>
    ∀ p τ, e = .solved p τ → before.wellFormed τ = true) Γ

instance Stratified.decidable (Γ : Context) : Decidable Γ.Stratified :=
  decidable_of_iff (Γ.placeholders.Nodup ∧ Throughout (fun (before : Context) e =>
    ∀ p τ, e = .solved p τ → before.wellFormed τ = true) Γ)
    ⟨fun h => ⟨h.1, h.2⟩, fun h => ⟨h.distinct, h.solutions⟩⟩

theorem Ordered.stratified (ho : Γ.Ordered) : Γ.Stratified :=
  ⟨ho.distinct, ho.solutions.imp fun _ _ h p τ he => (h p τ he).2⟩

namespace Stratified

theorem left (ho : Stratified (Γ ++ Δ)) : Γ.Stratified := by
  have hd : (Γ.placeholders ++ Δ.placeholders).Nodup := List.filterMap_append .. ▸ ho.distinct
  exact ⟨(List.nodup_append.1 hd).1, (throughout_append.1 ho.solutions).1⟩

theorem solution (ho : Γ.Stratified) (hp : .solved p τ ∈ Γ) : Γ.wellFormed τ = true := by
  obtain ⟨before, after, rfl⟩ := List.append_of_mem hp
  exact wellFormed_append _ (ho.solutions before _ after rfl p τ rfl)

theorem entry_unique (ho : Γ.Stratified) {e e' : Entry} (he : e ∈ Γ) (he' : e' ∈ Γ)
    (hp : e.placeholder? = some p) (hp' : e'.placeholder? = some p) : e = e' := by
  obtain ⟨before, after, rfl⟩ := List.append_of_mem he
  have hd := ho.distinct
  simp only [Context.placeholders, List.filterMap_append, List.filterMap_cons, hp] at hd
  obtain ⟨-, hafter, hdisjoint⟩ := List.nodup_append.1 hd
  have hmem : ∀ {Δ : Context}, e' ∈ Δ → p ∈ Δ.placeholders := fun h =>
    List.mem_filterMap.2 ⟨e', h, hp'⟩
  rcases List.mem_append.1 he' with h | h
  · exact absurd rfl (hdisjoint p (hmem h) p (by simp))
  rcases List.mem_cons.1 h with h | h
  · exact h.symm
  · exact absurd (hmem h) (List.nodup_cons.1 hafter).1

theorem solution?_of_unsolved (ho : Γ.Stratified) (hp : .unsolved p ∈ Γ) :
    Γ.solution? p = none := by
  cases hs : Γ.solution? p with
  | none => rfl
  | some τ =>
    have heq := ho.entry_unique hp (solution?_mem hs) rfl rfl
    cases heq

theorem solution?_of_solved (ho : Γ.Stratified) (hp : .solved p τ ∈ Γ) :
    Γ.solution? p = some τ := by
  cases hs : Γ.solution? p with
  | none => exact absurd hp (not_solved_of_solution? hs τ)
  | some υ =>
    have heq := ho.entry_unique hp (solution?_mem hs) rfl rfl
    cases heq
    rfl

/-- Whatever is handed on from the placeholders of a solution to the solved placeholder holds of all
placeholders: the induction is on the part of the context in which the placeholder is declared. -/
theorem placeholder_induction (ho : Γ.Stratified) {P : TypeId → Prop}
    (h : ∀ p, (∀ τ, .solved p τ ∈ Γ → ∀ q ∈ τ.placeholders, P q) → P p) (p : TypeId) : P p := by
  have hdeclared : ∀ before after, Γ = before ++ after → ∀ p ∈ Context.placeholders before, P p := by
    intro before
    induction before using List.reverseRecOn with
    | nil =>
      intro after _ p hp
      cases hp
    | append_singleton before e ih =>
      intro after heq p hp
      have hbefore := ih (e :: after) (by simp [heq])
      rw [Context.placeholders, List.filterMap_append, List.mem_append] at hp
      rcases hp with hp | hp
      · exact hbefore p hp
      obtain ⟨e', he', hep⟩ := List.mem_filterMap.1 hp
      cases List.mem_singleton.1 he'
      refine h p fun τ hτ q hq => hbefore q ?_
      have hentry : e = .solved p τ := ho.entry_unique (by simp [heq]) hτ hep rfl
      have hscope := ho.solutions before e after (by simp [heq]) p τ hentry
      exact (wellFormed_iff.1 hscope).2 q hq
  by_cases hp : p ∈ Γ.placeholders
  · exact hdeclared Γ [] (by simp) p hp
  · exact h p fun τ hτ => absurd (placeholder_mem_of_solved hτ) hp

end Stratified

theorem resolve_of_solution? (h : Γ.solution? p = none) (n : Nat) :
    Γ.resolve n p = .placeholder p := by
  cases n with
  | zero => rfl
  | succ n => simp only [resolve, h]

/-- A placeholder is resolved in as many steps as there are entries up to its own. -/
theorem Stratified.resolve_of_length (ho : Γ.Stratified) {before after : Context}
    (hΓ : Γ = before ++ after) (hp : p ∈ before.placeholders) {n : Nat} (hn : before.length ≤ n) :
    Γ.resolve n p = Γ.resolve before.length p := by
  induction before using List.reverseRecOn generalizing after p n with
  | nil => cases hp
  | append_singleton before e ih =>
    rw [List.length_append, List.length_singleton] at hn ⊢
    have hbefore : ∀ q ∈ Context.placeholders before, ∀ k, before.length ≤ k →
        Γ.resolve k q = Γ.resolve before.length q :=
      fun q hq k hk => ih (hΓ.trans (List.append_assoc before [e] after)) hq hk
    rw [Context.placeholders, List.filterMap_append, List.mem_append] at hp
    rcases hp with hp | hp
    · rw [hbefore p hp n (by omega), hbefore p hp _ (Nat.le_succ _)]
    obtain ⟨e', he', hep⟩ := List.mem_filterMap.1 hp
    cases List.mem_singleton.1 he'
    cases hs : Γ.solution? p with
    | none => rw [resolve_of_solution? hs, resolve_of_solution? hs]
    | some τ =>
      have hentry : e = .solved p τ :=
        ho.entry_unique (by simp [hΓ]) (solution?_mem hs) hep rfl
      have hscope := ho.solutions before e after (by simp [hΓ]) p τ hentry
      obtain ⟨n, rfl⟩ := Nat.exists_eq_succ_of_ne_zero (Nat.ne_zero_of_lt hn)
      simp only [resolve, hs]
      refine Ty.replace_congr (fun _ _ => rfl) fun q hq => ?_
      exact hbefore q ((wellFormed_iff.1 hscope).2 q hq) n (by omega)

theorem apply_eq_replace (Γ : Context) (ty : Ty) :
    Γ.apply ty = ty.replace .var fun p => Γ.apply (.placeholder p) := rfl

theorem apply_arrow (Γ : Context) (parameter result : Ty) :
    Γ.apply (.arrow parameter result) = .arrow (Γ.apply parameter) (Γ.apply result) := rfl

theorem apply_of_solution? (h : Γ.solution? p = none) :
    Γ.apply (.placeholder p) = .placeholder p :=
  resolve_of_solution? h Γ.length

theorem Ordered.apply_of_unsolved (ho : Γ.Ordered) (hp : .unsolved p ∈ Γ) :
    Γ.apply (.placeholder p) = .placeholder p :=
  apply_of_solution? (ho.stratified.solution?_of_unsolved hp)

theorem Stratified.apply_of_solved (ho : Γ.Stratified) (hp : .solved p τ ∈ Γ) :
    Γ.apply (.placeholder p) = Γ.apply τ := by
  obtain ⟨before, after, hΓ⟩ := List.append_of_mem hp
  have hscope := ho.solutions before _ after hΓ p τ rfl
  have hlength : Γ.length = before.length + after.length + 1 := by
    simp [hΓ, Nat.add_assoc]
  have hstep : Γ.resolve Γ.length p = τ.replace .var (Γ.resolve (before.length + after.length)) := by
    rw [hlength]
    simp only [resolve, ho.solution?_of_solved hp]
  refine hstep.trans (Ty.replace_congr (fun _ _ => rfl) fun q hq => ?_)
  have hq := (wellFormed_iff.1 hscope).2 q hq
  exact (ho.resolve_of_length hΓ hq (by omega)).trans
    (ho.resolve_of_length hΓ hq (by omega)).symm

theorem Ordered.apply_of_solved (ho : Γ.Ordered) (hp : .solved p τ ∈ Γ) :
    Γ.apply (.placeholder p) = Γ.apply τ :=
  ho.stratified.apply_of_solved hp

/-- No placeholder of the type is solved. -/
def Resolved (Γ : Context) (ty : Ty) : Prop := ∀ p ∈ ty.placeholders, Γ.solution? p = none

theorem Resolved.apply_eq (h : Γ.Resolved ty) : Γ.apply ty = ty :=
  Ty.replace_eq_self fun p hp => apply_of_solution? (h p hp)

theorem Resolved.unsolved (h : Γ.Resolved ty) (hw : Γ.wellFormed ty = true)
    (hp : p ∈ ty.placeholders) : .unsolved p ∈ Γ :=
  unsolved_of_solution? (h p hp) ((wellFormed_iff.1 hw).2 p hp)

theorem Ordered.resolved_of_unsolved (ho : Γ.Ordered)
    (h : ∀ p ∈ ty.placeholders, .unsolved p ∈ Γ) : Γ.Resolved ty :=
  fun p hp => ho.stratified.solution?_of_unsolved (h p hp)

theorem Ordered.resolved_apply (ho : Γ.Ordered) (ty : Ty) : Γ.Resolved (Γ.apply ty) := by
  have hplaceholder : ∀ p, Γ.Resolved (Γ.apply (.placeholder p)) := by
    refine ho.stratified.placeholder_induction fun p ih => ?_
    cases hs : Γ.solution? p with
    | none =>
      rw [apply_of_solution? hs]
      intro q hq
      cases List.mem_singleton.1 hq
      exact hs
    | some τ =>
      rw [ho.apply_of_solved (solution?_mem hs)]
      intro q hq
      obtain ⟨r, hr, hq⟩ := Ty.placeholders_replace.1 hq
      exact ih τ (solution?_mem hs) r hr q hq
  intro q hq
  obtain ⟨p, -, hq⟩ := Ty.placeholders_replace.1 hq
  exact hplaceholder p q hq

theorem Ordered.resolved_of_apply_eq (ho : Γ.Ordered) (h : Γ.apply ty = ty) : Γ.Resolved ty :=
  h ▸ ho.resolved_apply ty

theorem Ordered.unsolved_of_apply (ho : Γ.Ordered) (hw : Γ.wellFormed ty = true)
    (hq : q ∈ (Γ.apply ty).placeholders) : .unsolved q ∈ Γ :=
  (ho.resolved_apply ty).unsolved (ho.wellFormed_apply hw) hq

theorem Ordered.unsolved_of_apply_self (ho : Γ.Ordered) (hp : p ∈ Γ.placeholders)
    (h : Γ.apply (.placeholder p) = .placeholder p) : .unsolved p ∈ Γ :=
  (ho.resolved_of_apply_eq h).unsolved (wellFormed_placeholder.2 hp) (by simp [Ty.placeholders])

/-- What was resolved before may be resolved again, if all solutions are still there. -/
theorem Stratified.apply_apply (hΓ : Γ.Stratified) (hΔ : Δ.Stratified)
    (h : ∀ p τ, .solved p τ ∈ Γ → .solved p τ ∈ Δ) (ty : Ty) :
    Δ.apply (Γ.apply ty) = Δ.apply ty := by
  have hreplace : ∀ τ : Ty, (∀ p ∈ τ.placeholders,
      Δ.apply (Γ.apply (.placeholder p)) = Δ.apply (.placeholder p)) →
      Δ.apply (Γ.apply τ) = Δ.apply τ := fun τ hτ => by
    rw [apply_eq_replace Γ τ, apply_eq_replace Δ (τ.replace _ _), Ty.replace_replace,
      apply_eq_replace Δ τ]
    exact Ty.replace_congr (fun _ _ => rfl) hτ
  have hplaceholder : ∀ p, Δ.apply (Γ.apply (.placeholder p)) = Δ.apply (.placeholder p) := by
    refine hΓ.placeholder_induction fun p ih => ?_
    cases hs : Γ.solution? p with
    | none => rw [apply_of_solution? hs]
    | some τ =>
      have hp := solution?_mem hs
      rw [hΓ.apply_of_solved hp, hΔ.apply_of_solved (h p τ hp)]
      exact hreplace τ (ih τ hp)
  exact hreplace ty fun p _ => hplaceholder p

theorem Refines.solved_mem {n : Nat} (h : Refines n Γ Δ) (hp : .solved p τ ∈ Γ) :
    .solved p τ ∈ Δ := by
  obtain ⟨block, hb, hsub⟩ := h.block_subset hp
  cases hb with
  | self => exact hsub (by simp)
  | filled _ hf _ => cases hf

theorem Grows.solved_mem {g : Growth} {n : Nat} (h : Grows g n Γ Δ) (hp : .solved p τ ∈ Γ) :
    .solved p τ ∈ Δ := by
  obtain ⟨Δ₁, tail, rfl, hr, -⟩ := h
  exact List.mem_append_left _ (hr.solved_mem hp)

theorem Grows.apply_apply {g : Growth} {n : Nat} (h : Grows g n Γ Δ) (hΓ : Γ.Ordered)
    (hΔ : Δ.Ordered) (ty : Ty) : Δ.apply (Γ.apply ty) = Δ.apply ty :=
  hΓ.stratified.apply_apply hΔ.stratified (fun _ _ hp => h.solved_mem hp) ty

theorem Stratified.apply_append {before after : Context} (ho : Stratified (before ++ after))
    (hw : before.wellFormed ty = true) : (before ++ after).apply ty = before.apply ty := by
  have hplaceholder : ∀ p, p ∈ Context.placeholders before →
      (before ++ after).apply (.placeholder p) = before.apply (.placeholder p) := by
    refine ho.left.placeholder_induction fun p ih hp => ?_
    cases hs : before.solution? p with
    | none =>
      have hu := unsolved_of_solution? hs hp
      have hnone := ho.solution?_of_unsolved (List.mem_append_left after hu)
      rw [apply_of_solution? hs, apply_of_solution? hnone]
    | some τ =>
      have hmem := solution?_mem hs
      rw [ho.left.apply_of_solved hmem, ho.apply_of_solved (List.mem_append_left _ hmem)]
      have hscope := (wellFormed_iff.1 (ho.left.solution hmem)).2
      exact Ty.replace_congr (fun _ _ => rfl) fun q hq => ih τ hmem q hq (hscope q hq)
  exact Ty.replace_congr (fun _ _ => rfl) fun p hp =>
    hplaceholder p ((wellFormed_iff.1 hw).2 p hp)

end Context
end HigherRank
