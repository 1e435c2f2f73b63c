import HigherRank.Proofs.Declarative
import HigherRank.Proofs.Order

set_option autoImplicit false

/-!
# Assignments

An assignment gives a type to every placeholder. It models a context when it agrees with the solutions,
and gives to each placeholder a simple type over the variables that were declared before it. A model
of a context is a model of every context that has grown into it, and a model of the beginning of a
context can be extended to the whole.
-/
namespace HigherRank

abbrev Assignment := TypeId → Ty

def Ty.assign (ty : Ty) (θ : Assignment) : Ty := ty.replace .var θ

/-- The assignment respects the entry, which comes after the given ones. -/
structure Entry.Fits (θ : Assignment) (before : Context) (e : Entry) : Prop where
  simple : ∀ p, e.placeholder? = some p → (θ p).simple = true
  scope : ∀ p, e.placeholder? = some p → ∀ a ∈ (θ p).free, a ∈ before.rigid
  solution : ∀ p τ, e = .solved p τ → θ p = τ.assign θ

/-- What the entry of a placeholder that was not assigned yet makes of it. -/
def Entry.assigned (θ : Assignment) : Entry → Ty
  | solved _ τ => τ.assign θ
  | _ => .void

def Context.ModeledBy (Γ : Context) (θ : Assignment) : Prop := Throughout (Entry.Fits θ) Γ

/-- Solutions have no quantifier at all. -/
def Context.SimplySolved (Γ : Context) : Prop :=
  ∀ p τ, .solved p τ ∈ Γ → τ.quantifierFree = true

instance Context.SimplySolved.decidable (Γ : Context) : Decidable Γ.SimplySolved :=
  decidable_of_iff (∀ e ∈ Γ, ∀ p τ, e = .solved p τ → τ.quantifierFree = true)
    ⟨fun h p τ hp => h _ hp p τ rfl, fun h _ he p τ heq => h p τ (heq ▸ he)⟩

def interleaved : State where
  supply := { types := #["p", "a", "q", "x", "y"] }
  context := [.unsolved ⟨0⟩, .var ⟨1⟩, .unsolved ⟨2⟩]

theorem interleaved_valid : interleaved.Valid := by decide

theorem interleaved_solved : interleaved.context.SimplySolved := by decide

namespace Ty

theorem assign_congr {θ θ' : Assignment} {ty : Ty} (h : ∀ p ∈ ty.placeholders, θ p = θ' p) :
    ty.assign θ = ty.assign θ' :=
  replace_congr (fun _ _ => rfl) h

theorem assign_of_ground {θ : Assignment} {ty : Ty} (h : ty.ground = true) : ty.assign θ = ty := by
  have hleaves : ty.assign θ = ty.replace .var .placeholder :=
    replace_congr (fun _ _ => rfl) (by simp [placeholders_eq_nil_of_ground h])
  rw [hleaves, replace_leaves]

theorem quantifierFree_of_simple {ty : Ty} (h : ty.simple = true) : ty.quantifierFree = true := by
  rw [simple, Bool.and_eq_true] at h
  exact h.1

theorem ground_of_simple {ty : Ty} (h : ty.simple = true) : ty.ground = true := by
  rw [simple, Bool.and_eq_true] at h
  exact h.2

section Simple

variable {θ : Assignment} {ty : Ty} (hθ : ∀ p ∈ ty.placeholders, (θ p).simple = true)
include hθ

theorem simple_assign (h : ty.quantifierFree = true) : (ty.assign θ).simple = true := by
  rw [simple, Bool.and_eq_true]
  exact ⟨quantifierFree_replace h (fun _ _ => rfl) fun p hp => quantifierFree_of_simple (hθ p hp),
    ground_replace (fun _ _ => rfl) fun p hp => ground_of_simple (hθ p hp)⟩

end Simple

/-- Opening a quantifier by a placeholder and assigning it a type is replacing the variable by that
type, if no type that is assigned meanwhile brings the variable in. -/
theorem assign_subst {θ : Assignment} {body : Ty} {a q : TypeId}
    (h : ∀ p ∈ body.placeholders, a ∉ (θ p).occurrences) :
    (body.subst a (.placeholder q)).assign θ = (body.assign θ).subst a (θ q) := by
  simp only [assign, subst, replace_replace]
  refine replace_congr (fun b _ => ?_) fun p hp => ?_
  · split
    · simp [replace, *]
    · simp [replace, *]
  · have hleaves : (θ p).replace (fun b => if b = a then θ q else .var b) .placeholder =
        (θ p).replace .var .placeholder := by
      refine replace_congr (fun b hb => ?_) fun _ _ => rfl
      have hne : b ≠ a := fun heq => h p hp (heq ▸ hb)
      simp [hne]
    rw [hleaves, replace_leaves]
    rfl

end Ty

/-- An assignment that agrees with the solutions does not see whether a type is resolved. -/
theorem Context.assign_apply {Γ : Context} {θ : Assignment}
    (h : ∀ p τ, .solved p τ ∈ Γ → θ p = τ.assign θ) (ty : Ty) :
    (Γ.apply ty).assign θ = ty.assign θ := by
  have hr : ∀ p, (Γ.resolve Γ.length p).assign θ = θ p := by
    refine resolve_induction (P := fun p τ => τ.assign θ = θ p) (fun p => rfl)
      (fun p τ _ hp hg => ?_) Γ.length
    rw [h p τ hp, Ty.assign, Ty.assign, Ty.replace_replace]
    exact Ty.replace_congr (fun _ _ => rfl) fun q _ => hg q
  rw [Context.apply, Ty.assign, Ty.assign, Ty.replace_replace]
  exact Ty.replace_congr (fun _ _ => rfl) fun p _ => hr p

namespace Context.ModeledBy

variable {θ : Assignment} {Γ Δ : Context}

theorem left (h : (Γ ++ Δ).ModeledBy θ) : Γ.ModeledBy θ := (throughout_append.1 h).1

theorem fits {p : TypeId} (h : Γ.ModeledBy θ) (hp : p ∈ Γ.placeholders) :
    (θ p).simple = true ∧ ∀ a ∈ (θ p).free, a ∈ Γ.rigid := by
  obtain ⟨e, he, hep⟩ := List.mem_filterMap.1 hp
  obtain ⟨before, after, rfl⟩ := List.append_of_mem he
  have hf := h before e after rfl
  refine ⟨hf.simple p hep, fun a ha => ?_⟩
  rw [Context.rigid, List.filterMap_append]
  exact List.mem_append_left _ (hf.scope p hep a ha)

theorem solved {p : TypeId} {τ : Ty} (h : Γ.ModeledBy θ) (hp : .solved p τ ∈ Γ) :
    θ p = τ.assign θ := by
  obtain ⟨before, after, rfl⟩ := List.append_of_mem hp
  exact (h before _ after rfl).solution p τ rfl

theorem apply (h : Γ.ModeledBy θ) (ty : Ty) : (Γ.apply ty).assign θ = ty.assign θ :=
  assign_apply (fun _ _ => h.solved) ty

theorem of_refines {n : Nat} (hr : Refines n Γ Δ) (h : Δ.ModeledBy θ) : Γ.ModeledBy θ := by
  rintro before e after rfl
  obtain ⟨before', rest, rfl, hbefore, hrest⟩ := hr.of_append
  obtain ⟨block, after', rfl, he, -⟩ := hrest.of_cons
  have hrigid : Context.rigid before' = Context.rigid before := Refines.rigid hbefore
  cases he with
  | self =>
    have hf := h before' e after' rfl
    exact ⟨hf.simple, fun p hp a ha => hrigid ▸ hf.scope p hp a ha, hf.solution⟩
  | filled news hfills hnews =>
    obtain ⟨p, τ⟩ := hfills
    have hf := h (before' ++ news) (.solved p τ) after' (by simp)
    have hnone : news.filterMap Entry.rigid? = [] := List.filterMap_eq_nil_iff.2 fun e he => by
      obtain ⟨q, hq, -⟩ := hnews e he
      cases e <;> simp [Entry.placeholder?] at hq <;> rfl
    refine ⟨hf.simple, fun q hq a ha => ?_, by simp⟩
    have hmem := hf.scope q hq a ha
    rwa [Context.rigid, List.filterMap_append, hnone, List.append_nil, ← Context.rigid,
      hrigid] at hmem

theorem of_grows {g : Growth} {n : Nat} (hg : Grows g n Γ Δ) (h : Δ.ModeledBy θ) :
    Γ.ModeledBy θ := by
  obtain ⟨Δ₁, tail, rfl, hr, -⟩ := hg
  exact h.left.of_refines hr

theorem agree_of_wellFormed {θ' : Assignment} (h : Γ.ModeledBy θ)
    (hw : ∀ p τ, .solved p τ ∈ Γ → Γ.wellFormed τ = true)
    (hagree : ∀ p ∈ Γ.placeholders, θ' p = θ p) : Γ.ModeledBy θ' := by
  rintro before e after rfl
  have hf := h before e after rfl
  have hq : ∀ q, e.placeholder? = some q → θ' q = θ q := fun q hq =>
    hagree q (List.mem_filterMap.2 ⟨e, by simp, hq⟩)
  refine ⟨fun q hq' => hq q hq' ▸ hf.simple q hq', fun q hq' => hq q hq' ▸ hf.scope q hq',
    fun q τ heq => ?_⟩
  have hτ := hw q τ (by simp [heq])
  rw [hq q (by simp [heq, Entry.placeholder?]), hf.solution q τ heq]
  exact Ty.assign_congr fun r hr => (hagree r ((wellFormed_iff.1 hτ).2 r hr)).symm

theorem agree {θ' : Assignment} (h : Γ.ModeledBy θ) (ho : Γ.Ordered)
    (hagree : ∀ p ∈ Γ.placeholders, θ' p = θ p) : Γ.ModeledBy θ' :=
  h.agree_of_wellFormed (fun _ _ hp => (ho.solution hp).2) hagree

theorem snoc {e : Entry} (h : Γ.ModeledBy θ) (ho : Ordered (Γ ++ [e]))
    (hs : SimplySolved (Γ ++ [e])) :
    ∃ θ' : Assignment, (∀ p ∈ Γ.placeholders, θ' p = θ p) ∧ (Γ ++ [e]).ModeledBy θ' := by
  -- One more entry: an unsolved placeholder may be given any type in scope, say `void`.
  cases hp : e.placeholder? with
  | none =>
    refine ⟨θ, fun _ _ => rfl, throughout_append.2 ⟨h, throughout_singleton.2 ⟨?_, ?_, ?_⟩⟩⟩
    · simp [hp]
    · simp [hp]
    · rintro p τ rfl
      cases hp
  | some p =>
    have hfresh : p ∉ Γ.placeholders := ho.not_mem_before hp
    let θ' : Assignment := fun q => if q = p then e.assigned θ else θ q
    have hold : ∀ q ∈ Γ.placeholders, θ' q = θ q := fun q hq => by
      have hne : q ≠ p := fun heq => hfresh (heq ▸ hq)
      simp [θ', hne]
    -- Types of the old context are assigned as before, since they do not mention `p`.
    have hassign : ∀ τ : Ty, Γ.wellFormed τ = true → τ.assign θ' = τ.assign θ := fun τ hτ =>
      Ty.assign_congr fun q hq => hold q ((wellFormed_iff.1 hτ).2 q hq)
    refine ⟨θ', hold, throughout_append.2 ⟨h.agree ho.left hold, throughout_singleton.2 ?_⟩⟩
    have hself : θ' p = e.assigned θ := if_pos rfl
    cases e with
    | unsolved q =>
      cases hp
      refine ⟨fun q hq => ?_, fun q hq a ha => ?_, by simp⟩
      · cases hq
        rw [hself]
        rfl
      · cases hq
        rw [hself] at ha
        cases ha
    | solved q τ =>
      cases hp
      have hτ : Γ.wellFormed τ = true := by
        simpa using (ho.solutions Γ (.solved p τ) [] rfl p τ rfl).2
      have hdecl := (wellFormed_iff.1 hτ).2
      have hqf : τ.quantifierFree = true := hs p τ (by simp)
      refine ⟨fun q hq => ?_, fun q hq a ha => ?_, fun q υ heq => ?_⟩
      · cases hq
        rw [hself]
        exact Ty.simple_assign (fun r hr => (h.fits (hdecl r hr)).1) hqf
      · cases hq
        rw [hself] at ha
        rw [List.append_nil]
        rcases Ty.free_replace ha with ha | ⟨r, hr, ha⟩
        · exact (wellFormed_iff.1 hτ).1 a ha
        · exact (h.fits (hdecl r hr)).2 a ha
      · cases heq
        rw [hself, hassign τ hτ]
        rfl
    | var a => cases hp
    | binding x ty => cases hp
    | marker m => cases hp

theorem extend (h : Γ.ModeledBy θ) (ho : Ordered (Γ ++ Δ)) (hs : SimplySolved (Γ ++ Δ)) :
    ∃ θ' : Assignment, (∀ p ∈ Γ.placeholders, θ' p = θ p) ∧ (Γ ++ Δ).ModeledBy θ' := by
  induction Δ generalizing Γ θ with
  | nil => exact ⟨θ, fun _ _ => rfl, by simpa using h⟩
  | cons e Δ ih =>
    rw [List.append_cons] at ho hs ⊢
    obtain ⟨θ₁, hagree₁, h₁⟩ := h.snoc ho.left fun p τ hp =>
      hs p τ (List.mem_append_left _ hp)
    obtain ⟨θ₂, hagree₂, h₂⟩ := ih h₁ ho hs
    refine ⟨θ₂, fun p hp => ?_, h₂⟩
    rw [hagree₂ p (by simp [hp]), hagree₁ p hp]

end Context.ModeledBy
end HigherRank
