import HigherRank.Proofs.Completion
import HigherRank.Proofs.Decision
import HigherRank.Proofs.Scope

set_option autoImplicit false

/-!
# Placeholders read as variables

When a quantifier is opened by a placeholder, the placeholder can be read as the variable that it stands
for. Read so, the body is what it was before, and two types that differ only in what was opened read the
same. The context stays as it is, but for placeholders that are solved as they are read.
-/
namespace HigherRank

/-- A solved placeholder is read as its solution, an unsolved one as itself or as a variable. -/
structure Context.ReadBy (Γ : Context) (θ : Assignment) : Prop where
  solved : ∀ p τ, .solved p τ ∈ Γ → θ p = τ.assign θ
  unsolved : ∀ p, .unsolved p ∈ Γ → θ p = .placeholder p ∨ ∃ a, θ p = .var a

/-- Where a placeholder is read as a variable, that is declared before it. -/
def Context.ReachedBy (Γ : Context) (θ : Assignment) : Prop :=
  Throughout (fun before e => ∀ p a, e = .unsolved p → θ p = .var a → a ∈ rigid before) Γ

/-- The entry is kept, or a placeholder that is read as a variable is solved to a type that is read
so too. -/
inductive Entry.SolvedAsRead (θ : Assignment) : Entry → Context → Prop where
  | self (e : Entry) : SolvedAsRead θ e [e]
  | solved {p a : TypeId} {τ : Ty} : θ p = .var a → τ.assign θ = .var a →
      SolvedAsRead θ (.unsolved p) [.solved p τ]

/-- A context in order that is the first, but for placeholders solved as they are read. -/
structure Context.SolvedAsRead (Γ : Context) (θ : Assignment) (Δ : Context) : Prop where
  ordered : Δ.Ordered
  blocks : Blockwise (Entry.SolvedAsRead θ) Γ Δ

theorem Blockwise.mono_of_mem {ε : Type} {B B' : ε → List ε → Prop} {xs ys : List ε}
    (h : Blockwise B xs ys) (hB : ∀ e ∈ xs, ∀ block, block ⊆ ys → B e block → B' e block) :
    Blockwise B' xs ys := by
  induction h with
  | nil => exact .nil
  | cons he _ ih =>
    refine .cons (hB _ List.mem_cons_self _ (List.subset_append_left ..) he)
      (ih fun e he block hsub => hB e (List.mem_cons_of_mem _ he) block ?_)
    exact fun y hy => List.mem_append_right _ (hsub hy)

theorem Blockwise.singleton_solvedAsRead {θ : Assignment} {e : Entry} {block : Context}
    (h : Blockwise (Entry.SolvedAsRead θ) [e] block) : Entry.SolvedAsRead θ e block := by
  obtain ⟨block, rest, rfl, he, hrest⟩ := h.of_cons
  cases hrest
  rwa [List.append_nil]

namespace Context.SolvedAsRead

variable {Γ Δ Θ : Context} {θ θ' : Assignment}

theorem refl (θ : Assignment) (ho : Γ.Ordered) : Γ.SolvedAsRead θ Γ := ⟨ho, .refl .self Γ⟩

theorem trans (h : Γ.SolvedAsRead θ Δ) (h' : Δ.SolvedAsRead θ Θ) : Γ.SolvedAsRead θ Θ := by
  refine ⟨h'.ordered, h.blocks.trans (fun e block block' he hb => ?_) h'.blocks⟩
  cases he with
  | self => exact hb.singleton_solvedAsRead
  | solved hp hτ =>
    cases hb.singleton_solvedAsRead with
    | self => exact .solved hp hτ

theorem rigid (h : Γ.SolvedAsRead θ Δ) : Δ.rigid = Γ.rigid :=
  h.blocks.filterMap_eq fun _ _ hb => by cases hb <;> rfl

theorem placeholders (h : Γ.SolvedAsRead θ Δ) : Δ.placeholders = Γ.placeholders :=
  h.blocks.filterMap_eq fun _ _ hb => by cases hb <;> rfl

theorem wellFormed {ty : Ty} (h : Γ.SolvedAsRead θ Δ) (hw : Γ.wellFormed ty = true) :
    Δ.wellFormed ty = true :=
  wellFormed_mono (h.rigid ▸ fun _ => id) (h.placeholders ▸ fun _ => id) hw

theorem readBy (h : Γ.SolvedAsRead θ Δ) (hΓ : Γ.ReadBy θ) : Δ.ReadBy θ where
  solved p τ hp := by
    obtain ⟨e, he, block, hb, hmem⟩ := h.blocks.exists_block hp
    cases hb with
    | self => exact hΓ.solved p τ (List.mem_singleton.1 hmem ▸ he)
    | solved hq hυ =>
      cases List.mem_singleton.1 hmem
      exact hq.trans hυ.symm
  unsolved p hp := by
    obtain ⟨e, he, block, hb, hmem⟩ := h.blocks.exists_block hp
    cases hb with
    | self => exact hΓ.unsolved p (List.mem_singleton.1 hmem ▸ he)
    | solved => cases List.mem_singleton.1 hmem

theorem reachedBy (h : Γ.SolvedAsRead θ Δ) (hΓ : Γ.ReachedBy θ) : Δ.ReachedBy θ := by
  intro before e after hΔ p a he hp
  subst he
  obtain ⟨Γ₁, e, Γ₂, Δ₁, block₁, block₂, rfl, rfl, hbefore, hb⟩ := h.blocks.split hΔ
  have hrigid : Context.rigid Δ₁ = Context.rigid Γ₁ :=
    hbefore.filterMap_eq fun _ _ hb => by cases hb <;> rfl
  generalize hblock : block₁ ++ .unsolved p :: block₂ = block at hb
  cases hb with
  | self =>
    obtain ⟨rfl, heq⟩ | ⟨-, hcons⟩ := List.append_eq_singleton_iff.1 hblock
    · cases heq
      rw [List.append_nil, hrigid]
      exact hΓ Γ₁ _ Γ₂ rfl p a rfl hp
    · cases hcons
  | solved =>
    obtain ⟨-, heq⟩ | ⟨-, hcons⟩ := List.append_eq_singleton_iff.1 hblock
    · cases heq
    · cases hcons

theorem eq_of_inert (h : Γ.SolvedAsRead θ Δ) (hΓ : ∀ p, .unsolved p ∈ Γ → θ p = .placeholder p) :
    Δ = Γ := by
  have hblocks := h.blocks
  clear h
  induction hblocks with
  | nil => rfl
  | cons he _ ih =>
    rw [ih fun p hp => hΓ p (List.mem_cons_of_mem _ hp)]
    cases he with
    | self => rfl
    | solved hp _ =>
      rw [hΓ _ List.mem_cons_self] at hp
      cases hp

theorem congr (h : Γ.SolvedAsRead θ' Δ) (hagree : ∀ p ∈ Γ.placeholders, θ' p = θ p) :
    Γ.SolvedAsRead θ Δ := by
  refine ⟨h.ordered, h.blocks.mono_of_mem fun e he block hsub hb => ?_⟩
  cases hb with
  | self => exact .self e
  | @solved p a τ hp hτ =>
    have hw : Δ.wellFormed τ = true := (h.ordered.solution (hsub List.mem_cons_self)).2
    refine .solved ((hagree p (placeholder_mem_of_unsolved he)).symm.trans hp) ?_
    rw [← hτ]
    exact (Ty.assign_agree hw (h.placeholders ▸ hagree)).symm

theorem leave {m : Marker} {e : Entry} {rest : Context}
    (h : (Γ.childScope m e).SolvedAsRead θ' (Δ ++ .marker m :: rest))
    (hagree : ∀ p ∈ Γ.placeholders, θ' p = θ p) (hΓ : .marker m ∉ Γ) (hΔ : .marker m ∉ Δ) :
    Γ.SolvedAsRead θ Δ := by
  have hblocks := h.blocks
  rw [childScope, List.append_assoc] at hblocks
  obtain ⟨Δ₁, tail, heq, hΔ₁, htail⟩ := hblocks.of_append
  obtain ⟨block, tail, rfl, hb, -⟩ := htail.of_cons
  cases hb with
  | self =>
    have hmarker : .marker m ∉ Δ₁ := fun hmem => by
      obtain ⟨x, hx, block, hb, hmem⟩ := hΔ₁.exists_block hmem
      cases hb with
      | self => exact hΓ (List.mem_singleton.1 hmem ▸ hx)
      | solved => cases List.mem_singleton.1 hmem
    -- The marker occurs once on either side of the equation, so the two are cut at the same place.
    have hsplit := splitAt?_append rest hΔ
    rw [heq, List.singleton_append, splitAt?_append _ hmarker] at hsplit
    cases hsplit
    have hΓΔ : Γ.SolvedAsRead θ' Δ := ⟨h.ordered.left, hΔ₁⟩
    exact hΓΔ.congr hagree

end Context.SolvedAsRead

theorem State.Valid.assign_opened {s : State} {a : TypeId} {body : Ty} (hs : s.Valid)
    (hw : s.context.wellFormed (.forAll a body) = true) (θ : Assignment) :
    (body.subst a (.placeholder ⟨s.supply.types.size⟩)).assign
      (θ.update ⟨s.supply.types.size⟩ (.var a)) = body.assign θ := by
  rw [Ty.assign, Ty.subst, Ty.replace_replace]
  refine Ty.replace_congr (fun b _ => ?_) fun q hq => ?_
  · split
    · rename_i heq
      rw [heq]
      exact Assignment.update_self
    · rfl
  · exact hs.update_agrees θ _ q ((Context.wellFormed_iff.1 hw).2 q hq)

namespace Context

variable {Γ : Context} {s : State} {θ : Assignment} {a p : TypeId} {ty : Ty}

theorem Ordered.readBy (ho : Γ.Ordered) : Γ.ReadBy fun p => Γ.apply (.placeholder p) where
  solved p τ hp := by
    rw [ho.apply_of_solved hp, Ty.assign, ← apply_eq_replace]
  unsolved p hp := .inl (ho.apply_of_unsolved hp)

namespace ReadBy

theorem apply (h : Γ.ReadBy θ) (ty : Ty) : (Γ.apply ty).assign θ = ty.assign θ :=
  assign_apply h.solved ty

theorem matrix_unsolved (h : Γ.ReadBy θ) (hp : .unsolved p ∈ Γ) : (θ p).matrix = θ p := by
  rcases h.unsolved p hp with heq | ⟨a, heq⟩ <;> rw [heq] <;> rfl

theorem scopeWith {e : Entry} (h : s.context.ReadBy θ) (he : e.placeholder? = none) :
    (s.scopeWith e).context.ReadBy θ where
  solved p τ hp := by
    rcases mem_childScope.1 hp with hp | hp | rfl
    · exact h.solved p τ hp
    · cases hp
    · cases he
  unsolved p hp := by
    rcases mem_childScope.1 hp with hp | hp | rfl
    · exact h.unsolved p hp
    · cases hp
    · cases he

theorem scopeWithNew (h : s.context.ReadBy θ) (hs : s.Valid) (label : String) (a : TypeId) :
    (s.scopeWithNew label).context.ReadBy (θ.update ⟨s.supply.types.size⟩ (.var a)) where
  solved p τ hp := by
    rcases mem_childScope.1 hp with hp | hp | hp
    · rw [hs.update_agrees θ _ p (placeholder_mem_of_solved hp), h.solved p τ hp]
      exact (Ty.assign_agree (hs.ordered.solution hp).2 (hs.update_agrees θ _)).symm
    · cases hp
    · cases hp
  unsolved p hp := by
    rcases mem_childScope.1 hp with hp | hp | hp
    · rw [hs.update_agrees θ _ p (placeholder_mem_of_unsolved hp)]
      exact h.unsolved p hp
    · cases hp
    · cases hp
      exact .inr ⟨a, Assignment.update_self⟩

end ReadBy

namespace ReachedBy

theorem scopeWith {e : Entry} (h : s.context.ReachedBy θ) (he : e.placeholder? = none) :
    (s.scopeWith e).context.ReachedBy θ := by
  refine throughout_append.2 ⟨throughout_append.2 ⟨h, throughout_singleton.2 ?_⟩,
    throughout_singleton.2 ?_⟩
  · simp
  · rintro p a rfl
    cases he

theorem scopeWithNew (h : s.context.ReachedBy θ) (hs : s.Valid) (ha : a ∈ s.context.rigid)
    (label : String) :
    (s.scopeWithNew label).context.ReachedBy (θ.update ⟨s.supply.types.size⟩ (.var a)) := by
  refine throughout_append.2 ⟨throughout_append.2 ⟨?_, throughout_singleton.2 ?_⟩,
    throughout_singleton.2 ?_⟩
  · intro before e after hΓ p b he hp
    refine h before e after hΓ p b he ?_
    rwa [hs.update_agrees θ _ p (placeholder_mem_of_unsolved (by simp [hΓ, he]))] at hp
  · simp
  · intro p b he hp
    cases he
    rw [Assignment.update_self] at hp
    cases hp
    simpa [Context.rigid, List.filterMap_cons, Entry.rigid?] using ha

end ReachedBy
end Context
end HigherRank
