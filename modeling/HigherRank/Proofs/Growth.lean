import HigherRank.Proofs.Names

set_option autoImplicit false

/-!
# How contexts grow

A judgment never takes an entry away and never moves one. In place of an unsolved placeholder it may
put a solution, with new placeholders in front of it; and it may append. `Refines` is the first half of
this and `Grows` the whole, with a bound on what may be appended.
-/
namespace HigherRank

section Lists

variable {ε : Type}

/-- Each element stands in the relation to the elements before it. -/
def Throughout (P : List ε → ε → Prop) (xs : List ε) : Prop :=
  ∀ before e after, xs = before ++ e :: after → P before e

theorem Throughout.nil (P : List ε → ε → Prop) : Throughout P [] := by
  intro before e after h
  simp at h

theorem throughout_cons {P : List ε → ε → Prop} {e : ε} {xs : List ε} :
    Throughout P (e :: xs) ↔ P [] e ∧ Throughout (fun before => P (e :: before)) xs := by
  constructor
  · intro h
    refine ⟨h [] e xs rfl, fun before e' after hx => ?_⟩
    exact h (e :: before) e' after (by simp [hx])
  · rintro ⟨he, hxs⟩ before e' after hx
    cases before with
    | nil =>
      cases hx
      exact he
    | cons x before =>
      cases hx
      exact hxs before e' after rfl

theorem throughout_append {P : List ε → ε → Prop} {xs ys : List ε} :
    Throughout P (xs ++ ys) ↔
      Throughout P xs ∧ Throughout (fun before => P (xs ++ before)) ys := by
  induction xs generalizing P with
  | nil => simp [Throughout.nil]
  | cons x xs ih => simp only [List.cons_append, throughout_cons, ih, and_assoc]

theorem throughout_singleton {P : List ε → ε → Prop} {e : ε} : Throughout P [e] ↔ P [] e := by
  simp [throughout_cons, Throughout.nil]

instance Throughout.decidable (P : List ε → ε → Prop) [∀ before e, Decidable (P before e)] :
    (xs : List ε) → Decidable (Throughout P xs)
  | [] => isTrue (Throughout.nil P)
  | e :: xs =>
    have := Throughout.decidable (fun before => P (e :: before)) xs
    decidable_of_iff _ throughout_cons.symm

theorem Throughout.imp {P Q : List ε → ε → Prop} {xs : List ε}
    (h : ∀ before e, P before e → Q before e) (hx : Throughout P xs) : Throughout Q xs :=
  fun before e after heq => h before e (hx before e after heq)

/-- The second list replaces each element of the first by a block. -/
inductive Blockwise (B : ε → List ε → Prop) : List ε → List ε → Prop where
  | nil : Blockwise B [] []
  | cons {e : ε} {block xs ys : List ε} :
      B e block → Blockwise B xs ys → Blockwise B (e :: xs) (block ++ ys)

namespace Blockwise

variable {B : ε → List ε → Prop}

theorem single {e : ε} {block : List ε} (h : B e block) : Blockwise B [e] block := by
  simpa using cons h nil

theorem refl (hB : ∀ e, B e [e]) (xs : List ε) : Blockwise B xs xs := by
  induction xs with
  | nil => exact nil
  | cons x xs ih => exact cons (hB x) ih

theorem append {xs xs' ys ys' : List ε} (hx : Blockwise B xs xs') (hy : Blockwise B ys ys') :
    Blockwise B (xs ++ ys) (xs' ++ ys') := by
  induction hx with
  | nil => exact hy
  | cons he _ ih =>
    rw [List.append_assoc]
    exact cons he ih

theorem of_append {xs ys zs : List ε} (h : Blockwise B (xs ++ ys) zs) :
    ∃ xs' ys', zs = xs' ++ ys' ∧ Blockwise B xs xs' ∧ Blockwise B ys ys' := by
  induction xs generalizing zs with
  | nil => exact ⟨[], zs, rfl, nil, h⟩
  | cons x xs ih =>
    cases h with
    | cons he hrest =>
      obtain ⟨xs', ys', rfl, hx, hy⟩ := ih hrest
      exact ⟨_, ys', (List.append_assoc ..).symm, cons he hx, hy⟩

theorem of_cons {x : ε} {xs zs : List ε} (h : Blockwise B (x :: xs) zs) :
    ∃ block ys, zs = block ++ ys ∧ B x block ∧ Blockwise B xs ys := by
  cases h with
  | cons he hrest => exact ⟨_, _, rfl, he, hrest⟩

theorem mono {B' : ε → List ε → Prop} (hB : ∀ e block, B e block → B' e block) {xs ys : List ε}
    (h : Blockwise B xs ys) : Blockwise B' xs ys := by
  induction h with
  | nil => exact nil
  | cons he _ ih => exact cons (hB _ _ he) ih

theorem trans (hB : ∀ e block block', B e block → Blockwise B block block' → B e block')
    {xs ys zs : List ε} (hxy : Blockwise B xs ys) (hyz : Blockwise B ys zs) :
    Blockwise B xs zs := by
  induction hxy generalizing zs with
  | nil => exact hyz
  | cons he _ ih =>
    obtain ⟨block', ys', rfl, hb, hy⟩ := of_append hyz
    exact cons (hB _ _ _ he hb) (ih hy)

theorem exists_block {xs ys : List ε} {y : ε} (h : Blockwise B xs ys) (hy : y ∈ ys) :
    ∃ x ∈ xs, ∃ block, B x block ∧ y ∈ block := by
  induction h with
  | nil => cases hy
  | cons he _ ih =>
    rcases List.mem_append.1 hy with hy | hy
    · exact ⟨_, by simp, _, he, hy⟩
    · obtain ⟨x, hx, hb⟩ := ih hy
      exact ⟨x, by simp [hx], hb⟩

theorem block_subset {xs ys : List ε} {x : ε} (h : Blockwise B xs ys) (hx : x ∈ xs) :
    ∃ block, B x block ∧ block ⊆ ys := by
  induction h with
  | nil => cases hx
  | cons he _ ih =>
    rcases List.mem_cons.1 hx with rfl | hx
    · exact ⟨_, he, by simp⟩
    · obtain ⟨block, hb, hsub⟩ := ih hx
      exact ⟨block, hb, fun y hy => by simp [hsub hy]⟩

theorem filterMap_eq {β : Type} {f : ε → Option β} (hB : ∀ e block, B e block →
    block.filterMap f = [e].filterMap f) {xs ys : List ε} (h : Blockwise B xs ys) :
    ys.filterMap f = xs.filterMap f := by
  induction h with
  | nil => rfl
  | @cons e block xs ys he _ ih =>
    rw [List.filterMap_append, ih, hB _ _ he, ← List.filterMap_append]
    rfl

end Blockwise

/-- An element is kept, or one that fills its place comes for it, with new elements in front. -/
inductive Filled (Fills : ε → ε → Prop) (New : ε → Prop) : ε → List ε → Prop where
  | self (e : ε) : Filled Fills New e [e]
  | filled {e e' : ε} (news : List ε) : Fills e e' → (∀ x ∈ news, New x) →
      Filled Fills New e (news ++ [e'])

namespace Filled

variable {Fills : ε → ε → Prop} {New : ε → Prop} {e : ε} {block : List ε}

theorem mono {New' : ε → Prop} (hn : ∀ x, New x → New' x) (h : Filled Fills New e block) :
    Filled Fills New' e block := by
  cases h with
  | self => exact .self e
  | filled news hf hnews => exact .filled news hf fun x hx => hn x (hnews x hx)

variable (hkeep : ∀ x y, New x → Fills x y → New y)
include hkeep

theorem new_of_blockwise {xs ys : List ε} (h : Blockwise (Filled Fills New) xs ys)
    (hx : ∀ x ∈ xs, New x) : ∀ y ∈ ys, New y := by
  intro y hy
  obtain ⟨x, hmem, block, hb, hy⟩ := h.exists_block hy
  cases hb with
  | self => exact List.mem_singleton.1 hy ▸ hx x hmem
  | filled news hf hnews =>
    rcases List.mem_append.1 hy with hy | hy
    · exact hnews y hy
    · exact List.mem_singleton.1 hy ▸ hkeep _ _ (hx x hmem) hf

theorem trans (hfull : ∀ x y z, Fills x y → ¬ Fills y z) {block' : List ε}
    (h : Filled Fills New e block) (hb : Blockwise (Filled Fills New) block block') :
    Filled Fills New e block' := by
  cases h with
  | self =>
    obtain ⟨block, ys, rfl, he, hy⟩ := hb.of_cons
    cases hy
    rwa [List.append_nil]
  | filled news hf hnews =>
    obtain ⟨news', last, rfl, hn, hl⟩ := hb.of_append
    obtain ⟨block, ys, rfl, he, hy⟩ := hl.of_cons
    cases hy
    cases he with
    | self => exact .filled news' hf (new_of_blockwise hkeep hn hnews)
    | filled _ hf' _ => exact absurd hf' (hfull _ _ _ hf)

end Filled

end Lists

def Entry.MintedFrom (n : Nat) (e : Entry) : Prop := ∃ p, e.placeholder? = some p ∧ n ≤ p.index

theorem Entry.MintedFrom.mono {n n' : Nat} {e : Entry} (hn : n ≤ n') (h : e.MintedFrom n') :
    e.MintedFrom n := by
  obtain ⟨p, hp, hi⟩ := h
  exact ⟨p, hp, Nat.le_trans hn hi⟩

inductive Entry.Solves : Entry → Entry → Prop where
  | solved (p : TypeId) (τ : Ty) : Entry.Solves (.unsolved p) (.solved p τ)

theorem Entry.Solves.mintedFrom (n : Nat) (e e' : Entry) (he : e.MintedFrom n)
    (h : e.Solves e') : e'.MintedFrom n := by
  cases h
  exact he

namespace Context

/-- The same entries in the same order, with unsolved placeholders solved in their slots and new
placeholders in front of these. -/
abbrev Refines (n : Nat) (Γ Δ : Context) : Prop :=
  Blockwise (Filled Entry.Solves (Entry.MintedFrom n)) Γ Δ

theorem Refines.mintedFrom {n : Nat} {Γ Δ : Context} (h : Refines n Γ Δ)
    (hΓ : ∀ e ∈ Γ, e.MintedFrom n) : ∀ e ∈ Δ, e.MintedFrom n :=
  Filled.new_of_blockwise (Entry.Solves.mintedFrom n) h hΓ

theorem Refines.refl (n : Nat) (Γ : Context) : Refines n Γ Γ := Blockwise.refl .self Γ

theorem Refines.mono {n n' : Nat} {Γ Δ : Context} (hn : n ≤ n') (h : Refines n' Γ Δ) :
    Refines n Γ Δ :=
  Blockwise.mono (fun _ _ => Filled.mono fun _ => Entry.MintedFrom.mono hn) h

theorem Refines.trans {n n' : Nat} {Γ Δ Θ : Context} (hn : n ≤ n') (h : Refines n Γ Δ)
    (h' : Refines n' Δ Θ) : Refines n Γ Θ := by
  have hfull : ∀ e e' e'', Entry.Solves e e' → ¬ Entry.Solves e' e'' := by
    rintro _ _ _ ⟨p, τ⟩ h
    cases h
  exact Blockwise.trans (fun _ _ _ => Filled.trans (Entry.Solves.mintedFrom n) hfull) h
    (Refines.mono hn h')

theorem Refines.rigid {n : Nat} {Γ Δ : Context} (h : Refines n Γ Δ) : Δ.rigid = Γ.rigid := by
  refine h.filterMap_eq fun e block hb => ?_
  cases hb with
  | self => rfl
  | filled news hf hnews =>
    cases hf
    have hn : ∀ e ∈ news, Entry.rigid? e = none := fun e he => by
      obtain ⟨q, hq, -⟩ := hnews e he
      cases e <;> simp [Entry.placeholder?] at hq <;> rfl
    rw [List.filterMap_append, List.filterMap_eq_nil_iff.2 hn]
    rfl

theorem Refines.placeholders {n : Nat} {Γ Δ : Context} (h : Refines n Γ Δ) :
    Γ.placeholders ⊆ Δ.placeholders := by
  intro p hp
  obtain ⟨e, he, hep⟩ := List.mem_filterMap.1 hp
  obtain ⟨block, hb, hsub⟩ := h.block_subset he
  cases hb with
  | self => exact List.mem_filterMap.2 ⟨e, hsub (by simp), hep⟩
  | filled news hf hnews =>
    obtain ⟨q, τ⟩ := hf
    exact List.mem_filterMap.2 ⟨.solved q τ, hsub (by simp), hep⟩

theorem Refines.mem_of_mem {n : Nat} {Γ Δ : Context} {e : Entry} (h : Refines n Γ Δ)
    (hp : e.placeholder? = none) (he : e ∈ Δ) : e ∈ Γ := by
  obtain ⟨x, hx, block, hb, hm⟩ := h.exists_block he
  cases hb with
  | self => rwa [List.mem_singleton.1 hm]
  | filled news hf hnews =>
    obtain ⟨p, τ⟩ := hf
    rcases List.mem_append.1 hm with hm | hm
    · obtain ⟨q, hq, -⟩ := hnews e hm
      simp [hp] at hq
    · simp [List.mem_singleton.1 hm, Entry.placeholder?] at hp

theorem Refines.eq_of_solved {n : Nat} {Γ Δ : Context} (h : Refines n Γ Δ)
    (hu : ∀ p, .unsolved p ∉ Γ) : Δ = Γ := by
  induction h with
  | nil => rfl
  | cons he _ ih =>
    cases he with
    | self => rw [ih fun p hp => hu p (by simp [hp]), List.singleton_append]
    | filled _ hf _ =>
      obtain ⟨p, τ⟩ := hf
      exact absurd (by simp) (hu p)

end Context

/-- What a judgment may append. -/
inductive Growth where
  | nothing
  -- Placeholders that are new.
  | placeholders
  | anything

def Growth.Allows : Growth → Nat → Entry → Prop
  | nothing, _, _ => False
  | placeholders, n, e => e.MintedFrom n
  | anything, _, _ => True

namespace Context

/-- A refinement, and after it entries of the allowed kind. -/
def Grows (g : Growth) (n : Nat) (Γ Δ : Context) : Prop :=
  ∃ Δ₁ tail, Δ = Δ₁ ++ tail ∧ Refines n Γ Δ₁ ∧ ∀ e ∈ tail, g.Allows n e

theorem Growth.Allows.refines {g : Growth} {n n' : Nat} {tail tail' : Context} (hn : n ≤ n')
    (h : ∀ e ∈ tail, g.Allows n e) (hr : Refines n' tail tail') : ∀ e ∈ tail', g.Allows n e := by
  cases g with
  | nothing =>
    cases tail with
    | nil =>
      cases hr
      exact h
    | cons x xs => exact (h x (by simp)).elim
  | placeholders => exact Refines.mintedFrom (Refines.mono hn hr) h
  | anything => exact fun _ _ => trivial

theorem Growth.Allows.mono {g : Growth} {n n' : Nat} {e : Entry} (hn : n ≤ n')
    (h : g.Allows n' e) : g.Allows n e := by
  cases g with
  | nothing => exact h
  | placeholders => exact Entry.MintedFrom.mono hn h
  | anything => trivial

theorem Refines.grows {n : Nat} {Γ Δ : Context} (g : Growth) (h : Refines n Γ Δ) :
    Grows g n Γ Δ :=
  ⟨Δ, [], by simp, h, by simp⟩

theorem grows_nothing {n : Nat} {Γ Δ : Context} : Grows .nothing n Γ Δ ↔ Refines n Γ Δ := by
  refine ⟨?_, Refines.grows .nothing⟩
  rintro ⟨Δ₁, tail, rfl, hr, ht⟩
  have hnil : tail = [] := List.eq_nil_iff_forall_not_mem.2 ht
  simpa [hnil] using hr

theorem Grows.refl (g : Growth) (n : Nat) (Γ : Context) : Grows g n Γ Γ :=
  (Refines.refl n Γ).grows g

theorem Grows.trans {g : Growth} {n n' : Nat} {Γ Δ Θ : Context} (hn : n ≤ n')
    (h : Grows g n Γ Δ) (h' : Grows g n' Δ Θ) : Grows g n Γ Θ := by
  obtain ⟨Δ₁, tail, rfl, hr, ht⟩ := h
  obtain ⟨Θ₁, tail', rfl, hr', ht'⟩ := h'
  obtain ⟨Δ₂, tail₂, rfl, hΔ, htail⟩ := hr'.of_append
  refine ⟨Δ₂, tail₂ ++ tail', List.append_assoc .., hr.trans hn hΔ, fun e he => ?_⟩
  rcases List.mem_append.1 he with he | he
  · exact Growth.Allows.refines hn ht htail e he
  · exact Growth.Allows.mono hn (ht' e he)

theorem Grows.anything {g : Growth} {n : Nat} {Γ Δ : Context} (h : Grows g n Γ Δ) :
    Grows .anything n Γ Δ := by
  obtain ⟨Δ₁, tail, heq, hr, -⟩ := h
  exact ⟨Δ₁, tail, heq, hr, fun _ _ => trivial⟩

theorem Grows.snoc {g : Growth} {n : Nat} {Γ : Context} {e : Entry} (h : g.Allows n e) :
    Grows g n Γ (Γ ++ [e]) :=
  ⟨Γ, [e], rfl, Refines.refl n Γ, by simpa using h⟩

theorem Grows.placeholders {g : Growth} {n : Nat} {Γ Δ : Context} (h : Grows g n Γ Δ) :
    Γ.placeholders ⊆ Δ.placeholders := by
  obtain ⟨Δ₁, tail, rfl, hr, -⟩ := h
  intro p hp
  simp [hr.placeholders hp]

theorem Grows.rigid {n : Nat} {Γ Δ : Context} (h : Grows .placeholders n Γ Δ) :
    Δ.rigid = Γ.rigid := by
  obtain ⟨Δ₁, tail, rfl, hr, ht⟩ := h
  have hn : ∀ e ∈ tail, Entry.rigid? e = none := fun e he => by
    obtain ⟨q, hq, -⟩ := ht e he
    cases e <;> simp [Entry.placeholder?] at hq <;> rfl
  rw [← hr.rigid, Context.rigid, List.filterMap_append, List.filterMap_eq_nil_iff.2 hn]
  simp

theorem Grows.wellFormed {n : Nat} {Γ Δ : Context} {ty : Ty} (h : Grows .placeholders n Γ Δ)
    (hty : Γ.wellFormed ty = true) : Δ.wellFormed ty = true :=
  wellFormed_mono (by rw [h.rigid]; exact fun _ => id) h.placeholders hty

/-- A child scope is cut off at its marker: what is left refines what was there when it began. -/
theorem Grows.splitAt_marker {n : Nat} {Γ Δ : Context} {m : Marker} (hm : .marker m ∉ Γ)
    (h : Grows .anything n (Γ ++ [.marker m]) Δ) :
    ∃ Δ₁ rest, Δ = Δ₁ ++ .marker m :: rest ∧ Refines n Γ Δ₁ ∧
      Δ.splitAt? (.marker m) = some (Δ₁, rest) := by
  obtain ⟨Δ', tail, rfl, hr, -⟩ := h
  obtain ⟨Δ₁, last, rfl, hΓ, hl⟩ := hr.of_append
  obtain ⟨block, ys, rfl, he, hy⟩ := hl.of_cons
  cases hy
  have hblock : block = [.marker m] := by
    cases he with
    | self => rfl
    | filled _ hf _ => cases hf
  subst hblock
  have hΔ : .marker m ∉ Δ₁ := fun h => hm (Refines.mem_of_mem hΓ rfl h)
  refine ⟨Δ₁, tail, by simp, hΓ, ?_⟩
  simpa using splitAt?_append tail hΔ

end Context
end HigherRank
