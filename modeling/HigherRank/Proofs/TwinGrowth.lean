import HigherRank.Proofs.Twin

set_option autoImplicit false

/-!
# How twin contexts grow

Both contexts grow together: a slot is filled on both sides, an entry is appended on both sides, and a
scope is cut off on both. Each of these keeps twins sound, as long as what is declared is new.
-/
namespace HigherRank

inductive Twin.Solves : Twin → Twin → Prop where
  | solved (p q : TypeId) (τ υ : Ty) : Twin.Solves (.unsolved p q) (.solved p q τ υ)

def Twin.IsPlaceholder (e : Twin) : Prop := e.placeholder?.isSome = true

theorem Twin.Solves.isPlaceholder (e e' : Twin) (he : e.IsPlaceholder) (h : e.Solves e') :
    e'.IsPlaceholder := by
  cases h
  exact he

namespace Twins

abbrev Refines (Ξ Ξ' : Twins) : Prop := Blockwise (Filled Twin.Solves Twin.IsPlaceholder) Ξ Ξ'

/-- Both contexts grow in the same way. -/
def Grows (Ξ Ξ' : Twins) : Prop := ∃ Ξ₁ tail, Ξ' = Ξ₁ ++ tail ∧ Refines Ξ Ξ₁

variable {names : List TypeId} {Ξ Ξ' Θ : Twins}

theorem Refines.trans (h : Refines Ξ Ξ') (h' : Refines Ξ' Θ) : Refines Ξ Θ := by
  have hfull : ∀ e e' e'', Twin.Solves e e' → ¬ Twin.Solves e' e'' := by
    rintro _ _ _ ⟨p, q, τ, υ⟩ h
    cases h
  exact Blockwise.trans (fun _ _ _ => Filled.trans Twin.Solves.isPlaceholder hfull) h h'

theorem Refines.rigid (h : Refines Ξ Ξ') : Ξ'.rigid = Ξ.rigid := by
  refine h.filterMap_eq fun e block hb => ?_
  cases hb with
  | self => rfl
  | filled news hf hnews =>
    cases hf
    have hn : ∀ e ∈ news, Twin.rigid? e = none := fun e he => by
      have hp := hnews e he
      cases e <;> simp [Twin.IsPlaceholder, Twin.placeholder?] at hp <;> rfl
    rw [List.filterMap_append, List.filterMap_eq_nil_iff.2 hn]
    rfl

theorem Refines.placeholders (h : Refines Ξ Ξ') : Ξ.placeholders ⊆ Ξ'.placeholders := by
  intro l hl
  obtain ⟨e, he, hel⟩ := List.mem_filterMap.1 hl
  obtain ⟨block, hb, hsub⟩ := h.block_subset he
  cases hb with
  | self => exact List.mem_filterMap.2 ⟨e, hsub (by simp), hel⟩
  | filled news hf hnews =>
    obtain ⟨p, q, τ, υ⟩ := hf
    exact List.mem_filterMap.2 ⟨.solved p q τ υ, hsub (by simp), hel⟩

theorem Refines.mem_of_mem {e : Twin} (h : Refines Ξ Ξ') (hp : ¬ e.IsPlaceholder) (he : e ∈ Ξ') :
    e ∈ Ξ := by
  obtain ⟨x, hx, block, hb, hm⟩ := h.exists_block he
  cases hb with
  | self => rwa [List.mem_singleton.1 hm]
  | filled news hf hnews =>
    obtain ⟨p, q, τ, υ⟩ := hf
    rcases List.mem_append.1 hm with hm | hm
    · exact absurd (hnews e hm) hp
    · rw [List.mem_singleton.1 hm] at hp
      exact absurd rfl hp

theorem Grows.refl (Ξ : Twins) : Grows Ξ Ξ := ⟨Ξ, [], by simp, Blockwise.refl .self Ξ⟩

theorem Grows.append (Ξ Θ : Twins) : Grows Ξ (Ξ ++ Θ) := ⟨Ξ, Θ, rfl, Blockwise.refl .self Ξ⟩

theorem Grows.trans (h : Grows Ξ Ξ') (h' : Grows Ξ' Θ) : Grows Ξ Θ := by
  obtain ⟨Ξ₁, tail, rfl, hr⟩ := h
  obtain ⟨Θ₁, tail', rfl, hr'⟩ := h'
  obtain ⟨Ξ₂, tail₂, rfl, hΞ, -⟩ := hr'.of_append
  exact ⟨Ξ₂, tail₂ ++ tail', List.append_assoc .., Refines.trans hr hΞ⟩

theorem Grows.rigid (h : Grows Ξ Ξ') : Ξ.rigid ⊆ Ξ'.rigid := by
  obtain ⟨Ξ₁, tail, rfl, hr⟩ := h
  rw [rigid_append, Refines.rigid hr]
  exact List.subset_append_left ..

theorem Grows.placeholders (h : Grows Ξ Ξ') : Ξ.placeholders ⊆ Ξ'.placeholders := by
  obtain ⟨Ξ₁, tail, rfl, hr⟩ := h
  rw [placeholders_append]
  exact fun l hl => List.mem_append_left _ (Refines.placeholders hr hl)

theorem Grows.matches {bound : List TypeId} {τ υ : Ty} (hg : Grows Ξ Ξ')
    (h : Ty.Matches names Ξ bound τ υ) : Ty.Matches names Ξ' bound τ υ :=
  h.mono hg.rigid hg.placeholders

theorem Grows.marker_mem {m : Marker} (hg : Grows Ξ Ξ') (h : .marker m ∈ Ξ) : .marker m ∈ Ξ' := by
  obtain ⟨Ξ₁, tail, rfl, hr⟩ := hg
  obtain ⟨block, hb, hsub⟩ := hr.block_subset h
  cases hb with
  | self => exact List.mem_append_left _ (hsub (by simp))
  | filled _ hf _ => cases hf

theorem Grows.cut {m : Marker} (hm : .marker m ∉ Ξ) (h : Grows (Ξ ++ [.marker m]) Ξ') :
    ∃ Ξ₁ rest, Ξ' = Ξ₁ ++ .marker m :: rest ∧ Refines Ξ Ξ₁ ∧ .marker m ∉ Ξ₁ := by
  obtain ⟨Ξ₂, tail, rfl, hr⟩ := h
  obtain ⟨Ξ₁, last, rfl, hΞ, hl⟩ := hr.of_append
  obtain ⟨block, ys, rfl, he, hy⟩ := hl.of_cons
  cases hy
  have hblock : block = [.marker m] := by
    cases he with
    | self => rfl
    | filled _ hf _ => cases hf
  subst hblock
  refine ⟨Ξ₁, tail, by simp, hΞ, fun h => hm (Refines.mem_of_mem hΞ ?_ h)⟩
  simp [Twin.IsPlaceholder, Twin.placeholder?]

theorem Grows.fill {before after news : Twins} (p q : TypeId) (τ υ : Ty)
    (hn : ∀ e ∈ news, ∃ p' q', e = .unsolved p' q') :
    Grows (before ++ .unsolved p q :: after)
      (before ++ (news ++ [.solved p q τ υ]) ++ after) := by
  have hnews : ∀ e ∈ news, Twin.IsPlaceholder e := fun e he => by
    obtain ⟨p', q', rfl⟩ := hn e he
    rfl
  have hblock : Filled Twin.Solves Twin.IsPlaceholder (.unsolved p q)
      (news ++ [.solved p q τ υ]) := .filled news (.solved p q τ υ) hnews
  refine ⟨_, [], (List.append_nil _).symm, ?_⟩
  rw [List.append_assoc]
  exact (Blockwise.refl .self before).append
    ((Blockwise.single hblock).append (Blockwise.refl .self after))

theorem OneToOne.cons {pairs : List (TypeId × TypeId)} {a b : TypeId} (h : OneToOne pairs)
    (hfresh : ∀ a' b', (a', b') ∈ pairs → a' ≠ a ∧ b' ≠ b) : OneToOne ((a, b) :: pairs) := by
  intro x y x' y' hxy hxy'
  rcases List.mem_cons.1 hxy with heq | hxy <;> rcases List.mem_cons.1 hxy' with heq' | hxy'
  · cases heq
    cases heq'
    simp
  · cases heq
    simp [Ne.symm (hfresh _ _ hxy').1, Ne.symm (hfresh _ _ hxy').2]
  · cases heq'
    simp [hfresh _ _ hxy]
  · exact h _ _ _ _ hxy hxy'

theorem OneToOne.subset {pairs pairs' : List (TypeId × TypeId)} (h : OneToOne pairs)
    (hsub : pairs' ⊆ pairs) : OneToOne pairs' :=
  fun _ _ _ _ hxy hxy' => h _ _ _ _ (hsub hxy) (hsub hxy')

theorem Sound.snoc {e : Twin} (h : Ξ.Sound names)
    (hr : ∀ a b, e.rigid? = some (a, b) → b ∉ names ∧
      ∀ a' b', (a', b') ∈ Ξ.rigid → a' ≠ a ∧ b' ≠ b)
    (hp : ∀ p q, e.placeholder? = some (p, q) →
      ∀ p' q', (p', q') ∈ Ξ.placeholders → p' ≠ p ∧ q' ≠ q)
    (hb : ∀ x τ υ, e = .binding x τ υ → Ty.Matches names Ξ [] τ υ)
    (hs : ∀ p q τ υ, e ≠ .solved p q τ υ) : Sound names (Ξ ++ [e]) := by
  have hrigid : Twins.rigid (Ξ ++ [e]) = Ξ.rigid ++ e.rigid?.toList := by
    rw [rigid_append, rigid_cons]
    exact congrArg (Ξ.rigid ++ ·) (List.append_nil _)
  have hplaceholders : Twins.placeholders (Ξ ++ [e]) = Ξ.placeholders ++ e.placeholder?.toList := by
    rw [placeholders_append, placeholders_cons]
    exact congrArg (Ξ.placeholders ++ ·) (List.append_nil _)
  have hmatch : ∀ {τ υ}, Ty.Matches names Ξ [] τ υ → Ty.Matches names (Ξ ++ [e]) [] τ υ :=
    fun h => (Grows.append Ξ [e]).matches h
  refine ⟨?_, ?_, fun a b hab => ?_, fun x τ υ hx => ?_,
    throughout_append.2 ⟨h.solutions, throughout_singleton.2 ?_⟩⟩
  · rw [hrigid]
    cases he : e.rigid? with
    | none => simpa using h.rigid
    | some l =>
      exact (h.rigid.cons (hr l.1 l.2 he).2).subset fun x hx => by simpa [or_comm] using hx
  · rw [hplaceholders]
    cases he : e.placeholder? with
    | none => simpa using h.placeholders
    | some l =>
      exact (h.placeholders.cons (hp l.1 l.2 he)).subset fun x hx => by simpa [or_comm] using hx
  · rw [hrigid] at hab
    rcases List.mem_append.1 hab with hab | hab
    · exact h.apart a b hab
    · exact (hr a b (by simpa using hab)).1
  · rcases List.mem_append.1 hx with hx | hx
    · exact hmatch (h.bindings x τ υ hx)
    · exact hmatch (hb x τ υ (List.mem_singleton.1 hx).symm)
  · exact fun p q τ υ he => absurd he (hs p q τ υ)

/-- What is left of a scope is sound, since its bindings are those from before the scope. -/
theorem Sound.cut (hΞ : Ξ.Sound names) (hr : Refines Ξ Ξ') (h : Sound names (Ξ' ++ Θ)) :
    Ξ'.Sound names := by
  obtain ⟨hrigid, hplaceholders, hapart, -, hsolutions⟩ := h
  rw [rigid_append] at hrigid hapart
  rw [placeholders_append] at hplaceholders
  refine ⟨hrigid.subset (List.subset_append_left ..),
    hplaceholders.subset (List.subset_append_left ..),
    fun a b hab => hapart a b (List.mem_append_left _ hab), fun x τ υ hx => ?_,
    (throughout_append.1 hsolutions).1⟩
  have hold := hΞ.bindings x τ υ
    (Refines.mem_of_mem hr (by simp [Twin.IsPlaceholder, Twin.placeholder?]) hx)
  exact hold.mono (by rw [Refines.rigid hr]; exact fun _ => id) (Refines.placeholders hr)

theorem Sound.fill {before after news : Twins} {p q : TypeId} {τ υ : Ty}
    (h : Sound names (before ++ .unsolved p q :: after))
    (hn : ∀ e ∈ news, ∃ p' q', e = .unsolved p' q')
    (hpairs : OneToOne (news.placeholders ++
      Twins.placeholders (before ++ .unsolved p q :: after)))
    (hm : Ty.Matches names (before ++ news) [] τ υ) :
    Sound names (before ++ (news ++ [.solved p q τ υ]) ++ after) := by
  have hnews : news.rigid = [] := List.filterMap_eq_nil_iff.2 fun e he => by
    obtain ⟨p', q', rfl⟩ := hn e he
    rfl
  have hrigid : ∀ inner : Twins, Twins.rigid (before ++ (news ++ [.solved p q τ υ]) ++ inner) =
      Twins.rigid (before ++ .unsolved p q :: inner) := fun inner => by
    simp [rigid_append, rigid_cons, hnews, Twin.rigid?]
  have hplaceholders : ∀ inner : Twins, Twins.placeholders (before ++ .unsolved p q :: inner) ⊆
      Twins.placeholders (before ++ (news ++ [.solved p q τ υ]) ++ inner) := fun inner l hl => by
    simp only [placeholders_append, placeholders_cons, Twin.placeholder?, List.mem_append] at hl ⊢
    rcases hl with hl | hl | hl
    · exact .inl (.inl hl)
    · exact .inl (.inr (.inr (.inl hl)))
    · exact .inr hl
  have hmono : ∀ {inner : Twins} {τ' υ' : Ty},
      Ty.Matches names (before ++ .unsolved p q :: inner) [] τ' υ' →
      Ty.Matches names (before ++ (news ++ [.solved p q τ υ]) ++ inner) [] τ' υ' := fun h =>
    h.mono (by rw [hrigid]; exact fun _ => id) (hplaceholders _)
  obtain ⟨hbefore, hafter⟩ := throughout_append.1 h.solutions
  refine ⟨by rw [hrigid]; exact h.rigid, ?_, by rw [hrigid]; exact h.apart, fun x σ σ' hx => ?_, ?_⟩
  · refine hpairs.subset fun l hl => ?_
    simp only [placeholders_append, placeholders_cons, Twin.placeholder?, List.mem_append] at hl ⊢
    rcases hl with (hl | hl | hl | hl) | hl
    · exact .inr (.inl hl)
    · exact .inl hl
    · exact .inr (.inr (.inl hl))
    · cases hl
    · exact .inr (.inr (.inr hl))
  · refine hmono (h.bindings x σ σ' ?_)
    have hx' : .binding x σ σ' ∉ news := fun hmem => by
      obtain ⟨_, _, heq⟩ := hn _ hmem
      cases heq
    simpa [hx'] using hx
  · refine throughout_append.2 ⟨throughout_append.2 ⟨hbefore, throughout_append.2 ⟨?_, ?_⟩⟩, ?_⟩
    · intro inner e rest heq p' q' τ' υ' he
      obtain ⟨_, _, heq'⟩ := hn e (by simp [heq])
      cases heq'.symm.trans he
    · refine throughout_singleton.2 fun p' q' τ' υ' he => ?_
      cases he
      simpa using hm
    · refine (throughout_cons.1 hafter).2.imp fun inner e he p' q' τ' υ' heq => ?_
      exact hmono (he p' q' τ' υ' heq)

end Twins
end HigherRank
