import HigherRank.Proofs.Order
import HigherRank.Proofs.Runs
import HigherRank.Checker

set_option autoImplicit false

/-!
# What a judgment does to the state

Every judgment, run on a valid state, leaves a valid state that follows the first, whatever its outcome;
and unless it is accepted it leaves the context as it was. Both are proved for one level of a judgment
from the same of the next level, and then by induction on the levels that are left. Nothing is
asked of the types and terms that the judgments are given.
-/
namespace HigherRank

namespace Judgment

variable {ε α β : Type} {g : Growth}

/-- The judgment leaves a state that follows. -/
def Evolves (g : Growth) (x : Search ε α) : Prop := ∀ s : State, s.Valid → s.Evolves g (x s).2

/-- Moreover the context is as before unless the judgment is accepted. -/
def Atomic (g : Growth) (x : Search ε α) : Prop :=
  ∀ s : State, s.Valid → s.Evolves g (x s).2 ∧
    ((∀ a, (x s).1 ≠ .accepted a) → (x s).2.context = s.context)

/-- The judgment is accepted and changes nothing. -/
def Reads (x : Search ε α) : Prop := ∀ s, ∃ a, x s = (.accepted a, s)

theorem Atomic.evolves {x : Search ε α} (h : Atomic g x) : Evolves g x := fun s hs => (h s hs).1

theorem Evolves.anything {x : Search ε α} (h : Evolves g x) : Evolves .anything x :=
  fun s hs => (h s hs).anything

theorem Evolves.of_nothing {x : Search ε α} (h : Evolves .nothing x) : Evolves g x :=
  fun s hs => (h s hs).of_nothing g

theorem Atomic.of_nothing {x : Search ε α} (h : Atomic .nothing x) : Atomic g x :=
  fun s hs => ⟨(h s hs).1.of_nothing g, (h s hs).2⟩

theorem Evolves.result {x : Search ε α} {o : Outcome α ε} {s s' : State} (hx : Evolves g x)
    (hs : s.Valid) (h : x s = (o, s')) : s.Evolves g s' := by
  have he := hx s hs
  rwa [h] at he

theorem atomic_accept (a : α) : Atomic g (accept a : Search ε α) :=
  fun _ hs => ⟨.refl g hs, fun _ => rfl⟩

theorem atomic_reject : Atomic g (reject : Search ε α) :=
  fun _ hs => ⟨.refl g hs, fun _ => rfl⟩

theorem atomic_abort [SearchError ε] (error : TypeError) : Atomic g (abort error : Search ε α) :=
  fun _ hs => ⟨.refl g hs, fun _ => rfl⟩

theorem Evolves.bind {x : Search ε α} {f : α → Search ε β} (hx : Evolves g x)
    (hf : ∀ a, Evolves g (f a)) : Evolves g (x >>= f) := by
  intro s hs
  have h := hx s hs
  rcases hr : x s with ⟨o, s'⟩
  rw [hr] at h
  cases o with
  | accepted a =>
    rw [bind_of_accepted hr]
    exact h.trans (hf a s' h.valid)
  | rejected =>
    rw [bind_of_rejected hr]
    exact h
  | aborted error =>
    rw [bind_of_aborted hr]
    exact h

theorem Atomic.bind_reads {x : Search ε α} {f : α → Search ε β} (hx : Reads x)
    (hf : ∀ a, Atomic g (f a)) : Atomic g (x >>= f) := by
  intro s hs
  obtain ⟨a, ha⟩ := hx s
  rw [bind_of_accepted ha]
  exact hf a s hs

theorem Atomic.bind_accept {x : Search ε α} (hx : Atomic g x) (f : α → β) :
    Atomic g (x >>= fun a => accept (f a)) := by
  intro s hs
  obtain ⟨he, hc⟩ := hx s hs
  rcases hr : x s with ⟨o, s'⟩
  rw [hr] at he hc
  cases o with
  | accepted a =>
    rw [bind_of_accepted hr]
    exact ⟨he, fun hne => absurd rfl (hne (f a))⟩
  | rejected =>
    rw [bind_of_rejected hr]
    exact ⟨he, fun _ => hc (by simp)⟩
  | aborted error =>
    rw [bind_of_aborted hr]
    exact ⟨he, fun _ => hc (by simp)⟩

theorem Atomic.orElse {x y : Search ε α} (hx : Atomic g x) (hy : Atomic g y) :
    Atomic g (x <|> y) := by
  intro s hs
  obtain ⟨he, hc⟩ := hx s hs
  rcases hr : x s with ⟨o, s'⟩
  rw [hr] at he hc
  cases o with
  | accepted a =>
    rw [orElse_of_accepted hr]
    exact ⟨he, fun hne => absurd rfl (hne a)⟩
  | rejected =>
    rw [orElse_of_rejected hr]
    obtain ⟨he', hc'⟩ := hy s' he.valid
    exact ⟨he.trans he', fun hne => (hc' hne).trans (hc (by simp))⟩
  | aborted error =>
    rw [orElse_of_aborted hr]
    exact ⟨he, fun _ => hc (by simp)⟩

theorem Evolves.atomically {x : Search ε α} (hx : Evolves g x) : Atomic g (atomically x) := by
  intro s hs
  have h := hx s hs
  rcases hr : x s with ⟨o, s'⟩
  rw [hr] at h
  cases o with
  | accepted a =>
    rw [atomically_of_accepted hr]
    exact ⟨h, fun hne => absurd rfl (hne a)⟩
  | rejected =>
    rw [atomically_of_rejected hr]
    exact ⟨h.restore hs, fun _ => rfl⟩
  | aborted error =>
    rw [atomically_of_aborted hr]
    exact ⟨h.restore hs, fun _ => rfl⟩

theorem Atomic.nested {x : Search ε α} (hx : Atomic g x) : Atomic g (nested x) := by
  intro s hs
  obtain ⟨he, hc⟩ := hx { s with depth := s.depth + 1 } (hs.withDepth _)
  rcases hr : x { s with depth := s.depth + 1 } with ⟨o, s'⟩
  rw [hr] at he hc
  simp only [Judgment.nested, hr]
  have hd : s'.depth = s.depth + 1 := he.depth
  exact ⟨⟨he.valid.withDepth _, he.context, he.types, he.markers,
    show s'.depth - 1 = s.depth by omega⟩, hc⟩

/-- The marker of a scope survives the body, so the scope ends there with the body's own outcome. -/
theorem Evolves.inChildScope_run [SearchError ε] {x : Search ε α} {s s' : State} {o : Outcome α ε}
    (hx : Evolves .anything x) (hs : s.Valid) (h : x s.openScope.2 = (o, s')) :
    ∃ Δ rest, s'.context = Δ ++ .marker ⟨s.supply.markers⟩ :: rest ∧
      Context.Refines s.supply.types.size s.context Δ ∧
      inChildScope x s = (o, { s' with context := Δ }) := by
  have he := hx.result hs.openScope h
  obtain ⟨Δ, rest, hΔ, href, hsplit⟩ := he.context.splitAt_marker hs.marker_fresh
  exact ⟨Δ, rest, hΔ, href, inChildScope_of_split h hsplit⟩

theorem Evolves.inChildScope [SearchError ε] {x : Search ε α} (hx : Evolves .anything x) :
    Evolves .nothing (inChildScope x) := by
  intro s hs
  have h := hx s.openScope.2 hs.openScope
  rcases hr : x s.openScope.2 with ⟨o, s'⟩
  rw [hr] at h
  obtain ⟨Δ, rest, hΔ, href, heq⟩ := hx.inChildScope_run hs hr
  have hmarkers : s.supply.markers + 1 ≤ s'.supply.markers := h.markers
  rw [heq]
  refine ⟨h.valid.withContext ?_ ?_ ?_, href.grows _, h.types,
    Nat.le_of_succ_le hmarkers, h.depth⟩
  · exact (hΔ ▸ h.valid.ordered).left
  · rw [hΔ]
    simp
  · intro m' hm
    rw [hΔ]
    simp [hm]

theorem evolves_push {e : Entry} (hp : e.placeholder? = none) (hm : ∀ m, e ≠ .marker m) :
    Evolves .anything (push e : Search ε Unit) := by
  intro s hs
  refine ⟨⟨hs.ordered.snoc (by simp [hp]) ?_, fun p hp' => ?_, fun m hm' => ?_⟩,
    .snoc trivial, Nat.le_refl _, Nat.le_refl _, rfl⟩
  · rintro p τ rfl
    simp [Entry.placeholder?] at hp
  · refine hs.placeholders p ?_
    simpa [push, hp] using hp'
  · refine hs.markers m ?_
    have h : .marker m ∈ s.context ∨ .marker m = e := by simpa [push] using hm'
    exact h.resolve_right fun h => hm m h.symm

theorem evolves_declare (a : TypeId) : Evolves .anything (declare a : Search ε Ty) := by
  intro s hs
  have hpush : Evolves .anything (push (.var a) : Search ε Unit) := evolves_push rfl (by simp)
  exact hpush s hs

theorem evolves_introduce (label : String) :
    Evolves .placeholders (introduce label : Search ε TypeId) := by
  intro s hs
  let p : TypeId := ⟨s.supply.types.size⟩
  have hsize : (s.supply.types.push label).size = s.supply.types.size + 1 := Array.size_push ..
  have hfresh : p ∉ s.context.placeholders := hs.fresh (Nat.le_refl _)
  change s.Evolves .placeholders { s with
    supply := { s.supply with types := s.supply.types.push label }
    context := s.context ++ [.unsolved p] }
  refine ⟨⟨hs.ordered.snoc (by simpa [Entry.placeholder?] using hfresh) (by simp), fun q hq => ?_,
    fun m hm => ?_⟩, .snoc ⟨p, rfl, Nat.le_refl _⟩, ?_, Nat.le_refl _, rfl⟩
  · have hq' : q ∈ s.context.placeholders ∨ q = p := by simpa [Entry.placeholder?] using hq
    change q.index < (s.supply.types.push label).size
    rw [hsize]
    rcases hq' with hq' | rfl
    · exact Nat.lt_succ_of_lt (hs.placeholders q hq')
    · exact Nat.lt_succ_self _
  · exact hs.markers m (by simpa using hm)
  · change _ ≤ (s.supply.types.push label).size
    omega

theorem reads_resolve (ty : Ty) :
    Reads (resolve ty : Search ε Ty) := fun _ => ⟨_, rfl⟩

theorem reads_typeLabel (a : TypeId) :
    Reads (typeLabel a : Search ε String) := fun _ => ⟨_, rfl⟩

theorem reads_bindingLabel (x : BindingId) :
    Reads (bindingLabel x : Search ε String) := fun _ => ⟨_, rfl⟩

theorem reads_isWellFormed (ty : Ty) :
    Reads (isWellFormed ty : Search ε Bool) := fun _ => ⟨_, rfl⟩

theorem reads_isUnsolved (p : TypeId) :
    Reads (isUnsolved p : Search ε Bool) := fun _ => ⟨_, rfl⟩

theorem Reads.evolves {x : Search ε α} (h : Reads x) : Evolves g x := by
  intro s hs
  obtain ⟨a, ha⟩ := h s
  rw [ha]
  exact .refl g hs

theorem atomic_lookup (x : BindingId) : Atomic g (lookup x : Search ε Ty) := by
  intro s hs
  have heq : ((lookup x : Search ε Ty) s).2 = s := by
    simp only [lookup]
    split <;> rfl
  rw [heq]
  exact ⟨.refl g hs, fun _ => rfl⟩

theorem Evolves.rigidly [SearchError ε] {x : Search ε α} (hx : Evolves g x) (a : TypeId) :
    Atomic .nothing (rigidly a x) :=
  ((evolves_declare a).bind fun _ => hx.anything).inChildScope.atomically

theorem Evolves.assuming [SearchError ε] {y : Search ε α} (hy : Evolves g y) (x : BindingId)
    (ty : Ty) :
    Evolves .nothing (Judgment.inChildScope (assume x ty >>= fun _ => y)) :=
  ((evolves_push rfl (by simp)).bind fun _ => hy.anything).inChildScope

theorem evolves_introducing {f : Ty → Search ε α} (a : TypeId) (ty : Ty)
    (hf : ∀ ty, Evolves .placeholders (f ty)) : Evolves .placeholders (introducing a ty f) :=
  (reads_typeLabel a).evolves.bind fun label => (evolves_introduce label).bind fun _ => hf _

theorem atomic_flexibly [SearchError ε] {f : Ty → Search ε α} (a : TypeId) (ty : Ty)
    (hf : ∀ ty, Evolves .placeholders (f ty)) : Atomic .nothing (flexibly a ty f) :=
  (evolves_introducing a ty hf).anything.inChildScope.atomically

theorem atomic_articulate [SearchError ε] (p : TypeId) :
    Atomic .nothing (articulate p : Search ε _) := by
  intro s hs
  let parameter : TypeId := ⟨s.supply.types.size⟩
  let result : TypeId := ⟨s.supply.types.size + 1⟩
  have hsize := size_mintedArrow p s.supply
  have hvalid : ∀ q ∈ s.context.placeholders,
      q.index < (mintedArrow p s.supply).types.size := fun q hq => by
    have := hs.placeholders q hq
    omega
  rcases hslot : s.context.slot p with error | ⟨before, after⟩
  · rw [articulate_of_error hslot]
    exact ⟨⟨⟨hs.ordered, hvalid, hs.markers⟩, .refl .., by simp [hsize], Nat.le_refl _, rfl⟩,
      fun _ => rfl⟩
  · obtain ⟨hΓ, -⟩ := Context.slot_eq_ok.1 hslot
    rw [articulate_of_slot hslot]
    have hp : parameter ∉ s.context.placeholders := hs.fresh (Nat.le_refl _)
    have hr : result ∉ s.context.placeholders := hs.fresh (Nat.le_succ _)
    refine ⟨⟨⟨?_, fun q hq => ?_, fun m hm => ?_⟩, Context.Refines.grows _ ?_, by simp [hsize],
      Nat.le_refl _, rfl⟩, fun hne => absurd rfl (hne _)⟩
    · rw [hΓ] at hp hr
      exact (hΓ ▸ hs.ordered).articulate hp hr (by simp)
    · have hq' : q = parameter ∨ q = result ∨ q ∈ s.context.placeholders := by
        simp only [hΓ, Context.placeholders, List.filterMap_append, List.filterMap_cons,
          Entry.placeholder?, List.mem_append, List.mem_cons] at hq ⊢
        rcases hq with hq | rfl | rfl | rfl | hq
        · exact .inr (.inr (.inl hq))
        · exact .inl rfl
        · exact .inr (.inl rfl)
        · exact .inr (.inr (.inr (.inl rfl)))
        · exact .inr (.inr (.inr (.inr hq)))
      rcases hq' with rfl | rfl | hq'
      · simp [hsize, parameter]
      · simp [hsize, result]
      · exact hvalid q hq'
    · refine hs.markers m ?_
      simpa [hΓ] using hm
    · rw [hΓ]
      let news : Context := [.unsolved parameter, .unsolved result]
      have hnews : ∀ e ∈ news, e.MintedFrom s.supply.types.size := by
        intro e he
        rcases List.mem_cons.1 he with rfl | he
        · exact ⟨parameter, rfl, Nat.le_refl _⟩
        · rw [List.mem_singleton.1 he]
          exact ⟨result, rfl, Nat.le_succ _⟩
      exact (Context.Refines.refl _ before).append
        (.cons (.filled news (.solved p _) hnews) (Context.Refines.refl _ after))

theorem articulate_aborted [SearchError ε] {p : TypeId} {error : ε} {s s' : State}
    (h : articulate p s = (.aborted error, s')) :
    .unsolved p ∉ s.context ∧ error = report (.missingPlaceholder p) := by
  rcases hslot : s.context.slot p with error' | ⟨before, after⟩
  · rw [articulate_of_error hslot] at h
    cases h
    obtain ⟨hmissing, rfl⟩ := Context.slot_eq_error.1 hslot
    exact ⟨hmissing, rfl⟩
  · rw [articulate_of_slot hslot] at h
    cases h

theorem evolves_solve {s : State} {before after : Context} {p : TypeId} {τ : Ty} (hs : s.Valid)
    (hΓ : s.context = before ++ .unsolved p :: after) (hm : τ.isMonotype = true)
    (hw : before.wellFormed τ = true) :
    s.Evolves .nothing { s with context := before ++ .solved p τ :: after } := by
  refine ⟨hs.withContext ((hΓ ▸ hs.ordered).solve hm hw) ?_ fun m hm' => ?_, ?_, Nat.le_refl _,
    Nat.le_refl _, rfl⟩
  · rw [hΓ]
    simp [Entry.placeholder?]
  · simpa [hΓ] using hm'
  · rw [hΓ]
    refine Context.Refines.grows _ ((Context.Refines.refl _ before).append ?_)
    exact .cons (.filled [] (.solved p τ) (by simp)) (Context.Refines.refl _ after)

end Judgment
end HigherRank
