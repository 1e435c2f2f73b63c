import HigherRank.Proofs.Calls

set_option autoImplicit false

/-!
# Errors of judgments on types

No placeholder is looked up after it has been solved or dropped, and the marker of a scope is there
when the scope ends. So judgments on types that are in scope abort only at the nesting limit.
-/
namespace HigherRank

open Judgment
open Opening (own)

namespace Judgment

variable {ε α β : Type} {allowed : ε → Prop} {x y : Search ε α} {s : State}

/-- From the given state the judgment is aborted by errors of the given kind only. -/
def RaisesOnly (allowed : ε → Prop) (x : Search ε α) (s : State) : Prop :=
  ∀ error s', x s = (.aborted error, s') → allowed error

namespace RaisesOnly

theorem mono {allowed' : ε → Prop} (h : ∀ error, allowed error → allowed' error)
    (hx : RaisesOnly allowed x s) : RaisesOnly allowed' x s :=
  fun error s' he => h error (hx error s' he)

theorem accept {a : α} : RaisesOnly allowed (accept a) s := fun _ _ h => by cases h

theorem reject : RaisesOnly allowed (reject : Search ε α) s := fun _ _ h => by cases h

theorem abort [SearchError ε] {error : TypeError} (h : allowed (report error)) :
    RaisesOnly allowed (abort error : Search ε α) s := fun _ _ heq => by
  cases heq
  exact h

theorem bind {f : α → Search ε β} (hx : RaisesOnly allowed x s)
    (hf : ∀ a s₁, x s = (.accepted a, s₁) → RaisesOnly allowed (f a) s₁) :
    RaisesOnly allowed (x >>= f) s := by
  intro error s' h
  rcases hr : x s with ⟨a | _ | error', s₁⟩
  · rw [bind_of_accepted hr] at h
    exact hf a s₁ hr error s' h
  · rw [bind_of_rejected hr] at h
    cases h
  · rw [bind_of_aborted hr] at h
    cases h
    exact hx error _ hr

theorem read {a : α} {f : α → Search ε β} (hx : x s = (.accepted a, s))
    (hf : RaisesOnly allowed (f a) s) : RaisesOnly allowed (x >>= f) s := by
  intro error s' h
  rw [bind_of_accepted hx] at h
  exact hf error s' h

theorem orElse (hx : RaisesOnly allowed x s)
    (hy : ∀ s₁, x s = (.rejected, s₁) → RaisesOnly allowed y s₁) :
    RaisesOnly allowed (x <|> y) s := by
  intro error s' h
  rcases hr : x s with ⟨a | _ | error', s₁⟩
  · rw [orElse_of_accepted hr] at h
    cases h
  · rw [orElse_of_rejected hr] at h
    exact hy s₁ hr error s' h
  · rw [orElse_of_aborted hr] at h
    cases h
    exact hx error _ hr

theorem orElse_retries {g : Growth} (ha : Atomic g x) (hs : s.Valid)
    (hx : RaisesOnly allowed x s) (hy : ∀ s₁, s.Retries s₁ → RaisesOnly allowed y s₁) :
    RaisesOnly allowed (x <|> y) s :=
  hx.orElse fun s₁ hr => hy s₁ (ha.retries hs hr)

theorem atomically (hx : RaisesOnly allowed x s) : RaisesOnly allowed (atomically x) s := by
  intro error s' h
  rcases hr : x s with ⟨a | _ | error', s₁⟩
  · rw [atomically_of_accepted hr] at h
    cases h
  · rw [atomically_of_rejected hr] at h
    cases h
  · rw [atomically_of_aborted hr] at h
    cases h
    exact hx error _ hr

theorem nested (hx : RaisesOnly allowed x { s with depth := s.depth + 1 }) :
    RaisesOnly allowed (nested x) s := by
  intro error s' h
  rcases hr : x { s with depth := s.depth + 1 } with ⟨o, s₁⟩
  simp only [Judgment.nested, hr] at h
  cases h
  exact hx error _ hr

theorem inChildScope [SearchError ε] (he : Evolves .anything x) (hs : s.Valid)
    (hx : RaisesOnly allowed x s.openScope.2) : RaisesOnly allowed (inChildScope x) s := by
  -- The marker of the scope is there at its end, so closing it raises nothing.
  intro error s' h
  rcases hr : x s.openScope.2 with ⟨o, s₁⟩
  obtain ⟨Δ, rest, -, -, hrun⟩ := he.inChildScope_run hs hr
  rw [hrun] at h
  cases h
  exact hx error _ hr

theorem rigidly [SearchError ε] {g : Growth} {a : TypeId} (he : Evolves g x) (hs : s.Valid)
    (hx : RaisesOnly allowed x (s.scopeWith (.var a))) : RaisesOnly allowed (rigidly a x) s :=
  (inChildScope ((evolves_declare a).bind fun _ => he.anything) hs hx).atomically

theorem assuming [SearchError ε] {g : Growth} {b : BindingId} {ty : Ty} (he : Evolves g x)
    (hs : s.Valid) (hx : RaisesOnly allowed x (s.scopeWith (.binding b ty))) :
    RaisesOnly allowed (Judgment.inChildScope (assume b ty >>= fun _ => x)) s :=
  inChildScope ((evolves_push rfl (by simp)).bind fun _ => he.anything) hs hx

theorem flexibly [SearchError ε] {a : TypeId} {ty : Ty} {f : Ty → Search ε α}
    (he : ∀ ty, Evolves .placeholders (f ty)) (hs : s.Valid)
    (hf : ∀ label, RaisesOnly allowed (f (ty.subst a (.placeholder ⟨s.supply.types.size⟩)))
      (s.scopeWithNew label)) : RaisesOnly allowed (flexibly a ty f) s :=
  (inChildScope (evolves_introducing a ty he).anything hs (hf _)).atomically

theorem introduce {label : String} : RaisesOnly allowed (introduce label) s := fun _ _ h => by
  cases h

theorem articulate [SearchError ε] {p : TypeId} (hp : .unsolved p ∈ s.context) :
    RaisesOnly allowed (articulate p) s :=
  fun _ _ h => absurd hp (articulate_aborted h).1

theorem instantiateMonotype [SearchError ε] {p : TypeId} {ty : Ty} (hp : .unsolved p ∈ s.context) :
    RaisesOnly allowed (instantiateMonotype p ty) s :=
  fun _ _ h => absurd hp (instantiateMonotype_aborted h).1

end RaisesOnly
end Judgment

section Types

variable {ε : Type} [SearchError ε] {allowed : ε → Prop} {next : Ty → Ty → Search ε Unit}
  {instantiate : Variance → TypeId → Ty → Search ε Unit}

theorem instantiateStep_raises {v : Variance} {p : TypeId} {ty : Ty} {s : State}
    (hi : ∀ v p ty, Atomic .nothing (instantiate v p ty)) (hsolvable : Solvable s p ty)
    (h : Apart s p (s.context.apply ty) → ∀ v' p' ty' s',
      InstantiateCalls instantiate v p s (s.context.apply ty) v' p' ty' s' →
      RaisesOnly allowed (instantiate v' p' ty') s') :
    RaisesOnly allowed (own.instantiateStep instantiate v p ty) s := by
  refine RaisesOnly.read rfl ?_
  split
  · exact .accept
  split
  · exact .reject
  rename_i hmentions
  have hs := hsolvable.valid
  have hp := hsolvable.unsolved
  replace h := h (hsolvable.apart fun hp => hmentions (Ty.mentions_iff.2 hp))
  generalize s.context.apply ty = ty at h
  refine (RaisesOnly.instantiateMonotype hp).orElse fun s₁ hrej => ?_
  rw [instantiateMonotype_rejected hrej]
  split
  · refine RaisesOnly.atomically ((RaisesOnly.articulate hp).bind ?_)
    rintro ⟨p₁, p₂⟩ s₂ ha
    have ha := articulated_of_accepted hs ha
    refine (h _ _ _ _ (.parameter ha)).bind fun _ s₃ h₁ => ?_
    exact RaisesOnly.read rfl (h _ _ _ _ (.result ha h₁))
  · exact .rigidly (hi _ _ _).evolves hs (h _ _ _ _ .rigid)
  · exact .flexibly (fun _ => (hi _ _ _).of_nothing.evolves) hs fun label =>
      h _ _ _ _ (.flexible label)
  · exact .reject

omit [SearchError ε] in
theorem instantiateIfOpen_raises {f : TypeId → Ty → Search ε Unit} {p : TypeId} {other : Ty}
    {s : State} (h : RaisesOnly allowed (f p other) s) :
    RaisesOnly allowed (instantiateIfOpen f p other) s := by
  refine RaisesOnly.read rfl ?_
  split
  · exact h
  · exact .reject

theorem subtypeStep_raises {sub sup : Ty} {s : State}
    (hn : ∀ sub sup, Atomic .nothing (next sub sup))
    (hi : ∀ v p ty, Atomic .nothing (instantiate v p ty)) (hs : s.Valid)
    (hcalls : ∀ sub' sup' s',
      SubtypeCalls next s (s.context.apply sub) (s.context.apply sup) sub' sup' s' →
      RaisesOnly allowed (next sub' sup') s')
    (hinstantiates : ∀ v p ty s',
      SubtypeInstantiates s (s.context.apply sub) (s.context.apply sup) v p ty s' →
      RaisesOnly allowed (instantiate v p ty) s') :
    RaisesOnly allowed (own.subtypeStep next instantiate sub sup) s := by
  refine RaisesOnly.read rfl (RaisesOnly.read rfl ?_)
  generalize s.context.apply sub = sub at hcalls hinstantiates
  generalize s.context.apply sup = sup at hcalls hinstantiates
  split
  · refine RaisesOnly.atomically ((hcalls _ _ _ .parameters).bind fun _ s₁ h₁ => ?_)
    exact hcalls _ _ _ (.results h₁)
  unfold Opening.subtypeOtherwise
  split
  · exact .accept
  refine RaisesOnly.orElse_retries (atomic_subtypeOpeningSub hn _ _) hs ?_ fun s₁ hr₁ => ?_
  · unfold subtypeOpeningSub
    split
    · exact .flexibly (fun _ => (hn _ _).of_nothing.evolves) hs fun label =>
        hcalls _ _ _ (.openSub label (.refl hs))
    · exact .reject
  have hs₁ := hr₁.evolves.valid
  refine RaisesOnly.orElse_retries (atomic_subtypeOpeningSup hn _ _) hs₁ ?_ fun s₂ hr₂ => ?_
  · unfold Opening.subtypeOpeningSup
    split
    · exact .rigidly (hn _ _).evolves hs₁ (hcalls _ _ _ (.openSup hr₁))
    · exact .reject
  replace hr₂ := hr₁.trans hr₂
  have hs₂ := hr₂.evolves.valid
  refine RaisesOnly.orElse_retries (atomic_subtypeSolvingSub hi _ _) hs₂ ?_ fun s₃ hr₃ => ?_
  · unfold subtypeSolvingSub
    split
    · exact instantiateIfOpen_raises (hinstantiates _ _ _ _ (.sub hr₂))
    · exact .reject
  unfold subtypeSolvingSup
  split
  · exact instantiateIfOpen_raises (hinstantiates _ _ _ _ (.sup (hr₂.trans hr₃)))
  · exact .reject

end Types

theorem instantiate_raises (limit left : Nat) {v : Variance} {p : TypeId} {ty : Ty} {s : State}
    (h : Solvable s p ty) :
    RaisesOnly (· = .depthLimitExceeded limit) (own.instantiate limit left v p ty) s := by
  induction left generalizing v p ty s with
  | zero => exact .abort rfl
  | succ left ih =>
    have hi := atomic_instantiate limit left
    refine .nested (instantiateStep_raises hi (h.withDepth _) fun hapart v' p' ty' s' hc => ?_)
    exact ih (hapart.call hi (instantiate_renames limit left) hc).toSolvable

theorem subtype_raises (limit left : Nat) {sub sup : Ty} {s : State} (h : Comparison s sub sup) :
    RaisesOnly (· = .depthLimitExceeded limit) (own.subtype limit left sub sup) s := by
  induction left generalizing sub sup s with
  | zero => exact .abort rfl
  | succ left ih =>
    have hn := atomic_subtype limit left
    have hcomp := (h.withDepth (s.depth + 1)).apply
    have hresolved := h.valid.ordered.resolved_apply
    refine .nested (subtypeStep_raises hn (atomic_instantiate limit left) hcomp.valid
      (fun sub' sup' s' hc => ih (hcomp.call hn hc)) fun v p ty s' hc => ?_)
    exact instantiate_raises limit left (hcomp.instantiates (hresolved sub) (hresolved sup) hc)

end HigherRank
