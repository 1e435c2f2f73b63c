import HigherRank.Proofs.Calls

set_option autoImplicit false

/-!
# Judgments that need finitely many levels

A judgment converges from a state if from some number of levels on its run is always the same. A level
converges if all that it may call does, so that a search is finite as soon as something decreases from
each judgment to those it calls.
-/
namespace HigherRank

namespace Judgment

variable {ε α β : Type} {s : State}

/-- With enough levels the run is always the same, whatever limit is to be reported. -/
def Converges (x : (limit left : Nat) → Search ε α) (s : State) : Prop :=
  ∃ run bound, ∀ limit left, bound ≤ left → x limit left s = run

namespace Converges

variable {x y : (limit left : Nat) → Search ε α}

theorem const (x : Search ε α) : Converges (fun _ _ => x) s := ⟨x s, 0, fun _ _ _ => rfl⟩

theorem congr (h : ∀ limit left, x limit left s = y limit left s) (hy : Converges y s) :
    Converges x s := by
  obtain ⟨run, bound, hy⟩ := hy
  exact ⟨run, bound, fun limit left hle => (h limit left).trans (hy limit left hle)⟩

theorem below (h : Converges (fun limit left => x limit (left + 1)) s) : Converges x s := by
  obtain ⟨run, bound, h⟩ := h
  refine ⟨run, bound + 1, fun limit left hle => ?_⟩
  obtain ⟨left, rfl⟩ := Nat.exists_eq_add_of_le' hle
  exact h limit (left + bound) (Nat.le_add_left ..)

theorem bind {f : (limit left : Nat) → α → Search ε β} (hx : Converges x s)
    (hf : ∀ limit left a s₁, x limit left s = (.accepted a, s₁) →
      Converges (fun limit left => f limit left a) s₁) :
    Converges (fun limit left => x limit left >>= f limit left) s := by
  obtain ⟨⟨a | _ | error, s₁⟩, bound, hx⟩ := hx
  · obtain ⟨run, bound', hf⟩ := hf 0 bound a s₁ (hx 0 bound (Nat.le_refl _))
    refine ⟨run, max bound bound', fun limit left hle => ?_⟩
    have hrun := hx limit left (Nat.le_trans (Nat.le_max_left ..) hle)
    exact (bind_of_accepted hrun).trans (hf limit left (Nat.le_trans (Nat.le_max_right ..) hle))
  · exact ⟨_, bound, fun limit left hle => bind_of_rejected (hx limit left hle)⟩
  · exact ⟨_, bound, fun limit left hle => bind_of_aborted (hx limit left hle)⟩

theorem read {x : Search ε α} {a : α} {f : (limit left : Nat) → α → Search ε β}
    (hx : x s = (.accepted a, s)) (hf : Converges (fun limit left => f limit left a) s) :
    Converges (fun limit left => x >>= f limit left) s :=
  hf.congr fun _ _ => bind_of_accepted hx

theorem orElse (hx : Converges x s)
    (hy : ∀ limit left s₁, x limit left s = (.rejected, s₁) → Converges y s₁) :
    Converges (fun limit left => x limit left <|> y limit left) s := by
  obtain ⟨⟨a | _ | error, s₁⟩, bound, hx⟩ := hx
  · exact ⟨_, bound, fun limit left hle => orElse_of_accepted (hx limit left hle)⟩
  · obtain ⟨run, bound', hy⟩ := hy 0 bound s₁ (hx 0 bound (Nat.le_refl _))
    refine ⟨run, max bound bound', fun limit left hle => ?_⟩
    have hrun := hx limit left (Nat.le_trans (Nat.le_max_left ..) hle)
    exact (orElse_of_rejected hrun).trans (hy limit left (Nat.le_trans (Nat.le_max_right ..) hle))
  · exact ⟨_, bound, fun limit left hle => orElse_of_aborted (hx limit left hle)⟩

theorem orElse_retries {g : Growth} (ha : ∀ limit left, Atomic g (x limit left)) (hs : s.Valid)
    (hx : Converges x s) (hy : ∀ s₁, s.Retries s₁ → Converges y s₁) :
    Converges (fun limit left => x limit left <|> y limit left) s :=
  hx.orElse fun limit left s₁ hr => hy s₁ ((ha limit left).retries hs hr)

theorem atomically (hx : Converges x s) :
    Converges (fun limit left => atomically (x limit left)) s := by
  obtain ⟨run, bound, hx⟩ := hx
  exact ⟨Judgment.atomically (fun _ => run) s, bound, fun limit left hle =>
    atomically_congr_run (hx limit left hle)⟩

theorem nested (hx : Converges x { s with depth := s.depth + 1 }) :
    Converges (fun limit left => nested (x limit left)) s := by
  obtain ⟨run, bound, hx⟩ := hx
  exact ⟨Judgment.nested (fun _ => run) s, bound, fun limit left hle =>
    nested_congr_run (hx limit left hle)⟩

theorem inChildScope [SearchError ε] (hx : Converges x s.openScope.2) :
    Converges (fun limit left => inChildScope (x limit left)) s := by
  obtain ⟨run, bound, hx⟩ := hx
  exact ⟨Judgment.inChildScope (fun _ => run) s, bound, fun limit left hle =>
    inChildScope_congr_run (hx limit left hle)⟩

theorem rigidly [SearchError ε] {a : TypeId} (hx : Converges x (s.scopeWith (.var a))) :
    Converges (fun limit left => rigidly a (x limit left)) s :=
  (inChildScope (x := fun limit left => declare a >>= fun _ => x limit left) hx).atomically

theorem flexibly [SearchError ε] {a : TypeId} {ty : Ty}
    {f : (limit left : Nat) → Ty → Search ε α}
    (hf : ∀ label, Converges
      (fun limit left => f limit left (ty.subst a (.placeholder ⟨s.supply.types.size⟩)))
      (s.scopeWithNew label)) : Converges (fun limit left => flexibly a ty (f limit left)) s :=
  (inChildScope (x := fun limit left => introducing a ty (f limit left)) (hf _)).atomically

end Converges
end Judgment

open Judgment
open Opening (own)

variable {ε : Type}

theorem instantiateIfOpen_converges {f : (limit left : Nat) → TypeId → Ty → Search ε Unit}
    {p : TypeId} {other : Ty} {s : State}
    (h : Converges (fun limit left => f limit left p other) s) :
    Converges (fun limit left => instantiateIfOpen (f limit left) p other) s := by
  refine Converges.read rfl ?_
  by_cases hopen : (s.context.isUnsolved p && !other.mentions p) = true
  · simp only [if_pos hopen]
    exact h
  · simp only [if_neg hopen]
    exact .const _

variable [SearchError ε]

theorem instantiateStep_converges
    {next : (limit left : Nat) → Variance → TypeId → Ty → Search ε Unit}
    {v : Variance} {p : TypeId} {ty : Ty} {s : State} (hsolvable : Solvable s p ty)
    (h : Apart s p (s.context.apply ty) → ∀ limit left v' p' ty' s',
      InstantiateCalls (next limit left) v p s (s.context.apply ty) v' p' ty' s' →
      Converges (fun limit left => next limit left v' p' ty') s') :
    Converges (fun limit left => own.instantiateStep (next limit left) v p ty) s := by
  refine Converges.read rfl ?_
  by_cases hsame : s.context.apply ty = .placeholder p
  · simp only [if_pos hsame]
    exact .const _
  by_cases hmentions : (s.context.apply ty).mentions p = true
  · simp only [if_neg hsame, if_pos hmentions]
    exact .const _
  simp only [if_neg hsame, if_neg hmentions]
  have hs := hsolvable.valid
  replace h := h (hsolvable.apart fun hp => hmentions (Ty.mentions_iff.2 hp))
  generalize s.context.apply ty = ty at h
  refine (Converges.const _).orElse fun _ _ s₁ hrej => ?_
  rw [instantiateMonotype_rejected hrej]
  cases ty with
  | arrow τ υ =>
    refine Converges.atomically ((Converges.const (articulate p)).bind ?_)
    rintro _ _ ⟨p₁, p₂⟩ s₁ ha
    have ha := articulated_of_accepted hs ha
    refine (h 0 0 _ _ _ _ (.parameter ha)).bind fun limit left _ s₂ h₁ => ?_
    exact Converges.read rfl (h limit left _ _ _ _ (.result ha h₁))
  | forAll a body =>
    cases v with
    | covariant => exact .rigidly (h 0 0 _ _ _ _ .rigid)
    | contravariant => exact .flexibly fun label => h 0 0 _ _ _ _ (.flexible label)
  | _ => exact .const reject

section Subtyping

variable {next : Ty → Ty → Search ε Unit} {instantiate : Variance → TypeId → Ty → Search ε Unit}
  {sub sup : Ty} {s : State}

theorem subtypeStep_arrows {τ υ τ' υ' : Ty} (hsub : s.context.apply sub = .arrow τ υ)
    (hsup : s.context.apply sup = .arrow τ' υ') :
    own.subtypeStep next instantiate sub sup s =
      atomically (next τ' τ >>= fun _ => next υ υ') s := by
  have hsub' : (own : Opening ε).resolve sub s = (.accepted (.arrow τ υ), s) := by
    rw [← hsub]
    rfl
  have hsup' : (own : Opening ε).resolve sup s = (.accepted (.arrow τ' υ'), s) := by
    rw [← hsup]
    rfl
  rw [Opening.subtypeStep, bind_of_accepted hsub', bind_of_accepted hsup']

theorem subtypeStep_otherwise (h : ∀ τ υ τ' υ', s.context.apply sub = .arrow τ υ →
    s.context.apply sup ≠ .arrow τ' υ') : own.subtypeStep next instantiate sub sup s =
      own.subtypeOtherwise next instantiate (s.context.apply sub) (s.context.apply sup) s := by
  have hsub : (own : Opening ε).resolve sub s = (.accepted (s.context.apply sub), s) := rfl
  have hsup : (own : Opening ε).resolve sup s = (.accepted (s.context.apply sup), s) := rfl
  rw [Opening.subtypeStep, bind_of_accepted hsub, bind_of_accepted hsup]
  generalize s.context.apply sub = sub at h
  generalize s.context.apply sup = sup at h
  split
  · exact absurd rfl (h _ _ _ _ rfl)
  · rfl

end Subtyping

section Converging

variable {next : (limit left : Nat) → Ty → Ty → Search ε Unit}
  {instantiate : (limit left : Nat) → Variance → TypeId → Ty → Search ε Unit} {sub sup : Ty}
  {s : State}

theorem subtypeStep_converges (hn : ∀ limit left sub sup, Atomic .nothing (next limit left sub sup))
    (hi : ∀ limit left v p ty, Atomic .nothing (instantiate limit left v p ty)) (hs : s.Valid)
    (hcalls : ∀ limit left sub' sup' s', SubtypeCalls (next limit left) s (s.context.apply sub)
        (s.context.apply sup) sub' sup' s' →
      Converges (fun limit left => next limit left sub' sup') s')
    (hinstantiates : ∀ v p ty s',
      SubtypeInstantiates s (s.context.apply sub) (s.context.apply sup) v p ty s' →
      Converges (fun limit left => instantiate limit left v p ty) s') :
    Converges
      (fun limit left => own.subtypeStep (next limit left) (instantiate limit left) sub sup) s := by
  by_cases harrows : ∃ τ υ τ' υ', s.context.apply sub = .arrow τ υ ∧
      s.context.apply sup = .arrow τ' υ'
  · obtain ⟨τ, υ, τ', υ', hsub, hsup⟩ := harrows
    rw [hsub, hsup] at hcalls
    refine Converges.congr (fun _ _ => subtypeStep_arrows hsub hsup) (Converges.atomically ?_)
    refine (hcalls 0 0 _ _ _ .parameters).bind fun limit left _ s₁ h₁ => ?_
    exact hcalls limit left _ _ _ (.results h₁)
  refine Converges.congr (fun _ _ => subtypeStep_otherwise fun τ υ τ' υ' hsub hsup =>
    harrows ⟨τ, υ, τ', υ', hsub, hsup⟩) ?_
  generalize s.context.apply sub = sub at hcalls hinstantiates
  generalize s.context.apply sup = sup at hcalls hinstantiates
  unfold Opening.subtypeOtherwise
  by_cases hatom : sub.sameAtom sup = true
  · simp only [if_pos hatom]
    exact .const _
  simp only [if_neg hatom]
  refine Converges.orElse_retries (fun _ _ => atomic_subtypeOpeningSub (hn _ _) _ _) hs ?_
    fun s₁ hr₁ => ?_
  · cases sub with
    | forAll a body => exact .flexibly fun label => hcalls 0 0 _ _ _ (.openSub label (.refl hs))
    | _ => exact .const reject
  have hs₁ := hr₁.evolves.valid
  refine Converges.orElse_retries (fun _ _ => atomic_subtypeOpeningSup (hn _ _) _ _) hs₁ ?_
    fun s₂ hr₂ => ?_
  · cases sup with
    | forAll a body => exact .rigidly (hcalls 0 0 _ _ _ (.openSup hr₁))
    | _ => exact .const reject
  replace hr₂ := hr₁.trans hr₂
  have hs₂ := hr₂.evolves.valid
  refine Converges.orElse_retries (fun _ _ => atomic_subtypeSolvingSub (hi _ _) _ _) hs₂ ?_
    fun s₃ hr₃ => ?_
  · cases sub with
    | placeholder p => exact instantiateIfOpen_converges (hinstantiates _ _ _ _ (.sub hr₂))
    | _ => exact .const reject
  · cases sup with
    | placeholder p =>
      exact instantiateIfOpen_converges (hinstantiates _ _ _ _ (.sup (hr₂.trans hr₃)))
    | _ => exact .const reject

end Converging
end HigherRank
