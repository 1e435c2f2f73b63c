import HigherRank.Proofs.Subsumption
import HigherRank.Proofs.Termination

set_option autoImplicit false

/-!
# What a judgment comes to

A judgment comes to a run if that is its run with every number of levels from some one on. It decides if
it comes to acceptance or to rejection, so that a large enough limit is never exceeded. Comparisons of
tame types decide: their search is finite, and the one error that it could end with is that of the limit,
which is not in a run that is the same for all limits.
-/
namespace HigherRank

namespace Judgment

variable {α β : Type} {s s₁ : State}

/-- With enough levels this is the run, whatever limit is to be reported. -/
def ComesTo (x : (limit left : Nat) → Judgment α) (s : State) (run : Outcome α × State) : Prop :=
  ∃ bound, ∀ limit left, bound ≤ left → x limit left s = run

namespace ComesTo

variable {x y : (limit left : Nat) → Judgment α} {run : Outcome α × State}

theorem of_run {x : Judgment α} (h : x s = run) : ComesTo (fun _ _ => x) s run :=
  ⟨0, fun _ _ _ => h⟩

theorem exists_run (h : ComesTo x s run) : ∃ limit left, x limit left s = run := by
  obtain ⟨bound, h⟩ := h
  exact ⟨0, bound, h 0 bound (Nat.le_refl _)⟩

theorem unique {run' : Outcome α × State} (h : ComesTo x s run) (h' : ComesTo x s run') :
    run = run' := by
  obtain ⟨bound, h⟩ := h
  obtain ⟨bound', h'⟩ := h'
  rw [← h 0 (max bound bound') (Nat.le_max_left ..), h' 0 (max bound bound') (Nat.le_max_right ..)]

theorem congr (h : ∀ limit left, x limit left s = y limit left s) (hy : ComesTo y s run) :
    ComesTo x s run := by
  obtain ⟨bound, hy⟩ := hy
  exact ⟨bound, fun limit left hle => (h limit left).trans (hy limit left hle)⟩

theorem below (h : ComesTo (fun limit left => x limit (left + 1)) s run) : ComesTo x s run := by
  obtain ⟨bound, h⟩ := h
  refine ⟨bound + 1, fun limit left hle => ?_⟩
  obtain ⟨left, rfl⟩ := Nat.exists_eq_add_of_le' hle
  exact h limit (left + bound) (Nat.le_add_left ..)

theorem bind {f : (limit left : Nat) → α → Judgment β} {a : α} {run : Outcome β × State}
    (hx : ComesTo x s (.accepted a, s₁)) (hf : ComesTo (fun limit left => f limit left a) s₁ run) :
    ComesTo (fun limit left => x limit left >>= f limit left) s run := by
  obtain ⟨bound, hx⟩ := hx
  obtain ⟨bound', hf⟩ := hf
  refine ⟨max bound bound', fun limit left hle => ?_⟩
  have hrun := hx limit left (Nat.le_trans (Nat.le_max_left ..) hle)
  exact (bind_of_accepted hrun).trans (hf limit left (Nat.le_trans (Nat.le_max_right ..) hle))

theorem orElse_left {a : α} (hx : ComesTo x s (.accepted a, s₁)) :
    ComesTo (fun limit left => x limit left <|> y limit left) s (.accepted a, s₁) := by
  obtain ⟨bound, hx⟩ := hx
  exact ⟨bound, fun limit left hle => orElse_of_accepted (hx limit left hle)⟩

theorem orElse_right (hx : ComesTo x s (.rejected, s₁)) (hy : ComesTo y s₁ run) :
    ComesTo (fun limit left => x limit left <|> y limit left) s run := by
  obtain ⟨bound, hx⟩ := hx
  obtain ⟨bound', hy⟩ := hy
  refine ⟨max bound bound', fun limit left hle => ?_⟩
  have hrun := hx limit left (Nat.le_trans (Nat.le_max_left ..) hle)
  exact (orElse_of_rejected hrun).trans (hy limit left (Nat.le_trans (Nat.le_max_right ..) hle))

theorem atomically {o : Outcome α} (hx : ComesTo x s (o, s₁)) :
    ∃ s', ComesTo (fun limit left => atomically (x limit left)) s (o, s') ∧
      ∀ v, o = .accepted v → s' = s₁ := by
  obtain ⟨bound, hx⟩ := hx
  cases o with
  | accepted v =>
    exact ⟨s₁, ⟨bound, fun limit left hle => atomically_of_accepted (hx limit left hle)⟩,
      fun _ _ => rfl⟩
  | rejected =>
    exact ⟨_, ⟨bound, fun limit left hle => atomically_of_rejected (hx limit left hle)⟩, by simp⟩
  | aborted error =>
    exact ⟨_, ⟨bound, fun limit left hle => atomically_of_aborted (hx limit left hle)⟩, by simp⟩

theorem nested {o : Outcome α} (hx : ComesTo x { s with depth := s.depth + 1 } (o, s₁)) :
    ComesTo (fun limit left => nested (x limit left)) s (o, { s₁ with depth := s₁.depth - 1 }) := by
  obtain ⟨bound, hx⟩ := hx
  refine ⟨bound, fun limit left hle => ?_⟩
  simp only [Judgment.nested, hx limit left hle]

theorem scope {o : Outcome α} (he : ∀ limit left, Evolves .anything (x limit left)) (hs : s.Valid)
    (hx : ComesTo x s.openScope.2 (o, s₁)) :
    ∃ s', ComesTo (fun limit left => Judgment.atomically (inChildScope (x limit left))) s (o, s') ∧
      ∀ v, o = .accepted v →
        ∃ rest, s₁.context.splitAt? (.marker ⟨s.supply.markers⟩) = some (s'.context, rest) := by
  -- A scope has the outcome of its body. If that is accepted, the context is cut off at the marker.
  obtain ⟨bound, hx⟩ := hx
  have hbody := hx 0 bound (Nat.le_refl _)
  obtain ⟨Δ, rest, -, -, hsplit⟩ :=
    ((he 0 bound).result hs.openScope hbody).context.splitAt_marker hs.marker_fresh
  have hclosed : inChildScope (fun _ => (o, s₁)) s = (o, { s₁ with context := Δ }) := by
    change s₁.closeScope ⟨s.supply.markers⟩ o = _
    simp only [State.closeScope, hsplit]
  have hscope : ComesTo (fun limit left => inChildScope (x limit left)) s
      (o, { s₁ with context := Δ }) :=
    ⟨bound, fun limit left hle => (inChildScope_congr_run (hx limit left hle)).trans hclosed⟩
  obtain ⟨s', hatomic, hs'⟩ := hscope.atomically
  refine ⟨s', hatomic, fun v hv => ⟨rest, ?_⟩⟩
  rw [hs' v hv]
  exact hsplit

end ComesTo

/-- With enough levels the judgment is accepted in a context with the property; or, if it may be, it is
rejected. -/
def Decides (mayReject : Prop) (x : (limit left : Nat) → Judgment Unit) (s : State)
    (P : Context → Prop) : Prop :=
  ∃ o s', ComesTo x s (o, s') ∧ (o = .accepted () ∧ P s'.context ∨ mayReject ∧ o = .rejected)

namespace Decides

variable {mayReject : Prop} {x y : (limit left : Nat) → Judgment Unit} {P Q : Context → Prop}

theorem accept (hP : P s.context) : Decides mayReject (fun _ _ => accept ()) s P :=
  ⟨_, s, .of_run rfl, .inl ⟨rfl, hP⟩⟩

theorem reject : Decides True (fun _ _ => reject) s P :=
  ⟨_, s, .of_run rfl, .inr ⟨trivial, rfl⟩⟩

theorem congr (h : ∀ limit left, x limit left s = y limit left s) (hy : Decides mayReject y s P) :
    Decides mayReject x s P := by
  obtain ⟨o, s', hrun, ho⟩ := hy
  exact ⟨o, s', hrun.congr h, ho⟩

theorem below (h : Decides mayReject (fun limit left => x limit (left + 1)) s P) :
    Decides mayReject x s P := by
  obtain ⟨o, s', hrun, ho⟩ := h
  exact ⟨o, s', hrun.below, ho⟩

theorem mono (hPQ : ∀ Γ, P Γ → Q Γ) (hx : Decides mayReject x s P) : Decides mayReject x s Q := by
  obtain ⟨o, s', hrun, ho⟩ := hx
  exact ⟨o, s', hrun, ho.imp_left fun ⟨haccepted, hP⟩ => ⟨haccepted, hPQ _ hP⟩⟩

theorem read {x : Judgment α} {a : α} {f : (limit left : Nat) → α → Judgment Unit}
    (hx : x s = (.accepted a, s)) (hf : Decides mayReject (fun limit left => f limit left a) s P) :
    Decides mayReject (fun limit left => x >>= f limit left) s P :=
  hf.congr fun _ _ => bind_of_accepted hx

theorem bind {f : (limit left : Nat) → Unit → Judgment Unit} (hx : Decides mayReject x s P)
    (hf : ∀ limit left s₁, x limit left s = (.accepted (), s₁) → P s₁.context →
      Decides mayReject (fun limit left => f limit left ()) s₁ Q) :
    Decides mayReject (fun limit left => x limit left >>= f limit left) s Q := by
  obtain ⟨_, s₁, hrun, ⟨rfl, hP⟩ | ⟨hreject, rfl⟩⟩ := hx
  · obtain ⟨limit, left, haccepted⟩ := hrun.exists_run
    obtain ⟨o, s', hrun', ho⟩ := hf limit left s₁ haccepted hP
    exact ⟨o, s', hrun.bind hrun', ho⟩
  · obtain ⟨bound, hrun⟩ := hrun
    exact ⟨_, s₁, ⟨bound, fun limit left hle => bind_of_rejected (hrun limit left hle)⟩,
      .inr ⟨hreject, rfl⟩⟩

theorem atomically (hx : Decides mayReject x s P) :
    Decides mayReject (fun limit left => atomically (x limit left)) s P := by
  obtain ⟨o, s₁, hrun, ho⟩ := hx
  obtain ⟨s', hrun', hs'⟩ := hrun.atomically
  refine ⟨o, s', hrun', ho.imp_left fun ⟨haccepted, hP⟩ => ⟨haccepted, ?_⟩⟩
  rwa [hs' () haccepted]

theorem orElse_left (hx : Decides False x s P) :
    Decides mayReject (fun limit left => x limit left <|> y limit left) s P := by
  obtain ⟨_, s', hrun, ⟨rfl, hP⟩ | ⟨hfalse, -⟩⟩ := hx
  · exact ⟨_, s', hrun.orElse_left, .inl ⟨rfl, hP⟩⟩
  · exact hfalse.elim

theorem orElse {g : Growth} (ha : ∀ limit left, Atomic g (x limit left)) (hs : s.Valid)
    (hx : Decides True x s P) (hy : ∀ s₁, s.Retries s₁ → Decides mayReject y s₁ P) :
    Decides mayReject (fun limit left => x limit left <|> y limit left) s P := by
  -- An alternative that is rejected leaves no trace, and the other has its chance.
  obtain ⟨_, s₁, hrun, ⟨rfl, hP⟩ | ⟨-, rfl⟩⟩ := hx
  · exact ⟨_, s₁, hrun.orElse_left, .inl ⟨rfl, hP⟩⟩
  · obtain ⟨limit, left, hrejected⟩ := hrun.exists_run
    obtain ⟨o, s', hrun', ho⟩ := hy s₁ ((ha limit left).retries hs hrejected)
    exact ⟨o, s', hrun.orElse_right hrun', ho⟩

theorem nested (hx : Decides mayReject x { s with depth := s.depth + 1 } P) :
    Decides mayReject (fun limit left => nested (x limit left)) s P := by
  obtain ⟨o, s', hrun, ho⟩ := hx
  exact ⟨o, _, hrun.nested, ho⟩

theorem scope (he : ∀ limit left, Evolves .anything (x limit left)) (hs : s.Valid)
    (hx : Decides mayReject x s.openScope.2 P)
    (hQ : ∀ Δ rest, Entry.marker ⟨s.supply.markers⟩ ∉ Δ →
      P (Δ ++ .marker ⟨s.supply.markers⟩ :: rest) → Q Δ) :
    Decides mayReject (fun limit left => Judgment.atomically (inChildScope (x limit left))) s Q := by
  obtain ⟨o, s₁, hrun, ho⟩ := hx
  obtain ⟨s', hrun', hsplit⟩ := hrun.scope he hs
  refine ⟨o, s', hrun', ho.imp_left fun ⟨haccepted, hP⟩ => ⟨haccepted, ?_⟩⟩
  obtain ⟨rest, hsplit⟩ := hsplit _ haccepted
  obtain ⟨hs₁, hmarker⟩ := Context.eq_append_of_splitAt? hsplit
  exact hQ _ rest hmarker (hs₁ ▸ hP)

theorem rigidly {g : Growth} {a : TypeId} (he : ∀ limit left, Evolves g (x limit left)) (hs : s.Valid)
    (hx : Decides mayReject x (s.scopeWith (.var a)) P)
    (hQ : ∀ Δ rest, Entry.marker ⟨s.supply.markers⟩ ∉ Δ →
      P (Δ ++ .marker ⟨s.supply.markers⟩ :: rest) → Q Δ) :
    Decides mayReject (fun limit left => rigidly a (x limit left)) s Q :=
  scope (x := fun limit left => declare a >>= fun _ => x limit left)
    (fun limit left => (evolves_declare a).bind fun _ => (he limit left).anything) hs hx hQ

theorem flexibly {a : TypeId} {ty : Ty} {f : (limit left : Nat) → Ty → Judgment Unit}
    (he : ∀ limit left ty, Evolves .placeholders (f limit left ty)) (hs : s.Valid)
    (hx : ∀ label, Decides mayReject
      (fun limit left => f limit left (ty.subst a (.placeholder ⟨s.supply.types.size⟩)))
      (s.scopeWithNew label) P)
    (hQ : ∀ Δ rest, Entry.marker ⟨s.supply.markers⟩ ∉ Δ →
      P (Δ ++ .marker ⟨s.supply.markers⟩ :: rest) → Q Δ) :
    Decides mayReject (fun limit left => flexibly a ty (f limit left)) s Q :=
  scope (x := fun limit left => introducing a ty (f limit left))
    (fun limit left => (evolves_introducing a ty (he limit left)).anything) hs (hx _) hQ

end Decides
end Judgment

open Judgment
open Opening (own)

theorem subtype_decides_of_step {mayReject : Prop} {sub sup : Ty} {s : State} {P : Context → Prop}
    (h : Decides mayReject (fun limit left =>
      own.subtypeStep (own.subtype limit left) (own.instantiate limit left) sub sup) { s with depth := s.depth + 1 } P) :
    Decides mayReject (fun limit left => own.subtype limit left sub sup) s P :=
  .below (.nested h)

/-- Where one of the types has a quantifier in front, the rules that open one are tried first. -/
theorem subtypeStep_quantified {next : Ty → Ty → Judgment Unit}
    {instantiate : Variance → TypeId → Ty → Judgment Unit} {sub sup body : Ty} {a : TypeId} {s : State}
    (h : s.context.apply sub = .forAll a body ∨ s.context.apply sup = .forAll a body) :
    own.subtypeStep next instantiate sub sup s =
      (subtypeOpeningSub next (s.context.apply sub) (s.context.apply sup) <|>
        own.subtypeOpeningSup next (s.context.apply sub) (s.context.apply sup) <|>
        subtypeSolvingSub instantiate (s.context.apply sub) (s.context.apply sup) <|>
        subtypeSolvingSup instantiate (s.context.apply sub) (s.context.apply sup)) s := by
  have hatom : ¬ (s.context.apply sub).sameAtom (s.context.apply sup) = true := fun hatom => by
    obtain ⟨heq, hqf⟩ := Ty.eq_of_sameAtom hatom
    rcases h with h | h
    · rw [h] at hqf
      cases hqf
    · rw [heq, h] at hqf
      cases hqf
  rw [subtypeStep_otherwise, Opening.subtypeOtherwise, if_neg hatom]
  intro τ υ τ' υ' hsub hsup
  rcases h with h | h
  · cases hsub.symm.trans h
  · cases hsup.symm.trans h

/-- Comparisons of tame types decide. -/
theorem Comparison.decides {s : State} {sub sup : Ty} (h : Comparison s sub sup)
    (htame : (s.context.apply sub).Tame (s.context.apply sup)) :
    Decides True (fun limit left => own.subtype limit left sub sup) s fun _ => True := by
  obtain ⟨⟨o, s'⟩, bound, hrun⟩ := Predicative.subtype_converges h
  have hruns : ∀ limit left, bound ≤ left → FollowsRun (· = Halt.stopped) (fun _ => False) (o, s')
      (own.subtype limit left sub sup s) := by
    intro limit left hle
    rw [← hrun limit left hle]
    exact Predicative.subtype_runsAs limit left sub sup s h.valid
  cases o with
  | accepted value =>
    refine ⟨.accepted value, s', ⟨bound, fun limit left hle => ?_⟩, .inl ⟨rfl, trivial⟩⟩
    exact (hruns limit left hle).eq_accepted
  | rejected =>
    refine ⟨.rejected, s', ⟨bound, fun limit left hle => ?_⟩, .inr ⟨trivial, rfl⟩⟩
    exact (hruns limit left hle).eq_rejected
  | aborted error =>
    have hlimit : ∀ limit, error = .failed (.depthLimitExceeded limit) := fun limit =>
      (Predicative.subtype_raises limit bound h error s'
        (hrun limit bound (Nat.le_refl _))).resolve_right fun hwild => hwild.1 htame
    cases (hlimit 0).symm.trans (hlimit 1)

end HigherRank
