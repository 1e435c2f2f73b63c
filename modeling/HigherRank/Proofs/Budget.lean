import HigherRank.Proofs.Preservation

set_option autoImplicit false

/-!
# The budget changes no answer

A judgment that gives up early is compared with one that does not. Where it does not give up, the two
runs are the same, state and all. Nothing is tried after an error and the marker of a scope survives an
aborted body, so that giving up is always seen from outside. Running out of levels is one way to give
up; `kind` tells the errors of giving up from all others.
-/
namespace HigherRank

/-- The outcome of a judgment that ran out of levels. -/
def Outcome.Exceeded {ε α : Type} [SearchError ε] (o : Outcome α ε) : Prop :=
  ∃ limit, o = .aborted (report (.depthLimitExceeded limit))

/-- The first run gave up, or the two are the same and end with no error of the kind. -/
inductive FollowsRun {ε α : Type} [SearchError ε] (gaveUp : ε → Prop) (kind : TypeError → Prop) :
    Outcome α ε × State → Outcome α × State → Prop where
  | gaveUp {error : ε} {s : State} {r : Outcome α × State} : gaveUp error →
      FollowsRun gaveUp kind (.aborted error, s) r
  | accepted {a : α} {s : State} : FollowsRun gaveUp kind (.accepted a, s) (.accepted a, s)
  | rejected {s : State} : FollowsRun gaveUp kind (.rejected, s) (.rejected, s)
  | aborted {error : TypeError} {s : State} : ¬ kind error →
      FollowsRun gaveUp kind (.aborted (report error), s) (.aborted error, s)

namespace FollowsRun

variable {ε α : Type} [SearchError ε] {gaveUp : ε → Prop} {kind : TypeError → Prop} {a : α}
  {s : State} {r : Outcome α ε × State} {r' : Outcome α × State}

theorem eq_accepted (h : FollowsRun gaveUp kind (.accepted a, s) r') : r' = (.accepted a, s) := by
  cases h
  rfl

theorem eq_rejected (h : FollowsRun gaveUp kind (.rejected, s) r') : r' = (.rejected, s) := by
  cases h
  rfl

theorem eq_widen (h : FollowsRun gaveUp kind r r')
    (hr : ∀ error, gaveUp error → r.1 ≠ .aborted error) : r = (r'.1.widen, r'.2) := by
  cases h with
  | gaveUp he => exact absurd rfl (hr _ he)
  | accepted => rfl
  | rejected => rfl
  | aborted _ => rfl

end FollowsRun

namespace Judgment

variable {ε α β : Type} [SearchError ε] {gaveUp : ε → Prop} {kind : TypeError → Prop} {g : Growth}

/-- From a valid state the search runs as the judgment, unless it gives up. -/
def Follows (gaveUp : ε → Prop) (kind : TypeError → Prop) (x : Search ε α) (y : Judgment α) :
    Prop :=
  ∀ s : State, s.Valid → FollowsRun gaveUp kind (x s) (y s)

theorem follows_widen {y : Judgment α}
    (h : ∀ s s' error, y s = (.aborted error, s') → ¬ kind error) :
    Follows gaveUp kind (widen y) y := by
  intro s _
  rcases hr : y s with ⟨a | _ | error, s'⟩ <;> rw [widen, hr]
  · exact .accepted
  · exact .rejected
  · exact .aborted (h s s' error hr)

theorem follows_accept (a : α) : Follows gaveUp kind (accept a) (accept a) := fun _ _ => .accepted

theorem follows_reject : Follows gaveUp kind (reject : Search ε α) reject := fun _ _ => .rejected

theorem follows_resolve (ty : Ty) : Follows gaveUp kind (resolve ty) (resolve ty) :=
  fun _ _ => .accepted

theorem follows_introduce (label : String) : Follows gaveUp kind (introduce label)
    (introduce label) :=
  fun _ _ => .accepted

theorem follows_lookup (x : BindingId) : Follows gaveUp kind (lookup x) (lookup x) := by
  rw [← widen_lookup]
  refine follows_widen fun s s' error h => ?_
  rw [lookup] at h
  split at h <;> cases h

theorem Follows.bind {x : Search ε α} {y : Judgment α} {f : α → Search ε β} {f' : α → Judgment β}
    (hx : Follows gaveUp kind x y)
    (hy : Evolves g y) (hf : ∀ a, Follows gaveUp kind (f a) (f' a)) :
    Follows gaveUp kind (x >>= f) (y >>= f') := by
  intro s hs
  have h := hx s hs
  generalize hr : x s = r at h
  generalize hr' : y s = r' at h
  cases h with
  | gaveUp he =>
    rw [bind_of_aborted hr]
    exact .gaveUp he
  | accepted =>
    rw [bind_of_accepted hr, bind_of_accepted hr']
    exact hf _ _ (hy.result hs hr').valid
  | rejected =>
    rw [bind_of_rejected hr, bind_of_rejected hr']
    exact .rejected
  | aborted he =>
    rw [bind_of_aborted hr, bind_of_aborted hr']
    exact .aborted he

theorem Follows.orElse {x y : Search ε α} {x' y' : Judgment α} (hx : Follows gaveUp kind x x')
    (hx' : Evolves g x') (hy : Follows gaveUp kind y y') :
    Follows gaveUp kind (x <|> y) (x' <|> y') := by
  intro s hs
  have h := hx s hs
  generalize hr : x s = r at h
  generalize hr' : x' s = r' at h
  cases h with
  | gaveUp he =>
    rw [orElse_of_aborted hr]
    exact .gaveUp he
  | accepted =>
    rw [orElse_of_accepted hr, orElse_of_accepted hr']
    exact .accepted
  | rejected =>
    rw [orElse_of_rejected hr, orElse_of_rejected hr']
    exact hy _ (hx'.result hs hr').valid
  | aborted he =>
    rw [orElse_of_aborted hr, orElse_of_aborted hr']
    exact .aborted he

theorem Follows.atomically {x : Search ε α} {y : Judgment α} (h : Follows gaveUp kind x y) :
    Follows gaveUp kind (atomically x) (atomically y) := by
  intro s hs
  have h := h s hs
  generalize hr : x s = r at h
  generalize hr' : y s = r' at h
  cases h with
  | gaveUp he =>
    rw [atomically_of_aborted hr]
    exact .gaveUp he
  | accepted =>
    rw [atomically_of_accepted hr, atomically_of_accepted hr']
    exact .accepted
  | rejected =>
    rw [atomically_of_rejected hr, atomically_of_rejected hr']
    exact .rejected
  | aborted he =>
    rw [atomically_of_aborted hr, atomically_of_aborted hr']
    exact .aborted he

theorem Follows.nested {x : Search ε α} {y : Judgment α} (h : Follows gaveUp kind x y) :
    Follows gaveUp kind (nested x) (nested y) := by
  intro s hs
  have h := h { s with depth := s.depth + 1 } (hs.withDepth _)
  simp only [Judgment.nested]
  generalize x { s with depth := s.depth + 1 } = r at h ⊢
  generalize y { s with depth := s.depth + 1 } = r' at h ⊢
  cases h with
  | gaveUp he => exact .gaveUp he
  | accepted => exact .accepted
  | rejected => exact .rejected
  | aborted he => exact .aborted he

theorem Follows.inChildScope {x : Search ε α} {y : Judgment α} (h : Follows gaveUp kind x y)
    (hx : Evolves .anything x) : Follows gaveUp kind (inChildScope x) (inChildScope y) := by
  -- An error of the body would be hidden by a missing marker, but the marker is there.
  intro s hs
  have h := h s.openScope.2 hs.openScope
  rcases hr : x s.openScope.2 with ⟨o, s'⟩
  obtain ⟨Δ, rest, -, -, hsplit⟩ :=
    (hx.result hs.openScope hr).context.splitAt_marker hs.marker_fresh
  rw [inChildScope_of_split hr hsplit]
  rw [hr] at h
  generalize hr' : y s.openScope.2 = r' at h
  cases h with
  | gaveUp he => exact .gaveUp he
  | accepted =>
    rw [inChildScope_of_split hr' hsplit]
    exact .accepted
  | rejected =>
    rw [inChildScope_of_split hr' hsplit]
    exact .rejected
  | aborted he =>
    rw [inChildScope_of_split hr' hsplit]
    exact .aborted he

theorem Follows.rigidly {x : Search ε α} {y : Judgment α} (h : Follows gaveUp kind x y)
    (hx : Evolves g x) (a : TypeId) : Follows gaveUp kind (rigidly a x) (rigidly a y) := by
  have hdeclare : Follows gaveUp kind (declare a) (declare a) := fun _ _ => .accepted
  refine ((hdeclare.bind (evolves_declare a) fun _ => h).inChildScope ?_).atomically
  exact (evolves_declare a).bind fun _ => hx.anything

theorem Follows.assuming {x : Search ε α} {y : Judgment α} (h : Follows gaveUp kind x y)
    (hx : Evolves g x) (b : BindingId) (ty : Ty) :
    Follows gaveUp kind (Judgment.inChildScope (assume b ty >>= fun _ => x))
      (Judgment.inChildScope (assume b ty >>= fun _ => y)) := by
  have hassume : Follows gaveUp kind (assume b ty) (assume b ty) := fun _ _ => .accepted
  have hevolves : Evolves .anything (assume b ty : Search ε Unit) := evolves_push rfl (by simp)
  exact (hassume.bind (evolves_push rfl (by simp)) fun _ => h).inChildScope
    (hevolves.bind fun _ => hx.anything)

section Introducing

variable {f : Ty → Search ε α} {f' : Ty → Judgment α} (h : ∀ ty, Follows gaveUp kind (f ty) (f' ty))
include h

theorem follows_introducing (a : TypeId) (ty : Ty) :
    Follows gaveUp kind (introducing a ty f) (introducing a ty f') :=
  Follows.bind (g := .placeholders) (fun _ _ => .accepted) (reads_typeLabel a).evolves fun label =>
    (follows_introduce label).bind (evolves_introduce label) fun _ => h _

theorem follows_flexibly (hf : ∀ ty, Evolves .placeholders (f ty)) (a : TypeId) (ty : Ty) :
    Follows gaveUp kind (flexibly a ty f) (flexibly a ty f') :=
  ((follows_introducing h a ty).inChildScope (evolves_introducing a ty hf).anything).atomically

end Introducing

section Filling

variable (hkind : ∀ p, ¬ kind (.missingPlaceholder p))
include hkind

theorem follows_articulate (p : TypeId) :
    Follows gaveUp kind (articulate p) (articulate p) := by
  rw [← widen_articulate]
  refine follows_widen fun s s' error h => ?_
  rw [(articulate_aborted h).2]
  exact hkind p

theorem follows_instantiateMonotype (p : TypeId) (ty : Ty) :
    Follows gaveUp kind (instantiateMonotype p ty) (instantiateMonotype p ty) := by
  rw [← widen_instantiateMonotype]
  refine follows_widen fun s s' error h => ?_
  rw [(instantiateMonotype_aborted h).2]
  exact hkind p

end Filling
end Judgment

open Judgment
open Opening (own)

section Types

variable {ε : Type} [SearchError ε] {gaveUp : ε → Prop} {kind : TypeError → Prop}
  (hkind : ∀ p, ¬ kind (.missingPlaceholder p))
include hkind

theorem follows_instantiateStep {next : Variance → TypeId → Ty → Search ε Unit}
    {next' : Variance → TypeId → Ty → Judgment Unit}
    (hn : ∀ v p ty, Atomic .nothing (next v p ty))
    (hn' : ∀ v p ty, Atomic .nothing (next' v p ty))
    (h : ∀ v p ty, Follows gaveUp kind (next v p ty) (next' v p ty)) (v : Variance) (p : TypeId)
    (ty : Ty) :
    Follows gaveUp kind (own.instantiateStep next v p ty) (own.instantiateStep next' v p ty) := by
  refine (follows_resolve ty).bind (g := .nothing) (reads_resolve ty).evolves fun ty => ?_
  split
  · exact follows_accept ()
  split
  · exact follows_reject
  refine (follows_instantiateMonotype hkind p ty).orElse
    (atomic_instantiateMonotype p ty).evolves ?_
  split
  · refine Follows.atomically ((follows_articulate hkind p).bind (atomic_articulate p).evolves
      fun _ => (h _ _ _).bind (hn' _ _ _).evolves fun _ => ?_)
    exact (follows_resolve _).bind (g := .nothing) (reads_resolve _).evolves fun _ => h _ _ _
  · exact (h _ _ _).rigidly (hn _ _ _).evolves _
  · exact follows_flexibly (fun _ => h _ _ _) (fun _ => (hn _ _ _).of_nothing.evolves) _ _
  · exact follows_reject

end Types

section Subtyping

variable {ε : Type} [SearchError ε] {gaveUp : ε → Prop} {kind : TypeError → Prop}
  {next : Ty → Ty → Search ε Unit} {next' : Ty → Ty → Judgment Unit}
  {instantiate : Variance → TypeId → Ty → Search ε Unit}
  {instantiate' : Variance → TypeId → Ty → Judgment Unit}
  (hn : ∀ sub sup, Atomic .nothing (next sub sup))
  (hn' : ∀ sub sup, Atomic .nothing (next' sub sup))
  (hi' : ∀ v p ty, Atomic .nothing (instantiate' v p ty))
  (h : ∀ sub sup, Follows gaveUp kind (next sub sup) (next' sub sup))
  (hinst : ∀ v p ty, Follows gaveUp kind (instantiate v p ty) (instantiate' v p ty))

theorem follows_instantiateIfOpen {instantiate : TypeId → Ty → Search ε Unit}
    {instantiate' : TypeId → Ty → Judgment Unit}
    (h : ∀ p ty, Follows gaveUp kind (instantiate p ty) (instantiate' p ty)) (p : TypeId)
    (other : Ty) :
    Follows gaveUp kind (instantiateIfOpen instantiate p other)
      (instantiateIfOpen instantiate' p other) := by
  refine Follows.bind (g := .nothing) (fun _ _ => .accepted) (reads_isUnsolved p).evolves
    fun b => ?_
  split
  · exact h p other
  · exact follows_reject

include hn h in
theorem follows_subtypeOpeningSub (sub sup : Ty) :
    Follows gaveUp kind (subtypeOpeningSub next sub sup) (subtypeOpeningSub next' sub sup) := by
  unfold subtypeOpeningSub
  split
  · exact follows_flexibly (fun _ => h _ _) (fun _ => (hn _ _).of_nothing.evolves) _ _
  · exact follows_reject

include hn h in
theorem follows_subtypeOpeningSup (sub sup : Ty) :
    Follows gaveUp kind (own.subtypeOpeningSup next sub sup)
      (own.subtypeOpeningSup next' sub sup) := by
  unfold Opening.subtypeOpeningSup
  split
  · exact (h _ _).rigidly (hn _ _).evolves _
  · exact follows_reject

include hinst in
theorem follows_subtypeSolvingSub (sub sup : Ty) :
    Follows gaveUp kind (subtypeSolvingSub instantiate sub sup)
      (subtypeSolvingSub instantiate' sub sup) := by
  unfold subtypeSolvingSub
  split
  · exact follows_instantiateIfOpen (hinst _) _ _
  · exact follows_reject

include hinst in
theorem follows_subtypeSolvingSup (sub sup : Ty) :
    Follows gaveUp kind (subtypeSolvingSup instantiate sub sup)
      (subtypeSolvingSup instantiate' sub sup) := by
  unfold subtypeSolvingSup
  split
  · exact follows_instantiateIfOpen (hinst _) _ _
  · exact follows_reject

include hn hn' hi' h hinst in
theorem follows_subtypeStep (sub sup : Ty) :
    Follows gaveUp kind (own.subtypeStep next instantiate sub sup)
      (own.subtypeStep next' instantiate' sub sup) := by
  refine (follows_resolve sub).bind (g := .nothing) (reads_resolve sub).evolves fun sub => ?_
  refine (follows_resolve sup).bind (g := .nothing) (reads_resolve sup).evolves fun sup => ?_
  split
  · exact Follows.atomically ((h _ _).bind (hn' _ _).evolves fun _ => h _ _)
  unfold Opening.subtypeOtherwise
  split
  · exact follows_accept ()
  refine (follows_subtypeOpeningSub hn h _ _).orElse (atomic_subtypeOpeningSub hn' _ _).evolves ?_
  refine (follows_subtypeOpeningSup hn h _ _).orElse (atomic_subtypeOpeningSup hn' _ _).evolves ?_
  exact (follows_subtypeSolvingSub hinst _ _).orElse (atomic_subtypeSolvingSub hi' _ _).evolves
    (follows_subtypeSolvingSup hinst _ _)

end Subtyping

section Typing

variable {ε : Type} [SearchError ε] {gaveUp : ε → Prop} {kind : TypeError → Prop}
  {check : Term → Ty → Search ε Unit} {check' : Term → Ty → Judgment Unit}
  {synthesize : Term → Search ε Ty} {synthesize' : Term → Judgment Ty}
  {synthesizeApplication : Ty → Term → Search ε Ty}
  {synthesizeApplication' : Ty → Term → Judgment Ty}
  {subtype : Ty → Ty → Search ε Unit} {subtype' : Ty → Ty → Judgment Unit}
  (hc : ∀ term ty, Atomic .placeholders (check term ty))
  (hc' : ∀ term ty, Atomic .placeholders (check' term ty))
  (hs' : ∀ term, Atomic .placeholders (synthesize' term))
  (hcheck : ∀ term ty, Follows gaveUp kind (check term ty) (check' term ty))
  (hsynth : ∀ term, Follows gaveUp kind (synthesize term) (synthesize' term))
  (happly : ∀ ty term, Follows gaveUp kind (synthesizeApplication ty term)
    (synthesizeApplication' ty term))
  (hsub : ∀ sub sup, Follows gaveUp kind (subtype sub sup) (subtype' sub sup))

include hc hcheck in
theorem follows_checkForAll (term : Term) (ty : Ty) :
    Follows gaveUp kind (own.checkForAll check term ty) (own.checkForAll check' term ty) := by
  unfold Opening.checkForAll
  split
  · exact (hcheck _ _).rigidly (hc _ _).evolves _
  · exact follows_reject

include hc hcheck in
theorem follows_checkLambda (term : Term) (ty : Ty) :
    Follows gaveUp kind (checkLambda check term ty) (checkLambda check' term ty) := by
  unfold checkLambda
  split
  · exact ((hcheck _ _).assuming (hc _ _).evolves _ _).atomically
  · exact follows_reject

include hs' hsynth hsub in
theorem follows_checkBySynthesis (term : Term) (ty : Ty) :
    Follows gaveUp kind (own.checkBySynthesis synthesize subtype term ty)
      (own.checkBySynthesis synthesize' subtype' term ty) := by
  refine Follows.atomically ((hsynth term).bind (hs' term).evolves fun found => ?_)
  refine (follows_resolve found).bind (g := .nothing) (reads_resolve found).evolves
    fun found => ?_
  exact (follows_resolve ty).bind (g := .nothing) (reads_resolve ty).evolves
    fun expected => hsub found expected

include hc hc' hs' hcheck hsynth hsub in
theorem follows_checkStep (term : Term) (ty : Ty) :
    Follows gaveUp kind (own.checkStep check synthesize subtype term ty)
      (own.checkStep check' synthesize' subtype' term ty) := by
  unfold Opening.checkStep
  split
  · exact follows_accept ()
  refine (follows_checkForAll hc hcheck _ _).orElse (atomic_checkForAll hc' _ _).evolves ?_
  exact (follows_checkLambda hc hcheck _ _).orElse (atomic_checkLambda hc' _ _).evolves
    (follows_checkBySynthesis hs' hsynth hsub _ _)

include hc hc' hcheck in
theorem follows_synthesizeLambda (x : BindingId) (body : Term) :
    Follows gaveUp kind (synthesizeLambda check x body) (synthesizeLambda check' x body) := by
  refine Follows.atomically (Follows.bind (g := .nothing) (fun _ _ => .accepted)
    (reads_bindingLabel x).evolves fun label => ?_)
  refine (follows_introduce label).bind (evolves_introduce label) fun parameter => ?_
  refine (follows_introduce _).bind (evolves_introduce _) fun result => ?_
  exact ((hcheck body _).assuming (hc body _).evolves x _).bind
    ((hc' body _).evolves.assuming x _) fun _ => follows_accept _

include hc' hcheck in
theorem follows_synthesizeAnnotated (hmismatch : ∀ term ty, ¬ kind (.annotationMismatch term ty))
    (hillFormed : ∀ ty, ¬ kind (.annotationIllFormed ty)) (term : Term) (ty : Ty) :
    Follows gaveUp kind (synthesizeAnnotated check term ty)
      (synthesizeAnnotated check' term ty) := by
  refine Follows.bind (g := .nothing) (fun _ _ => .accepted) (reads_isWellFormed ty).evolves
    fun b => ?_
  split
  · have hcase : Follows gaveUp kind (check term ty <|> abort (.annotationMismatch term ty))
        (check' term ty <|> abort (.annotationMismatch term ty)) :=
      (hcheck term ty).orElse (hc' term ty).evolves fun _ _ => .aborted (hmismatch term ty)
    exact hcase.bind ((hc' term ty).orElse (atomic_abort _)).evolves fun _ => follows_accept _
  · exact fun _ _ => .aborted (hillFormed ty)

include hc hc' hs' hcheck hsynth happly in
theorem follows_synthesizeStep (hmismatch : ∀ term ty, ¬ kind (.annotationMismatch term ty))
    (hillFormed : ∀ ty, ¬ kind (.annotationIllFormed ty)) (term : Term) :
    Follows gaveUp kind (own.synthesizeStep check synthesize synthesizeApplication term)
      (own.synthesizeStep check' synthesize' synthesizeApplication' term) := by
  cases term with
  | unit => exact follows_accept _
  | ref x => exact follows_lookup x
  | lam x body => exact follows_synthesizeLambda hc hc' hcheck x body
  | app function argument =>
    refine Follows.atomically ((hsynth function).bind (hs' function).evolves fun functionType => ?_)
    exact (follows_resolve functionType).bind (g := .nothing)
      (reads_resolve functionType).evolves fun _ => happly _ _
  | ann term ty => exact follows_synthesizeAnnotated hc' hcheck hmismatch hillFormed term ty

include hc' hcheck happly in
theorem follows_synthesizeApplicationStep (hkind : ∀ p, ¬ kind (.missingPlaceholder p))
    (functionType : Ty) (argument : Term) :
    Follows gaveUp kind
      (synthesizeApplicationStep check synthesizeApplication functionType argument)
      (synthesizeApplicationStep check' synthesizeApplication' functionType argument) := by
  cases functionType with
  | void => exact follows_reject
  | var a => exact follows_reject
  | placeholder p =>
    refine Follows.atomically
      ((follows_articulate hkind p).bind (atomic_articulate p).evolves fun _ => ?_)
    exact (hcheck _ _).bind (hc' _ _).evolves fun _ => follows_accept _
  | forAll a body => exact (follows_introducing (fun _ => happly _ _) a body).atomically
  | arrow parameter result =>
    exact (hcheck argument parameter).bind (hc' argument parameter).evolves fun _ =>
      follows_accept _

end Typing

section Limits

variable {n m left left' : Nat}

/-- The judgment with fewer levels ends as the other, or by its own limit. -/
abbrev WithinLimit {α : Type} (n : Nat) (x y : Judgment α) : Prop :=
  Follows (fun error => error = .depthLimitExceeded n)
    (fun error => ∃ limit, error = .depthLimitExceeded limit) x y

theorem withinLimit_instantiate (h : left ≤ left') (v : Variance) (p : TypeId) (ty : Ty) :
    WithinLimit n (own.instantiate n left v p ty) (own.instantiate m left' v p ty) := by
  induction left generalizing left' v p ty with
  | zero => exact fun _ _ => .gaveUp rfl
  | succ left ih =>
    obtain ⟨left', rfl⟩ := Nat.exists_eq_succ_of_ne_zero (Nat.ne_zero_of_lt h)
    exact (follows_instantiateStep (by simp) (atomic_instantiate n left)
      (atomic_instantiate m left') (fun v p ty => ih (by omega) v p ty) v p ty).nested

theorem withinLimit_subtype (h : left ≤ left') (sub sup : Ty) :
    WithinLimit n (own.subtype n left sub sup) (own.subtype m left' sub sup) := by
  induction left generalizing left' sub sup with
  | zero => exact fun _ _ => .gaveUp rfl
  | succ left ih =>
    obtain ⟨left', rfl⟩ := Nat.exists_eq_succ_of_ne_zero (Nat.ne_zero_of_lt h)
    exact (follows_subtypeStep (atomic_subtype n left) (atomic_subtype m left')
      (atomic_instantiate m left') (fun sub sup => ih (by omega) sub sup)
      (fun v p ty => withinLimit_instantiate (by omega) v p ty) sub sup).nested

theorem withinLimit_typing (h : left ≤ left') :
    (∀ term ty, WithinLimit n (own.check n left term ty) (own.check m left' term ty)) ∧
    (∀ term, WithinLimit n (own.synthesize n left term) (own.synthesize m left' term)) ∧
    ∀ ty term, WithinLimit n (own.synthesizeApplication n left ty term)
      (own.synthesizeApplication m left' ty term) := by
  induction left generalizing left' with
  | zero =>
    refine ⟨fun term ty => ?_, fun term => ?_, fun ty term => ?_⟩
    · rw [Opening.check]
      exact fun _ _ => .gaveUp rfl
    · rw [Opening.synthesize]
      exact fun _ _ => .gaveUp rfl
    · rw [Opening.synthesizeApplication]
      exact fun _ _ => .gaveUp rfl
  | succ left ih =>
    obtain ⟨left', rfl⟩ := Nat.exists_eq_succ_of_ne_zero (Nat.ne_zero_of_lt h)
    have hle : left ≤ left' := by omega
    obtain ⟨hcheck, hsynth, happly⟩ := ih hle
    obtain ⟨hc, -, -⟩ := atomic_typing n left
    obtain ⟨hc', hs', -⟩ := atomic_typing m left'
    refine ⟨fun term ty => ?_, fun term => ?_, fun ty term => ?_⟩
    · rw [Opening.check, Opening.check]
      exact (follows_checkStep hc hc' hs' hcheck hsynth
        (withinLimit_subtype hle) term ty).nested
    · rw [Opening.synthesize, Opening.synthesize]
      exact (follows_synthesizeStep hc hc' hs' hcheck hsynth happly (by simp) (by simp)
        term).nested
    · rw [Opening.synthesizeApplication, Opening.synthesizeApplication]
      exact (follows_synthesizeApplicationStep hc' hcheck happly (by simp) ty term).nested

theorem outcome_withinLimit {α : Type} {x y : Judgment α} {s : State} (h : WithinLimit n x y)
    (hs : s.Valid) : (x s).1 = .aborted (.depthLimitExceeded n) ∨ (y s).1 = (x s).1 := by
  have hrun := h s hs
  generalize x s = r at hrun ⊢
  generalize y s = r' at hrun ⊢
  cases hrun with
  | gaveUp he => exact .inl (congrArg Outcome.aborted he)
  | accepted => exact .inr rfl
  | rejected => exact .inr rfl
  | aborted _ => exact .inr rfl

theorem synthesize_level (limit left : Nat) (term : Term) {s : State} (hs : s.Valid) :
    (own.synthesize limit left term s).1 = .aborted (.depthLimitExceeded limit) ∨
      (own.synthesize limit (left + 1) term s).1 = (own.synthesize limit left term s).1 :=
  outcome_withinLimit ((withinLimit_typing (Nat.le_succ left)).2.1 term) hs

end Limits

/-- A checker that allows so many levels. -/
def Checker.upTo (limit : Nat) : Checker := { limits := { maxDepth := limit } }

theorem Query.withinLimit (q : Query) {n m : Nat} (h : n ≤ m) :
    WithinLimit n (q.run (.upTo n)) (q.run (.upTo m)) := by
  intro s hs
  have hleft : n - s.depth ≤ m - s.depth := Nat.sub_le_sub_right h s.depth
  cases q with
  | check term ty => exact (withinLimit_typing hleft).1 term ty s hs
  | synthesize term => exact (withinLimit_typing hleft).2.1 term s hs
  | synthesizeApplication ty term => exact (withinLimit_typing hleft).2.2 ty term s hs
  | subtype sub sup => exact withinLimit_subtype hleft sub sup s hs
  | instantiate v p ty => exact withinLimit_instantiate hleft v p ty s hs

/-- A larger limit gives the same answer and leaves the same state, if the smaller one was enough. So
what is not decided within a limit is not decided within a smaller one. -/
theorem run_of_larger_limit (q : Query) (s : State) (hs : s.Valid) (n m : Nat) (h : n ≤ m) :
    (¬ (q.run (.upTo n) s).1.Exceeded → q.run (.upTo m) s = q.run (.upTo n) s) ∧
    ((q.run (.upTo m) s).1 = .aborted (.depthLimitExceeded m) →
      (q.run (.upTo n) s).1 = .aborted (.depthLimitExceeded n)) := by
  have hrun := q.withinLimit h s hs
  generalize q.run (.upTo n) s = r at hrun ⊢
  generalize q.run (.upTo m) s = r' at hrun ⊢
  cases hrun with
  | gaveUp he =>
    subst he
    exact ⟨fun hne => absurd ⟨n, rfl⟩ hne, fun _ => rfl⟩
  | accepted => exact ⟨fun _ => rfl, fun he => by cases he⟩
  | rejected => exact ⟨fun _ => rfl, fun he => by cases he⟩
  | aborted hne =>
    refine ⟨fun _ => rfl, fun he => ?_⟩
    cases he
    exact absurd ⟨m, rfl⟩ hne

theorem crossing_larger_limit :
    let q : Query := .subtype (.placeholder ⟨0⟩) (.arrow (.placeholder ⟨1⟩) .void)
    crossing.Valid ∧
    ((q.run (.upTo 3) crossing).1 = .accepted () ∧
      q.run (.upTo 4096) crossing = q.run (.upTo 3) crossing) ∧
    (q.run (.upTo 2) crossing).1 = .aborted (.depthLimitExceeded 2) ∧
      (q.run (.upTo 1) crossing).1 = .aborted (.depthLimitExceeded 1) := by
  intro q
  have haccepted : (q.run (.upTo 3) crossing).1 = .accepted () := by rfl
  have hexceeded : (q.run (.upTo 2) crossing).1 = .aborted (.depthLimitExceeded 2) := by rfl
  refine ⟨crossing_valid, ⟨haccepted, ?_⟩, hexceeded, ?_⟩
  · refine (run_of_larger_limit q crossing crossing_valid 3 4096 (by decide)).1 ?_
    rintro ⟨limit, hlimit⟩
    rw [haccepted] at hlimit
    cases hlimit
  · exact (run_of_larger_limit q crossing crossing_valid 1 2 (by decide)).2 hexceeded

end HigherRank
