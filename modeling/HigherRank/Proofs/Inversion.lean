import HigherRank.Proofs.Preservation

set_option autoImplicit false

/-!
# What an accepted judgment rests on

One level of a judgment, read backwards: by which rule it was accepted, in which state the rule was
tried, and which judgments of the next level were accepted for it. Rules that were tried before in
vain have left the context alone.
-/
namespace HigherRank

namespace Context

def childScope (Γ : Context) (m : Marker) (e : Entry) : Context := Γ ++ [.marker m] ++ [e]

variable {Γ : Context} {m : Marker} {e : Entry}

theorem mem_childScope {e' : Entry} : e' ∈ Γ.childScope m e ↔ e' ∈ Γ ∨ e' = .marker m ∨ e' = e := by
  simp [childScope]

theorem rigid_childScope : (Γ.childScope m e).rigid = Γ.rigid ++ e.rigid?.toList := by
  cases e <;> simp [childScope, List.filterMap_cons, Entry.rigid?]

theorem not_mem_rigid_childScope {a b : TypeId} (hb : b ∉ Γ.rigid) (hne : b ≠ a) :
    b ∉ (Γ.childScope m (.var a)).rigid := by
  rw [rigid_childScope, List.mem_append]
  exact fun h => h.elim hb fun h => hne (List.mem_singleton.1 h)

theorem placeholders_childScope :
    (Γ.childScope m e).placeholders = Γ.placeholders ++ e.placeholder?.toList := by
  cases e <;> simp [childScope, List.filterMap_cons, Entry.placeholder?]

theorem wellFormed_childScope {ty : Ty} (h : Γ.wellFormed ty = true) :
    (Γ.childScope m e).wellFormed ty = true :=
  wellFormed_append _ (wellFormed_append _ h)

end Context

namespace State

/-- The state in which the body of a child scope begins, after its first entry. -/
def scopeWith (s : State) (e : Entry) : State :=
  { s.openScope.2 with context := s.context.childScope ⟨s.supply.markers⟩ e }

def scopeWithNew (s : State) (label : String) : State :=
  { s with
    supply := { s.supply with
      types := s.supply.types.push label
      markers := s.supply.markers + 1 }
    context := s.context.childScope ⟨s.supply.markers⟩ (.unsolved ⟨s.supply.types.size⟩) }

theorem Valid.scopeWith {s : State} {e : Entry} (h : s.Valid) (hp : e.placeholder? = none)
    (hm : ∀ m, e ≠ .marker m) : (s.scopeWith e).Valid :=
  (@Judgment.evolves_push TypeError _ hp hm _ h.openScope).valid

theorem Valid.scopeWithNew {s : State} (h : s.Valid) (label : String) :
    (s.scopeWithNew label).Valid :=
  (@Judgment.evolves_introduce TypeError label _ h.openScope).valid

theorem rigid_scopeWithNew (s : State) (label : String) :
    (s.scopeWithNew label).context.rigid = s.context.rigid := by
  simp [scopeWithNew, Context.rigid_childScope, Entry.rigid?]

/-- The second state is the first after attempts that failed. -/
structure Retries (s s₁ : State) : Prop where
  evolves : s.Evolves .nothing s₁
  context : s₁.context = s.context

theorem Retries.refl {s : State} (h : s.Valid) : s.Retries s := ⟨.refl _ h, rfl⟩

theorem Retries.trans {s s₁ s₂ : State} (h : s.Retries s₁) (h' : s₁.Retries s₂) : s.Retries s₂ :=
  ⟨h.evolves.trans h'.evolves, h'.context.trans h.context⟩

end State

namespace Judgment

variable {ε α : Type} {x y : Search ε α} {s s' : State}

theorem Atomic.retries {g : Growth} (hx : Atomic g x) (hs : s.Valid)
    (h : x s = (.rejected, s')) : s.Retries s' := by
  obtain ⟨he, hc⟩ := hx s hs
  rw [h] at he hc
  have hcontext := hc (by simp)
  refine ⟨{ he with context := ?_ }, hcontext⟩
  rw [hcontext]
  exact .refl ..

theorem orElse_retries {g : Growth} {v : α} (hx : Atomic g x) (hs : s.Valid)
    (h : (x <|> y) s = (.accepted v, s')) :
    ∃ s₁, s.Retries s₁ ∧ (x s₁ = (.accepted v, s') ∨ y s₁ = (.accepted v, s')) := by
  rcases orElse_accepted h with h | ⟨s₁, hr, hy⟩
  · exact ⟨s, .refl hs, .inl h⟩
  · exact ⟨s₁, hx.retries hs hr, .inr hy⟩

variable [SearchError ε]

/-- The scope's body ended in a context that begins with what is left of it. -/
def EndsScope (s s' s₁ : State) : Prop :=
  ∃ rest, s₁.context = s'.context ++ .marker ⟨s.supply.markers⟩ :: rest

theorem rigidly_accepted {a : TypeId} {v : α} (h : rigidly a x s = (.accepted v, s')) :
    ∃ s₁, x (s.scopeWith (.var a)) = (.accepted v, s₁) ∧ EndsScope s s' s₁ := by
  obtain ⟨s₁, rest, hx, hsplit, -⟩ := inChildScope_accepted (atomically_accepted h)
  obtain ⟨_, s₂, hd, hx⟩ := bind_accepted hx
  cases hd
  exact ⟨s₁, hx, rest, (Context.eq_append_of_splitAt? hsplit).1⟩

theorem assuming_accepted {b : BindingId} {ty : Ty} {v : α}
    (h : inChildScope (assume b ty >>= fun _ => x) s = (.accepted v, s')) :
    ∃ s₁, x (s.scopeWith (.binding b ty)) = (.accepted v, s₁) ∧ EndsScope s s' s₁ := by
  obtain ⟨s₁, rest, hx, hsplit, -⟩ := inChildScope_accepted h
  obtain ⟨_, s₂, hd, hx⟩ := bind_accepted hx
  cases hd
  exact ⟨s₁, hx, rest, (Context.eq_append_of_splitAt? hsplit).1⟩

theorem flexibly_accepted {a : TypeId} {ty : Ty} {f : Ty → Search ε α} {v : α}
    (h : flexibly a ty f s = (.accepted v, s')) :
    ∃ label s₁, f (ty.subst a (.placeholder ⟨s.supply.types.size⟩)) (s.scopeWithNew label) =
      (.accepted v, s₁) ∧ EndsScope s s' s₁ := by
  obtain ⟨s₁, rest, hx, hsplit, -⟩ := inChildScope_accepted (atomically_accepted h)
  obtain ⟨label, s₂, hl, hx⟩ := bind_accepted hx
  cases hl
  obtain ⟨p, s₃, hp, hx⟩ := bind_accepted hx
  cases hp
  exact ⟨_, s₁, hx, rest, (Context.eq_append_of_splitAt? hsplit).1⟩

end Judgment

open Judgment
open Opening (own)

variable {ε : Type}

theorem introduce_accepted {label : String} {p : TypeId} {s s' : State}
    (h : (introduce label : Search ε TypeId) s = (.accepted p, s')) :
    s'.context = s.context ++ [.unsolved p] := by
  cases h
  rfl

theorem instantiateIfOpen_accepted {instantiate : TypeId → Ty → Search ε Unit} {p : TypeId}
    {other : Ty} {s s' : State}
    (h : instantiateIfOpen instantiate p other s = (.accepted (), s')) :
    instantiate p other s = (.accepted (), s') := by
  obtain ⟨b, _, hb, h⟩ := bind_accepted h
  cases hb
  split at h
  · exact h
  · cases h

variable [SearchError ε]

theorem articulate_accepted {p p₁ p₂ : TypeId} {s s' : State}
    (h : (articulate p : Search ε (TypeId × TypeId)) s = (.accepted (p₁, p₂), s')) :
    ∃ before after, s.context = before ++ .unsolved p :: after ∧
      s'.context = before ++ .unsolved p₁ :: .unsolved p₂ ::
        .solved p (.arrow (.placeholder p₁) (.placeholder p₂)) :: after := by
  rcases hslot : s.context.slot p with error | ⟨before, after⟩
  · rw [articulate_of_error hslot] at h
    cases h
  · rw [articulate_of_slot hslot] at h
    cases h
    exact ⟨before, after, (Context.slot_eq_ok.1 hslot).1, rfl⟩

/-- How one level of instantiation is accepted, for the resolved type. -/
inductive InstantiateRule (next : Variance → TypeId → Ty → Search ε Unit) (v : Variance)
    (p : TypeId) (s s' : State) : Ty → Prop where
  | solves {ty : Ty} : Solves p ty s.context s'.context → InstantiateRule next v p s s' ty
  | arrow {parameter result : Ty} {p₁ p₂ : TypeId} {s₁ s₂ : State} :
      (articulate p : Search ε (TypeId × TypeId)) s = (.accepted (p₁, p₂), s₁) →
      next v.flip p₁ parameter s₁ = (.accepted (), s₂) →
      next v p₂ (s₂.context.apply result) s₂ = (.accepted (), s') →
      InstantiateRule next v p s s' (.arrow parameter result)
  | rigid {a : TypeId} {body : Ty} : v = .covariant →
      rigidly a (next .covariant p body) s = (.accepted (), s') →
      InstantiateRule next v p s s' (.forAll a body)
  | flexible {a : TypeId} {body : Ty} : v = .contravariant →
      flexibly a body (next .contravariant p) s = (.accepted (), s') →
      InstantiateRule next v p s s' (.forAll a body)

theorem instantiateStep_accepted {next : Variance → TypeId → Ty → Search ε Unit} {v : Variance}
    {p : TypeId} {ty : Ty} {s s' : State}
    (h : own.instantiateStep next v p ty s = (.accepted (), s')) :
    InstantiateRule next v p s s' (s.context.apply ty) := by
  obtain ⟨ty', _, hr, h⟩ := bind_accepted h
  cases hr
  generalize s.context.apply ty = ty' at h
  by_cases hsame : ty' = .placeholder p
  · rw [if_pos hsame] at h
    cases h
    exact .solves (.same hsame)
  rw [if_neg hsame] at h
  split at h
  · cases h
  -- Solving outright is rejected without a trace, so the other rules start from the same state.
  rcases @instantiateMonotype_run ε _ p ty' s with ⟨Γ, hrun, hsolves⟩ | hrun | ⟨hrun, -⟩
  · rw [orElse_of_accepted hrun] at h
    cases h
    exact .solves hsolves
  · rw [orElse_of_rejected hrun] at h
    split at h
    · obtain ⟨⟨p₁, p₂⟩, s₁, ha, h⟩ := bind_accepted (atomically_accepted h)
      obtain ⟨_, s₂, hn, h⟩ := bind_accepted h
      obtain ⟨_, _, hr, h⟩ := bind_accepted h
      cases hr
      exact .arrow ha hn h
    · exact .rigid rfl h
    · exact .flexible rfl h
    · cases h
  · rw [orElse_of_aborted hrun] at h
    cases h

inductive SubtypeRule (next : Ty → Ty → Search ε Unit)
    (instantiate : Variance → TypeId → Ty → Search ε Unit) (s s' : State) : Ty → Ty → Prop where
  | arrow {parameter result parameter' result' : Ty} {s₁ : State} :
      next parameter' parameter s = (.accepted (), s₁) →
      next result result' s₁ = (.accepted (), s') →
      SubtypeRule next instantiate s s' (.arrow parameter result) (.arrow parameter' result')
  | atom {sub sup : Ty} : sub.sameAtom sup = true → s' = s →
      SubtypeRule next instantiate s s' sub sup
  | openSub {a : TypeId} {body sup : Ty} {s₁ : State} : s.Retries s₁ →
      flexibly a body (fun body => next body sup) s₁ = (.accepted (), s') →
      SubtypeRule next instantiate s s' (.forAll a body) sup
  | openSup {a : TypeId} {sub body : Ty} {s₁ : State} : s.Retries s₁ →
      rigidly a (next sub body) s₁ = (.accepted (), s') →
      SubtypeRule next instantiate s s' sub (.forAll a body)
  | solveSub {p : TypeId} {sup : Ty} {s₁ : State} : s.Retries s₁ →
      instantiate .covariant p sup s₁ = (.accepted (), s') →
      SubtypeRule next instantiate s s' (.placeholder p) sup
  | solveSup {p : TypeId} {sub : Ty} {s₁ : State} : s.Retries s₁ →
      instantiate .contravariant p sub s₁ = (.accepted (), s') →
      SubtypeRule next instantiate s s' sub (.placeholder p)

section Subtyping

variable {next : Ty → Ty → Search ε Unit} {instantiate : Variance → TypeId → Ty → Search ε Unit}
  (hn : ∀ sub sup, Atomic .nothing (next sub sup))
  (hi : ∀ v p ty, Atomic .nothing (instantiate v p ty))
include hn hi

theorem subtypeStep_accepted {sub sup : Ty} {s s' : State} (hs : s.Valid)
    (h : own.subtypeStep next instantiate sub sup s = (.accepted (), s')) :
    SubtypeRule next instantiate s s' (s.context.apply sub) (s.context.apply sup) := by
  obtain ⟨_, _, hr, h⟩ := bind_accepted h
  cases hr
  obtain ⟨_, _, hr, h⟩ := bind_accepted h
  cases hr
  generalize s.context.apply sub = sub at h
  generalize s.context.apply sup = sup at h
  split at h
  · obtain ⟨_, s₁, h₁, h₂⟩ := bind_accepted (atomically_accepted h)
    exact .arrow h₁ h₂
  unfold Opening.subtypeOtherwise at h
  split at h
  · cases h
    exact .atom ‹_› rfl
  obtain ⟨s₁, hr₁, h | h⟩ := orElse_retries (atomic_subtypeOpeningSub hn _ _) hs h
  · unfold subtypeOpeningSub at h
    split at h
    · exact .openSub hr₁ h
    · cases h
  obtain ⟨s₂, hr₂, h | h⟩ :=
    orElse_retries (atomic_subtypeOpeningSup hn _ _) hr₁.evolves.valid h
  · unfold Opening.subtypeOpeningSup at h
    split at h
    · exact .openSup (hr₁.trans hr₂) h
    · cases h
  obtain ⟨s₃, hr₃, h | h⟩ :=
    orElse_retries (atomic_subtypeSolvingSub hi _ _) hr₂.evolves.valid h
  · unfold subtypeSolvingSub at h
    split at h
    · exact .solveSub ((hr₁.trans hr₂).trans hr₃) (instantiateIfOpen_accepted h)
    · cases h
  · unfold subtypeSolvingSup at h
    split at h
    · exact .solveSup ((hr₁.trans hr₂).trans hr₃) (instantiateIfOpen_accepted h)
    · cases h

end Subtyping

inductive CheckRule (check : Term → Ty → Search ε Unit) (synthesize : Term → Search ε Ty)
    (subtype : Ty → Ty → Search ε Unit) (s s' : State) : Term → Ty → Prop where
  | unit : s' = s → CheckRule check synthesize subtype s s' .unit .void
  | forAll {term : Term} {a : TypeId} {body : Ty} {s₁ : State} : s.Retries s₁ →
      rigidly a (check term body) s₁ = (.accepted (), s') →
      CheckRule check synthesize subtype s s' term (.forAll a body)
  | lam {x : BindingId} {body : Term} {parameter result : Ty} {s₁ : State} : s.Retries s₁ →
      inChildScope (assume x parameter >>= fun _ => check body result) s₁ = (.accepted (), s') →
      CheckRule check synthesize subtype s s' (.lam x body) (.arrow parameter result)
  | synthesis {term : Term} {ty found : Ty} {s₁ s₂ : State} : s.Retries s₁ →
      synthesize term s₁ = (.accepted found, s₂) →
      subtype (s₂.context.apply found) (s₂.context.apply ty) s₂ = (.accepted (), s') →
      CheckRule check synthesize subtype s s' term ty

theorem checkStep_accepted {check : Term → Ty → Search ε Unit} {synthesize : Term → Search ε Ty}
    {subtype : Ty → Ty → Search ε Unit} (hc : ∀ term ty, Atomic .placeholders (check term ty))
    {term : Term} {ty : Ty} {s s' : State} (hs : s.Valid)
    (h : own.checkStep check synthesize subtype term ty s = (.accepted (), s')) :
    CheckRule check synthesize subtype s s' term ty := by
  unfold Opening.checkStep at h
  split at h
  · cases h
    exact .unit rfl
  obtain ⟨s₁, hr₁, h | h⟩ := orElse_retries (atomic_checkForAll hc _ _) hs h
  · unfold Opening.checkForAll at h
    split at h
    · exact .forAll hr₁ h
    · cases h
  obtain ⟨s₂, hr₂, h | h⟩ := orElse_retries (atomic_checkLambda hc _ _) hr₁.evolves.valid h
  · unfold checkLambda at h
    split at h
    · exact .lam (hr₁.trans hr₂) (atomically_accepted h)
    · cases h
  · obtain ⟨found, s₃, hf, h⟩ := bind_accepted (atomically_accepted h)
    obtain ⟨_, _, hr, h⟩ := bind_accepted h
    cases hr
    obtain ⟨_, _, hr, h⟩ := bind_accepted h
    cases hr
    exact .synthesis (hr₁.trans hr₂) hf h

inductive SynthesizeRule (check : Term → Ty → Search ε Unit) (synthesize : Term → Search ε Ty)
    (synthesizeApplication : Ty → Term → Search ε Ty) (s s' : State) : Term → Ty → Prop where
  | unit : s' = s → SynthesizeRule check synthesize synthesizeApplication s s' .unit .void
  | ref {x : BindingId} {ty : Ty} : s.context.binding? x = some ty → s' = s →
      SynthesizeRule check synthesize synthesizeApplication s s' (.ref x) ty
  | lam {x : BindingId} {body : Term} {p q : TypeId} {s₁ s₂ : State} {label label' : String} :
      (introduce label : Search ε TypeId) s = (.accepted p, s₁) →
      (introduce label' : Search ε TypeId) s₁ = (.accepted q, s₂) →
      inChildScope (assume x (.placeholder p) >>= fun _ => check body (.placeholder q)) s₂ =
        (.accepted (), s') →
      SynthesizeRule check synthesize synthesizeApplication s s' (.lam x body)
        (.arrow (.placeholder p) (.placeholder q))
  | app {function argument : Term} {functionType ty : Ty} {s₁ : State} :
      synthesize function s = (.accepted functionType, s₁) →
      synthesizeApplication (s₁.context.apply functionType) argument s₁ = (.accepted ty, s') →
      SynthesizeRule check synthesize synthesizeApplication s s' (.app function argument) ty
  | ann {term : Term} {ty : Ty} : s.context.wellFormed ty = true →
      check term ty s = (.accepted (), s') →
      SynthesizeRule check synthesize synthesizeApplication s s' (.ann term ty) ty

theorem synthesizeStep_accepted {check : Term → Ty → Search ε Unit}
    {synthesize : Term → Search ε Ty} {synthesizeApplication : Ty → Term → Search ε Ty}
    {term : Term} {ty : Ty} {s s' : State}
    (h : own.synthesizeStep check synthesize synthesizeApplication term s = (.accepted ty, s')) :
    SynthesizeRule check synthesize synthesizeApplication s s' term ty := by
  cases term with
  | unit =>
    cases h
    exact .unit rfl
  | ref x =>
    simp only [Opening.synthesizeStep, lookup] at h
    split at h
    · cases h
      exact .ref ‹_› rfl
    · cases h
  | lam x body =>
    obtain ⟨_, _, hl, h⟩ := bind_accepted (atomically_accepted h)
    cases hl
    obtain ⟨p, s₁, hp, h⟩ := bind_accepted h
    obtain ⟨q, s₂, hq, h⟩ := bind_accepted h
    obtain ⟨_, s₃, hb, h⟩ := bind_accepted h
    cases h
    exact .lam hp hq hb
  | app function argument =>
    obtain ⟨functionType, s₁, hf, h⟩ := bind_accepted (atomically_accepted h)
    obtain ⟨_, _, hr, h⟩ := bind_accepted h
    cases hr
    exact .app hf h
  | ann term ty =>
    obtain ⟨b, _, hb, h⟩ := bind_accepted h
    cases hb
    split at h
    · obtain ⟨_, s₁, hc, h⟩ := bind_accepted h
      cases h
      rcases orElse_accepted hc with hc | ⟨s₂, -, hc⟩
      · exact .ann ‹_› hc
      · cases hc
    · cases h

inductive ApplyRule (check : Term → Ty → Search ε Unit) (next : Ty → Term → Search ε Ty)
    (s s' : State) (argument : Term) : Ty → Ty → Prop where
  | arrow {parameter result : Ty} : check argument parameter s = (.accepted (), s') →
      ApplyRule check next s s' argument (.arrow parameter result) result
  | forAll {a p : TypeId} {body ty : Ty} {s₁ : State} {label : String} :
      (introduce label : Search ε TypeId) s = (.accepted p, s₁) →
      next (body.subst a (.placeholder p)) argument s₁ = (.accepted ty, s') →
      ApplyRule check next s s' argument (.forAll a body) ty
  | placeholder {p p₁ p₂ : TypeId} {s₁ : State} :
      (articulate p : Search ε (TypeId × TypeId)) s = (.accepted (p₁, p₂), s₁) →
      check argument (.placeholder p₁) s₁ = (.accepted (), s') →
      ApplyRule check next s s' argument (.placeholder p) (.placeholder p₂)

theorem synthesizeApplicationStep_accepted {check : Term → Ty → Search ε Unit}
    {next : Ty → Term → Search ε Ty} {functionType ty : Ty} {argument : Term} {s s' : State}
    (h : synthesizeApplicationStep check next functionType argument s = (.accepted ty, s')) :
    ApplyRule check next s s' argument functionType ty := by
  cases functionType with
  | void => cases h
  | var a => cases h
  | placeholder p =>
    obtain ⟨⟨p₁, p₂⟩, s₁, ha, h⟩ := bind_accepted (atomically_accepted h)
    obtain ⟨_, s₂, hc, h⟩ := bind_accepted h
    cases h
    exact .placeholder ha hc
  | forAll a body =>
    obtain ⟨_, _, hl, h⟩ := bind_accepted (atomically_accepted h)
    cases hl
    obtain ⟨p, s₁, hp, h⟩ := bind_accepted h
    exact .forAll hp h
  | arrow parameter result =>
    obtain ⟨_, s₁, hc, h⟩ := bind_accepted h
    cases h
    exact .arrow hc

end HigherRank
