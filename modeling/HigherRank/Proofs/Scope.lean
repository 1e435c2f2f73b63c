import HigherRank.Proofs.Errors
import HigherRank.Proofs.Declarative

set_option autoImplicit false

/-!
# Judgments on terms stay in scope

If the bindings of a context are typed in the entries before them, every type that a judgment finds
is in scope where it ends. The judgments on types are then called as they are meant to be, and only the
nesting limit or an annotation aborts a judgment on terms.
-/
namespace HigherRank

open Judgment
open Opening (own)

def Entry.BoundIn (before : Context) (e : Entry) : Prop :=
  ∀ x τ, e = .binding x τ → before.wellFormed τ = true

instance Entry.BoundIn.decidable (before : Context) (e : Entry) : Decidable (e.BoundIn before) :=
  inferInstanceAs (Decidable (∀ x τ, e = .binding x τ → _))

theorem Blockwise.split {ε : Type} {B : ε → List ε → Prop} {xs ys before after : List ε} {y : ε}
    (h : Blockwise B xs ys) (hy : ys = before ++ y :: after) :
    ∃ xs₁ x xs₂ ys₁ block₁ block₂, xs = xs₁ ++ x :: xs₂ ∧ before = ys₁ ++ block₁ ∧
      Blockwise B xs₁ ys₁ ∧ B x (block₁ ++ y :: block₂) := by
  induction h generalizing before with
  | nil => simp at hy
  | @cons x block xs ys he _ ih =>
    rcases List.append_eq_append_iff.1 hy with ⟨inner, rfl, hin⟩ | ⟨inner, rfl, hin⟩
    · obtain ⟨xs₁, x', xs₂, ys₁, block₁, block₂, rfl, rfl, hxs, hB⟩ := ih hin
      exact ⟨x :: xs₁, x', xs₂, block ++ ys₁, block₁, block₂, rfl, by simp, .cons he hxs, hB⟩
    · cases inner with
      | nil =>
        obtain ⟨xs₁, x', xs₂, ys₁, block₁, block₂, rfl, heq, hxs, hB⟩ := ih
          (hin.symm.trans (List.nil_append _).symm)
        obtain ⟨rfl, rfl⟩ := List.append_eq_nil_iff.1 heq.symm
        have hxs' := Blockwise.cons he hxs
        exact ⟨x :: xs₁, x', xs₂, _, [], block₂, rfl, by simp, hxs', hB⟩
      | cons y' inner =>
        cases hin
        exact ⟨[], x, xs, [], before, inner, rfl, rfl, .nil, he⟩

theorem Context.Grows.bound {n : Nat} {Γ Δ : Context} (h : Grows .placeholders n Γ Δ)
    (hΓ : Throughout Entry.BoundIn Γ) : Throughout Entry.BoundIn Δ := by
  obtain ⟨Δ₁, tail, rfl, hr, ht⟩ := h
  refine throughout_append.2 ⟨fun before e after heq x τ he => ?_, fun before e after heq x τ he => ?_⟩
  · subst he
    obtain ⟨Γ₁, e, Γ₂, Δ₂, block₁, block₂, rfl, rfl, hr₁, hb⟩ := hr.split heq
    generalize hblock : block₁ ++ .binding x τ :: block₂ = block at hb
    cases hb with
    | self =>
      obtain ⟨rfl, hcons⟩ : block₁ = [] ∧ Entry.binding x τ :: block₂ = [e] := by
        cases block₁ with
        | nil => exact ⟨rfl, hblock⟩
        | cons b block₁ => simp at hblock
      cases hcons
      have hw := hΓ Γ₁ _ Γ₂ rfl x τ rfl
      simpa using (Refines.grows .placeholders hr₁).wellFormed hw
    | filled news hf hnews =>
      obtain ⟨p, υ⟩ := hf
      have hmem : Entry.binding x τ ∈ news ++ [.solved p υ] := by
        rw [← hblock]
        simp
      rcases List.mem_append.1 hmem with hmem | hmem
      · obtain ⟨q, hq, -⟩ := hnews _ hmem
        cases hq
      · cases List.mem_singleton.1 hmem
  · obtain ⟨q, hq, -⟩ := ht e (by simp [heq])
    subst he
    cases hq

/-- A valid state whose bindings are in scope. -/
structure State.Good (s : State) : Prop where
  valid : s.Valid
  bindings : Throughout Entry.BoundIn s.context

instance State.Good.decidable (s : State) : Decidable s.Good :=
  decidable_of_iff (s.Valid ∧ Throughout Entry.BoundIn s.context)
    ⟨fun h => ⟨h.1, h.2⟩, fun h => ⟨h.valid, h.bindings⟩⟩

namespace State.Good

variable {s s' : State}

theorem later (h : s.Good) (he : s.Evolves .placeholders s') : s'.Good :=
  ⟨he.valid, he.context.bound h.bindings⟩

theorem retries (h : s.Good) (hr : s.Retries s') : s'.Good :=
  ⟨hr.evolves.valid, hr.context ▸ h.bindings⟩

theorem withDepth (h : s.Good) (depth : Nat) : { s with depth }.Good :=
  ⟨h.valid.withDepth depth, h.bindings⟩

theorem scopeWith {e : Entry} (h : s.Good) (hp : e.placeholder? = none) (hm : ∀ m, e ≠ .marker m)
    (hb : e.BoundIn s.context) : (s.scopeWith e).Good := by
  refine ⟨h.valid.scopeWith hp hm, ?_⟩
  refine throughout_append.2 ⟨throughout_append.2 ⟨h.bindings, ?_⟩, ?_⟩
  · exact throughout_singleton.2 (by simp [Entry.BoundIn])
  · refine throughout_singleton.2 fun x τ he => ?_
    simpa using Context.wellFormed_append _ (hb x τ he)

theorem binding {x : BindingId} {ty : Ty} (h : s.Good) (hx : s.context.binding? x = some ty) :
    s.context.wellFormed ty = true := by
  obtain ⟨before, after, heq⟩ := List.append_of_mem (Context.binding?_mem hx)
  rw [heq]
  exact Context.wellFormed_append _ (h.bindings before _ after heq x ty rfl)

end State.Good

def State.OpensLambda (s : State) (x : BindingId) (q : TypeId) (t : State) : Prop :=
  ∃ p s₁ s₂ label label', (introduce label : Judgment TypeId) s = (.accepted p, s₁) ∧
    (introduce label' : Judgment TypeId) s₁ = (.accepted q, s₂) ∧
    t = s₂.scopeWith (.binding x (.placeholder p))

theorem State.OpensLambda.good {s t : State} {x : BindingId} {q : TypeId} (h : s.OpensLambda x q t)
    (hs : s.Good) : t.Good ∧ t.context.wellFormed (.placeholder q) = true := by
  obtain ⟨p, s₁, s₂, label, label', hp, hq, rfl⟩ := h
  have hgood₁ := hs.later ((evolves_introduce _).result hs.valid hp)
  have hgood₂ := hgood₁.later ((evolves_introduce _).result hgood₁.valid hq)
  have hmem : p ∈ s₂.context.placeholders ∧ q ∈ s₂.context.placeholders := by
    constructor <;> refine Context.placeholder_mem_of_unsolved ?_ <;>
      simp [introduce_accepted hp, introduce_accepted hq]
  refine ⟨hgood₂.scopeWith rfl (by simp) fun y τ heq => ?_, ?_⟩
  · cases heq
    exact Context.wellFormed_placeholder.2 hmem.1
  · exact Context.wellFormed_childScope (Context.wellFormed_placeholder.2 hmem.2)

/-- Synthesised types are in scope where synthesis ends. -/
def SynthesisScoped (synthesize : Term → Judgment Ty) : Prop :=
  ∀ term s s' ty, s.Good → synthesize term s = (.accepted ty, s') →
    s'.context.wellFormed ty = true

def ApplicationScoped (next : Ty → Term → Judgment Ty) : Prop :=
  ∀ functionType argument s s' ty, s.Valid → s.context.wellFormed functionType = true →
    next functionType argument s = (.accepted ty, s') → s'.context.wellFormed ty = true

theorem Context.wellFormed_introduced {s s' : State} {a p : TypeId} {body : Ty} {label : String}
    (h : (introduce label : Judgment TypeId) s = (.accepted p, s'))
    (hw : s.context.wellFormed (.forAll a body) = true) :
    s'.context.wellFormed (body.subst a (.placeholder p)) = true := by
  rw [introduce_accepted h]
  refine wellFormed_subst (wellFormed_append _ hw) (wellFormed_placeholder.2 ?_)
  simp [Entry.placeholder?]

section Scoped

variable {check : Term → Ty → Judgment Unit} {synthesize : Term → Judgment Ty}
  {synthesizeApplication : Ty → Term → Judgment Ty}
  (hc : ∀ term ty, Atomic .placeholders (check term ty))
include hc

theorem synthesizeStep_scoped (hs : ∀ term, Atomic .placeholders (synthesize term))
    (ihs : SynthesisScoped synthesize) (iha : ApplicationScoped synthesizeApplication) :
    SynthesisScoped (own.synthesizeStep check synthesize synthesizeApplication) := by
  intro term s s' ty hgood h
  cases synthesizeStep_accepted h with
  | unit heq => rfl
  | ref hx heq => exact heq ▸ hgood.binding hx
  | @lam x body p q s₁ s₂ label label' hp hq hb =>
    have he₁ := (evolves_introduce _).result hgood.valid hp
    have he₂ := (evolves_introduce _).result he₁.valid hq
    have he₃ := ((hc _ _).evolves.assuming _ _).result he₂.valid hb
    have hkeep : ∀ r, .unsolved r ∈ s₂.context → s'.context.wellFormed (.placeholder r) = true :=
      fun r hr => Context.wellFormed_placeholder.2
        (he₃.context.placeholders (Context.placeholder_mem_of_unsolved hr))
    refine Context.wellFormed_arrow.2 ⟨hkeep p ?_, hkeep q ?_⟩ <;>
      simp [introduce_accepted hp, introduce_accepted hq]
  | app hf ha =>
    have he₁ := (hs _).evolves.result hgood.valid hf
    have hw := ihs _ _ _ _ hgood hf
    exact iha _ _ _ _ _ he₁.valid (he₁.valid.ordered.wellFormed_apply hw) ha
  | ann hw hrun => exact ((hc _ _).evolves.result hgood.valid hrun).context.wellFormed hw

theorem synthesizeApplicationStep_scoped (iha : ApplicationScoped synthesizeApplication) :
    ApplicationScoped (synthesizeApplicationStep check synthesizeApplication) := by
  intro functionType argument s s' ty hs hw h
  cases synthesizeApplicationStep_accepted h with
  | arrow hrun =>
    exact ((hc _ _).evolves.result hs hrun).context.wellFormed (Context.wellFormed_arrow.1 hw).2
  | forAll hp hrun =>
    have he := (evolves_introduce _).result hs hp
    exact iha _ _ _ _ _ he.valid (Context.wellFormed_introduced hp hw) hrun
  | placeholder ha hrun =>
    have ha := articulated_of_accepted hs ha
    have he := (hc _ _).evolves.result ha.evolves.valid hrun
    exact Context.wellFormed_placeholder.2
      (he.context.placeholders (Context.placeholder_mem_of_unsolved ha.resultOpen))

end Scoped

theorem typing_scoped (limit left : Nat) :
    SynthesisScoped (own.synthesize limit left) ∧
      ApplicationScoped (own.synthesizeApplication limit left) := by
  induction left with
  | zero =>
    refine ⟨fun term s s' ty _ h => ?_, fun functionType argument s s' ty _ _ h => ?_⟩
    · rw [Opening.synthesize] at h
      cases h
    · rw [Opening.synthesizeApplication] at h
      cases h
  | succ left ih =>
    obtain ⟨ihs, iha⟩ := ih
    obtain ⟨hc, hs, -⟩ := atomic_typing limit left
    refine ⟨fun term s s' ty hgood h => ?_, fun functionType argument s s' ty hvalid hw h => ?_⟩
    · rw [Opening.synthesize] at h
      obtain ⟨s₁, hrun, rfl⟩ := nested_accepted h
      exact synthesizeStep_scoped hc hs ihs iha term { s with depth := s.depth + 1 } s₁ ty
        (hgood.withDepth _) hrun
    · rw [Opening.synthesizeApplication] at h
      obtain ⟨s₁, hrun, rfl⟩ := nested_accepted h
      exact synthesizeApplicationStep_scoped hc iha functionType argument
        { s with depth := s.depth + 1 } s₁ ty (hvalid.withDepth _) hw hrun

def SubtypingRaises (allowed : TypeError → Prop) (subtype : Ty → Ty → Judgment Unit) : Prop :=
  ∀ sub sup s, Comparison s sub sup → RaisesOnly allowed (subtype sub sup) s

def CheckingRaises (allowed : TypeError → Prop) (check : Term → Ty → Judgment Unit) : Prop :=
  ∀ term ty s, s.Good → s.context.wellFormed ty = true → RaisesOnly allowed (check term ty) s

def SynthesisRaises (allowed : TypeError → Prop) (synthesize : Term → Judgment Ty) : Prop :=
  ∀ term s, s.Good → RaisesOnly allowed (synthesize term) s

/-- The type of the function has to be resolved: a placeholder in its place is given a shape. -/
def ApplicationRaises (allowed : TypeError → Prop) (next : Ty → Term → Judgment Ty) : Prop :=
  ∀ functionType argument s, s.Good → s.context.wellFormed functionType = true →
    s.context.Resolved functionType → RaisesOnly allowed (next functionType argument) s

section Terms

variable {allowed : TypeError → Prop} {check : Term → Ty → Judgment Unit}
  {synthesize : Term → Judgment Ty} {synthesizeApplication : Ty → Term → Judgment Ty}
  {subtype : Ty → Ty → Judgment Unit}

theorem checkBySynthesis_raises (hs : ∀ term, Atomic .placeholders (synthesize term))
    (hscoped : SynthesisScoped synthesize) (ihsub : SubtypingRaises allowed subtype) {term : Term}
    {ty : Ty} {s : State} (hgood : s.Good) (hw : s.context.wellFormed ty = true)
    (hterm : RaisesOnly allowed (synthesize term) s) :
    RaisesOnly allowed (own.checkBySynthesis synthesize subtype term ty) s := by
  refine RaisesOnly.atomically (hterm.bind fun found s₁ hfound => ?_)
  refine RaisesOnly.read rfl ?_
  refine RaisesOnly.read rfl ?_
  have he := (hs term).evolves.result hgood.valid hfound
  have hfound := hscoped term s s₁ found hgood hfound
  exact ihsub _ _ _ (Comparison.apply ⟨he.valid, hfound, he.context.wellFormed hw⟩)

theorem checkStep_raises (hc : ∀ term ty, Atomic .placeholders (check term ty))
    (hs : ∀ term, Atomic .placeholders (synthesize term)) (hscoped : SynthesisScoped synthesize)
    (ihc : CheckingRaises allowed check) (ihs : SynthesisRaises allowed synthesize)
    (ihsub : SubtypingRaises allowed subtype) :
    CheckingRaises allowed (own.checkStep check synthesize subtype) := by
  intro term ty s hgood hw
  unfold Opening.checkStep
  split
  · exact .accept
  refine RaisesOnly.orElse_retries (atomic_checkForAll hc _ _) hgood.valid ?_ fun s₁ hr₁ => ?_
  · unfold Opening.checkForAll
    split
    · exact .rigidly (hc _ _).evolves hgood.valid (ihc _ _ _
        (hgood.scopeWith rfl (by simp) (by simp [Entry.BoundIn])) (Context.wellFormed_declared hw))
    · exact .reject
  replace hgood := hgood.retries hr₁
  replace hw := hr₁.context ▸ hw
  refine RaisesOnly.orElse_retries (atomic_checkLambda hc _ _) hgood.valid ?_ fun s₂ hr₂ => ?_
  · unfold checkLambda
    split
    · obtain ⟨hparameter, hresult⟩ := Context.wellFormed_arrow.1 hw
      refine RaisesOnly.atomically (.assuming (hc _ _).evolves hgood.valid (ihc _ _ _ ?_ ?_))
      · refine hgood.scopeWith rfl (by simp) fun x τ heq => ?_
        cases heq
        exact hparameter
      · exact Context.wellFormed_childScope hresult
    · exact .reject
  replace hgood := hgood.retries hr₂
  exact checkBySynthesis_raises hs hscoped ihsub hgood (hr₂.context ▸ hw) (ihs _ _ hgood)

theorem synthesizeLambda_raises (hc : ∀ term ty, Atomic .placeholders (check term ty))
    {x : BindingId} {body : Term} {s : State} (hs : s.Valid) (hbody : ∀ q t, s.OpensLambda x q t →
      RaisesOnly allowed (check body (.placeholder q)) t) :
    RaisesOnly allowed (synthesizeLambda check x body) s := by
  refine RaisesOnly.atomically (RaisesOnly.read rfl ?_)
  refine RaisesOnly.introduce.bind fun p s₁ hp => RaisesOnly.introduce.bind fun q s₂ hq => ?_
  have he₁ := (evolves_introduce _).result hs hp
  have he₂ := (evolves_introduce _).result he₁.valid hq
  have hopens : s.OpensLambda x q (s₂.scopeWith (.binding x (.placeholder p))) :=
    ⟨p, s₁, s₂, _, _, hp, hq, rfl⟩
  exact RaisesOnly.bind (.assuming (hc _ _).evolves he₂.valid (hbody q _ hopens)) fun _ _ _ => .accept

theorem synthesizeAnnotated_raises (hann : ∀ error, error.isAnnotationError = true → allowed error)
    (ihc : CheckingRaises allowed check) {term : Term} {ty : Ty} {s : State} (hgood : s.Good) :
    RaisesOnly allowed (synthesizeAnnotated check term ty) s := by
  refine RaisesOnly.read rfl ?_
  split
  · rename_i hw
    refine RaisesOnly.bind ((ihc _ _ _ hgood hw).orElse fun _ _ => ?_) fun _ _ _ => .accept
    exact .abort (hann _ rfl)
  · exact .abort (hann _ rfl)

theorem synthesizeStep_raises (hann : ∀ error, error.isAnnotationError = true → allowed error)
    (hc : ∀ term ty, Atomic .placeholders (check term ty))
    (hs : ∀ term, Atomic .placeholders (synthesize term)) (hscoped : SynthesisScoped synthesize)
    (ihc : CheckingRaises allowed check) (ihs : SynthesisRaises allowed synthesize)
    (iha : ApplicationRaises allowed synthesizeApplication) :
    SynthesisRaises allowed (own.synthesizeStep check synthesize synthesizeApplication) := by
  intro term s hgood
  cases term with
  | unit => exact .accept
  | ref x =>
    intro error s' h
    simp only [Opening.synthesizeStep, lookup] at h
    split at h <;> cases h
  | lam x body =>
    refine synthesizeLambda_raises hc hgood.valid fun q t hopens => ?_
    obtain ⟨hgood, hw⟩ := hopens.good hgood
    exact ihc body _ t hgood hw
  | app function argument =>
    refine RaisesOnly.atomically ((ihs _ _ hgood).bind fun functionType s₁ hf => ?_)
    refine RaisesOnly.read rfl ?_
    have he := (hs _).evolves.result hgood.valid hf
    have ho := he.valid.ordered
    exact iha _ _ _ (hgood.later he) (ho.wellFormed_apply (hscoped _ _ _ _ hgood hf))
      (ho.resolved_apply _)
  | ann term ty => exact synthesizeAnnotated_raises hann ihc hgood

theorem synthesizeApplicationStep_raises (ihc : CheckingRaises allowed check)
    (iha : ApplicationRaises allowed synthesizeApplication) :
    ApplicationRaises allowed (synthesizeApplicationStep check synthesizeApplication) := by
  intro functionType argument s hgood hw hresolved
  cases functionType with
  | void => exact .reject
  | var a => exact .reject
  | placeholder p =>
    have hp : .unsolved p ∈ s.context := hresolved.unsolved hw (by simp [Ty.placeholders])
    refine RaisesOnly.atomically ((RaisesOnly.articulate hp).bind ?_)
    rintro ⟨p₁, p₂⟩ s₁ ha
    have ha := articulated_of_accepted hgood.valid ha
    refine (ihc _ _ _ (hgood.later (ha.evolves.of_nothing _)) ?_).bind fun _ _ _ => .accept
    exact Context.wellFormed_placeholder.2 (Context.placeholder_mem_of_unsolved ha.parameterOpen)
  | forAll a body =>
    refine RaisesOnly.atomically (RaisesOnly.read rfl ?_)
    refine RaisesOnly.introduce.bind fun p s₁ hp => ?_
    have he := (evolves_introduce _).result hgood.valid hp
    refine iha _ _ _ (hgood.later he) (Context.wellFormed_introduced hp hw) ?_
    refine he.valid.ordered.resolved_of_unsolved fun q hq => ?_
    rw [introduce_accepted hp]
    rcases Ty.placeholders_subst hq with hq | hq
    · exact List.mem_append_left _ (hresolved.unsolved hw hq)
    · simp [List.mem_singleton.1 hq]
  | arrow parameter result =>
    exact (ihc _ _ _ hgood (Context.wellFormed_arrow.1 hw).1).bind fun _ _ _ => .accept

end Terms

/-- An annotation is at fault, or the limit was reached. -/
def TypeError.Expected (limit : Nat) (error : TypeError) : Prop :=
  error.isAnnotationError = true ∨ error = .depthLimitExceeded limit

theorem typing_raises (limit left : Nat) :
    CheckingRaises (TypeError.Expected limit) (own.check limit left) ∧
    SynthesisRaises (TypeError.Expected limit) (own.synthesize limit left) ∧
    ApplicationRaises (TypeError.Expected limit) (own.synthesizeApplication limit left) := by
  induction left with
  | zero =>
    refine ⟨fun term ty s _ _ => ?_, fun term s _ => ?_, fun functionType argument s _ _ _ => ?_⟩
    · rw [Opening.check]
      exact .abort (.inr rfl)
    · rw [Opening.synthesize]
      exact .abort (.inr rfl)
    · rw [Opening.synthesizeApplication]
      exact .abort (.inr rfl)
  | succ left ih =>
    obtain ⟨ihc, ihs, iha⟩ := ih
    obtain ⟨hc, hs, -⟩ := atomic_typing limit left
    obtain ⟨hscoped, -⟩ := typing_scoped limit left
    refine ⟨fun term ty s hgood hw => ?_, fun term s hgood => ?_,
      fun functionType argument s hgood hw hresolved => ?_⟩
    · rw [Opening.check]
      have hsub : SubtypingRaises (TypeError.Expected limit) (own.subtype limit left) :=
        fun _ _ _ hcomp => (subtype_raises limit left hcomp).mono fun _ => .inr
      exact .nested (checkStep_raises hc hs hscoped ihc ihs hsub term ty _ (hgood.withDepth _) hw)
    · rw [Opening.synthesize]
      exact .nested (synthesizeStep_raises (fun _ => .inl) hc hs hscoped ihc ihs iha term _
        (hgood.withDepth _))
    · rw [Opening.synthesizeApplication]
      exact .nested (synthesizeApplicationStep_raises ihc iha functionType argument _
        (hgood.withDepth _) hw hresolved)

theorem Query.run_good (c : Checker) (q : Query) {s : State} (hs : s.Good) : (q.run c s).2.Good := by
  have he := (q.run_atomic c s hs.valid).1
  refine hs.later ?_
  unfold Query.growth at he
  split at he
  · exact he
  · exact he.of_nothing _

/-- In a good state nothing is looked up in vain, and what is found is in scope. -/
theorem errors_expected_and_results_scoped (c : Checker) (s : State) (hs : s.Good) :
    (∀ term ty, s.context.wellFormed ty = true →
      RaisesOnly (TypeError.Expected c.limits.maxDepth) (c.check term ty) s) ∧
    (∀ term, RaisesOnly (TypeError.Expected c.limits.maxDepth) (c.synthesize term) s) ∧
    (∀ functionType argument, s.context.wellFormed functionType = true →
      s.context.apply functionType = functionType →
      RaisesOnly (TypeError.Expected c.limits.maxDepth)
        (c.synthesizeApplication functionType argument) s) ∧
    (∀ sub sup, s.context.wellFormed sub = true → s.context.wellFormed sup = true →
      RaisesOnly (· = .depthLimitExceeded c.limits.maxDepth) (c.subtype sub sup) s) ∧
    (∀ v p ty, .unsolved p ∈ s.context → s.context.wellFormed ty = true →
      RaisesOnly (· = .depthLimitExceeded c.limits.maxDepth) (c.instantiate v p ty) s) ∧
    (∀ term ty s', c.synthesize term s = (.accepted ty, s') → s'.context.wellFormed ty = true) ∧
    (∀ functionType argument ty s', s.context.wellFormed functionType = true →
      c.synthesizeApplication functionType argument s = (.accepted ty, s') →
      s'.context.wellFormed ty = true) ∧
    ∀ q : Query, (q.run c s).2.Good := by
  have hvalid := hs.valid
  refine ⟨fun term ty hw => ?_, fun term => ?_, fun functionType argument hw happly => ?_,
    fun sub sup hsub hsup => ?_, fun v p ty hp hw => ?_, fun term ty s' h => ?_,
    fun functionType argument ty s' hw h => ?_, fun q => q.run_good c hs⟩
  · exact (typing_raises _ _).1 term ty s hs hw
  · exact (typing_raises _ _).2.1 term s hs
  · exact (typing_raises _ _).2.2 functionType argument s hs hw
      (hvalid.ordered.resolved_of_apply_eq happly)
  · exact subtype_raises _ _ ⟨hvalid, hsub, hsup⟩
  · exact instantiate_raises _ _ ⟨hvalid, hp, hw⟩
  · exact (typing_scoped _ _).1 term s s' ty hs h
  · exact (typing_scoped _ _).2 functionType argument s s' ty hvalid hw h

def unshaped : State where
  supply := { types := #["p", "q"], bindings := #["f"] }
  context := [.unsolved ⟨0⟩, .binding ⟨0⟩ (.placeholder ⟨0⟩), .unsolved ⟨1⟩]

theorem unshaped_good : unshaped.Good := by decide

theorem unshaped_errors_expected :
    unshaped.Good ∧ unshaped.context.wellFormed (.placeholder ⟨0⟩) = true ∧
    unshaped.context.apply (.placeholder ⟨0⟩) = .placeholder ⟨0⟩ ∧
    .unsolved ⟨0⟩ ∈ unshaped.context ∧
    RaisesOnly (TypeError.Expected 4) (Checker.check ⟨⟨4⟩⟩ (.app (.ref ⟨0⟩) (.ref ⟨0⟩)) .void)
      unshaped ∧
    RaisesOnly (TypeError.Expected 4)
      (Checker.synthesizeApplication ⟨⟨4⟩⟩ (.placeholder ⟨0⟩) (.ref ⟨0⟩)) unshaped ∧
    RaisesOnly (· = .depthLimitExceeded 4)
      (Checker.subtype ⟨⟨4⟩⟩ (.placeholder ⟨0⟩) (.arrow (.placeholder ⟨1⟩) .void)) unshaped ∧
    RaisesOnly (· = .depthLimitExceeded 4)
      (Checker.instantiate ⟨⟨4⟩⟩ .covariant ⟨0⟩ (.arrow (.placeholder ⟨1⟩) .void)) unshaped ∧
    ∃ ty s', Checker.synthesize ⟨⟨4⟩⟩ (.lam ⟨0⟩ (.ref ⟨0⟩)) unshaped = (.accepted ty, s') ∧
      s'.context.wellFormed ty = true := by
  -- The binding is applied to itself, and its type given the shape of an arrow; the earlier
  -- placeholder is put below an arrow from the later one.
  obtain ⟨hcheck, -, happly, hsubtype, hinstantiate, hscoped, -⟩ :=
    errors_expected_and_results_scoped ⟨⟨4⟩⟩ unshaped unshaped_good
  exact ⟨unshaped_good, by decide, by decide, by decide, hcheck _ _ (by decide),
    happly _ _ (by decide) (by decide), hsubtype _ _ (by decide) (by decide),
    hinstantiate _ _ _ (by decide) (by decide), _, _, rfl,
    hscoped (.lam ⟨0⟩ (.ref ⟨0⟩)) _ _ rfl⟩

end HigherRank
