import HigherRank.Proofs.Budget
import HigherRank.Proofs.Resumption
import HigherRank.Proofs.Weakening

set_option autoImplicit false

/-!
# After a rule has failed

A term is checked against a quantified type below the quantifier, and a lambda against an arrow below its
binder. If that is rejected, the type that the term has by itself is compared with the expected one. The
term is then read a second time, outside that scope. An annotation that was in order may not be now, and
so a rejection by the rule may become an error. It is exactly the error that synthesis raises.
-/
namespace HigherRank

open Judgment
open Opening (own)

/-- The rule for the first term and type checks the second ones, below the entry. -/
inductive CheckPremise : Term → Ty → Entry → Term → Ty → Prop where
  | forAll (term : Term) (a : TypeId) (body : Ty) :
      CheckPremise term (.forAll a body) (.var a) term body
  | lam (x : BindingId) (body : Term) (parameter result : Ty) :
      CheckPremise (.lam x body) (.arrow parameter result) (.binding x parameter) body result

namespace CheckPremise

variable {term term' : Term} {ty ty' : Ty} {e : Entry} {s : State}

theorem placeholder? (h : CheckPremise term ty e term' ty') : e.placeholder? = none := by
  cases h <;> rfl

theorem ne_marker (h : CheckPremise term ty e term' ty') (m : Marker) : e ≠ .marker m := by
  cases h <;> simp

theorem good (h : CheckPremise term ty e term' ty') (hs : s.Good)
    (hw : s.context.wellFormed ty = true) : (s.scopeWith e).Good := by
  refine hs.scopeWith h.placeholder? h.ne_marker fun x τ heq => ?_
  cases h with
  | forAll => cases heq
  | lam =>
    cases heq
    exact (Context.wellFormed_arrow.1 hw).1

theorem minted (h : CheckPremise term ty e term' ty') (hm : Minted s term ty) :
    Minted (s.scopeWith e) term' ty' := by
  have hscope : (∀ a ∈ e.names, a.index < s.supply.types.size) →
      ∀ e' ∈ (s.scopeWith e).context, ∀ a ∈ e'.names, a.index < s.supply.types.size := by
    intro he e' hmem
    rcases Context.mem_childScope.1 hmem with hmem | rfl | rfl
    · exact hm.context e' hmem
    · simp [Entry.names]
    · exact he
  cases h with
  | forAll =>
    refine ⟨hscope fun b hb => hm.type b ?_, hm.term, fun b hb => hm.type b ?_⟩
    · rw [List.mem_singleton.1 hb]
      exact List.mem_cons_self
    · exact List.mem_cons_of_mem _ hb
  | lam =>
    exact ⟨hscope fun b hb => hm.type b (List.mem_append_left _ hb), hm.term,
      fun b hb => hm.type b (List.mem_append_right _ hb)⟩

end CheckPremise

/-- Try the judgment in a child scope that begins with the entry. -/
def Judgment.below (e : Entry) (x : Judgment Unit) : Judgment Unit :=
  atomically (inChildScope (push e >>= fun _ => x))

theorem CheckPremise.checkStep_eq {term term' : Term} {ty ty' : Ty} {e : Entry}
    (h : CheckPremise term ty e term' ty') (check : Term → Ty → Judgment Unit)
    (synthesize : Term → Judgment Ty) (subtype : Ty → Ty → Judgment Unit) (s : State) :
    own.checkStep check synthesize subtype term ty s =
      (below e (check term' ty') <|> own.checkBySynthesis synthesize subtype term ty) s := by
  cases h with
  | forAll _ a _ =>
    -- The rule for lambdas does not apply, whatever the term is.
    have hlam : checkLambda check term (.forAll a ty') = reject := by cases term <;> rfl
    have hstep : own.checkStep check synthesize subtype term (.forAll a ty') =
        (rigidly a (check term ty') <|> checkLambda check term (.forAll a ty') <|>
          own.checkBySynthesis synthesize subtype term (.forAll a ty')) := by
      cases term <;> rfl
    rw [hstep, hlam]
    exact orElse_congr_run rfl fun _ _ => rfl
  | lam => rfl

section Below

variable {g : Growth} {e : Entry} {x : Judgment Unit} {s : State}

theorem Judgment.Evolves.below (hx : Evolves g x) (hp : e.placeholder? = none)
    (hm : ∀ m, e ≠ .marker m) : Atomic .nothing (below e x) :=
  ((evolves_push hp hm).bind fun _ => hx.anything).inChildScope.atomically

theorem below_outcome (hx : Evolves g x) (hp : e.placeholder? = none) (hm : ∀ m, e ≠ .marker m)
    (hs : s.Valid) : (below e x s).1 = (x (s.scopeWith e)).1 := by
  have hbody : (push e >>= fun _ => x) s.openScope.2 = x (s.scopeWith e) := rfl
  rcases hr : x (s.scopeWith e) with ⟨o, s'⟩
  obtain ⟨Δ, rest, -, -, hrun⟩ := ((evolves_push hp hm).bind fun _ => hx.anything).inChildScope_run
    hs (hbody.trans hr)
  cases o with
  | accepted => rw [Judgment.below, atomically_of_accepted hrun]
  | rejected => rw [Judgment.below, atomically_of_rejected hrun]
  | aborted => rw [Judgment.below, atomically_of_aborted hrun]

end Below

section Subsumption

variable {limit left : Nat} {term : Term} {ty : Ty} {error : TypeError} {s : State}

theorem checkBySynthesis_of_aborted {synthesize : Term → Judgment Ty}
    (subtype : Ty → Ty → Judgment Unit) (ty : Ty) (h : (synthesize term s).1 = .aborted error) :
    (own.checkBySynthesis synthesize subtype term ty s).1 = .aborted error := by
  have hrun : synthesize term s = (.aborted error, _) := Prod.ext h rfl
  rw [Opening.checkBySynthesis, atomically_of_aborted (bind_of_aborted hrun)]

theorem checkBySynthesis_raises_own (hgood : s.Good) (hw : s.context.wellFormed ty = true) :
    RaisesOnly (fun error => (own.synthesize limit left term s).1 = .aborted error ∨
      error = .depthLimitExceeded limit)
      (own.checkBySynthesis (own.synthesize limit left) (own.subtype limit left) term ty) s := by
  refine checkBySynthesis_raises (atomic_typing limit left).2.1 (typing_scoped limit left).1
    (fun _ _ _ hcomp => (subtype_raises limit left hcomp).mono fun _ => .inr) hgood hw ?_
  exact fun error s' h => .inl (congrArg Prod.fst h)

theorem checkStep_rejected {check : Term → Ty → Judgment Unit} {synthesize : Term → Judgment Ty}
    {subtype : Ty → Ty → Judgment Unit} {s' : State}
    (hc : ∀ term ty, Atomic .placeholders (check term ty)) (hs : s.Valid)
    (h : own.checkStep check synthesize subtype term ty s = (.rejected, s')) :
    ∃ s₁, s.Retries s₁ ∧ own.checkBySynthesis synthesize subtype term ty s₁ = (.rejected, s') := by
  unfold Opening.checkStep at h
  split at h
  · cases h
  obtain ⟨s₁, h₁, h⟩ := orElse_rejected h
  obtain ⟨s₂, h₂, h⟩ := orElse_rejected h
  have hr₁ := (atomic_checkForAll hc term ty).retries hs h₁
  exact ⟨s₂, hr₁.trans ((atomic_checkLambda hc term ty).retries hr₁.evolves.valid h₂), h⟩

theorem synthesize_of_check_rejected (hgood : s.Good) (hm : Minted s term ty)
    (h : (own.check limit (left + 1) term ty s).1 = .rejected) (error : TypeError) :
    (own.synthesize limit left term s).1 ≠ .aborted error := by
  intro herror
  let s₀ : State := { s with depth := s.depth + 1 }
  have hs₀ : s.Resumes s₀ := .withDepth s _
  have hstep : (own.checkStep (own.check limit left) (own.synthesize limit left)
      (own.subtype limit left) term ty s₀).1 = .rejected := by
    rw [Opening.check] at h
    exact h
  obtain ⟨s₁, hr, hrun⟩ := checkStep_rejected (atomic_typing limit left).1 (hs₀.valid hgood.valid)
    (Prod.ext hstep rfl)
  have herror := (synthesize_resumed hgood hm (hs₀.trans hr.resumes) limit left error).2 herror
  have haborted := checkBySynthesis_of_aborted (own.subtype limit left) ty herror
  rw [hrun] at haborted
  cases haborted

end Subsumption

/-- The second state has the entries `X` more, and may have given out more. -/
structure State.Widens (X : Context) (s t : State) : Prop where
  context : t.context = s.context ++ X
  types : s.supply.types.size ≤ t.supply.types.size
  markers : s.supply.markers ≤ t.supply.markers
  valid : t.Valid
  minted : ∀ a ∈ X.declares, a.index < t.supply.types.size

section Widened

variable {X : Context} {term : Term} {ty : Ty} {s t : State} {x : BindingId} {limit left : Nat}

theorem synthesize_widened (h : s.Widens X t) (hs : s.Good) (hm : Minted s term ty)
    (hterm : term.Avoids X) (hΓ : X.Avoids s.context) (limit left : Nat) (error : TypeError) :
    (own.synthesize limit left term t).1 = .aborted error ↔
      (own.synthesize limit left term s).1 = .aborted error := by
  have hinserts : State.Inserts X True s.context [] { t with context := s.context } t :=
    ⟨(List.append_nil _).symm, h.context.trans (List.append_nil _).symm,
      ⟨rfl, rfl, rfl, fun _ => rfl⟩, rfl, h.valid.cut h.context, h.valid, hΓ, h.minted⟩
  have hresumes : s.Resumes { t with context := s.context } := ⟨rfl, h.types, h.markers⟩
  rw [(((indifferent_typing limit left).2.1 term hterm).sameButFor hinserts).outcome]
  exact synthesize_resumed hs hm hresumes limit left error

theorem Minted.avoids (hm : Minted s term ty)
    (hnew : ∀ a ∈ X.declares, s.supply.types.size ≤ a.index)
    (hbinds : ∀ x ∈ term.bindings, x ∉ X.binds) : term.Avoids X ∧ X.Avoids s.context := by
  have hold : ∀ a : TypeId, a.index < s.supply.types.size → a ∉ X.declares :=
    fun a ha hmem => Nat.not_le_of_lt ha (hnew a hmem)
  exact ⟨⟨fun τ hτ a ha => hold a (hm.term τ hτ a ha), hbinds⟩,
    fun e he a ha => hold a (hm.context e he a ha)⟩

theorem State.OpensLambda.widens {q : TypeId} (h : s.OpensLambda x q t) (hs : s.Good) :
    ∃ X, s.Widens X t ∧ (∀ a ∈ X.declares, s.supply.types.size ≤ a.index) ∧ X.binds = [x] := by
  have hgood := (h.good hs).1
  obtain ⟨p, s₁, s₂, label, label', hp, hq, rfl⟩ := h
  have he₁ := (evolves_introduce _).result hs.valid hp
  have he₂ := (evolves_introduce _).result he₁.valid hq
  have hcontext : s₂.context = s.context ++ [.unsolved p] ++ [.unsolved q] := by
    rw [introduce_accepted hq, introduce_accepted hp]
  have hnew : p.index = s.supply.types.size ∧ q.index = s₁.supply.types.size := by
    cases hp
    cases hq
    exact ⟨rfl, rfl⟩
  let X : Context :=
    [.unsolved p, .unsolved q, .marker ⟨s₂.supply.markers⟩, .binding x (.placeholder p)]
  have hwidened : (s₂.scopeWith (.binding x (.placeholder p))).context = s.context ++ X := by
    simp [State.scopeWith, Context.childScope, hcontext, X]
  refine ⟨X, ⟨hwidened, ?_, ?_, hgood.valid, fun a ha => ?_⟩, fun a ha => ?_, rfl⟩
  · exact Nat.le_trans he₁.types he₂.types
  · exact Nat.le_trans he₁.markers (Nat.le_trans he₂.markers (Nat.le_succ _))
  · refine hgood.valid.placeholders a ?_
    rw [hwidened, Context.placeholders, List.filterMap_append]
    exact List.mem_append_right _ ha
  · have hpq : a = p ∨ a = q := by simpa using show a ∈ [p, q] from ha
    rcases hpq with rfl | rfl
    · exact Nat.le_of_eq hnew.1.symm
    · exact hnew.2 ▸ he₁.types

theorem checkStep_placeholder (check : Term → Ty → Judgment Unit) (synthesize : Term → Judgment Ty)
    (subtype : Ty → Ty → Judgment Unit) (term : Term) (q : TypeId) (s : State) :
    own.checkStep check synthesize subtype term (.placeholder q) s =
      own.checkBySynthesis synthesize subtype term (.placeholder q) s := by
  cases term <;> rfl

theorem check_placeholder_raises {q : TypeId} (hs : s.Good)
    (hw : s.context.wellFormed (.placeholder q) = true)
    (hterm : RaisesOnly (· = .depthLimitExceeded limit) (own.synthesize limit left term)
      { s with depth := s.depth + 1 }) :
    RaisesOnly (· = .depthLimitExceeded limit)
      (own.check limit (left + 1) term (.placeholder q)) s := by
  -- A term is checked against a placeholder by synthesis only.
  rw [Opening.check]
  refine .nested fun error s' hrun => ?_
  rw [checkStep_placeholder] at hrun
  rcases checkBySynthesis_raises_own (hs.withDepth (s.depth + 1)) hw error s' hrun with herror | herror
  · exact hterm error _ (Prod.ext herror rfl)
  · exact herror

/-- A lambda raises no error if its body raises none where the parameter is not bound, and does not refer
to it. -/
theorem synthesize_lam_raises {body : Term} (hs : s.Good) (hm : Minted s (.lam x body) ty)
    (hx : x ∉ body.bindings)
    (hbody : ∀ error, (own.synthesize limit left body s).1 ≠ .aborted error) :
    RaisesOnly (· = .depthLimitExceeded limit)
      (own.synthesize limit (left + 1) (.lam x body)) s := by
  rw [Opening.synthesize]
  refine .nested (synthesizeLambda_raises (atomic_typing limit left).1 (hs.valid.withDepth _) ?_)
  intro q t hopens
  cases left with
  | zero =>
    rw [Opening.check]
    exact .abort rfl
  | succ left =>
    obtain ⟨hgood, hw⟩ := hopens.good (hs.withDepth _)
    obtain ⟨X, hwidens, hnew, hbinds⟩ := hopens.widens (hs.withDepth _)
    have hm' : Minted s body ty := ⟨hm.context, hm.term, hm.type⟩
    have hwidens' : s.Widens X { t with depth := t.depth + 1 } :=
      ⟨hwidens.context, hwidens.types, hwidens.markers, hwidens.valid.withDepth _, hwidens.minted⟩
    obtain ⟨hterm, hΓ⟩ := hm'.avoids hnew fun y hy hmem => by
      rw [hbinds, List.mem_singleton] at hmem
      exact hx (hmem ▸ hy)
    refine check_placeholder_raises hgood hw fun error s' hrun => ?_
    have herror := (synthesize_widened hwidens' hs hm' hterm hΓ limit left error).1
      (congrArg Prod.fst hrun)
    -- The body has one level less here than where it is known to raise no error.
    rcases synthesize_level limit left body hs.valid with hexceeded | heq
    · exact Outcome.aborted.inj (herror.symm.trans hexceeded)
    · exact absurd (heq.trans herror) (hbody error)

end Widened

namespace CheckPremise

variable {limit left : Nat} {term term' : Term} {ty ty' : Ty} {e : Entry} {s : State}

theorem check_outcome (h : CheckPremise term ty e term' ty') (limit left : Nat) (s : State) :
    (own.check limit (left + 1) term ty s).1 =
      ((below e (own.check limit left term' ty') <|>
        own.checkBySynthesis (own.synthesize limit left) (own.subtype limit left) term ty :
          Judgment Unit) { s with depth := s.depth + 1 }).1 := by
  rw [Opening.check, ← h.checkStep_eq]
  rfl

theorem widens (h : CheckPremise term ty e term' ty') (hs : s.Good)
    (hw : s.context.wellFormed ty = true) (hm : Minted s term ty) :
    s.Widens [.marker ⟨s.supply.markers⟩, e] (s.scopeWith e) where
  context := by simp [State.scopeWith, Context.childScope]
  types := Nat.le_refl _
  markers := Nat.le_succ _
  valid := (h.good hs hw).valid
  minted := by
    cases h with
    | forAll =>
      intro b hb
      rw [List.mem_singleton.1 hb]
      exact hm.type _ List.mem_cons_self
    | lam =>
      intro b hb
      cases hb

variable (h : CheckPremise term ty e term' ty') (hs : s.Good)
  (hw : s.context.wellFormed ty = true) (hm : Minted s term ty)
  (hr : (own.check limit (left + 1) term' ty' (s.scopeWith e)).1 = .rejected)
include h hs hw hm hr

theorem falls_back :
    (own.check limit (left + 1) term ty s).1 = .aborted (.depthLimitExceeded limit) ∨
    ∃ s₁, s.Resumes s₁ ∧ (own.check limit (left + 1) term ty s).1 =
      (own.checkBySynthesis (own.synthesize limit left) (own.subtype limit left) term ty s₁).1 := by
  let s₀ : State := { s with depth := s.depth + 1 }
  have hvalid : s₀.Valid := hs.valid.withDepth _
  have hgood := h.good hs hw
  have hscope : (s.scopeWith e).Resumes (s₀.scopeWith e) := ⟨rfl, Nat.le_refl _, Nat.le_refl _⟩
  have hevolves := ((atomic_typing limit left).1 term' ty').evolves
  have hrule : (below e (own.check limit left term' ty') s₀).1 =
      (own.check limit left term' ty' (s₀.scopeWith e)).1 :=
    below_outcome hevolves h.placeholder? h.ne_marker hvalid
  rw [h.check_outcome]
  -- The rule has one level less for its premise than was needed to reject it.
  have hwithin := (withinLimit_typing (n := limit) (m := limit) (Nat.le_succ left)).1 term' ty'
  rcases outcome_withinLimit hwithin (hscope.valid hgood.valid) with hexceeded | heq
  · left
    have hrun : below e (own.check limit left term' ty') s₀ =
        (.aborted (.depthLimitExceeded limit), _) :=
      Prod.ext (hrule.trans hexceeded) rfl
    rw [orElse_of_aborted hrun]
  · right
    have hrejected := (check_resumed hgood.valid (h.minted hm) hscope limit (left + 1)).2 hr
    have hrun : below e (own.check limit left term' ty') s₀ = (.rejected, _) :=
      Prod.ext (hrule.trans (heq.symm.trans hrejected)) rfl
    have hretry := (hevolves.below h.placeholder? h.ne_marker).retries hvalid hrun
    refine ⟨_, (State.Resumes.withDepth s _).trans hretry.resumes, ?_⟩
    rw [orElse_of_rejected hrun]

theorem aborted_iff (hlevels : ¬ (own.check limit (left + 1) term ty s).1.Exceeded)
    (error : TypeError) :
    (own.check limit (left + 1) term ty s).1 = .aborted error ↔
      (own.synthesize limit (left + 1) term s).1 = .aborted error := by
  rcases h.falls_back hs hw hm hr with hexceeded | ⟨s₁, hresumes, hsame⟩
  · exact absurd ⟨limit, hexceeded⟩ hlevels
  have hresumed := synthesize_resumed hs hm hresumes limit left
  have hmore := synthesize_level limit left term hs.valid
  rw [hsame] at hlevels ⊢
  constructor
  · intro haborted
    have hraised := checkBySynthesis_raises_own (hresumes.good hs) (hresumes.context ▸ hw) error _
      (Prod.ext haborted rfl)
    have hne : error ≠ .depthLimitExceeded limit := by
      rintro rfl
      exact hlevels ⟨limit, haborted⟩
    have hfewer := (hresumed error).1 (hraised.resolve_right hne)
    rcases hmore with hexceeded | heq
    · rw [hexceeded] at hfewer
      exact absurd (Outcome.aborted.inj hfewer).symm hne
    · exact heq.trans hfewer
  · intro haborted
    rcases hmore with hexceeded | heq
    · exact absurd ⟨limit, checkBySynthesis_of_aborted _ ty ((hresumed _).2 hexceeded)⟩ hlevels
    · exact checkBySynthesis_of_aborted _ ty ((hresumed error).2 (heq.symm.trans haborted))

theorem raises_of_synthesize
    (hsynth : RaisesOnly (· = .depthLimitExceeded limit) (own.synthesize limit (left + 1) term) s) :
    RaisesOnly (· = .depthLimitExceeded limit) (own.check limit (left + 1) term ty) s := by
  intro error s' hrun
  refine ((typing_raises limit (left + 1)).1 term ty s hs hw error s' hrun).elim (fun hann => ?_) id
  have hlevels : ¬ (own.check limit (left + 1) term ty s).1.Exceeded := by
    rintro ⟨n, hn⟩
    rw [hrun] at hn
    cases hn
    cases hann
  have herror := (h.aborted_iff hs hw hm hr hlevels error).1 (congrArg Prod.fst hrun)
  exact hsynth error _ (Prod.ext herror rfl)

theorem synthesize_outside (hterm : term'.Avoids [e]) (hΓ : Context.Avoids [e] s.context)
    (error : TypeError) : (own.synthesize limit left term' s).1 ≠ .aborted error := by
  intro herror
  have hm' : Minted s term' ty := by cases h <;> exact ⟨hm.context, hm.term, hm.type⟩
  have hterm' : term'.Avoids [.marker ⟨s.supply.markers⟩, e] := ⟨hterm.annotations, hterm.bindings⟩
  have hinside := (synthesize_widened (h.widens hs hw hm) hs hm' hterm' hΓ limit left error).2 herror
  exact synthesize_of_check_rejected (h.good hs hw) (h.minted hm) hr error hinside

theorem raises_of_avoids (hterm : term'.Avoids [e]) (hΓ : Context.Avoids [e] s.context) :
    RaisesOnly (· = .depthLimitExceeded limit) (own.check limit (left + 1) term ty) s := by
  refine h.raises_of_synthesize hs hw hm hr ?_
  have houtside := h.synthesize_outside hs hw hm hr hterm hΓ
  cases h with
  | forAll =>
    intro error s' hrun
    rcases synthesize_level limit left term hs.valid with hexceeded | heq
    · exact absurd hexceeded (houtside _)
    · exact absurd (heq.symm.trans (congrArg Prod.fst hrun)) (houtside error)
  | lam x =>
    refine synthesize_lam_raises hs hm (fun hx => ?_) houtside
    exact hterm.bindings x hx List.mem_cons_self

end CheckPremise

theorem check_raises_of_unannotated {limit left : Nat} {term : Term} {ty : Ty} {s : State}
    (hs : s.Good) (hw : s.context.wellFormed ty = true) (hterm : term.annotated = []) :
    RaisesOnly (· = .depthLimitExceeded limit) (own.check limit left term ty) s := by
  intro error s' hrun
  refine ((typing_raises limit left).1 term ty s hs hw error s' hrun).elim (fun hann => ?_) id
  have hblames := (typing_blames limit left).1 term ty s error s' hrun
  cases error with
  | annotationIllFormed τ =>
    obtain ⟨part, hpart⟩ := hblames
    rw [hterm] at hpart
    cases hpart
  | annotationMismatch part τ =>
    rw [TypeError.Blames, hterm] at hblames
    cases hblames
  | _ => cases hann

/-- After a rule that follows the type has rejected its premise, checking raises the errors of synthesis and
no others; none about an annotation if the term does not refer to what the rule declares, or has no
annotation. -/
theorem check_after_rejection (c : Checker) (s : State) (hs : s.Good) {term term' : Term}
    {ty ty' : Ty} {e : Entry} (h : CheckPremise term ty e term' ty')
    (hw : s.context.wellFormed ty = true) (hm : Minted s term ty)
    (hr : (c.check term' ty' (s.scopeWith e)).1 = .rejected) :
    (¬ (c.check term ty s).1.Exceeded → ∀ error,
      (c.check term ty s).1 = .aborted error ↔ (c.synthesize term s).1 = .aborted error) ∧
    (term'.Avoids [e] → Context.Avoids [e] s.context →
      RaisesOnly (· = .depthLimitExceeded c.limits.maxDepth) (c.check term ty) s) ∧
    (term.annotated = [] →
      RaisesOnly (· = .depthLimitExceeded c.limits.maxDepth) (c.check term ty) s) := by
  change (own.check c.limits.maxDepth (c.limits.maxDepth - s.depth) term' ty' (s.scopeWith e)).1 =
    .rejected at hr
  cases hlevels : c.limits.maxDepth - s.depth with
  | zero =>
    rw [hlevels, Opening.check] at hr
    cases hr
  | succ left =>
    have hcheck : c.check term ty s = own.check c.limits.maxDepth (left + 1) term ty s := by
      rw [← hlevels]
      rfl
    have hsynth : c.synthesize term s = own.synthesize c.limits.maxDepth (left + 1) term s := by
      rw [← hlevels]
      rfl
    rw [hlevels] at hr
    refine ⟨fun hne error => ?_, fun hterm hΓ error s' hrun => ?_, check_raises_of_unannotated hs hw⟩
    · rw [hcheck] at hne
      rw [hcheck, hsynth]
      exact h.aborted_iff hs hw hm hr hne error
    · exact h.raises_of_avoids hs hw hm hr hterm hΓ error s' (hcheck.symm.trans hrun)

namespace Reread

def start : State where
  supply := { types := #["a", "b"], bindings := #["x"] }

def identity : Term := .lam ⟨0⟩ (.ref ⟨0⟩)

def endo (a : TypeId) : Ty := .arrow (.var a) (.var a)

def sink : Ty := .arrow (.var ⟨0⟩) .void

theorem start_good : start.Good := by decide

theorem identity_after_rejection :
    let c : Checker := {}
    let inner := start.scopeWith (.var ⟨0⟩)
    ((c.check (.ann identity (endo ⟨0⟩)) sink inner).1 = .rejected ∧ ∀ error,
      (c.check (.ann identity (endo ⟨0⟩)) (.forAll ⟨0⟩ sink) start).1 = .aborted error ↔
        (c.synthesize (.ann identity (endo ⟨0⟩)) start).1 = .aborted error) ∧
    ((c.check (.ann identity (.forAll ⟨1⟩ (endo ⟨1⟩))) sink inner).1 = .rejected ∧
      RaisesOnly (· = .depthLimitExceeded 4096)
        (c.check (.ann identity (.forAll ⟨1⟩ (endo ⟨1⟩))) (.forAll ⟨0⟩ sink)) start) ∧
    ((c.check identity sink inner).1 = .rejected ∧
      RaisesOnly (· = .depthLimitExceeded 4096) (c.check identity (.forAll ⟨0⟩ sink)) start) ∧
    ((c.check (.ann .unit .void) (.arrow .void .void) (start.scopeWith (.binding ⟨0⟩ .void))).1 =
        .rejected ∧
      RaisesOnly (· = .depthLimitExceeded 4096)
        (c.check (.lam ⟨0⟩ (.ann .unit .void)) (.arrow .void (.arrow .void .void))) start) := by
  -- The identity is annotated with a type that mentions `a`, with one that does not, and not at
  -- all; the body of a constant function is annotated.
  intro c inner
  refine ⟨⟨by decide +kernel, ?_⟩, ⟨by decide +kernel, ?_⟩, ⟨by decide +kernel, ?_⟩,
    ⟨by decide +kernel, ?_⟩⟩
  · have hblamed : (c.check (.ann identity (endo ⟨0⟩)) (.forAll ⟨0⟩ sink) start).1 =
        .aborted (.annotationIllFormed (endo ⟨0⟩)) := by decide +kernel
    refine (check_after_rejection c start start_good (.forAll ..) (by decide)
      ⟨by decide, by decide, by decide⟩ (by decide +kernel)).1 ?_
    rintro ⟨limit, hlimit⟩
    rw [hblamed] at hlimit
    cases hlimit
  · exact (check_after_rejection c start start_good (.forAll ..) (by decide)
      ⟨by decide, by decide, by decide⟩ (by decide +kernel)).2.1
      ⟨by unfold Ty.Avoids; decide, by decide⟩ nofun
  · exact (check_after_rejection c start start_good (.forAll ..) (by decide)
      ⟨by decide, by decide, by decide⟩ (by decide +kernel)).2.2 rfl
  · exact (check_after_rejection c start start_good (.lam ..) (by decide)
      ⟨by decide, by decide, by decide⟩ (by decide +kernel)).2.1
      ⟨by unfold Ty.Avoids; decide, by decide⟩ nofun

/-- Outside the scope of `a` the annotation `a → a` is ill-formed; and a parameter that is `∀ a. a → a` can
be used as `∀ b. b → b`, but not one whose type is to be found. -/
theorem annotations_blamed :
    let c : Checker := {}
    let parameter : Ty := .forAll ⟨0⟩ (endo ⟨0⟩)
    let annotated : Term := .ann (.ref ⟨0⟩) (.forAll ⟨1⟩ (endo ⟨1⟩))
    start.Good ∧
    (start.context.wellFormed (.forAll ⟨0⟩ sink) = true ∧
      (c.check (.ann identity (endo ⟨0⟩)) sink (start.scopeWith (.var ⟨0⟩))).1 = .rejected ∧
      (c.check (.ann identity (endo ⟨0⟩)) (.forAll ⟨0⟩ sink) start).1 =
        .aborted (.annotationIllFormed (endo ⟨0⟩))) ∧
    (start.context.wellFormed (.arrow parameter .void) = true ∧
      (c.check annotated .void (start.scopeWith (.binding ⟨0⟩ parameter))).1 = .rejected ∧
      (c.check (.lam ⟨0⟩ annotated) (.arrow parameter .void) start).1 =
        .aborted (.annotationMismatch (.ref ⟨0⟩) (.forAll ⟨1⟩ (endo ⟨1⟩)))) := by
  intro c parameter annotated
  exact ⟨start_good, ⟨by decide, by decide +kernel, by decide +kernel⟩, by decide,
    by decide +kernel, by decide +kernel⟩

end Reread
end HigherRank
