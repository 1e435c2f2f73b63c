import HigherRank.Proofs.GeneralitySoundness

set_option autoImplicit false

/-!
# Models that look ahead

A quantified type below another is opened by a placeholder before the variables above it are declared,
but the type that the placeholder stands for may use them. Such a model looks ahead: for each scope it
knows variables that will be declared in it, and takes them as declared where the scope begins. A
judgment is guided by a model if it keeps to it whenever it is accepted. That it is not rejected can be
promised only to models that do not look ahead.
-/
namespace HigherRank

open Judgment
open Opening (own)

/-- For each scope, variables that will be declared in it. -/
abbrev Foresight := Marker → List TypeId

namespace Foresight

def update (f : Foresight) (m : Marker) (bs : List TypeId) : Foresight :=
  fun m' => if m' = m then bs else f m'

def Looks (f : Foresight) : Prop := ∃ m, f m ≠ []

variable {f : Foresight} {m m' : Marker} {bs : List TypeId}

theorem update_self : f.update m bs m = bs := if_pos rfl

theorem update_ne (h : m' ≠ m) : f.update m bs m' = f m' := if_neg h

theorem Looks.of_update (h : (f.update m []).Looks) : f.Looks := by
  obtain ⟨m', hm'⟩ := h
  by_cases heq : m' = m
  · rw [heq, update_self] at hm'
    exact absurd rfl hm'
  · rw [update_ne heq] at hm'
    exact ⟨m', hm'⟩

end Foresight

/-- The entry, and after a marker the variables that are foreseen in its scope. -/
def Entry.foreseen (f : Foresight) : Entry → Context
  | marker m => .marker m :: (f m).map .var
  | e => [e]

namespace Context

def foreseen (Γ : Context) (f : Foresight) : Context := Γ.flatMap (Entry.foreseen f)

variable {Γ Δ : Context} {f : Foresight} {m : Marker} {e : Entry} {p : TypeId} {τ ty : Ty}
  {bs : List TypeId}

theorem foreseen_append : foreseen (Γ ++ Δ) f = Γ.foreseen f ++ Δ.foreseen f :=
  List.flatMap_append

theorem foreseen_cons (he : ∀ m, e ≠ .marker m) : foreseen (e :: Γ) f = e :: Γ.foreseen f := by
  cases e with
  | marker m => exact absurd rfl (he m)
  | _ => rfl

theorem foreseen_marker : foreseen (.marker m :: Γ) f = .marker m :: (f m).map .var ++ Γ.foreseen f :=
  rfl

theorem mem_foreseen (h : e ∈ Γ.foreseen f) : e ∈ Γ ∨ ∃ a, e = .var a := by
  obtain ⟨e', he', h⟩ := List.mem_flatMap.1 h
  cases e' with
  | marker m =>
    rcases List.mem_cons.1 h with rfl | h
    · exact .inl he'
    · obtain ⟨a, -, rfl⟩ := List.mem_map.1 h
      exact .inr ⟨a, rfl⟩
  | _ =>
    cases List.mem_singleton.1 h
    exact .inl he'

theorem solved_mem_foreseen (h : .solved p τ ∈ Γ) : .solved p τ ∈ Γ.foreseen f :=
  List.mem_flatMap.2 ⟨_, h, List.mem_singleton_self _⟩

theorem rigid_foreseen : Γ.rigid ⊆ (Γ.foreseen f).rigid := fun _ ha =>
  mem_rigid.2 (List.mem_flatMap.2 ⟨_, mem_rigid.1 ha, List.mem_singleton_self _⟩)

theorem placeholders_foreseen : (Γ.foreseen f).placeholders = Γ.placeholders := by
  have hnone : ∀ bs : List TypeId, (bs.map Entry.var).filterMap Entry.placeholder? = [] := fun bs => by
    simp [List.filterMap_eq_nil_iff, Entry.placeholder?]
  induction Γ with
  | nil => rfl
  | cons e Γ ih =>
    cases e with
    | marker m =>
      simp only [Context.placeholders, foreseen_marker, List.filterMap_append, List.filterMap_cons,
        hnone] at ih ⊢
      simpa [Entry.placeholder?] using ih
    | _ =>
      rw [foreseen_cons (by simp)]
      simp only [Context.placeholders, List.filterMap_cons] at ih ⊢
      rw [ih]

theorem wellFormed_foreseen (h : Γ.wellFormed ty = true) : (Γ.foreseen f).wellFormed ty = true :=
  wellFormed_mono rigid_foreseen (placeholders_foreseen ▸ fun _ => id) h

theorem foreseen_update (hm : .marker m ∉ Γ) : Γ.foreseen (f.update m bs) = Γ.foreseen f := by
  induction Γ with
  | nil => rfl
  | cons e Γ ih =>
    rw [List.mem_cons, not_or] at hm
    cases e with
    | marker m' =>
      have hne : m' ≠ m := fun heq => hm.1 (heq ▸ rfl)
      rw [foreseen_marker, foreseen_marker, Foresight.update_ne hne, ih hm.2]
    | _ => rw [foreseen_cons (by simp), foreseen_cons (by simp), ih hm.2]

theorem foreseen_eq (h : ¬ f.Looks) : Γ.foreseen f = Γ := by
  induction Γ with
  | nil => rfl
  | cons e Γ ih =>
    cases e with
    | marker m =>
      have hm : f m = [] := Classical.byContradiction fun hm => h ⟨m, hm⟩
      rw [foreseen_marker, hm, ih]
      rfl
    | _ => rw [foreseen_cons (by simp), ih]

theorem foreseen_eq_of_placeholders (h : ∀ e ∈ Γ, e.placeholder? ≠ none) : Γ.foreseen f = Γ := by
  induction Γ with
  | nil => rfl
  | cons e Γ ih =>
    have he : ∀ m, e ≠ .marker m := by
      rintro m rfl
      exact h _ List.mem_cons_self rfl
    rw [foreseen_cons he, ih fun e' he' => h e' (List.mem_cons_of_mem _ he')]

theorem Refines.foreseen {n : Nat} (h : Refines n Γ Δ) (f : Foresight) :
    Refines n (Γ.foreseen f) (Δ.foreseen f) := by
  induction h with
  | nil => exact .nil
  | @cons e block Γ Δ he _ ih =>
    rw [← List.singleton_append, foreseen_append, foreseen_append]
    refine Blockwise.append ?_ ih
    cases he with
    | self => exact Refines.refl ..
    | filled news hf hnews =>
      obtain ⟨p, τ⟩ := hf
      have hblock : Context.foreseen (news ++ [.solved p τ]) f = news ++ [.solved p τ] := by
        refine foreseen_eq_of_placeholders fun e he => ?_
        rcases List.mem_append.1 he with he | he
        · obtain ⟨q, hq, -⟩ := hnews e he
          simp [hq]
        · simp [List.mem_singleton.1 he, Entry.placeholder?]
      rw [hblock]
      exact Blockwise.single (.filled news (.solved p τ) hnews)

theorem foreseen_childScope (hm : .marker m ∉ Γ) (he : ∀ m', e ≠ .marker m') :
    (Γ.childScope m e).foreseen (f.update m bs) =
      Γ.foreseen f ++ (.marker m :: bs.map .var) ++ [e] := by
  have hmarker : foreseen [.marker m] (f.update m bs) = .marker m :: bs.map .var := by
    rw [foreseen_marker, Foresight.update_self]
    exact List.append_nil _
  have hentry : foreseen [e] (f.update m bs) = [e] := foreseen_cons he
  rw [childScope, foreseen_append, foreseen_append, foreseen_update hm, hmarker, hentry]

theorem rigid_foreseen_childScope (hm : .marker m ∉ Γ) (he : ∀ m', e ≠ .marker m') :
    ((Γ.childScope m e).foreseen (f.update m bs)).rigid =
      (Γ.foreseen f).rigid ++ bs ++ e.rigid?.toList := by
  have hvars : (bs.map Entry.var).filterMap Entry.rigid? = bs := by
    rw [List.filterMap_map]
    exact List.filterMap_some
  have hmarker : (Entry.marker m :: bs.map Entry.var).filterMap Entry.rigid? = bs :=
    (List.filterMap_cons_none rfl).trans hvars
  rw [foreseen_childScope hm he, Context.rigid, List.filterMap_append, List.filterMap_append, hmarker]
  cases e <;> rfl

theorem ModeledBy.childScope {θ : Assignment} (h : (Γ.foreseen f).ModeledBy θ)
    (hm : .marker m ∉ Γ) (he : ∀ m', e ≠ .marker m')
    (hfits : Entry.Fits θ (Γ.foreseen f ++ .marker m :: bs.map .var) e) :
    ((Γ.childScope m e).foreseen (f.update m bs)).ModeledBy θ := by
  rw [foreseen_childScope hm he]
  refine throughout_append.2 ⟨throughout_append.2 ⟨h, fun before e' after heq => ?_⟩,
    throughout_singleton.2 (by rwa [List.append_nil])⟩
  have hnone : e'.placeholder? = none ∧ ∀ p τ, e' ≠ .solved p τ := by
    have hmem : e' ∈ Entry.marker m :: bs.map .var := by simp [heq]
    rcases List.mem_cons.1 hmem with rfl | hmem
    · exact ⟨rfl, by simp⟩
    · obtain ⟨a, -, rfl⟩ := List.mem_map.1 hmem
      exact ⟨rfl, by simp⟩
  exact ⟨by simp [hnone.1], by simp [hnone.1], fun p τ h => absurd h (hnone.2 p τ)⟩

end Context

theorem Solves.foreseen {p : TypeId} {ty : Ty} {Γ Δ : Context} (h : Solves p ty Γ Δ)
    (f : Foresight) : Solves p ty (Γ.foreseen f) (Δ.foreseen f) := by
  cases h with
  | same heq => exact .same heq
  | direct hm hw =>
    simp only [Context.foreseen_append, Context.foreseen_cons, ne_eq, reduceCtorEq,
      not_false_eq_true, implies_true]
    exact .direct hm (Context.wellFormed_foreseen hw)
  | reversed heq hp =>
    simp only [Context.foreseen_append, Context.foreseen_cons, ne_eq, reduceCtorEq,
      not_false_eq_true, implies_true]
    exact .reversed heq (Context.placeholders_foreseen.symm ▸ hp)

def State.outlook (s : State) (f : Foresight) : List TypeId := (s.context.foreseen f).rigid

/-- The assignment models a valid state ahead of its time. -/
structure State.ModeledAhead (s : State) (f : Foresight) (θ : Assignment) : Prop where
  valid : s.Valid
  solved : s.context.SimplySolved
  model : (s.context.foreseen f).ModeledBy θ

namespace State

variable {s s' s₁ : State} {f : Foresight} {θ θ' : Assignment} {a p q : TypeId} {ty body ρ : Ty}
  {bs : List TypeId}

theorem Evolves.outlook (h : s.Evolves .nothing s₁) (f : Foresight) :
    s₁.outlook f = s.outlook f :=
  ((Context.grows_nothing.1 h.context).foreseen f).rigid

theorem outlook_scopeWith (hs : s.Valid) (a : TypeId) :
    (s.scopeWith (.var a)).outlook (f.update ⟨s.supply.markers⟩ []) = s.outlook f ++ [a] :=
  (Context.rigid_foreseen_childScope hs.marker_fresh (by simp)).trans
    (congrArg (· ++ [a]) (List.append_nil _))

theorem outlook_scopeWithNew (hs : s.Valid) (label : String) :
    (s.scopeWithNew label).outlook (f.update ⟨s.supply.markers⟩ bs) = s.outlook f ++ bs :=
  (Context.rigid_foreseen_childScope hs.marker_fresh (by simp)).trans (List.append_nil _)

namespace ModeledAhead

theorem apply (h : s.ModeledAhead f θ) (ty : Ty) : (s.context.apply ty).assign θ = ty.assign θ :=
  Context.assign_apply (fun _ _ hp => h.model.solved (Context.solved_mem_foreseen hp)) ty

theorem simpleOver (h : s.ModeledAhead f θ) (hp : p ∈ s.context.placeholders) :
    (θ p).SimpleOver (s.outlook f) :=
  h.model.simpleOver (Context.placeholders_foreseen.symm ▸ hp)

theorem withDepth (h : s.ModeledAhead f θ) (depth : Nat) : { s with depth }.ModeledAhead f θ :=
  ⟨h.valid.withDepth depth, h.solved, h.model⟩

theorem retries (h : s.ModeledAhead f θ) (hr : s.Retries s₁) : s₁.ModeledAhead f θ :=
  ⟨hr.evolves.valid, hr.context ▸ h.solved, hr.context ▸ h.model⟩

theorem agree (h : s.ModeledAhead f θ) (hagree : ∀ p ∈ s.context.placeholders, θ' p = θ p) :
    s.ModeledAhead f θ' := by
  refine ⟨h.valid, h.solved, h.model.agree_of_wellFormed (fun p τ hp => ?_) ?_⟩
  · rcases Context.mem_foreseen hp with hp | ⟨a, ha⟩
    · exact Context.wellFormed_foreseen (h.valid.ordered.solution hp).2
    · cases ha
  · rwa [Context.placeholders_foreseen]

theorem assign_opened (h : s.ModeledAhead f θ) (hagree : ∀ p ∈ s.context.placeholders, θ' p = θ p)
    (ha : a ∉ s.outlook f) (hw : s.context.wellFormed (.forAll a body) = true) :
    (body.subst a (.placeholder q)).assign θ' = (body.assign θ).subst a (θ' q) :=
  h.model.assign_opened (by rwa [Context.placeholders_foreseen]) ha (Context.wellFormed_foreseen hw)

theorem scopeWith (h : s.ModeledAhead f θ) (a : TypeId) :
    (s.scopeWith (.var a)).ModeledAhead (f.update ⟨s.supply.markers⟩ []) θ where
  valid := h.valid.scopeWith rfl (by simp)
  solved := h.solved.childScope (by simp)
  model := h.model.childScope h.valid.marker_fresh (by simp)
    ⟨by simp [Entry.placeholder?], by simp [Entry.placeholder?], by simp⟩

theorem scopeWithNew (h : s.ModeledAhead f θ) (label : String)
    (hρ : ρ.SimpleOver (s.outlook f ++ bs)) :
    (s.scopeWithNew label).ModeledAhead (f.update ⟨s.supply.markers⟩ bs)
      (θ.update ⟨s.supply.types.size⟩ ρ) where
  valid := h.valid.scopeWithNew label
  solved := h.solved.childScope (by simp)
  model := by
    have hmodel := (h.agree (h.valid.update_agrees θ ρ)).model
    refine hmodel.childScope h.valid.marker_fresh (by simp) (Entry.fits_unsolved ?_)
    rw [Assignment.update_self]
    refine hρ.mono fun b hb => ?_
    rw [Context.mem_rigid]
    rcases List.mem_append.1 hb with hb | hb
    · exact List.mem_append_left _ (Context.mem_rigid.1 hb)
    · exact List.mem_append_right _ (List.mem_cons_of_mem _ (List.mem_map.2 ⟨b, hb, rfl⟩))

/-- At the end of a scope the model forgets what was declared and foreseen in it. -/
theorem leave {rest : Context} {m : Marker} (h : s₁.ModeledAhead (f.update m bs) θ) (hs' : s'.Valid)
    (heq : s₁.context = s'.context ++ .marker m :: rest) (hm : .marker m ∉ s'.context) :
    s'.ModeledAhead f θ := by
  refine ⟨hs', fun p τ hp => h.solved p τ (by simp [heq, hp]), ?_⟩
  have hmodel := h.model
  rw [heq, Context.foreseen_append, Context.foreseen_update hm] at hmodel
  exact hmodel.left

end ModeledAhead
end State

namespace Judgment

/-- If the judgment is accepted, the model goes on to the state that is left. It is rejected only if it
may be. -/
structure Guided (f : Foresight) (x : Search Halt Unit) (s : State) (θ : Assignment)
    (mayReject : Prop) : Prop where
  accepted : ∀ s', x s = (.accepted (), s') → ∃ θ', s'.ModeledAhead f θ' ∧
    ∀ p ∈ s.context.placeholders, θ' p = θ p
  rejected : ∀ s', x s = (.rejected, s') → mayReject

namespace Guided

variable {f : Foresight} {x y : Search Halt Unit} {s s₁ : State} {θ θ₁ : Assignment}
  {mayReject mayReject' : Prop} {bs : List TypeId}

theorem of_accepted (hx : x s = (.accepted (), s₁)) (hs₁ : s₁.ModeledAhead f θ) :
    Guided f x s θ mayReject := by
  refine ⟨fun s' h => ?_, fun s' h => ?_⟩
  · cases hx.symm.trans h
    exact ⟨θ, hs₁, fun _ _ => rfl⟩
  · cases hx.symm.trans h

theorem accept (hs : s.ModeledAhead f θ) : Guided f (accept ()) s θ mayReject := .of_accepted rfl hs

theorem reject (h : mayReject) : Guided f reject s θ mayReject := ⟨nofun, fun _ _ => h⟩

theorem abort (error : TypeError) : Guided f (abort error) s θ mayReject := ⟨nofun, nofun⟩

theorem stop : Guided f stop s θ mayReject := ⟨nofun, nofun⟩

theorem imp (h : Guided f x s θ mayReject) (hr : mayReject → mayReject') :
    Guided f x s θ mayReject' :=
  ⟨h.accepted, fun s' hs' => hr (h.rejected s' hs')⟩

theorem later (hrun : x s = y s₁) (hsub : s.context.placeholders ⊆ s₁.context.placeholders)
    (hagree : ∀ p ∈ s.context.placeholders, θ₁ p = θ p) (hy : Guided f y s₁ θ₁ mayReject) :
    Guided f x s θ mayReject := by
  refine ⟨fun s' h => ?_, fun s' h => hy.rejected s' (hrun ▸ h)⟩
  obtain ⟨θ', hs', hθ'⟩ := hy.accepted s' (hrun ▸ h)
  exact ⟨θ', hs', fun p hp => (hθ' p (hsub hp)).trans (hagree p hp)⟩

theorem congr (hrun : x s = y s) (hy : Guided f y s θ mayReject) : Guided f x s θ mayReject :=
  .later hrun (fun _ => id) (fun _ _ => rfl) hy

theorem read {α : Type} {x : Search Halt α} {v : α} {y : α → Search Halt Unit}
    (hx : x s = (.accepted v, s)) (hy : Guided f (y v) s θ mayReject) :
    Guided f (x >>= y) s θ mayReject :=
  .congr (bind_of_accepted hx) hy

theorem bind {g : Growth} {y : Unit → Search Halt Unit} (hx : Guided f x s θ mayReject)
    (he : Evolves g x) (hs : s.Valid)
    (hy : ∀ s₁ θ₁, x s = (.accepted (), s₁) → s₁.ModeledAhead f θ₁ →
      (∀ p ∈ s.context.placeholders, θ₁ p = θ p) → Guided f (y ()) s₁ θ₁ mayReject) :
    Guided f (x >>= y) s θ mayReject := by
  rcases hrun : x s with ⟨⟨⟩ | _ | error, s₁⟩
  · obtain ⟨θ₁, hs₁, hagree⟩ := hx.accepted s₁ hrun
    exact .later (bind_of_accepted hrun) (he.result hs hrun).context.placeholders hagree
      (hy s₁ θ₁ hrun hs₁ hagree)
  · refine ⟨fun s' h => ?_, fun _ _ => hx.rejected s₁ hrun⟩
    cases (bind_of_rejected hrun).symm.trans h
  · refine ⟨fun s' h => ?_, fun s' h => ?_⟩ <;> cases (bind_of_aborted hrun).symm.trans h

theorem orElse {g : Growth} (ha : Atomic g x) (hs : s.ModeledAhead f θ)
    (hx : Guided f x s θ mayReject)
    (hy : ∀ s₁, s.Retries s₁ → s₁.ModeledAhead f θ → Guided f y s₁ θ mayReject') :
    Guided f (x <|> y) s θ (mayReject ∧ mayReject') := by
  rcases hrun : x s with ⟨⟨⟩ | _ | error, s₁⟩
  · obtain ⟨θ₁, hs₁, hagree⟩ := hx.accepted s₁ hrun
    refine ⟨fun s' h => ?_, fun s' h => ?_⟩
    · cases (orElse_of_accepted hrun).symm.trans h
      exact ⟨θ₁, hs₁, hagree⟩
    · cases (orElse_of_accepted hrun).symm.trans h
  · have hretries := ha.retries hs.valid hrun
    refine .later (orElse_of_rejected hrun) (hretries.context ▸ fun _ => id) (fun _ _ => rfl) ?_
    exact (hy s₁ hretries (hs.retries hretries)).imp fun h => ⟨hx.rejected s₁ hrun, h⟩
  · refine ⟨fun s' h => ?_, fun s' h => ?_⟩ <;> cases (orElse_of_aborted hrun).symm.trans h

theorem atomically (hx : Guided f x s θ mayReject) :
    Guided f (Judgment.atomically x) s θ mayReject := by
  refine ⟨fun s' h => hx.accepted s' (atomically_accepted h), fun s' h => ?_⟩
  rcases hrun : x s with ⟨⟨⟩ | _ | error, s₁⟩
  · cases (atomically_of_accepted hrun).symm.trans h
  · exact hx.rejected s₁ hrun
  · cases (atomically_of_aborted hrun).symm.trans h

theorem nested (hx : Guided f x { s with depth := s.depth + 1 } θ mayReject) :
    Guided f (Judgment.nested x) s θ mayReject := by
  refine ⟨fun s' h => ?_, fun s' h => ?_⟩
  · obtain ⟨s₁, hrun, rfl⟩ := nested_accepted h
    obtain ⟨θ', hs₁, hagree⟩ := hx.accepted s₁ hrun
    exact ⟨θ', hs₁.withDepth _, hagree⟩
  · rcases hrun : x { s with depth := s.depth + 1 } with ⟨o, s₁⟩
    simp only [Judgment.nested, hrun] at h
    cases h
    exact hx.rejected s₁ hrun

/-- A scope is guided by a model of its own, which agrees on what the scope has found. -/
theorem scope (bs : List TypeId) (he : Evolves .anything x) (hs : s.Valid)
    (haccepted : ∀ s₁, x s.openScope.2 = (.accepted (), s₁) →
      ∃ θ', s₁.ModeledAhead (f.update ⟨s.supply.markers⟩ bs) θ' ∧
        ∀ p ∈ s.context.placeholders, θ' p = θ p)
    (hrejected : ∀ s₁, x s.openScope.2 = (.rejected, s₁) → mayReject) :
    Guided f (Judgment.atomically (inChildScope x)) s θ mayReject := by
  refine .atomically ⟨fun s' h => ?_, fun s' h => ?_⟩
  · obtain ⟨s₁, rest, hrun, hsplit, -⟩ := inChildScope_accepted h
    obtain ⟨heq, hm⟩ := Context.eq_append_of_splitAt? hsplit
    obtain ⟨θ', hs₁, hagree⟩ := haccepted s₁ hrun
    exact ⟨θ', hs₁.leave (he.inChildScope.result hs h).valid heq hm, hagree⟩
  · rcases hrun : x s.openScope.2 with ⟨o, s₁⟩
    obtain ⟨Δ, rest, -, -, heq⟩ := he.inChildScope_run hs hrun
    cases heq.symm.trans h
    exact hrejected s₁ hrun

theorem rigidly {g : Growth} {a : TypeId} (he : Evolves g x) (hs : s.Valid)
    (hx : Guided (f.update ⟨s.supply.markers⟩ []) x (s.scopeWith (.var a)) θ mayReject) :
    Guided f (Judgment.rigidly a x) s θ mayReject := by
  refine scope [] ((evolves_declare a).bind fun _ => he.anything) hs (fun s₁ hrun => ?_)
    fun s₁ hrun => hx.rejected s₁ hrun
  obtain ⟨θ', hs₁, hagree⟩ := hx.accepted s₁ hrun
  refine ⟨θ', hs₁, fun p hp => hagree p ?_⟩
  rw [State.scopeWith, Context.placeholders_childScope]
  exact List.mem_append_left _ hp

theorem flexibly {a : TypeId} {ty ρ : Ty} {body : Ty → Search Halt Unit}
    (he : ∀ ty, Evolves .placeholders (body ty)) (hs : s.Valid)
    (hx : ∀ label, Guided (f.update ⟨s.supply.markers⟩ bs)
      (body (ty.subst a (.placeholder ⟨s.supply.types.size⟩))) (s.scopeWithNew label)
      (θ.update ⟨s.supply.types.size⟩ ρ) mayReject) :
    Guided f (Judgment.flexibly a ty body) s θ mayReject := by
  refine scope bs (evolves_introducing a ty he).anything hs (fun s₁ hrun => ?_)
    fun s₁ hrun => (hx _).rejected s₁ hrun
  obtain ⟨θ', hs₁, hagree⟩ := (hx _).accepted s₁ hrun
  refine ⟨θ', hs₁, fun p hp => (hagree p ?_).trans (hs.update_agrees θ ρ p hp)⟩
  rw [State.scopeWithNew, Context.placeholders_childScope]
  exact List.mem_append_left _ hp

theorem predicatively {p : TypeId} {ty : Ty}
    (hx : s.context.impredicative p (s.context.apply ty) = false → Guided f x s θ mayReject) :
    Guided f (HigherRank.predicatively p ty x) s θ mayReject := by
  cases hpred : s.context.impredicative p (s.context.apply ty) with
  | true => exact .congr (if_pos hpred) .stop
  | false => exact .congr (if_neg (by simp [hpred])) (hx hpred)

end Guided
end Judgment
end HigherRank
