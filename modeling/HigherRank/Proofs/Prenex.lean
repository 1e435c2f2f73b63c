import HigherRank.Proofs.Assignment
import HigherRank.Proofs.Inversion

set_option autoImplicit false

/-!
# Prenex programs in a context

The condition on types, bindings and terms under which checking stays among prenex types, and how it
passes through resolution, into child scopes and along the growth of a context. What is opened below a
quantifier must be told apart from what is declared, so the condition also speaks of names.
-/
namespace HigherRank

/-- The type is prenex and in scope, and its quantified variables are not declared. -/
structure Ty.PrenexIn (Γ : Context) (ty : Ty) : Prop where
  prenex : ty.prenex = true
  wellFormed : Γ.wellFormed ty = true
  distinct : ty.leading.Nodup
  apart : ∀ a ∈ ty.leading, a ∉ Γ.rigid

theorem Context.SimplySolved.resolve {Γ : Context} (h : Γ.SimplySolved) (p : TypeId) :
    (Γ.resolve Γ.length p).quantifierFree = true :=
  resolve_induction (P := fun _ τ => τ.quantifierFree = true) (fun _ => rfl)
    (fun p τ _ hp hg => Ty.quantifierFree_replace (h p τ hp) (fun _ _ => rfl) fun q _ => hg q) _ p

theorem Context.SimplySolved.leading_apply {Γ : Context} (h : Γ.SimplySolved) (ty : Ty) :
    (Γ.apply ty).leading = ty.leading :=
  Ty.leading_replace (fun _ _ => rfl) fun p _ =>
    Ty.leading_eq_nil_of_quantifierFree (h.resolve p)

theorem Context.SimplySolved.matrix_apply {Γ : Context} (h : Γ.SimplySolved) (ty : Ty) :
    (Γ.apply ty).matrix = Γ.apply ty.matrix :=
  Ty.matrix_replace (fun _ _ => rfl) fun p _ => Ty.matrix_eq_of_quantifierFree (h.resolve p)

namespace Ty

theorem quantifierFree_of_isMonotype {ty : Ty} (h : ty.prenex = true)
    (hm : ty.isMonotype = true) : ty.quantifierFree = true := by
  cases ty with
  | forAll a body => cases hm
  | _ => exact h

theorem occurrences_replace {g : TypeId → Ty} {ty : Ty} {a : TypeId}
    (h : a ∈ (ty.replace var g).occurrences) :
    a ∈ ty.occurrences ∨ ∃ p ∈ ty.placeholders, a ∈ (g p).occurrences := by
  induction ty with
  | void => cases h
  | var b => exact .inl h
  | placeholder p => exact .inr ⟨p, by simp [placeholders], h⟩
  | forAll b body ih => exact ih h
  | arrow parameter result ihp ihr =>
    simp only [replace, occurrences, placeholders, List.mem_append] at h ⊢
    rcases h with h | h
    · rcases ihp h with ho | ⟨p, hp, ha⟩
      · exact .inl (.inl ho)
      · exact .inr ⟨p, .inl hp, ha⟩
    · rcases ihr h with ho | ⟨p, hp, ha⟩
      · exact .inl (.inr ho)
      · exact .inr ⟨p, .inr hp, ha⟩

theorem quantifiers_replace {f g : TypeId → Ty} {ty : Ty}
    (hf : ∀ a ∈ ty.occurrences, (f a).quantifiers = [])
    (hg : ∀ p ∈ ty.placeholders, (g p).quantifiers = []) :
    (ty.replace f g).quantifiers = ty.quantifiers := by
  induction ty with
  | void => rfl
  | var b => exact hf b (by simp [occurrences])
  | placeholder p => exact hg p (by simp [placeholders])
  | forAll b body ih => exact congrArg (b :: ·) (ih hf hg)
  | arrow parameter result ihp ihr =>
    simp only [occurrences, placeholders, List.mem_append] at hf hg
    simp only [replace, quantifiers, ihp (fun a ha => hf a (.inl ha)) fun p hp => hg p (.inl hp),
      ihr (fun a ha => hf a (.inr ha)) fun p hp => hg p (.inr hp)]

theorem quantifiers_subst {ty κ : Ty} {a : TypeId} (hκ : κ.quantifierFree = true) :
    (ty.subst a κ).quantifiers = ty.quantifiers := by
  refine quantifiers_replace (fun b _ => ?_) fun _ _ => rfl
  split
  · exact quantifiers_eq_nil_of_quantifierFree hκ
  · rfl

end Ty

theorem Context.SimplySolved.quantifiers_apply {Γ : Context} (h : Γ.SimplySolved) (ty : Ty) :
    (Γ.apply ty).quantifiers = ty.quantifiers :=
  Ty.quantifiers_replace (fun _ _ => rfl) fun p _ =>
    Ty.quantifiers_eq_nil_of_quantifierFree (h.resolve p)

namespace Ty.PrenexIn

variable {Γ Δ : Context} {a : TypeId} {ty body parameter result : Ty}

theorem of_quantifierFree (h : ty.quantifierFree = true) (hw : Γ.wellFormed ty = true) :
    ty.PrenexIn Γ := by
  have hl := leading_eq_nil_of_quantifierFree h
  exact ⟨prenex_of_quantifierFree h, hw, by simp [hl], by simp [hl]⟩

theorem quantifierFree_parts (h : (Ty.arrow parameter result).PrenexIn Γ) :
    parameter.quantifierFree = true ∧ result.quantifierFree = true := by
  have hq : (parameter.quantifierFree && result.quantifierFree) = true := h.prenex
  rwa [Bool.and_eq_true] at hq

theorem parts (h : (Ty.arrow parameter result).PrenexIn Γ) :
    parameter.PrenexIn Γ ∧ result.PrenexIn Γ := by
  obtain ⟨hp, hr⟩ := h.quantifierFree_parts
  obtain ⟨hwp, hwr⟩ := Context.wellFormed_arrow.1 h.wellFormed
  exact ⟨of_quantifierFree hp hwp, of_quantifierFree hr hwr⟩

theorem mono (h : ty.PrenexIn Γ) (hr : Δ.rigid = Γ.rigid)
    (hp : Γ.placeholders ⊆ Δ.placeholders) : ty.PrenexIn Δ :=
  ⟨h.prenex, Context.wellFormed_mono (hr ▸ fun _ => id) hp h.wellFormed, h.distinct,
    fun b hb => hr ▸ h.apart b hb⟩

theorem grows {n : Nat} (hg : Context.Grows .placeholders n Γ Δ) (h : ty.PrenexIn Γ) :
    ty.PrenexIn Δ :=
  h.mono hg.rigid hg.placeholders

theorem apply (hs : Γ.SimplySolved) (ho : Γ.Ordered) (h : ty.PrenexIn Γ) :
    (Γ.apply ty).PrenexIn Γ := by
  have hl : (Γ.apply ty).leading = ty.leading := hs.leading_apply ty
  exact ⟨prenex_replace h.prenex fun p _ => hs.resolve p, ho.wellFormed_apply h.wellFormed,
    hl ▸ h.distinct, hl ▸ h.apart⟩

theorem not_mem_leading (h : (Ty.forAll a body).PrenexIn Γ) : a ∉ body.leading :=
  (List.nodup_cons.1 h.distinct).1

theorem declare (h : ty.PrenexIn Γ) (ha : a ∉ ty.leading) (m : Marker) :
    ty.PrenexIn (Γ.childScope m (.var a)) := by
  refine ⟨h.prenex, Context.wellFormed_childScope h.wellFormed, h.distinct, fun b hb => ?_⟩
  exact Context.not_mem_rigid_childScope (h.apart b hb) fun heq => ha (heq ▸ hb)

theorem body_rigid (h : (Ty.forAll a body).PrenexIn Γ) (m : Marker) :
    body.PrenexIn (Γ.childScope m (.var a)) := by
  have ha : a ∈ (Γ.childScope m (.var a)).rigid := by
    rw [Context.rigid_childScope]
    simp [Entry.rigid?]
  refine ⟨h.prenex, Context.wellFormed_body (Context.wellFormed_childScope h.wellFormed) ha,
    (List.nodup_cons.1 h.distinct).2, fun b hb => ?_⟩
  exact Context.not_mem_rigid_childScope (h.apart b (List.mem_cons_of_mem _ hb)) fun heq =>
    h.not_mem_leading (heq ▸ hb)

theorem body_flexible {q : TypeId} (h : (Ty.forAll a body).PrenexIn Γ) (hr : Δ.rigid = Γ.rigid)
    (hp : Γ.placeholders ⊆ Δ.placeholders) (hq : q ∈ Δ.placeholders) :
    (body.subst a (.placeholder q)).PrenexIn Δ := by
  have hΔ := h.mono hr hp
  have hl : (body.subst a (.placeholder q)).leading = body.leading := leading_subst rfl
  refine ⟨prenex_subst hΔ.prenex rfl,
    Context.wellFormed_subst hΔ.wellFormed (Context.wellFormed_placeholder.2 hq), ?_, ?_⟩
  · exact hl ▸ (List.nodup_cons.1 hΔ.distinct).2
  · exact hl ▸ fun b hb => hΔ.apart b (List.mem_cons_of_mem _ hb)

end Ty.PrenexIn

namespace Context

/-- Solutions have no quantifier, and the types of bindings are prenex. -/
structure Prenex (Γ : Context) : Prop where
  simplySolved : Γ.SimplySolved
  bindings : ∀ x ty, .binding x ty ∈ Γ → ty.PrenexIn Γ

/-- The identifier may be declared: it is not a variable yet and no binding speaks of it. -/
def New (Γ : Context) (a : TypeId) : Prop := a ∉ Γ.rigid ∧ Γ.environment.Avoids a

theorem Grows.environment {n : Nat} {Γ Δ : Context} (h : Grows .placeholders n Γ Δ) :
    Δ.environment = Γ.environment := by
  have hnone : ∀ news : Context, (∀ e ∈ news, e.MintedFrom n) →
      news.filterMap Entry.binding? = [] := fun news hnews =>
    List.filterMap_eq_nil_iff.2 fun e he => by
      obtain ⟨q, hq, -⟩ := hnews e he
      cases e <;> simp [Entry.placeholder?] at hq <;> rfl
  obtain ⟨Δ₁, tail, rfl, hr, ht⟩ := h
  have heq : Δ₁.filterMap Entry.binding? = Γ.filterMap Entry.binding? := by
    refine hr.filterMap_eq fun e block hb => ?_
    cases hb with
    | self => rfl
    | filled news hf hnews =>
      cases hf
      rw [List.filterMap_append, hnone news hnews]
      rfl
  simp only [Context.environment, List.filterMap_reverse, List.filterMap_append]
  rw [hnone tail ht, heq, List.append_nil]

theorem Grows.binding_mem {n : Nat} {Γ Δ : Context} (h : Grows .placeholders n Γ Δ)
    {x : BindingId} {ty : Ty} : .binding x ty ∈ Δ ↔ .binding x ty ∈ Γ := by
  rw [← mem_environment, h.environment, mem_environment]

theorem New.grows {n : Nat} {Γ Δ : Context} {a : TypeId} (hg : Grows .placeholders n Γ Δ)
    (h : Γ.New a) : Δ.New a := by
  rw [New, hg.rigid, hg.environment]
  exact h

theorem environment_childScope (Γ : Context) (m : Marker) (e : Entry) :
    (Γ.childScope m e).environment = e.binding?.toList ++ Γ.environment := by
  cases e <;> simp [childScope, environment, List.filterMap_cons, Entry.binding?]

theorem New.declare {Γ : Context} {a b : TypeId} (h : Γ.New b) (hne : b ≠ a) (m : Marker) :
    (Γ.childScope m (.var a)).New b := by
  refine ⟨not_mem_rigid_childScope h.1 hne, ?_⟩
  rw [environment_childScope]
  exact h.2

theorem New.assume {Γ : Context} {a : TypeId} {x : BindingId} {ty : Ty} (h : Γ.New a)
    (hq : ty.quantifierFree = true) (hw : Γ.wellFormed ty = true) (m : Marker) :
    (Γ.childScope m (.binding x ty)).New a := by
  refine ⟨?_, fun y σ hy => ?_⟩
  · simpa [rigid_childScope, Entry.rigid?] using h.1
  · rw [environment_childScope] at hy
    rcases List.mem_cons.1 hy with heq | hy
    · cases heq
      rw [← Ty.free_eq_occurrences_of_quantifierFree hq,
        Ty.quantifiers_eq_nil_of_quantifierFree hq]
      exact ⟨fun ha => h.1 ((wellFormed_iff.1 hw).1 a ha), by simp⟩
    · exact h.2 y σ hy

theorem Prenex.grows {n : Nat} {Γ Δ : Context} (hg : Grows .placeholders n Γ Δ)
    (hs : Δ.SimplySolved) (h : Γ.Prenex) : Δ.Prenex :=
  ⟨hs, fun x ty hx => (h.bindings x ty (hg.binding_mem.1 hx)).grows hg⟩

theorem Prenex.declare {Γ : Context} {a : TypeId} (h : Γ.Prenex) (ha : Γ.environment.Avoids a)
    (m : Marker) : (Γ.childScope m (.var a)).Prenex := by
  refine ⟨fun p τ hp => h.simplySolved p τ (by simpa [mem_childScope] using hp), fun x ty hx => ?_⟩
  have hx : .binding x ty ∈ Γ := by simpa [mem_childScope] using hx
  have hty := h.bindings x ty hx
  refine hty.declare ?_ m
  rw [← Ty.quantifiers_of_prenex hty.prenex]
  exact (ha x ty (mem_environment.2 hx)).2

theorem Prenex.assume {Γ : Context} {x : BindingId} {ty : Ty} (h : Γ.Prenex)
    (hty : ty.PrenexIn Γ) (m : Marker) : (Γ.childScope m (.binding x ty)).Prenex := by
  have hr : (Γ.childScope m (.binding x ty)).rigid = Γ.rigid := by
    simp [rigid_childScope, Entry.rigid?]
  have hp : Γ.placeholders ⊆ (Γ.childScope m (.binding x ty)).placeholders := by
    simp [placeholders_childScope]
  refine ⟨fun p τ hp => h.simplySolved p τ (by simpa [mem_childScope] using hp), fun y σ hy => ?_⟩
  have hmem : .binding y σ ∈ Γ ∨ y = x ∧ σ = ty := by simpa [mem_childScope] using hy
  rcases hmem with hmem | ⟨rfl, rfl⟩
  · exact (h.bindings y σ hmem).mono hr hp
  · exact hty.mono hr hp

end Context

/-- The annotations are prenex without placeholders, and their quantified variables are new. -/
structure Term.PrenexIn (Γ : Context) (term : Term) : Prop where
  annotations : ∀ σ ∈ term.annotations, σ.prenex = true ∧ σ.ground = true
  distinct : term.quantifiers.Nodup
  new : ∀ a ∈ term.quantifiers, Γ.New a

namespace Term.PrenexIn

variable {Γ Δ : Context} {term function argument : Term}

theorem mono (h : term.PrenexIn Γ) (hn : ∀ a ∈ term.quantifiers, Γ.New a → Δ.New a) :
    term.PrenexIn Δ :=
  ⟨h.annotations, h.distinct, fun a ha => hn a ha (h.new a ha)⟩

theorem app (h : (Term.app function argument).PrenexIn Γ) :
    function.PrenexIn Γ ∧ argument.PrenexIn Γ := by
  obtain ⟨ha, hd, hn⟩ := h
  simp only [Term.quantifiers, Term.annotations, List.flatMap_append, List.mem_append,
    List.nodup_append] at ha hd hn
  exact ⟨⟨fun σ hσ => ha σ (.inl hσ), hd.1, fun a h => hn a (.inl h)⟩,
    ⟨fun σ hσ => ha σ (.inr hσ), hd.2.1, fun a h => hn a (.inr h)⟩⟩

theorem ann {σ : Ty} (h : (Term.ann term σ).PrenexIn Γ) (hw : Γ.wellFormed σ = true) :
    term.PrenexIn Γ ∧ σ.PrenexIn Γ ∧ σ.ground = true ∧
      (∀ a ∈ σ.leading, Γ.environment.Avoids a) ∧ ∀ a ∈ σ.leading, a ∉ term.quantifiers := by
  obtain ⟨ha, hd, hn⟩ := h
  have hσ := ha σ (by simp [Term.annotations])
  simp only [Term.quantifiers, Term.annotations, List.flatMap_cons, List.mem_append,
    List.nodup_append, List.mem_cons, Ty.quantifiers_of_prenex hσ.1] at ha hd hn
  refine ⟨⟨fun τ hτ => ha τ (.inr hτ), hd.2.1, fun a h => hn a (.inr h)⟩,
    ⟨hσ.1, hw, hd.1, fun a h => (hn a (.inl h)).1⟩, hσ.2, fun a h => (hn a (.inl h)).2,
    fun a h h' => hd.2.2 a h a h' rfl⟩

end Term.PrenexIn
end HigherRank
