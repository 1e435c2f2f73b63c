import HigherRank.Proofs.Convergence
import HigherRank.Proofs.Foresight

set_option autoImplicit false

/-!
# Predicative subtyping finds the order

If a model of the context makes one type at least as general as another, the comparison keeps to the
model, and is not rejected unless the model looks ahead. Two quantified types are compared by opening the
lower one first. The model foresees the variables of the upper one for this attempt, which may then be
rejected; the next attempt declares them, and opens the lower type where they can be used.
-/
namespace HigherRank

open Judgment
open Opening (own)

namespace Ty

variable {rigid names : List TypeId} {a q : TypeId} {sub sup body τ υ τ' υ' ty : Ty}

theorem quantifiers_eq (ty : Ty) : ty.quantifiers = ty.leading ++ ty.matrix.quantifiers := by
  induction ty with
  | forAll a body ih => exact congrArg (a :: ·) ih
  | _ => rfl

theorem count_matrix (c : TypeId) (ty : Ty) :
    ty.quantifiers.count c = ty.leading.count c + ty.matrix.quantifiers.count c := by
  rw [quantifiers_eq, List.count_append]

theorem Separate.append {rigid' : List TypeId} (h : Separate rigid names)
    (hnew : ∀ a ∈ rigid', a ∉ names) : Separate (rigid ++ rigid') names := by
  rw [separate_iff] at h ⊢
  refine ⟨h.1, fun a ha hmem => ?_⟩
  rcases List.mem_append.1 hmem with hmem | hmem
  · exact h.2 a ha hmem
  · exact hnew a hmem ha

/-- No identifier is quantified twice, or quantified and declared. The quantifiers in front of the upper
type are excepted, since they are foreseen. -/
structure Clear (rigid : List TypeId) (sub sup : Ty) : Prop where
  separate : Separate rigid (sub.quantifiers ++ sup.matrix.quantifiers)
  distinct : Separate [] (sub.quantifiers ++ sup.quantifiers)

namespace Clear

theorem of_separate (h : Separate rigid (sub.quantifiers ++ sup.quantifiers)) :
    Clear rigid sub sup := by
  refine ⟨h.of_le fun c => ?_, h.of_le fun c => ?_⟩
  · simp only [List.count_append, count_matrix c sup]
    omega
  · simp

theorem parts (h : Clear rigid (.arrow τ υ) (.arrow τ' υ')) :
    Clear rigid τ' τ ∧ Clear rigid υ υ' :=
  ⟨.of_separate (Separate.parts h.separate).1, .of_separate (Separate.parts h.separate).2⟩

theorem not_mem (h : Clear rigid (.forAll a body) sup) : a ∉ rigid :=
  h.separate.not_mem (List.mem_cons_self ..)

theorem opened (h : Clear rigid (.forAll a body) sup) :
    Clear (rigid ++ sup.leading) (body.subst a (.placeholder q)) sup := by
  have hless : ∀ c, body.quantifiers.count c ≤ (forAll a body).quantifiers.count c := fun c => by
    rw [count_forAll]
    exact Nat.le_add_right ..
  constructor
  · rw [quantifiers_subst rfl]
    refine Separate.append (h.separate.of_le fun c => ?_) fun c hc hmem => ?_
    · have := hless c
      simp only [List.count_append]
      omega
    · have hle := h.distinct c
      have := hless c
      have hleading := List.count_pos_iff.2 hc
      have hrest := List.count_pos_iff.2 hmem
      simp only [List.count_append, count_matrix c sup] at hle hrest
      omega
  · rw [quantifiers_subst rfl]
    refine h.distinct.of_le fun c => ?_
    have := hless c
    simp only [List.count_append]
    omega

theorem declared (h : Clear rigid sub (.forAll a body)) : Clear (rigid ++ [a]) sub body := by
  constructor
  · refine Separate.append h.separate fun c hc hmem => ?_
    have hle := h.distinct c
    have hrest := List.count_pos_iff.2 hmem
    cases List.mem_singleton.1 hc
    simp only [List.count_append, count_forAll, if_true] at hle hrest
    have hcount := count_matrix a body
    change 0 < sub.quantifiers.count a + body.matrix.quantifiers.count a at hrest
    omega
  · refine h.distinct.of_le fun c => ?_
    simp only [List.count_append, count_forAll]
    omega

end Clear
end Ty

def Variance.Clear : Variance → List TypeId → Ty → Prop
  | covariant, rigid, ty => Ty.Clear rigid .void ty
  | contravariant, rigid, ty => Ty.Clear rigid ty .void

namespace Variance.Clear

variable {v : Variance} {rigid : List TypeId} {ty τ υ : Ty}

theorem of_separate (h : Ty.Separate rigid ty.quantifiers) : v.Clear rigid ty := by
  cases v with
  | covariant => exact .of_separate h
  | contravariant => exact .of_separate ((List.append_nil ty.quantifiers).symm ▸ h)

theorem separate_arrow (h : v.Clear rigid (.arrow τ υ)) :
    Ty.Separate rigid (Ty.arrow τ υ).quantifiers := by
  cases v with
  | covariant => exact h.separate
  | contravariant => exact List.append_nil (Ty.arrow τ υ).quantifiers ▸ h.separate

end Variance.Clear

namespace Variance.Between

variable {v : Variance} {rigid : List TypeId} {ρ σ σ₁ σ₂ : Ty}

theorem of_arrow (h : v.Between rigid ρ (.arrow σ₁ σ₂)) (hρ : ρ.quantifierFree = true) :
    ∃ ρ₁ ρ₂, ρ = .arrow ρ₁ ρ₂ ∧ v.flip.Between rigid ρ₁ σ₁ ∧ v.Between rigid ρ₂ σ₂ := by
  cases v with
  | covariant =>
    cases h with
    | arrow h₁ h₂ => exact ⟨_, _, rfl, h₁, h₂⟩
    | opened _ _ => cases hρ
  | contravariant =>
    cases h with
    | arrow h₁ h₂ => exact ⟨_, _, rfl, h₁, h₂⟩
    | declared _ => cases hρ

theorem eq_of_quantifierFree (h : v.Between rigid ρ σ) (hρ : ρ.quantifierFree = true)
    (hσ : σ.quantifierFree = true) : ρ = σ := by
  cases v with
  | covariant => exact Ty.Generalizes.eq_of_quantifierFree h hρ hσ
  | contravariant => exact (Ty.Generalizes.eq_of_quantifierFree h hσ hρ).symm

theorem leaves_le (h : v.Between rigid ρ σ) (hρ : ρ.quantifierFree = true) :
    σ.leaves ≤ ρ.leaves := by
  cases v with
  | covariant => exact (Ty.Generalizes.leaves_le h).1 hρ
  | contravariant => exact (Ty.Generalizes.leaves_le h).2 hρ

theorem absent {θ : Assignment} {p : TypeId} {ty : Ty} (h : v.Between rigid (θ p) (ty.assign θ))
    (hp : (θ p).quantifierFree = true) (hm : ty.isMonotype = true) (hne : ty ≠ .placeholder p) :
    p ∉ ty.placeholders := by
  -- A type other than the placeholder has more leaves than that, if it has the placeholder in it
  -- and no quantifier in front.
  intro hmem
  have hle := h.leaves_le hp
  cases ty with
  | void => cases hmem
  | var a => cases hmem
  | placeholder q => exact hne (congrArg Ty.placeholder (List.mem_singleton.1 hmem).symm)
  | forAll a body => cases hm
  | arrow τ υ =>
    change (τ.assign θ).leaves + (υ.assign θ).leaves ≤ (θ p).leaves at hle
    have hτ := (τ.assign θ).leaves_pos
    have hυ := (υ.assign θ).leaves_pos
    rcases List.mem_append.1 hmem with hmem | hmem
    · have := Ty.leaves_le_assign (θ := θ) hmem
      omega
    · have := Ty.leaves_le_assign (θ := θ) hmem
      omega

end Variance.Between

/-- A constraint on a placeholder, against a resolved type, that the model satisfies. -/
structure Promised (f : Foresight) (θ : Assignment) (s : State) (v : Variance) (p : TypeId) (ty : Ty) :
    Prop extends Apart s p ty where
  ahead : s.ModeledAhead f θ
  between : v.Between (s.outlook f) (θ p) (ty.assign θ)
  clear : v.Clear (s.outlook f) ty

namespace Promised

variable {f : Foresight} {θ : Assignment} {s s₁ s₂ : State} {v : Variance} {p p₁ p₂ a : TypeId}
  {ty body τ υ : Ty}

theorem declared (h : Promised f θ s v p ty) : p ∈ s.context.placeholders :=
  Context.placeholder_mem_of_unsolved h.unsolved

theorem quantifierFree (h : Promised f θ s v p ty) : (θ p).quantifierFree = true :=
  Ty.quantifierFree_of_simple (h.ahead.simpleOver h.declared).simple

theorem body_rigid (h : Promised f θ s .covariant p (.forAll a body)) :
    Promised (f.update ⟨s.supply.markers⟩ []) θ (s.scopeWith (.var a)) .covariant p body where
  toApart := h.toApart.body_rigid
  ahead := h.ahead.scopeWith a
  between := by
    rw [State.outlook_scopeWith h.valid]
    exact Ty.Generalizes.of_forAll_right h.between
  clear := by
    rw [State.outlook_scopeWith h.valid]
    exact Ty.Clear.declared h.clear

theorem body_flexible (h : Promised f θ s .contravariant p (.forAll a body)) :
    ∃ ρ, ∀ label, Promised (f.update ⟨s.supply.markers⟩ []) (θ.update ⟨s.supply.types.size⟩ ρ)
      (s.scopeWithNew label) .contravariant p (body.subst a (.placeholder ⟨s.supply.types.size⟩)) := by
  obtain ⟨ρ, hρ, hbody⟩ := Ty.Generalizes.of_forAll_left h.between
  rw [Ty.leading_eq_nil_of_quantifierFree h.quantifierFree] at hρ hbody
  have hagree := h.valid.update_agrees θ ρ
  refine ⟨ρ, fun label => ⟨h.toApart.body_flexible label, h.ahead.scopeWithNew label hρ, ?_, ?_⟩⟩
  · rw [State.outlook_scopeWithNew h.valid, h.ahead.assign_opened hagree (Ty.Clear.not_mem h.clear)
      h.wellFormed, Assignment.update_self, hagree p h.declared]
    exact hbody
  · rw [State.outlook_scopeWithNew h.valid]
    exact Ty.Clear.opened h.clear

theorem solved {Γ : Context} (h : Promised f θ s v p ty) (hsolves : Solves p ty s.context Γ)
    (hpred : s.context.impredicative p ty = false) : { s with context := Γ }.ModeledAhead f θ := by
  have he := hsolves.evolves h.valid
  have hfree := hsolves.quantifierFree he.valid.ordered hpred
  have hsimple : (ty.assign θ).quantifierFree = true :=
    h.ahead.model.quantifierFree (Context.wellFormed_foreseen h.wellFormed) hfree
  refine ⟨he.valid, hsolves.simplySolved (Ty.prenex_of_quantifierFree hfree) h.ahead.solved, ?_⟩
  exact (hsolves.foreseen f).modeledBy h.ahead.model
    (h.between.eq_of_quantifierFree h.quantifierFree hsimple)

theorem looks {before after : Context} (h : Promised f θ s v p (.var a))
    (hΓ : s.context = before ++ .unsolved p :: after) (ha : a ∉ Context.rigid before) : f.Looks := by
  -- A variable that is not declared where it is needed was foreseen.
  refine Classical.byContradiction fun hblind => ha ?_
  have hmodel := h.ahead.model
  have heq : θ p = .var a := h.between.eq_of_quantifierFree h.quantifierFree rfl
  rw [Context.foreseen_eq hblind, hΓ] at hmodel
  refine (hmodel before _ after rfl).scope p rfl a ?_
  rw [heq]
  exact List.mem_singleton_self a

theorem part {θ' : Assignment} {s' : State} {v' : Variance} {p' : TypeId} {ty' : Ty}
    (h : Promised f θ s v p (.arrow τ υ)) (he : s.Evolves .nothing s')
    (hle : ∀ c, ty'.quantifiers.count c ≤ (Ty.arrow τ υ).quantifiers.count c)
    (hapart : Apart s' p' ty') (hs' : s'.ModeledAhead f θ')
    (hbetween : v'.Between (s.outlook f) (θ' p') (ty'.assign θ')) : Promised f θ' s' v' p' ty' := by
  refine ⟨hapart, hs', he.outlook f ▸ hbetween, .of_separate ?_⟩
  rw [he.outlook f]
  exact h.clear.separate_arrow.of_le fun c => Nat.add_le_add_left (hle c) _

end Promised

theorem exists_articulated {s : State} {p : TypeId} (hp : .unsolved p ∈ s.context) :
    ∃ p₁ p₂ s₁, (articulate p : Search Halt (TypeId × TypeId)) s =
      (.accepted (p₁, p₂), s₁) := by
  rcases hslot : s.context.slot p with error | ⟨before, after⟩
  · exact absurd hp (Context.slot_eq_error.1 hslot).1
  · exact ⟨_, _, _, articulate_of_slot hslot⟩

theorem State.ModeledAhead.articulate {f : Foresight} {θ : Assignment} {s s₁ : State}
    {p p₁ p₂ : TypeId} {ρ₁ ρ₂ : Ty} (h : s.ModeledAhead f θ) (heq : θ p = .arrow ρ₁ ρ₂)
    (hrun : (Judgment.articulate p : Search Halt (TypeId × TypeId)) s =
      (.accepted (p₁, p₂), s₁)) :
    ∃ θ₁, s₁.ModeledAhead f θ₁ ∧ (∀ q ∈ s.context.placeholders, θ₁ q = θ q) ∧ θ₁ p₁ = ρ₁ ∧
      θ₁ p₂ = ρ₂ := by
  have ha := articulated_of_accepted h.valid hrun
  obtain ⟨before, after, hbefore, hafter⟩ := articulate_accepted hrun
  obtain rfl : p₁ = ⟨s.supply.types.size⟩ := congrArg TypeId.mk ha.parameter
  obtain rfl : p₂ = ⟨s.supply.types.size + 1⟩ := congrArg TypeId.mk ha.result
  have hagree := h.valid.split_agrees θ ρ₁ ρ₂
  have hp₁ := θ.split_parameter s.supply.types.size ρ₁ ρ₂
  have hp₂ := θ.split_result s.supply.types.size ρ₁ ρ₂
  refine ⟨_, ⟨ha.evolves.valid, articulate_simplySolved hrun h.solved, ?_⟩, hagree, hp₁, hp₂⟩
  have hmodel := (h.agree hagree).model
  have hp : p ∈ s.context.placeholders := by simp [hbefore, Entry.placeholder?]
  rw [hbefore, Context.foreseen_append, Context.foreseen_cons (by simp)] at hmodel
  rw [hafter, Context.foreseen_append, Context.foreseen_cons (by simp),
    Context.foreseen_cons (by simp), Context.foreseen_cons (by simp)]
  refine hmodel.split ?_
  rw [hp₁, hp₂, ← heq]
  exact hagree p hp

/-- Instantiation keeps to a model that satisfies the constraint. -/
def InstantiationGuided (next : Variance → TypeId → Ty → Search Halt Unit) : Prop :=
  ∀ f θ s v p ty, Promised f θ s v p ty → Guided f (next v p ty) s θ f.Looks

section Instantiation

variable {next : Variance → TypeId → Ty → Search Halt Unit}
  (hn : ∀ v p ty, Atomic .nothing (next v p ty)) (hr : InstantiationRenames next)
  (ih : InstantiationGuided next) {f : Foresight} {θ : Assignment} {s : State} {v : Variance}
  {p : TypeId} {ty : Ty}
include hn hr ih

theorem arrow_guided {τ υ : Ty} (h : Promised f θ s v p (.arrow τ υ)) :
    Guided f (atomically (articulate p >>= fun parts => next v.flip parts.1 τ >>= fun _ =>
      resolve υ >>= fun result => next v parts.2 result)) s θ f.Looks := by
  obtain ⟨ρ₁, ρ₂, heq, h₁, h₂⟩ := h.between.of_arrow h.quantifierFree
  obtain ⟨p₁, p₂, s₁, hrun⟩ := exists_articulated h.unsolved
  have ha := articulated_of_accepted h.valid hrun
  obtain ⟨θ₁, hs₁, hagree₁, hp₁, hp₂⟩ := h.ahead.articulate heq hrun
  obtain ⟨hτ, hυ⟩ := Context.wellFormed_arrow.1 h.wellFormed
  refine .atomically (.later (bind_of_accepted hrun) ha.evolves.context.placeholders hagree₁ ?_)
  have hparameter : Promised f θ₁ s₁ v.flip p₁ τ := by
    refine h.part ha.evolves (fun c => ?_) (h.toApart.parameter ha) hs₁ ?_
    · rw [Ty.count_arrow]
      exact Nat.le_add_right ..
    · rw [hp₁, Ty.assign_agree hτ hagree₁]
      exact h₁
  refine (ih _ _ _ _ _ _ hparameter).bind (hn _ _ _).evolves ha.evolves.valid
    fun s₂ θ₂ hrun₁ hs₂ hagree₂ => .read rfl (ih _ _ _ _ _ _ ?_)
  have he₁ := (hn _ _ _).evolves.result ha.evolves.valid hrun₁
  refine h.part (ha.evolves.trans he₁) (fun c => ?_) (h.toApart.result hn hr ha hrun₁) hs₂ ?_
  · rw [hs₂.solved.quantifiers_apply, Ty.count_arrow]
    exact Nat.le_add_left ..
  · have hagree : ∀ q ∈ s.context.placeholders, θ₂ q = θ q := fun q hq =>
      (hagree₂ q (ha.evolves.context.placeholders hq)).trans (hagree₁ q hq)
    rw [hs₂.apply, Ty.assign_agree hυ hagree,
      hagree₂ _ (Context.placeholder_mem_of_unsolved ha.resultOpen), hp₂]
    exact h₂

theorem instantiateStep_guided (h : Promised f θ s v p ty)
    (hpred : s.context.impredicative p ty = false) :
    Guided f (own.instantiateStep next v p ty) s θ f.Looks := by
  have happly : s.context.apply ty = ty := h.resolved.apply_eq
  have hmentions : ¬ ty.mentions p = true := fun hp => h.absent (Ty.mentions_iff.1 hp)
  refine .read rfl ?_
  simp only [happly, if_neg h.ne_placeholder, if_neg hmentions]
  rcases @instantiateMonotype_run Halt _ p ty s with ⟨Γ, hrun, hsolves⟩ | hrun | ⟨-, hmissing⟩
  · exact .of_accepted (orElse_of_accepted hrun) (h.solved hsolves hpred)
  · refine .congr (orElse_of_rejected hrun) ?_
    rcases form_of_instantiateMonotype_rejected h.toSolvable h.resolved h.ne_placeholder hrun with
      ⟨τ, υ, rfl⟩ | ⟨a, body, rfl⟩ | ⟨a, before, after, rfl, hΓ, ha⟩
    · exact arrow_guided hn hr ih h
    · cases v with
      | covariant =>
        exact .rigidly (hn _ _ _).evolves h.valid
          ((ih _ _ _ _ _ _ h.body_rigid).imp Foresight.Looks.of_update)
      | contravariant =>
        obtain ⟨ρ, hbody⟩ := h.body_flexible
        exact .flexibly (fun _ => (hn _ _ _).of_nothing.evolves) h.valid fun label =>
          (ih _ _ _ _ _ _ (hbody label)).imp Foresight.Looks.of_update
    -- A variable is out of reach of the placeholder only if it was foreseen.
    · exact .reject (h.looks hΓ ha)
  · exact absurd h.unsolved hmissing

end Instantiation

theorem Predicative.instantiate_guided (limit left : Nat) :
    InstantiationGuided (instantiate limit left) := by
  induction left with
  | zero => exact fun _ _ _ _ _ _ _ => .abort _
  | succ left ih =>
    intro f θ s v p ty h
    let t : State := { s with depth := s.depth + 1 }
    have ht : Promised f θ t v p ty :=
      ⟨⟨h.toSolvable.withDepth _, h.resolved, h.absent⟩, h.ahead.withDepth _, h.between, h.clear⟩
    refine .nested (.predicatively fun hpred => ?_)
    rw [show t.context.apply ty = ty from h.resolved.apply_eq] at hpred
    exact instantiateStep_guided (atomic_instantiate limit left) (instantiate_renames limit left) ih
      ht hpred

/-- Types in scope, of which a model makes the one at least as general as the other. -/
structure Expected (f : Foresight) (θ : Assignment) (s : State) (τ υ : Ty) : Prop
    extends Comparison s τ υ where
  ahead : s.ModeledAhead f θ
  generalizes : (τ.assign θ).Generalizes (s.outlook f) (υ.assign θ)
  clear : Ty.Clear (s.outlook f) τ υ

namespace Expected

variable {f : Foresight} {θ : Assignment} {s s₁ : State} {p a : TypeId} {sub sup body τ υ τ' υ' : Ty}

theorem apply (h : Expected f θ s sub sup) :
    Expected f θ s (s.context.apply sub) (s.context.apply sup) := by
  have hsolved := h.ahead.solved
  refine ⟨h.toComparison.apply, h.ahead, ?_, ?_⟩
  · rw [h.ahead.apply, h.ahead.apply]
    exact h.generalizes
  · constructor
    · rw [hsolved.quantifiers_apply, hsolved.matrix_apply, hsolved.quantifiers_apply]
      exact h.clear.separate
    · rw [hsolved.quantifiers_apply, hsolved.quantifiers_apply]
      exact h.clear.distinct

theorem retries (h : Expected f θ s sub sup) (hr : s.Retries s₁) : Expected f θ s₁ sub sup := by
  have houtlook := hr.evolves.outlook f
  exact ⟨h.toComparison.later hr.evolves, h.ahead.retries hr, houtlook ▸ h.generalizes,
    houtlook ▸ h.clear⟩

theorem parameters (h : Expected f θ s (.arrow τ υ) (.arrow τ' υ')) : Expected f θ s τ' τ :=
  ⟨h.toComparison.parts.1, h.ahead, (Ty.Generalizes.arrows h.generalizes).1, h.clear.parts.1⟩

theorem results {θ₁ : Assignment} (h : Expected f θ s (.arrow τ υ) (.arrow τ' υ'))
    (he : s.Evolves .nothing s₁) (hs₁ : s₁.ModeledAhead f θ₁)
    (hagree : ∀ p ∈ s.context.placeholders, θ₁ p = θ p) : Expected f θ₁ s₁ υ υ' := by
  have hcomp := h.toComparison.parts.2
  refine ⟨hcomp.later he, hs₁, ?_, he.outlook f ▸ h.clear.parts.2⟩
  rw [he.outlook f, Ty.assign_agree hcomp.sub hagree, Ty.assign_agree hcomp.sup hagree]
  exact (Ty.Generalizes.arrows h.generalizes).2

theorem body_flexible (h : Expected f θ s (.forAll a body) sup) :
    ∃ ρ, ∀ label, Expected (f.update ⟨s.supply.markers⟩ sup.leading)
      (θ.update ⟨s.supply.types.size⟩ ρ) (s.scopeWithNew label)
      (body.subst a (.placeholder ⟨s.supply.types.size⟩)) sup := by
  -- The type that the lower one is opened by may use what is quantified above.
  obtain ⟨ρ, hρ, hbody⟩ := Ty.Generalizes.of_forAll_left h.generalizes
  have hleading : (sup.assign θ).leading = sup.leading :=
    Ty.leading_replace (fun _ _ => rfl) fun p hp => Ty.leading_eq_nil_of_quantifierFree
      (Ty.quantifierFree_of_simple
        (h.ahead.simpleOver ((Context.wellFormed_iff.1 h.sup).2 p hp)).simple)
  rw [hleading] at hρ hbody
  have hagree := h.valid.update_agrees θ ρ
  refine ⟨ρ, fun label => ⟨h.toComparison.body_flexible label, h.ahead.scopeWithNew label hρ, ?_, ?_⟩⟩
  · rw [State.outlook_scopeWithNew h.valid, h.ahead.assign_opened hagree h.clear.not_mem h.sub,
      Assignment.update_self, Ty.assign_agree h.sup hagree]
    exact hbody
  · rw [State.outlook_scopeWithNew h.valid]
    exact h.clear.opened

theorem body_rigid (h : Expected f θ s sub (.forAll a body)) :
    Expected (f.update ⟨s.supply.markers⟩ []) θ (s.scopeWith (.var a)) sub body where
  toComparison := h.toComparison.body_rigid
  ahead := h.ahead.scopeWith a
  generalizes := by
    rw [State.outlook_scopeWith h.valid]
    exact Ty.Generalizes.of_forAll_right h.generalizes
  clear := by
    rw [State.outlook_scopeWith h.valid]
    exact h.clear.declared

theorem promised_sub (h : Expected f θ s (.placeholder p) sup) (hsub : s.context.Resolved (.placeholder p))
    (hsup : s.context.Resolved sup) (hp : p ∉ sup.placeholders) :
    Promised f θ s .covariant p sup :=
  ⟨⟨h.solvable_sub (hsub.unsolved h.sub (List.mem_singleton_self p)), hsup, hp⟩, h.ahead,
    h.generalizes, ⟨h.clear.separate, h.clear.distinct⟩⟩

theorem promised_sup (h : Expected f θ s sub (.placeholder p)) (hsub : s.context.Resolved sub)
    (hsup : s.context.Resolved (.placeholder p)) (hp : p ∉ sub.placeholders) :
    Promised f θ s .contravariant p sub :=
  ⟨⟨h.solvable_sup (hsup.unsolved h.sup (List.mem_singleton_self p)), hsub, hp⟩, h.ahead,
    h.generalizes, ⟨h.clear.separate, h.clear.distinct⟩⟩

end Expected

/-- Subtyping keeps to a model that makes the one type at least as general as the other. -/
def SubtypingGuided (next : Ty → Ty → Search Halt Unit) : Prop :=
  ∀ f θ s sub sup, Expected f θ s sub sup → Guided f (next sub sup) s θ f.Looks

section Subtyping

variable {next : Ty → Ty → Search Halt Unit}
  {instantiate : Variance → TypeId → Ty → Search Halt Unit}
  (hn : ∀ sub sup, Atomic .nothing (next sub sup))
  (hi : ∀ v p ty, Atomic .nothing (instantiate v p ty))
  (ih : SubtypingGuided next) (ihi : InstantiationGuided instantiate)
  {f : Foresight} {θ : Assignment} {s : State} {sub sup : Ty}

section Alternatives

variable (h : Expected f θ s sub sup)
include h

section Openings

include hn ih

/-- The lower type is opened in vain only where the model looks ahead, or where it has to look ahead to
the quantifiers of the upper type. -/
theorem subtypeOpeningSub_guided : Guided f (subtypeOpeningSub next sub sup) s θ
    (sub.isMonotype = false → sup.isMonotype = true → f.Looks) := by
  cases sub with
  | forAll a body =>
    obtain ⟨ρ, hbody⟩ := h.body_flexible
    refine .flexibly (fun _ => (hn _ _).of_nothing.evolves) h.valid fun label =>
      (ih _ _ _ _ _ (hbody label)).imp fun hlooks _ hm => ?_
    have hleading : sup.leading = [] := by
      cases sup with
      | forAll b body => cases hm
      | _ => rfl
    rw [hleading] at hlooks
    exact hlooks.of_update
  | _ => exact .reject nofun

theorem subtypeOpeningSup_guided : Guided f (own.subtypeOpeningSup next sub sup) s θ
    (sup.isMonotype = false → f.Looks) := by
  cases sup with
  | forAll a body =>
    exact .rigidly (hn _ _).evolves h.valid
      ((ih _ _ _ _ _ h.body_rigid).imp fun hlooks _ => hlooks.of_update)
  | _ => exact .reject nofun

end Openings

section Solutions

omit h

include ihi in
theorem instantiateIfOpen_guided {v : Variance} {p : TypeId} {ty : Ty}
    (hp : .unsolved p ∈ s.context) (hty : p ∉ ty.placeholders → Promised f θ s v p ty) :
    Guided f (instantiateIfOpen (instantiate v) p ty) s θ (p ∈ ty.placeholders ∨ f.Looks) := by
  refine .read rfl ?_
  have hopen : s.context.isUnsolved p = true := by simpa [Context.isUnsolved] using hp
  by_cases hmentions : ty.mentions p = true
  · simp only [hopen, hmentions, Bool.not_true, Bool.and_false, Bool.false_eq_true, if_false]
    exact .reject (.inl (Ty.mentions_iff.1 hmentions))
  · simp only [hopen, hmentions, Bool.not_false, Bool.and_self, if_true]
    exact (ihi _ _ _ _ _ _ (hty fun hp => hmentions (Ty.mentions_iff.2 hp))).imp .inr

variable (h : Expected f θ s sub sup) (hsub : s.context.Resolved sub) (hsup : s.context.Resolved sup)
  (hatom : ¬ sub.sameAtom sup = true)
include h hsub hsup hatom ihi

theorem subtypeSolvingSub_guided : Guided f (subtypeSolvingSub instantiate sub sup) s θ
    (∀ p, sub = .placeholder p → sup.isMonotype = true → f.Looks) := by
  cases sub with
  | placeholder p =>
    have hopen := hsub.unsolved h.sub (List.mem_singleton_self p)
    refine (instantiateIfOpen_guided ihi hopen (h.promised_sub hsub hsup)).imp fun hor _ _ hm =>
      hor.resolve_left ?_
    refine Variance.Between.absent (v := .covariant) h.generalizes (Ty.quantifierFree_of_simple
      (h.ahead.simpleOver (Context.placeholder_mem_of_unsolved hopen)).simple) hm ?_
    rintro rfl
    exact hatom (by simp [Ty.sameAtom])
  | _ => exact .reject fun _ heq => by cases heq

theorem subtypeSolvingSup_guided : Guided f (subtypeSolvingSup instantiate sub sup) s θ
    (∀ p, sup = .placeholder p → sub.isMonotype = true → f.Looks) := by
  cases sup with
  | placeholder p =>
    have hopen := hsup.unsolved h.sup (List.mem_singleton_self p)
    refine (instantiateIfOpen_guided ihi hopen (h.promised_sup hsub hsup)).imp fun hor _ _ hm =>
      hor.resolve_left ?_
    refine Variance.Between.absent (v := .contravariant) h.generalizes (Ty.quantifierFree_of_simple
      (h.ahead.simpleOver (Context.placeholder_mem_of_unsolved hopen)).simple) hm ?_
    rintro rfl
    exact hatom (by simp [Ty.sameAtom])
  | _ => exact .reject fun _ heq => by cases heq

end Solutions

end Alternatives

/-- Of two types without a quantifier in front, one is a placeholder, or both are arrows, or equal
atoms. -/
theorem Expected.forms (h : Expected f θ s sub sup) (hsub : sub.isMonotype = true)
    (hsup : sup.isMonotype = true) (hatom : ¬ sub.sameAtom sup = true)
    (harrow : ∀ τ υ τ' υ', sub = .arrow τ υ → sup ≠ .arrow τ' υ') :
    (∃ p, sub = .placeholder p) ∨ ∃ p, sup = .placeholder p := by
  have hgen := h.generalizes
  cases sub with
  | placeholder p => exact .inl ⟨p, rfl⟩
  | forAll a body => cases hsub
  | void =>
    cases sup with
    | placeholder p => exact .inr ⟨p, rfl⟩
    | forAll a body => cases hsup
    | void => exact absurd rfl hatom
    | _ => cases hgen
  | var a =>
    cases sup with
    | placeholder p => exact .inr ⟨p, rfl⟩
    | forAll a body => cases hsup
    | var b =>
      cases hgen
      exact absurd (by simp [Ty.sameAtom]) hatom
    | _ => cases hgen
  | arrow τ υ =>
    cases sup with
    | placeholder p => exact .inr ⟨p, rfl⟩
    | forAll a body => cases hsup
    | arrow τ' υ' => exact absurd rfl (harrow τ υ τ' υ' rfl)
    | _ => cases hgen

include hn hi ih ihi

theorem subtypeOtherwise_guided (h : Expected f θ s sub sup) (hsub : s.context.Resolved sub)
    (hsup : s.context.Resolved sup) (harrow : ∀ τ υ τ' υ', sub = .arrow τ υ → sup ≠ .arrow τ' υ') :
    Guided f (own.subtypeOtherwise next instantiate sub sup) s θ f.Looks := by
  unfold Opening.subtypeOtherwise
  by_cases hatom : sub.sameAtom sup = true
  · rw [if_pos hatom]
    exact .accept h.ahead
  rw [if_neg hatom]
  have hresolved : ∀ {s₁}, s.Retries s₁ → s₁.context.Resolved sub ∧ s₁.context.Resolved sup :=
    fun hr => ⟨hr.context ▸ hsub, hr.context ▸ hsup⟩
  refine (Guided.orElse (atomic_subtypeOpeningSub hn _ _) h.ahead
    (subtypeOpeningSub_guided hn ih h) fun s₁ hr₁ hs₁ =>
    Guided.orElse (atomic_subtypeOpeningSup hn _ _) hs₁
      (subtypeOpeningSup_guided hn ih (h.retries hr₁)) fun s₂ hr₂ hs₂ =>
    Guided.orElse (atomic_subtypeSolvingSub hi _ _) hs₂
      (subtypeSolvingSub_guided ihi (h.retries (hr₁.trans hr₂)) (hresolved (hr₁.trans hr₂)).1
        (hresolved (hr₁.trans hr₂)).2 hatom) fun s₃ hr₃ _ =>
    subtypeSolvingSup_guided ihi (h.retries ((hr₁.trans hr₂).trans hr₃))
      (hresolved ((hr₁.trans hr₂).trans hr₃)).1 (hresolved ((hr₁.trans hr₂).trans hr₃)).2 hatom).imp ?_
  rintro ⟨hopenSub, hopenSup, hsolveSub, hsolveSup⟩
  -- Opening the lower type may fail before the upper one is opened, so the upper type is looked at first.
  cases hup : sup.isMonotype with
  | false => exact hopenSup hup
  | true =>
    cases hlow : sub.isMonotype with
    | false => exact hopenSub hlow hup
    | true =>
      rcases h.forms hlow hup hatom harrow with ⟨p, hp⟩ | ⟨p, hp⟩
      · exact hsolveSub p hp hup
      · exact hsolveSup p hp hlow

theorem subtypeStep_guided : SubtypingGuided (own.subtypeStep next instantiate) := by
  intro f θ s sub sup h
  have hsub := h.valid.ordered.resolved_apply sub
  have hsup := h.valid.ordered.resolved_apply sup
  replace h := h.apply
  by_cases harrow : ∀ τ υ τ' υ', s.context.apply sub = .arrow τ υ → s.context.apply sup ≠ .arrow τ' υ'
  · exact .congr (subtypeStep_otherwise harrow)
      (subtypeOtherwise_guided hn hi ih ihi h hsub hsup harrow)
  · simp only [ne_eq, not_forall, not_not] at harrow
    obtain ⟨τ, υ, τ', υ', heq, heq'⟩ := harrow
    refine .congr (subtypeStep_arrows heq heq') (.atomically ?_)
    rw [heq, heq'] at h
    refine (ih _ _ _ _ _ h.parameters).bind (hn _ _).evolves h.valid fun s₁ θ₁ hrun hs₁ hagree =>
      ih _ _ _ _ _ (h.results ((hn _ _).evolves.result h.valid hrun) hs₁ hagree)

end Subtyping

theorem Predicative.subtype_guided (limit left : Nat) : SubtypingGuided (subtype limit left) := by
  induction left with
  | zero => exact fun _ _ _ _ _ _ => .abort _
  | succ left ih =>
    intro f θ s sub sup h
    refine .nested (subtypeStep_guided (atomic_subtype limit left) (atomic_instantiate limit left) ih
      (instantiate_guided limit left) f θ _ sub sup ?_)
    exact ⟨h.toComparison.withDepth _, h.ahead.withDepth _, h.generalizes, h.clear⟩

end HigherRank
