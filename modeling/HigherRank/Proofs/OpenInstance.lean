import HigherRank.Proofs.MostGeneral
import HigherRank.Proofs.Symmetry

set_option autoImplicit false

/-!
# What a placeholder becomes of a prenex type

A placeholder that is instantiated from above by a prenex type is resolved to an instance of it; from
below, to its matrix, in which none of the quantified variables occurs. The placeholders and variables
by which the quantifiers were opened are gone when the run has ended: what they stood for, as far as it
matters, has become a part of what the placeholder is resolved to, so it is in scope there. The
induction is on the levels, and the quantifiers at the front are met first.
-/
namespace HigherRank

open Judgment
open Opening (own)

namespace Context.SimplySolved

variable {Γ : Context}

theorem not_mem_apply {a p : TypeId} (h : Γ.SimplySolved) (ho : Γ.Ordered) (ha : a ∉ Γ.rigid)
    (hp : p ∈ Γ.placeholders) : a ∉ (Γ.apply (.placeholder p)).occurrences := by
  have hw := ho.wellFormed_apply (wellFormed_placeholder.2 hp)
  have hqf : (Γ.apply (.placeholder p)).quantifierFree = true := h.resolve p
  rw [← Ty.free_eq_occurrences_of_quantifierFree hqf]
  exact fun hmem => ha ((wellFormed_iff.1 hw).1 a hmem)

theorem endsScope {s s' s₁ : State} (h : s₁.context.SimplySolved) (hend : EndsScope s s' s₁) :
    s'.context.SimplySolved := by
  obtain ⟨rest, hrest⟩ := hend
  exact fun p τ hp => h p τ (by simp [hrest, hp])

end Context.SimplySolved

/-- What the placeholder is resolved to, if it was instantiated by the type. -/
def Variance.Gives : Variance → Ty → Ty → Prop
  | covariant, σ, ρ => ρ = σ.matrix
  | contravariant, σ, ρ => σ.InstanceBy (fun κ => κ.quantifierFree = true) ρ

theorem Variance.gives_self {σ : Ty} (v : Variance) (h : σ.quantifierFree = true) : v.Gives σ σ := by
  cases v with
  | covariant => exact (Ty.matrix_eq_of_quantifierFree h).symm
  | contravariant =>
    refine ⟨.var, fun _ _ => rfl, ?_⟩
    simp [Ty.matrix_eq_of_quantifierFree h, Ty.replace_leaves]

/-- Accepted instantiations by prenex types solve nothing to a type with quantifiers, and give to the
placeholder what the variance says. -/
def InstantiationGives (next : Variance → TypeId → Ty → Judgment Unit) : Prop :=
  ∀ v p ty s s', s.Valid → Instantiable s.context p ty → next v p ty s = (.accepted (), s') →
    s'.context.SimplySolved ∧ v.Gives (s'.context.apply ty) (s'.context.apply (.placeholder p))

theorem Solves.isMonotype {p : TypeId} {ty : Ty} {Γ Δ : Context} (h : Solves p ty Γ Δ) :
    ty.isMonotype = true := by
  cases h with
  | same heq =>
    rw [heq]
    rfl
  | direct hmono _ => exact hmono
  | reversed heq _ =>
    rw [heq]
    rfl

section Opening

variable {next : Variance → TypeId → Ty → Judgment Unit} {p a : TypeId} {body : Ty} {s s' : State}
  (hn : ∀ v p ty, Atomic .nothing (next v p ty)) (ih : InstantiationGives next) (hs : s.Valid)
  (hinst : Instantiable s.context p (.forAll a body))
include hn ih hs hinst

theorem rigidly_gives (h : rigidly a (next .covariant p body) s = (.accepted (), s')) :
    s'.context.SimplySolved ∧
      Variance.covariant.Gives (s'.context.apply (.forAll a body))
        (s'.context.apply (.placeholder p)) := by
  obtain ⟨s₁, hrun, hend⟩ := rigidly_accepted h
  have hs₁ := ((hn _ _ _).evolves.result (hs.scopeWith rfl (by simp)) hrun).valid
  have hg := ((((hn _ _ _).evolves.rigidly a).evolves.result hs h).of_nothing .placeholders).context
  obtain ⟨hsolved₁, hgives⟩ :=
    ih _ _ _ _ _ (hs.scopeWith rfl (by simp)) (hinst.body_rigid _) hrun
  have hp := hend.apply_eq hs₁ (hg.wellFormed (Context.wellFormed_placeholder.2 hinst.declared))
  have hbody := hend.apply_eq hs₁ (hg.wellFormed hinst.prenex.wellFormed)
  rw [← hp, ← hbody]
  exact ⟨hsolved₁.endsScope hend, hgives⟩

theorem flexibly_gives (h : flexibly a body (next .contravariant p) s = (.accepted (), s')) :
    s'.context.SimplySolved ∧
      Variance.contravariant.Gives (s'.context.apply (.forAll a body))
        (s'.context.apply (.placeholder p)) := by
  have hflexibly := atomic_flexibly a body fun ty => (hn .contravariant p ty).of_nothing.evolves
  have hg := ((hflexibly.evolves.result hs h).of_nothing .placeholders).context
  obtain ⟨label, s₁, hrun, hend⟩ := flexibly_accepted h
  have he₁ := (hn _ _ _).evolves.result (hs.scopeWithNew label) hrun
  obtain ⟨hsolved₁, hgives⟩ :=
    ih _ _ _ _ _ (hs.scopeWithNew label) (hinst.body_flexible label) hrun
  have hrigid : s₁.context.rigid = s.context.rigid :=
    (he₁.of_nothing .placeholders).context.rigid.trans (s.rigid_scopeWithNew label)
  have havoids : ∀ r ∈ body.placeholders, a ∉ (s₁.context.apply (.placeholder r)).occurrences :=
    fun r hr => by
      refine hsolved₁.not_mem_apply he₁.valid.ordered (hrigid ▸ hinst.prenex.apart a (by simp [Ty.leading]))
        (he₁.context.placeholders ?_)
      have hdeclared := (Context.wellFormed_iff.1 hinst.prenex.wellFormed).2 r hr
      simp only [State.scopeWithNew, Context.placeholders_childScope]
      exact List.mem_append_left _ hdeclared
  have hopened : s₁.context.apply (body.subst a (.placeholder ⟨s.supply.types.size⟩)) =
      (s₁.context.apply body).subst a (s₁.context.apply (.placeholder ⟨s.supply.types.size⟩)) :=
    Ty.assign_subst havoids
  have hqf : (s₁.context.apply (.placeholder ⟨s.supply.types.size⟩)).quantifierFree = true :=
    hsolved₁.resolve _
  rw [hopened] at hgives
  have hinstance := Ty.InstanceBy.forAll (P := fun κ => κ.quantifierFree = true) (fun _ => rfl)
    (fun κ g hκ hg => Ty.quantifierFree_replace hκ (fun b _ => hg b) fun _ _ => rfl) hqf hqf hgives
  have hp := hend.apply_eq he₁.valid (hg.wellFormed (Context.wellFormed_placeholder.2 hinst.declared))
  have hbody := hend.apply_eq he₁.valid (hg.wellFormed hinst.prenex.wellFormed)
  rw [← hp, ← hbody]
  exact ⟨hsolved₁.endsScope hend, hinstance⟩

end Opening

theorem instantiateStep_gives {next : Variance → TypeId → Ty → Judgment Unit}
    (hn : ∀ v p ty, Atomic .nothing (next v p ty)) (hequates : InstantiationEquates next)
    (ih : InstantiationGives next) : InstantiationGives (own.instantiateStep next) := by
  intro v p ty s s' hs hinst h
  by_cases hqf : ty.quantifierFree = true
  · obtain ⟨hsolved', heq⟩ := instantiateStep_equates hn hequates v p ty s s' hs hinst.solved
      hinst.declared ⟨hinst.prenex.wellFormed, hqf⟩ h
    rw [heq]
    exact ⟨hsolved', v.gives_self (hsolved'.quantifierFree_apply hqf)⟩
  cases ty with
  | forAll a body =>
    have he := (atomic_instantiateStep hn v p (.forAll a body)).evolves.result hs h
    rw [← he.context.apply_apply hs.ordered he.valid.ordered (.forAll a body)]
    replace hinst := hinst.apply hs.ordered
    cases instantiateStep_accepted h with
    | solves hsolves => cases hsolves.isMonotype
    | rigid hv hrun =>
      subst hv
      exact rigidly_gives hn ih hs hinst hrun
    | flexible hv hrun =>
      subst hv
      exact flexibly_gives hn ih hs hinst hrun
  | _ => exact absurd hinst.prenex.prenex hqf

theorem instantiate_gives (limit left : Nat) : InstantiationGives (own.instantiate limit left) := by
  induction left with
  | zero =>
    intro v p ty s s' _ _ h
    cases h
  | succ left ih =>
    intro v p ty s s' hs hinst h
    obtain ⟨s₁, hrun, rfl⟩ := nested_accepted h
    exact instantiateStep_gives (atomic_instantiate limit left) (instantiate_equates limit left) ih
      v p ty { s with depth := s.depth + 1 } s₁ (hs.withDepth _) hinst hrun

/-- If the matrix is the placeholder itself, an instantiation is accepted only without quantifiers in
front, and nothing is solved. -/
theorem instantiate_self {limit left : Nat} {v : Variance} {p : TypeId} {ty : Ty} {s s' : State}
    (hsolved : s.context.SimplySolved) (hself : s.context.apply ty.matrix = .placeholder p)
    (h : own.instantiate limit left v p ty s = (.accepted (), s')) : s'.context = s.context := by
  cases left with
  | zero => cases h
  | succ left =>
    obtain ⟨s₁, hrun, rfl⟩ := nested_accepted h
    rcases instantiateStep_occurs hrun with ⟨-, rfl⟩ | habsent
    · rfl
    · refine absurd ?_ habsent
      rw [← Ty.placeholders_matrix, hsolved.matrix_apply, hself]
      simp [Ty.placeholders]

/-- Let a placeholder be instantiated by a prenex type whose quantified variables are distinct and not
declared, where solutions have no quantifiers. If this is accepted from above, the placeholder is
resolved to the matrix with types without quantifiers, in scope, for the quantified variables. If it is
accepted from below, the placeholder is resolved to the matrix, and no quantified variable occurs in
it. If the matrix is the placeholder, it stays unsolved. -/
theorem instantiate_prenex (c : Checker) {s : State} {p : TypeId} {ty : Ty} (hs : s.Valid)
    (hsolved : s.context.SimplySolved) (hp : .unsolved p ∈ s.context)
    (hty : ty.PrenexIn s.context) :
    (∀ s', c.instantiate .contravariant p ty s = (.accepted (), s') →
      ∃ r : TypeId → Ty, (∀ a ∈ ty.leading, (r a).quantifierFree = true ∧
          s'.context.wellFormed (r a) = true) ∧
        s'.context.apply (.placeholder p) = (s'.context.apply ty.matrix).replace
          (fun a => if a ∈ ty.leading then r a else .var a) .placeholder) ∧
    (∀ s', c.instantiate .covariant p ty s = (.accepted (), s') →
      s'.context.apply (.placeholder p) = s'.context.apply ty.matrix ∧
      ∀ a ∈ ty.leading, a ∉ (s'.context.apply (.placeholder p)).occurrences) ∧
    (s.context.apply ty.matrix = .placeholder p → ∀ v s',
      c.instantiate v p ty s = (.accepted (), s') → .unsolved p ∈ s'.context) := by
  have hinst : Instantiable s.context p ty :=
    ⟨hsolved, Context.placeholder_mem_of_unsolved hp, hty⟩
  have hresult : ∀ {v s'}, c.instantiate v p ty s = (.accepted (), s') →
      s'.Valid ∧ s'.context.rigid = s.context.rigid ∧ p ∈ s'.context.placeholders := fun h => by
    have he := (atomic_instantiate _ _ _ _ _).evolves.result hs h
    exact ⟨he.valid, (he.of_nothing .placeholders).context.rigid,
      he.context.placeholders hinst.declared⟩
  refine ⟨fun s' h => ?_, fun s' h => ?_, fun hself v s' h => ?_⟩
  · obtain ⟨hvalid, -, hp'⟩ := hresult h
    obtain ⟨hsolved', hgives⟩ := instantiate_gives _ _ _ _ _ _ _ hs hinst h
    have hw := hvalid.ordered.wellFormed_apply (Context.wellFormed_placeholder.2 hp')
    have hqf : (s'.context.apply (.placeholder p)).quantifierFree = true := hsolved'.resolve p
    -- What is put for a variable is a part of the result, so it is in scope as that is.
    obtain ⟨r, hr, heq⟩ := Ty.InstanceBy.parts (P := fun κ => κ.quantifierFree = true)
      (Q := fun κ => κ.quantifierFree = true ∧ s'.context.wellFormed κ = true) hgives ⟨rfl, rfl⟩
      fun κ hκ hoccurs hplaceholders => by
        refine ⟨hκ, Context.wellFormed_iff.2 ⟨fun b hb => ?_, fun q hq => ?_⟩⟩
        · rw [Ty.free_eq_occurrences_of_quantifierFree hκ] at hb
          refine (Context.wellFormed_iff.1 hw).1 b ?_
          rw [Ty.free_eq_occurrences_of_quantifierFree hqf]
          exact hoccurs hb
        · exact (Context.wellFormed_iff.1 hw).2 q (hplaceholders hq)
    rw [hsolved'.leading_apply] at hr heq
    rw [hsolved'.matrix_apply] at heq
    exact ⟨r, hr, heq⟩
  · obtain ⟨hvalid, hrigid, hp'⟩ := hresult h
    obtain ⟨hsolved', hgives⟩ := instantiate_gives _ _ _ _ _ _ _ hs hinst h
    refine ⟨hgives.trans (hsolved'.matrix_apply ty), fun a ha => ?_⟩
    exact hsolved'.not_mem_apply hvalid.ordered (hrigid ▸ hty.apart a ha) hp'
  · rw [instantiate_self hsolved hself h]
    exact hp

theorem Judgment.exists_accepted {α : Type} {x : Judgment α} {a : α} {s : State}
    (h : (x s).1 = .accepted a) : ∃ s', x s = (.accepted a, s') :=
  ⟨(x s).2, Prod.ext h rfl⟩

namespace Pairing

def scheme : Ty := .forAll ⟨3⟩ (.forAll ⟨4⟩
  (.arrow (.var ⟨3⟩) (.arrow (.placeholder ⟨2⟩) (.arrow (.var ⟨4⟩) (.var ⟨3⟩)))))

def constant : Ty := .forAll ⟨3⟩ (.arrow (.placeholder ⟨2⟩) .void)

theorem start_instantiates :
    (∃ s', (Checker.upTo 9).instantiate .contravariant ⟨0⟩ scheme interleaved = (.accepted (), s') ∧
      ∃ r : TypeId → Ty, s'.context.apply (.placeholder ⟨0⟩) =
        (s'.context.apply scheme.matrix).replace
          (fun a => if a ∈ scheme.leading then r a else .var a) .placeholder) ∧
    ∃ s', (Checker.upTo 9).instantiate .covariant ⟨0⟩ constant interleaved = (.accepted (), s') ∧
      s'.context.apply (.placeholder ⟨0⟩) = s'.context.apply constant.matrix := by
  have hp : .unsolved ⟨0⟩ ∈ interleaved.context := by simp [interleaved]
  have hscheme : scheme.PrenexIn interleaved.context := ⟨rfl, by decide, by decide, by decide⟩
  have hconstant : constant.PrenexIn interleaved.context := ⟨rfl, by decide, by decide, by decide⟩
  obtain ⟨s₁, h₁⟩ := exists_accepted
    (show ((Checker.upTo 9).instantiate .contravariant ⟨0⟩ scheme interleaved).1 = .accepted () by
      decide +kernel)
  obtain ⟨s₂, h₂⟩ := exists_accepted
    (show ((Checker.upTo 9).instantiate .covariant ⟨0⟩ constant interleaved).1 = .accepted () by
      decide +kernel)
  obtain ⟨r, -, heq⟩ :=
    (instantiate_prenex _ interleaved_valid interleaved_solved hp hscheme).1 s₁ h₁
  obtain ⟨heq', -⟩ :=
    (instantiate_prenex _ interleaved_valid interleaved_solved hp hconstant).2.1 s₂ h₂
  exact ⟨⟨s₁, h₁, r, heq⟩, s₂, h₂, heq'⟩

end Pairing
end HigherRank
