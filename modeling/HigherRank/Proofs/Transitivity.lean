import HigherRank.Proofs.GeneralityCompleteness
import HigherRank.Proofs.GenericInstance

set_option autoImplicit false

/-!
# Predicative subtyping is transitive

Where nothing is unknown, a search that never solves a placeholder to a type with a quantifier inside
answers whether one type is at least as general as another. That order is transitive, and so are the
answers. A quantifier inside a solution breaks this, in whichever of the three searches it comes up: the
solution is taken to the letter, where the order would allow a type above or below it.
-/
namespace HigherRank

open Judgment
open Opening (own)

section Searches

variable {limit : Nat} {s : State} {sub sup : Ty}

theorem subtype_of_not_impredicative (hs : s.Valid) (hpred : ¬ Impredicative limit s sub sup) :
    Predicative.subtype limit (limit - s.depth) sub sup s =
      widen ((Checker.upTo limit).subtype sub sup) s := by
  have hruns := Predicative.subtype_runsAs limit (limit - s.depth) sub sup s hs
  refine hruns.eq_widen fun error hstopped => ?_
  rw [hstopped]
  exact hpred

theorem Comparison.accepts_of_not_rejected (h : Comparison s sub sup) :
    ∃ bound, ∀ limit, bound ≤ limit → ¬ Impredicative limit s sub sup →
      ((Checker.upTo limit).subtype sub sup s).1 ≠ .rejected →
      ((Checker.upTo limit).subtype sub sup s).1 = .accepted () := by
  obtain ⟨bound, hends⟩ := Predicative.subtype_ends h
  refine ⟨bound + s.depth, fun limit hle hpred hnot => ?_⟩
  cases ho : ((Checker.upTo limit).subtype sub sup s).1 with
  | accepted => rfl
  | rejected => exact absurd ho hnot
  | aborted error =>
    have hrun : (Predicative.subtype limit (limit - s.depth) sub sup s).1 =
        .aborted (.failed error) := by
      rw [subtype_of_not_impredicative h.valid hpred, widen, ho]
      rfl
    rcases Predicative.subtype_raises _ _ h _ _ (Prod.ext hrun rfl) with heq | ⟨-, heq⟩
    · exact absurd ⟨limit, hrun.trans (congrArg _ heq)⟩ (hends limit _ (by omega))
    · cases heq

end Searches

section Order

variable {limit : Nat} {s : State} {sub sup : Ty} (h : Comparison s sub sup)
  (hnone : s.context.placeholders = [])
  (hseparate : Ty.Separate s.context.rigid (sub.quantifiers ++ sup.quantifiers))
  (hpred : ¬ Impredicative limit s sub sup)
include h hnone hseparate hpred

theorem Comparison.generalizes_of_accepted
    (haccepted : ((Checker.upTo limit).subtype sub sup s).1 = .accepted ()) :
    sub.Generalizes s.context.rigid sup := by
  obtain ⟨s', hrun⟩ : ∃ s', (Checker.upTo limit).subtype sub sup s = (.accepted (), s') :=
    ⟨_, Prod.ext haccepted rfl⟩
  have hpredicative : Predicative.subtype limit (limit - s.depth) sub sup s =
      (.accepted (), s') := by
    rw [subtype_of_not_impredicative h.valid hpred, widen, hrun]
    rfl
  have hset := Predicative.subtype_orders _ _ sub sup s s' h.valid
    ⟨Context.simplySolved_of_no_placeholders hnone, h.sub, h.sup, hseparate⟩ hpredicative
  have hgen := hset.holds (fun _ => .void) (by
    rw [subtype_leaves_context h.valid hnone hrun]
    exact Context.modeledBy_of_no_placeholders hnone _)
  rwa [Context.assign_of_no_placeholders hnone h.sub,
    Context.assign_of_no_placeholders hnone h.sup] at hgen

theorem Comparison.not_rejected_of_generalizes (hgen : sub.Generalizes s.context.rigid sup) :
    ((Checker.upTo limit).subtype sub sup s).1 ≠ .rejected := by
  -- Nothing has to be foreseen where nothing is unknown.
  intro hrejected
  let f : Foresight := fun _ => []
  have hf : ¬ f.Looks := fun ⟨_, hm⟩ => hm rfl
  have houtlook : s.outlook f = s.context.rigid := by rw [State.outlook, Context.foreseen_eq hf]
  have hexpected : Expected f (fun _ => .void) s sub sup := by
    refine ⟨h, ⟨h.valid, Context.simplySolved_of_no_placeholders hnone, ?_⟩, ?_, ?_⟩
    · rw [Context.foreseen_eq hf]
      exact Context.modeledBy_of_no_placeholders hnone _
    · rwa [Context.assign_of_no_placeholders hnone h.sub,
        Context.assign_of_no_placeholders hnone h.sup, houtlook]
    · rw [houtlook]
      exact .of_separate hseparate
  have hpredicative : (Predicative.subtype limit (limit - s.depth) sub sup s).1 = .rejected := by
    rw [subtype_of_not_impredicative h.valid hpred, widen, hrejected]
    rfl
  exact hf ((Predicative.subtype_guided _ _ f _ s sub sup hexpected).rejected _
    (Prod.ext hpredicative rfl))

end Order

/-- Three types over declared variables. No identifier is quantified twice, or quantified and
declared. -/
structure Composable (Γ : Context) (first second third : Ty) : Prop where
  known : Γ.placeholders = []
  lower : Γ.wellFormed first = true
  middle : Γ.wellFormed second = true
  upper : Γ.wellFormed third = true
  distinct : (first.quantifiers ++ second.quantifiers ++ third.quantifiers).Nodup
  undeclared : ∀ a ∈ first.quantifiers ++ second.quantifiers ++ third.quantifiers, a ∉ Γ.rigid

namespace Composable

instance (Γ : Context) (first second third : Ty) : Decidable (Composable Γ first second third) :=
  decidable_of_iff (Γ.placeholders = [] ∧ Γ.wellFormed first = true ∧ Γ.wellFormed second = true ∧
      Γ.wellFormed third = true ∧
      (first.quantifiers ++ second.quantifiers ++ third.quantifiers).Nodup ∧
      ∀ a ∈ first.quantifiers ++ second.quantifiers ++ third.quantifiers, a ∉ Γ.rigid)
    ⟨fun ⟨h₁, h₂, h₃, h₄, h₅, h₆⟩ => ⟨h₁, h₂, h₃, h₄, h₅, h₆⟩,
      fun ⟨h₁, h₂, h₃, h₄, h₅, h₆⟩ => ⟨h₁, h₂, h₃, h₄, h₅, h₆⟩⟩

variable {Γ : Context} {first second third : Ty}

theorem separate (h : Composable Γ first second third) :
    Ty.Separate Γ.rigid (first.quantifiers ++ second.quantifiers ++ third.quantifiers) :=
  Ty.separate_iff.2 ⟨h.distinct, h.undeclared⟩

theorem generalizes (h : Composable Γ first second third) (hlower : first.Generalizes Γ.rigid second)
    (hupper : second.Generalizes Γ.rigid third) : first.Generalizes Γ.rigid third :=
  Ty.Chain.generalizes
    ⟨h.separate, (Context.wellFormed_iff.1 h.lower).1, (Context.wellFormed_iff.1 h.upper).1,
      hlower, hupper⟩

section Runs

variable {s₁ s₂ s₃ : State} {n₁ n₂ n₃ : Nat} (h : Composable Γ first second third)
  (hs : ∀ s ∈ [s₁, s₂, s₃], s.Valid ∧ s.context = Γ)
include h hs

theorem comparisons :
    Comparison s₁ first second ∧ Comparison s₂ second third ∧ Comparison s₃ first third := by
  obtain ⟨hs₁, hΓ₁⟩ := hs s₁ (by simp)
  obtain ⟨hs₂, hΓ₂⟩ := hs s₂ (by simp)
  obtain ⟨hs₃, hΓ₃⟩ := hs s₃ (by simp)
  exact ⟨⟨hs₁, hΓ₁ ▸ h.lower, hΓ₁ ▸ h.middle⟩, ⟨hs₂, hΓ₂ ▸ h.middle, hΓ₂ ▸ h.upper⟩,
    ⟨hs₃, hΓ₃ ▸ h.lower, hΓ₃ ▸ h.upper⟩⟩

theorem not_rejected (hlower : ((Checker.upTo n₁).subtype first second s₁).1 = .accepted ())
    (hupper : ((Checker.upTo n₂).subtype second third s₂).1 = .accepted ())
    (hpred₁ : ¬ Impredicative n₁ s₁ first second) (hpred₂ : ¬ Impredicative n₂ s₂ second third)
    (hpred₃ : ¬ Impredicative n₃ s₃ first third) :
    ((Checker.upTo n₃).subtype first third s₃).1 ≠ .rejected := by
  obtain ⟨hcomp₁, hcomp₂, hcomp₃⟩ := h.comparisons hs
  obtain ⟨-, rfl⟩ := hs s₁ (by simp)
  have hΓ₂ : s₂.context = s₁.context := (hs s₂ (by simp)).2
  have hΓ₃ : s₃.context = s₁.context := (hs s₃ (by simp)).2
  have hfirst := hcomp₁.generalizes_of_accepted h.known
    (h.separate.of_le fun a => by simp) hpred₁ hlower
  have hsecond := hcomp₂.generalizes_of_accepted (hΓ₂ ▸ h.known)
    (hΓ₂ ▸ h.separate.of_le fun a => by simp) hpred₂ hupper
  refine hcomp₃.not_rejected_of_generalizes (hΓ₃ ▸ h.known)
    (hΓ₃ ▸ h.separate.of_le fun a => by simp) hpred₃ ?_
  rw [hΓ₂] at hsecond
  rw [hΓ₃]
  exact h.generalizes hfirst hsecond

theorem not_impredicative (h₁ : first.Tame second) (h₂ : second.Tame third)
    (h₃ : first.Tame third) :
    ¬ Impredicative n₁ s₁ first second ∧ ¬ Impredicative n₂ s₂ second third ∧
      ¬ Impredicative n₃ s₃ first third := by
  obtain ⟨hcomp₁, hcomp₂, hcomp₃⟩ := h.comparisons hs
  have hresolved : ∀ s ∈ [s₁, s₂, s₃], s.context.apply first = first ∧
      s.context.apply second = second ∧ s.context.apply third = third := by
    intro s hmem
    obtain ⟨-, rfl⟩ := hs s hmem
    exact ⟨Context.apply_of_no_placeholders h.known h.lower,
      Context.apply_of_no_placeholders h.known h.middle,
      Context.apply_of_no_placeholders h.known h.upper⟩
  obtain ⟨hfirst₁, hsecond₁, -⟩ := hresolved s₁ (by simp)
  obtain ⟨-, hsecond₂, hthird₂⟩ := hresolved s₂ (by simp)
  obtain ⟨hfirst₃, -, hthird₃⟩ := hresolved s₃ (by simp)
  exact ⟨hcomp₁.not_impredicative (by rwa [hfirst₁, hsecond₁]),
    hcomp₂.not_impredicative (by rwa [hsecond₂, hthird₂]),
    hcomp₃.not_impredicative (by rwa [hfirst₃, hthird₃])⟩

end Runs

end Composable

/-- The comparison is not rejected under the limit, and accepted if the limit reaches the bound. -/
def Upheld (bound limit : Nat) (s : State) (sub sup : Ty) : Prop :=
  ((Checker.upTo limit).subtype sub sup s).1 ≠ .rejected ∧
    (bound ≤ limit → ((Checker.upTo limit).subtype sub sup s).1 = .accepted ())

/-- In a context without placeholders, if the first of three types is below the second and the second
below the third, each under some limit, then no limit makes the checker deny that the first is below the
third, unless one of the three searches is impredicative; and limits that are large enough make it say so.
For tame types, such as prenex ones, there is no exception. -/
theorem subtype_transitive {Γ : Context} {first second third : Ty} {s₁ s₂ s₃ : State} {n₁ n₂ : Nat}
    (h : Composable Γ first second third) (hs : ∀ s ∈ [s₁, s₂, s₃], s.Valid ∧ s.context = Γ)
    (hlower : ((Checker.upTo n₁).subtype first second s₁).1 = .accepted ())
    (hupper : ((Checker.upTo n₂).subtype second third s₂).1 = .accepted ()) :
    (¬ Impredicative n₁ s₁ first second → ¬ Impredicative n₂ s₂ second third →
      ∃ bound, ∀ limit, ¬ Impredicative limit s₃ first third → Upheld bound limit s₃ first third) ∧
    (first.Tame second → second.Tame third → first.Tame third →
      ∃ bound, ∀ limit, Upheld bound limit s₃ first third) := by
  obtain ⟨bound, haccepts⟩ := (h.comparisons hs).2.2.accepts_of_not_rejected
  have hupheld : ¬ Impredicative n₁ s₁ first second → ¬ Impredicative n₂ s₂ second third →
      ∀ limit, ¬ Impredicative limit s₃ first third → Upheld bound limit s₃ first third := by
    intro hpred₁ hpred₂ limit hpred₃
    have hnot := h.not_rejected hs hlower hupper hpred₁ hpred₂ hpred₃
    exact ⟨hnot, fun hle => haccepts limit hle hpred₃ hnot⟩
  refine ⟨fun hpred₁ hpred₂ => ⟨bound, hupheld hpred₁ hpred₂⟩, fun h₁ h₂ h₃ => ⟨bound, fun limit => ?_⟩⟩
  obtain ⟨hpred₁, hpred₂, hpred₃⟩ := h.not_impredicative hs h₁ h₂ h₃
  exact hupheld hpred₁ hpred₂ limit hpred₃

namespace HigherRanks

def lower : Ty := .arrow (.arrow .void .void) (identity ⟨0⟩)

def middle : Ty := .arrow (identity ⟨1⟩) (.arrow .void .void)

def upper : Ty := .arrow (.forAll ⟨2⟩ (.var ⟨2⟩)) (.arrow .void .void)

def atFunctions : Ty := .forAll ⟨1⟩ (.arrow (.arrow (.var ⟨1⟩) (.var ⟨1⟩)) (.arrow (.var ⟨1⟩) (.var ⟨1⟩)))

theorem blank_states : ∀ s ∈ [blank, blank, blank], s.Valid ∧ s.context = [] := by
  intro s hs
  obtain rfl : s = blank := by simpa using hs
  exact ⟨blank_valid, rfl⟩

theorem chains_compose :
    (Composable [] lower middle upper ∧
      ¬ lower.Tame middle ∧ ¬ middle.Tame upper ∧ ¬ lower.Tame upper ∧
      ((Checker.upTo 9).subtype lower middle blank).1 = .accepted () ∧
      ((Checker.upTo 9).subtype middle upper blank).1 = .accepted () ∧
      ¬ Impredicative 9 blank lower middle ∧ ¬ Impredicative 9 blank middle upper ∧
      ¬ Impredicative 9 blank lower upper ∧
      ∃ bound, ∀ limit, ¬ Impredicative limit blank lower upper →
        Upheld bound limit blank lower upper) ∧
    Composable [] (identity ⟨0⟩) atFunctions (.arrow (.arrow .void .void) (.arrow .void .void)) ∧
    ∃ bound, ∀ limit, Upheld bound limit blank (identity ⟨0⟩)
      (.arrow (.arrow .void .void) (.arrow .void .void)) := by
  have hranks : Composable [] lower middle upper := by decide
  have hprenex : Composable [] (identity ⟨0⟩) atFunctions
    (.arrow (.arrow .void .void) (.arrow .void .void)) := by decide
  have hlower : ((Checker.upTo 9).subtype lower middle blank).1 = .accepted () := by decide +kernel
  have hupper : ((Checker.upTo 9).subtype middle upper blank).1 = .accepted () := by decide +kernel
  have hpred₁ : ¬ Impredicative 9 blank lower middle := by decide +kernel
  have hpred₂ : ¬ Impredicative 9 blank middle upper := by decide +kernel
  have hlower' : ((Checker.upTo 9).subtype (identity ⟨0⟩) atFunctions blank).1 = .accepted () := by
    decide +kernel
  have hupper' : ((Checker.upTo 9).subtype atFunctions
    (.arrow (.arrow .void .void) (.arrow .void .void)) blank).1 = .accepted () := by decide +kernel
  refine ⟨⟨hranks, by decide, by decide, by decide, hlower, hupper, hpred₁, hpred₂, by decide +kernel,
    ?_⟩, hprenex, ?_⟩
  · exact (subtype_transitive hranks blank_states hlower hupper).1 hpred₁ hpred₂
  · exact (subtype_transitive hprenex blank_states hlower' hupper').2 (by decide) (by decide)
      (by decide)

end HigherRanks

namespace Intransitive

def thunk (ty : Ty) : Ty := .arrow .void ty

def outer : Ty := .forAll ⟨0⟩ (thunk (.var ⟨0⟩))

def between : Ty := thunk (.forAll ⟨2⟩ (thunk (.var ⟨2⟩)))

def inner : Ty := thunk (thunk (.forAll ⟨1⟩ (.var ⟨1⟩)))

/-- Both steps are accepted, and the composition is rejected. -/
def Breaks (first second third : Ty) : Prop :=
  Composable blank.context first second third ∧
    ((Checker.upTo 4096).subtype first second blank).1 = .accepted () ∧
    ((Checker.upTo 4096).subtype second third blank).1 = .accepted () ∧
    ((Checker.upTo 4096).subtype first third blank).1 = .rejected

instance (first second third : Ty) : Decidable (Breaks first second third) :=
  inferInstanceAs (Decidable (_ ∧ _))

def impredicative (first second third : Ty) : List Bool :=
  [Impredicative 4096 blank first second, Impredicative 4096 blank second third,
    Impredicative 4096 blank first third]

/-- A type chosen at once may be a thunk with a quantifier inside, but cannot depend on what is declared
later. In a parameter the steps change places. If a type is chosen for two parameters, it is the first
of them to the letter, which is then not enough for the other. -/
theorem compositions_rejected :
    blank.Valid ∧
    (Breaks outer inner between ∧ impredicative outer inner between = [true, false, false]) ∧
    (Breaks (.arrow between .void) (.arrow inner .void) (.arrow outer .void) ∧
      impredicative (.arrow between .void) (.arrow inner .void) (.arrow outer .void) =
        [false, true, false]) ∧
    (Breaks (.forAll ⟨0⟩ (.arrow (.var ⟨0⟩) (.arrow (.var ⟨0⟩) .void)))
        (.arrow (thunk .void) (.arrow (thunk .void) .void))
        (.arrow (thunk (.forAll ⟨1⟩ (.var ⟨1⟩))) (.arrow (thunk .void) .void)) ∧
      impredicative (.forAll ⟨0⟩ (.arrow (.var ⟨0⟩) (.arrow (.var ⟨0⟩) .void)))
        (.arrow (thunk .void) (.arrow (thunk .void) .void))
        (.arrow (thunk (.forAll ⟨1⟩ (.var ⟨1⟩))) (.arrow (thunk .void) .void)) =
          [false, false, true]) :=
  ⟨blank_valid, by decide +kernel⟩

end Intransitive
end HigherRank
