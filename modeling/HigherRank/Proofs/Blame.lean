import HigherRank.Proofs.Errors

set_option autoImplicit false

/-!
# What annotation errors blame

Judgments on types know nothing of annotations, and a judgment on terms meets them in its own term only. So
an error about an annotation names one of the term's annotated parts, whatever the state was.
-/
namespace HigherRank

open Judgment
open Opening (own)

namespace Judgment

variable {α β : Type} {allowed : TypeError → Prop}

/-- From every state the judgment is aborted by errors of the given kind only. -/
def RaisesAnywhere (allowed : TypeError → Prop) (x : Judgment α) : Prop :=
  ∀ s, RaisesOnly allowed x s

namespace RaisesAnywhere

variable {x y : Judgment α}

theorem mono {allowed' : TypeError → Prop} (h : ∀ error, allowed error → allowed' error)
    (hx : RaisesAnywhere allowed x) : RaisesAnywhere allowed' x :=
  fun s => (hx s).mono h

theorem accept (a : α) : RaisesAnywhere allowed (accept a) := fun _ => .accept

theorem reject : RaisesAnywhere allowed (reject : Judgment α) := fun _ => .reject

theorem abort {error : TypeError} (h : allowed error) :
    RaisesAnywhere allowed (abort error : Judgment α) :=
  fun _ => .abort h

theorem read (hx : Reads x) : RaisesAnywhere allowed x := fun s error s' h => by
  obtain ⟨a, ha⟩ := hx s
  rw [ha] at h
  cases h

theorem bind {f : α → Judgment β} (hx : RaisesAnywhere allowed x)
    (hf : ∀ a, RaisesAnywhere allowed (f a)) : RaisesAnywhere allowed (x >>= f) :=
  fun s => (hx s).bind fun a s₁ _ => hf a s₁

theorem orElse (hx : RaisesAnywhere allowed x) (hy : RaisesAnywhere allowed y) :
    RaisesAnywhere allowed (x <|> y) :=
  fun s => (hx s).orElse fun s₁ _ => hy s₁

theorem atomically (hx : RaisesAnywhere allowed x) : RaisesAnywhere allowed (atomically x) :=
  fun s => (hx s).atomically

theorem nested (hx : RaisesAnywhere allowed x) : RaisesAnywhere allowed (nested x) :=
  fun s => (hx { s with depth := s.depth + 1 }).nested

section Blameless

variable (hallowed : ∀ error : TypeError, error.isAnnotationError = false → allowed error)
include hallowed

theorem inChildScope (hx : RaisesAnywhere allowed x) : RaisesAnywhere allowed (inChildScope x) := by
  intro s error s' h
  rcases hr : x s.openScope.2 with ⟨o, s₁⟩
  simp only [inChildScope_eq, hr, State.closeScope] at h
  split at h
  · cases h
    exact hx _ _ _ hr
  · cases h
    exact hallowed _ rfl

theorem rigidly (hx : RaisesAnywhere allowed x) (a : TypeId) :
    RaisesAnywhere allowed (rigidly a x) := by
  have hdeclare : RaisesAnywhere allowed (declare a) := fun _ _ _ h => by cases h
  exact ((hdeclare.bind fun _ => hx).inChildScope hallowed).atomically

theorem assuming (hx : RaisesAnywhere allowed x) (b : BindingId) (ty : Ty) :
    RaisesAnywhere allowed (Judgment.inChildScope (assume b ty >>= fun _ => x)) := by
  have hassume : RaisesAnywhere allowed (assume b ty) := fun _ _ _ h => by cases h
  exact (hassume.bind fun _ => hx).inChildScope hallowed

omit hallowed in
theorem introducing {f : Ty → Judgment α} (hf : ∀ ty, RaisesAnywhere allowed (f ty)) (a : TypeId)
    (ty : Ty) : RaisesAnywhere allowed (introducing a ty f) :=
  (read (reads_typeLabel a)).bind fun _ => bind (fun _ => .introduce) fun _ => hf _

theorem flexibly {f : Ty → Judgment α} (hf : ∀ ty, RaisesAnywhere allowed (f ty)) (a : TypeId)
    (ty : Ty) : RaisesAnywhere allowed (flexibly a ty f) :=
  ((introducing hf a ty).inChildScope hallowed).atomically

theorem articulate (p : TypeId) : RaisesAnywhere allowed (articulate p) := fun _ error s' h => by
  rw [(articulate_aborted h).2]
  exact hallowed _ rfl

theorem instantiateMonotype (p : TypeId) (ty : Ty) :
    RaisesAnywhere allowed (instantiateMonotype p ty) := fun _ error s' h => by
  rw [(instantiateMonotype_aborted h).2]
  exact hallowed _ rfl

end Blameless
end RaisesAnywhere
end Judgment

section Types

variable {allowed : TypeError → Prop}
  (hallowed : ∀ error : TypeError, error.isAnnotationError = false → allowed error)
include hallowed

theorem instantiateStep_raisesAnywhere {next : Variance → TypeId → Ty → Judgment Unit}
    (h : ∀ v p ty, RaisesAnywhere allowed (next v p ty)) (v : Variance) (p : TypeId) (ty : Ty) :
    RaisesAnywhere allowed (own.instantiateStep next v p ty) := by
  refine (RaisesAnywhere.read (reads_resolve ty)).bind fun ty => ?_
  split
  · exact .accept ()
  split
  · exact .reject
  refine (RaisesAnywhere.instantiateMonotype hallowed p ty).orElse ?_
  split
  · refine RaisesAnywhere.atomically ((RaisesAnywhere.articulate hallowed p).bind fun _ => ?_)
    exact (h _ _ _).bind fun _ => (RaisesAnywhere.read (reads_resolve _)).bind fun _ => h _ _ _
  · exact (h _ _ _).rigidly hallowed _
  · exact RaisesAnywhere.flexibly hallowed (h _ p) _ _
  · exact .reject

theorem instantiate_raisesAnywhere (limit left : Nat) (v : Variance) (p : TypeId) (ty : Ty) :
    RaisesAnywhere allowed (own.instantiate limit left v p ty) := by
  induction left generalizing v p ty with
  | zero => exact .abort (hallowed _ rfl)
  | succ left ih => exact (instantiateStep_raisesAnywhere hallowed ih v p ty).nested

theorem subtypeStep_raisesAnywhere {next : Ty → Ty → Judgment Unit}
    {instantiate : Variance → TypeId → Ty → Judgment Unit}
    (h : ∀ sub sup, RaisesAnywhere allowed (next sub sup))
    (hinst : ∀ v p ty, RaisesAnywhere allowed (instantiate v p ty)) (sub sup : Ty) :
    RaisesAnywhere allowed (own.subtypeStep next instantiate sub sup) := by
  have hopen : ∀ v p other, RaisesAnywhere allowed (instantiateIfOpen (instantiate v) p other) := by
    intro v p other
    refine (RaisesAnywhere.read (reads_isUnsolved p)).bind fun b => ?_
    split
    · exact hinst v p other
    · exact .reject
  refine (RaisesAnywhere.read (reads_resolve sub)).bind fun sub => ?_
  refine (RaisesAnywhere.read (reads_resolve sup)).bind fun sup => ?_
  split
  · exact RaisesAnywhere.atomically ((h _ _).bind fun _ => h _ _)
  unfold Opening.subtypeOtherwise
  split
  · exact .accept ()
  refine RaisesAnywhere.orElse ?_ (RaisesAnywhere.orElse ?_ (RaisesAnywhere.orElse ?_ ?_))
  · unfold subtypeOpeningSub
    split
    · exact RaisesAnywhere.flexibly hallowed (fun _ => h _ _) _ _
    · exact .reject
  · unfold Opening.subtypeOpeningSup
    split
    · exact (h _ _).rigidly hallowed _
    · exact .reject
  · unfold subtypeSolvingSub
    split
    · exact hopen _ _ _
    · exact .reject
  · unfold subtypeSolvingSup
    split
    · exact hopen _ _ _
    · exact .reject

theorem subtype_raisesAnywhere (limit left : Nat) (sub sup : Ty) :
    RaisesAnywhere allowed (own.subtype limit left sub sup) := by
  induction left generalizing sub sup with
  | zero => exact .abort (hallowed _ rfl)
  | succ left ih =>
    exact (subtypeStep_raisesAnywhere hallowed ih (instantiate_raisesAnywhere hallowed limit left)
      sub sup).nested

end Types

/-- The annotated parts of a term with their annotations. -/
def Term.annotated : Term → List (Term × Ty)
  | unit => []
  | ref _ => []
  | lam _ body => body.annotated
  | app function argument => function.annotated ++ argument.annotated
  | ann term ty => (term, ty) :: term.annotated

/-- If the error is about an annotation, then about one of the term's. -/
def TypeError.Blames (term : Term) : TypeError → Prop
  | annotationIllFormed ty => ∃ part, (part, ty) ∈ term.annotated
  | annotationMismatch part ty => (part, ty) ∈ term.annotated
  | _ => True

theorem TypeError.blames_of_not_annotation (term : Term) (error : TypeError)
    (h : error.isAnnotationError = false) : error.Blames term := by
  cases error with
  | annotationIllFormed ty => cases h
  | annotationMismatch part ty => cases h
  | _ => trivial

theorem TypeError.Blames.mono {term term' : Term} (hsub : term.annotated ⊆ term'.annotated)
    (error : TypeError) (h : error.Blames term) : error.Blames term' := by
  cases error with
  | annotationIllFormed ty =>
    obtain ⟨part, hpart⟩ := h
    exact ⟨part, hsub hpart⟩
  | annotationMismatch part ty => exact hsub h
  | _ => trivial

section Terms

variable {check : Term → Ty → Judgment Unit} {synthesize : Term → Judgment Ty}
  {synthesizeApplication : Ty → Term → Judgment Ty} {subtype : Ty → Ty → Judgment Unit}
  (hcheck : ∀ term ty, RaisesAnywhere (TypeError.Blames term) (check term ty))
  (hsynth : ∀ term, RaisesAnywhere (TypeError.Blames term) (synthesize term))
  (happly : ∀ ty term, RaisesAnywhere (TypeError.Blames term) (synthesizeApplication ty term))
  (hsub : ∀ term sub sup, RaisesAnywhere (TypeError.Blames term) (subtype sub sup))

include hcheck hsynth hsub in
theorem checkStep_blames (term : Term) (ty : Ty) :
    RaisesAnywhere (TypeError.Blames term) (own.checkStep check synthesize subtype term ty) := by
  unfold Opening.checkStep
  split
  · exact .accept ()
  refine RaisesAnywhere.orElse ?_ (RaisesAnywhere.orElse ?_ ?_)
  · unfold Opening.checkForAll
    split
    · exact (hcheck _ _).rigidly (TypeError.blames_of_not_annotation _) _
    · exact .reject
  · unfold checkLambda
    split
    · exact ((hcheck _ _).assuming (TypeError.blames_of_not_annotation _) _ _).atomically
    · exact .reject
  · refine RaisesAnywhere.atomically ((hsynth term).bind fun found => ?_)
    refine (RaisesAnywhere.read (reads_resolve found)).bind fun found => ?_
    exact (RaisesAnywhere.read (reads_resolve ty)).bind fun expected => hsub term found expected

include hcheck hsynth happly in
theorem synthesizeStep_blames (term : Term) : RaisesAnywhere (TypeError.Blames term)
    (own.synthesizeStep check synthesize synthesizeApplication term) := by
  cases term with
  | unit => exact .accept _
  | ref x =>
    intro s error s' h
    simp only [Opening.synthesizeStep, lookup] at h
    split at h <;> cases h
  | lam x body =>
    refine RaisesAnywhere.atomically ((RaisesAnywhere.read (reads_bindingLabel x)).bind fun _ => ?_)
    refine RaisesAnywhere.bind (fun _ => .introduce) fun _ =>
      RaisesAnywhere.bind (fun _ => .introduce) fun _ => ?_
    exact ((hcheck body _).assuming (TypeError.blames_of_not_annotation body) x _).bind fun _ =>
      .accept _
  | app function argument =>
    refine RaisesAnywhere.atomically (((hsynth function).mono ?_).bind fun functionType => ?_)
    · exact TypeError.Blames.mono (List.subset_append_left ..)
    · refine (RaisesAnywhere.read (reads_resolve functionType)).bind fun _ => ?_
      exact (happly _ argument).mono (TypeError.Blames.mono (List.subset_append_right ..))
  | ann term ty =>
    refine (RaisesAnywhere.read (reads_isWellFormed ty)).bind fun b => ?_
    split
    · refine (RaisesAnywhere.orElse ((hcheck term ty).mono ?_) (.abort ?_)).bind fun _ => .accept _
      · exact TypeError.Blames.mono (List.subset_cons_self ..)
      · exact List.mem_cons_self
    · exact .abort ⟨term, List.mem_cons_self⟩

include hcheck happly in
theorem synthesizeApplicationStep_blames (functionType : Ty) (argument : Term) :
    RaisesAnywhere (TypeError.Blames argument)
      (synthesizeApplicationStep check synthesizeApplication functionType argument) := by
  cases functionType with
  | void => exact .reject
  | var a => exact .reject
  | placeholder p =>
    have harticulate := RaisesAnywhere.articulate (TypeError.blames_of_not_annotation argument) p
    exact (harticulate.bind fun _ => (hcheck argument _).bind fun _ => .accept _).atomically
  | forAll a body =>
    exact (RaisesAnywhere.introducing (fun body => happly body argument) a body).atomically
  | arrow parameter result => exact (hcheck argument parameter).bind fun _ => .accept _

end Terms

/-- Every annotation error is about an annotated part of the term. -/
theorem typing_blames (limit left : Nat) :
    (∀ term ty, RaisesAnywhere (TypeError.Blames term) (own.check limit left term ty)) ∧
    (∀ term, RaisesAnywhere (TypeError.Blames term) (own.synthesize limit left term)) ∧
    ∀ ty term, RaisesAnywhere (TypeError.Blames term)
      (own.synthesizeApplication limit left ty term) := by
  induction left with
  | zero =>
    refine ⟨fun term ty => ?_, fun term => ?_, fun ty term => ?_⟩
    · rw [Opening.check]
      exact .abort trivial
    · rw [Opening.synthesize]
      exact .abort trivial
    · rw [Opening.synthesizeApplication]
      exact .abort trivial
  | succ left ih =>
    obtain ⟨hcheck, hsynth, happly⟩ := ih
    have hsub := fun term =>
      subtype_raisesAnywhere (TypeError.blames_of_not_annotation term) limit left
    refine ⟨fun term ty => ?_, fun term => ?_, fun ty term => ?_⟩
    · rw [Opening.check]
      exact (checkStep_blames hcheck hsynth hsub term ty).nested
    · rw [Opening.synthesize]
      exact (synthesizeStep_blames hcheck hsynth happly term).nested
    · rw [Opening.synthesizeApplication]
      exact (synthesizeApplicationStep_blames hcheck happly ty term).nested

end HigherRank
