import HigherRank.Proofs.Names

set_option autoImplicit false

/-!
# The rules of well-formedness

Below a quantifier the rules ask for a context that ends with the quantified variable; the walk asks for
the stack that it keeps, and never changes the context. Both answer alike, whatever is on the stack, also
where a name is quantified twice or quantified and declared. The walk hands its stack on as it got it, so
that no name is seen outside the body of its quantifier.
-/
namespace HigherRank

namespace Context

variable {Γ : Context}

/-- Well-formedness by the rules, one for each form of type. -/
def Scopes : Context → Ty → Prop
  | _, .void => True
  | Γ, .var a => .var a ∈ Γ
  | Γ, .placeholder p => .unsolved p ∈ Γ ∨ ∃ τ, .solved p τ ∈ Γ
  | Γ, .forAll a body => Scopes (Γ ++ [.var a]) body
  | Γ, .arrow parameter result => Scopes Γ parameter ∧ Scopes Γ result

theorem mem_placeholders {p : TypeId} :
    p ∈ Γ.placeholders ↔ .unsolved p ∈ Γ ∨ ∃ τ, .solved p τ ∈ Γ := by
  constructor
  · intro hp
    obtain ⟨e, he, hep⟩ := List.mem_filterMap.1 hp
    cases e with
    | unsolved q =>
      cases hep
      exact .inl he
    | solved q τ =>
      cases hep
      exact .inr ⟨τ, he⟩
    | var a => cases hep
    | binding x ty => cases hep
    | marker m => cases hep
  · rintro (hp | ⟨τ, hp⟩)
    · exact List.mem_filterMap.2 ⟨_, hp, rfl⟩
    · exact List.mem_filterMap.2 ⟨_, hp, rfl⟩

def below (Γ : Context) (quantified : List TypeId) : Context :=
  Γ ++ quantified.reverse.map .var

theorem below_nil (Γ : Context) : Γ.below [] = Γ := List.append_nil Γ

theorem below_cons (Γ : Context) (a : TypeId) (quantified : List TypeId) :
    Γ.below (a :: quantified) = Γ.below quantified ++ [.var a] := by
  simp [below]

theorem var_mem_below {a : TypeId} {quantified : List TypeId} :
    .var a ∈ Γ.below quantified ↔ .var a ∈ Γ ∨ a ∈ quantified := by
  simp [below]

theorem placeholders_below (Γ : Context) (quantified : List TypeId) :
    (Γ.below quantified).placeholders = Γ.placeholders := by
  have hvars : (quantified.reverse.map Entry.var).filterMap Entry.placeholder? = [] := by
    refine List.filterMap_eq_nil_iff.2 fun e he => ?_
    obtain ⟨a, -, rfl⟩ := List.mem_map.1 he
    rfl
  rw [below, Context.placeholders, List.filterMap_append, hvars, List.append_nil]

theorem admits_iff_scopes (Γ : Context) (quantified : List TypeId) (ty : Ty) :
    Γ.declared.admits quantified ty = true ↔ (Γ.below quantified).Scopes ty := by
  -- The stack of the walk stands for variables at the end of the context.
  induction ty generalizing quantified with
  | void => simp [Declared.admits, Scopes]
  | var a =>
    rw [Scopes, var_mem_below, ← mem_rigid]
    simp [Declared.admits, declared]
  | placeholder p =>
    rw [Scopes, ← mem_placeholders, placeholders_below]
    simp [Declared.admits, declared]
  | forAll a body ih => rw [Declared.admits, ih, Scopes, below_cons]
  | arrow parameter result ihp ihr =>
    rw [Declared.admits, Bool.and_eq_true, ihp, ihr, Scopes]

theorem wellFormed_iff_scopes (Γ : Context) (ty : Ty) : Γ.wellFormed ty = true ↔ Γ.Scopes ty := by
  rw [wellFormed_eq_admits, admits_iff_scopes, below_nil]

/-- Well-formedness is what the rules say. On every stack the walk gives the answer of the rules in the
context that the stack stands for, and leaves the stack as it was. So a quantified variable is in scope
in its own body, and a sibling that is walked afterwards is judged without it. -/
theorem wellFormed_agrees (Γ : Context) (ty : Ty) :
    (Γ.wellFormed ty = true ↔ Γ.Scopes ty) ∧
    (∀ quantified : List TypeId, ∃ answer : Bool,
      (Γ.declared.visit ty).run quantified = (answer, quantified) ∧
        (answer = true ↔ (Γ.below quantified).Scopes ty)) ∧
    ∀ (a : TypeId) (sibling : Ty), Γ.wellFormed (.arrow (.forAll a ty) sibling) = true ↔
      (Γ ++ [Entry.var a]).wellFormed ty = true ∧ Γ.wellFormed sibling = true := by
  refine ⟨Γ.wellFormed_iff_scopes ty, fun quantified => ?_, fun a sibling => ?_⟩
  · exact ⟨_, Γ.declared.visit_run ty quantified, Γ.admits_iff_scopes quantified ty⟩
  · simp only [wellFormed_iff_scopes, Scopes]

-- Two quantifiers over one name that is used once more beside them.
example : wellFormed [] (.arrow (.forAll ⟨0⟩ (.forAll ⟨0⟩ (.var ⟨0⟩))) (.var ⟨0⟩)) = false := by
  decide

end Context
end HigherRank
