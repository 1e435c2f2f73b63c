import HigherRank.Proofs.Insertion
import HigherRank.Subtyping

set_option autoImplicit false

/-!
# Renaming of identifiers

Type identifiers and markers are only compared with each other. If all of them are renamed, and no two
are confused, every question about a type or a context has the renamed answer.
-/
namespace HigherRank

/-- New identifiers for old ones, no two of them the same. -/
structure Renaming where
  types : TypeId → TypeId
  markers : Marker → Marker
  types_injective : Function.Injective types
  markers_injective : Function.Injective markers

/-- What is minted from the bounds on is moved up, and the rest stays. -/
def Renaming.shift (n moved m moved' : Nat) : Renaming where
  types a := if a.index < n then a else ⟨a.index + moved⟩
  markers k := if k.index < m then k else ⟨k.index + moved'⟩
  types_injective a b h := by
    obtain ⟨a⟩ := a
    obtain ⟨b⟩ := b
    simp only at h
    split at h <;> split at h <;> simp only [TypeId.mk.injEq] at h ⊢ <;> omega
  markers_injective a b h := by
    obtain ⟨a⟩ := a
    obtain ⟨b⟩ := b
    simp only at h
    split at h <;> split at h <;> simp only [Marker.mk.injEq] at h ⊢ <;> omega

variable {ρ : Renaming}

@[simp] theorem Renaming.types_eq_iff {a b : TypeId} : ρ.types a = ρ.types b ↔ a = b :=
  ρ.types_injective.eq_iff

@[simp] theorem Renaming.markers_eq_iff {m n : Marker} : ρ.markers m = ρ.markers n ↔ m = n :=
  ρ.markers_injective.eq_iff

namespace Ty

def renamed (ρ : Renaming) : Ty → Ty
  | void => void
  | var a => var (ρ.types a)
  | placeholder p => placeholder (ρ.types p)
  | forAll a body => forAll (ρ.types a) (body.renamed ρ)
  | arrow parameter result => arrow (parameter.renamed ρ) (result.renamed ρ)

theorem renamed_eq_placeholder_iff {p : TypeId} {ty : Ty} :
    ty.renamed ρ = .placeholder (ρ.types p) ↔ ty = .placeholder p := by
  cases ty <;> simp [renamed]

theorem renamed_replace {f g f' g' : TypeId → Ty} (hf : ∀ a, (f a).renamed ρ = f' (ρ.types a))
    (hg : ∀ p, (g p).renamed ρ = g' (ρ.types p)) (ty : Ty) :
    (ty.replace f g).renamed ρ = (ty.renamed ρ).replace f' g' := by
  induction ty with
  | void => rfl
  | var a => exact hf a
  | placeholder p => exact hg p
  | forAll a body ih => simp only [replace, renamed, ih]
  | arrow parameter result ihp ihr => simp only [replace, renamed, ihp, ihr]

theorem renamed_subst (ty κ : Ty) (a : TypeId) :
    (ty.subst a κ).renamed ρ = (ty.renamed ρ).subst (ρ.types a) (κ.renamed ρ) := by
  refine renamed_replace (fun b => ?_) (fun _ => rfl) ty
  simp only [Renaming.types_eq_iff]
  split <;> rfl

theorem mentions_renamed (ty : Ty) (p : TypeId) :
    (ty.renamed ρ).mentions (ρ.types p) = ty.mentions p := by
  induction ty with
  | void => rfl
  | var a => rfl
  | placeholder q =>
    rw [Bool.eq_iff_iff]
    simp [renamed, mentions]
  | forAll a body ih => exact ih
  | arrow parameter result ihp ihr => simp only [renamed, mentions, ihp, ihr]

theorem isMonotype_renamed (ty : Ty) : (ty.renamed ρ).isMonotype = ty.isMonotype := by
  cases ty <;> rfl

theorem sameAtom_renamed (τ υ : Ty) : (τ.renamed ρ).sameAtom (υ.renamed ρ) = τ.sameAtom υ := by
  cases τ <;> cases υ <;> first | rfl | (rw [Bool.eq_iff_iff]; simp [renamed, sameAtom])

theorem renamed_of_fixed {ty : Ty} (h : ∀ a ∈ ty.names, ρ.types a = a) : ty.renamed ρ = ty := by
  induction ty with
  | void => rfl
  | var a => rw [renamed, h a (List.mem_singleton_self a)]
  | placeholder p => rw [renamed, h p (List.mem_singleton_self p)]
  | forAll a body ih =>
    rw [renamed, h a List.mem_cons_self, ih fun b hb => h b (List.mem_cons_of_mem _ hb)]
  | arrow parameter result ihp ihr =>
    rw [renamed, ihp fun b hb => h b (List.mem_append_left _ hb),
      ihr fun b hb => h b (List.mem_append_right _ hb)]

end Ty

def Term.renamed (ρ : Renaming) : Term → Term
  | unit => unit
  | ref x => ref x
  | lam x body => lam x (body.renamed ρ)
  | app function argument => app (function.renamed ρ) (argument.renamed ρ)
  | ann term ty => ann (term.renamed ρ) (ty.renamed ρ)

theorem Term.renamed_of_fixed {term : Term}
    (h : ∀ ty ∈ term.annotations, ∀ a ∈ ty.names, ρ.types a = a) : term.renamed ρ = term := by
  induction term with
  | unit => rfl
  | ref x => rfl
  | lam x body ih => rw [renamed, ih h]
  | app function argument ihf iha =>
    rw [renamed, ihf fun ty hty => h ty (List.mem_append_left _ hty),
      iha fun ty hty => h ty (List.mem_append_right _ hty)]
  | ann term ty ih =>
    rw [renamed, ih fun τ hτ => h τ (List.mem_cons_of_mem _ hτ),
      Ty.renamed_of_fixed (h ty List.mem_cons_self)]

def TypeError.renamed (ρ : Renaming) : TypeError → TypeError
  | missingPlaceholder p => missingPlaceholder (ρ.types p)
  | missingMarker m => missingMarker (ρ.markers m)
  | annotationIllFormed ty => annotationIllFormed (ty.renamed ρ)
  | annotationMismatch term ty => annotationMismatch (term.renamed ρ) (ty.renamed ρ)
  | depthLimitExceeded limit => depthLimitExceeded limit

def Entry.renamed (ρ : Renaming) : Entry → Entry
  | var a => var (ρ.types a)
  | unsolved p => unsolved (ρ.types p)
  | solved p solution => solved (ρ.types p) (solution.renamed ρ)
  | binding x ty => binding x (ty.renamed ρ)
  | marker m => marker (ρ.markers m)

def Context.renamed (ρ : Renaming) (Γ : Context) : Context := Γ.map (Entry.renamed ρ)

theorem Entry.renamed_eq_unsolved_iff {p : TypeId} {e : Entry} :
    e.renamed ρ = .unsolved (ρ.types p) ↔ e = .unsolved p := by
  cases e <;> simp [renamed]

theorem Entry.renamed_eq_marker_iff {m : Marker} {e : Entry} :
    e.renamed ρ = .marker (ρ.markers m) ↔ e = .marker m := by
  cases e <;> simp [renamed]

namespace Context

variable {Γ before after : Context} {e : Entry} {p : TypeId}

theorem renamed_append (Γ Δ : Context) : renamed ρ (Γ ++ Δ) = Γ.renamed ρ ++ renamed ρ Δ :=
  List.map_append

theorem mem_renamed (he : ∀ e', e'.renamed ρ = e.renamed ρ ↔ e' = e) :
    e.renamed ρ ∈ Γ.renamed ρ ↔ e ∈ Γ := by
  simp only [renamed, List.mem_map, he, exists_eq_right]

theorem splitAt?_renamed (he : ∀ e', e'.renamed ρ = e.renamed ρ ↔ e' = e) :
    (Γ.renamed ρ).splitAt? (e.renamed ρ) =
      (Γ.splitAt? e).map fun (before, after) => (before.renamed ρ, after.renamed ρ) := by
  cases hsplit : Γ.splitAt? e with
  | none =>
    have hmem := splitAt?_eq_none_iff.1 hsplit
    exact splitAt?_eq_none_iff.2 fun h => hmem ((mem_renamed he).1 h)
  | some split =>
    obtain ⟨hΓ, hbefore⟩ := eq_append_of_splitAt? hsplit
    refine splitAt?_eq_some_iff.2 ⟨?_, fun h => hbefore ((mem_renamed he).1 h)⟩
    rw [hΓ, renamed_append]
    rfl

theorem slot_renamed (h : Γ.slot p = .ok (before, after)) :
    (Γ.renamed ρ).slot (ρ.types p) = .ok (before.renamed ρ, after.renamed ρ) := by
  obtain ⟨hΓ, hbefore⟩ := slot_eq_ok.1 h
  refine slot_eq_ok.2 ⟨?_, fun h => hbefore ?_⟩
  · rw [hΓ, renamed_append]
    rfl
  · exact (mem_renamed fun _ => Entry.renamed_eq_unsolved_iff).1 h

theorem slot_renamed_of_error {error : TypeError} (h : Γ.slot p = .error error) :
    (Γ.renamed ρ).slot (ρ.types p) = .error (error.renamed ρ) := by
  obtain ⟨hmem, rfl⟩ := slot_eq_error.1 h
  refine slot_eq_error.2 ⟨fun h => hmem ?_, rfl⟩
  exact (mem_renamed fun _ => Entry.renamed_eq_unsolved_iff).1 h

theorem isUnsolved_renamed (Γ : Context) (p : TypeId) :
    (Γ.renamed ρ).isUnsolved (ρ.types p) = Γ.isUnsolved p := by
  rw [Bool.eq_iff_iff]
  simp only [isUnsolved, List.contains_iff_mem]
  exact mem_renamed (e := .unsolved p) fun _ => Entry.renamed_eq_unsolved_iff

theorem solution?_renamed (Γ : Context) (p : TypeId) :
    (Γ.renamed ρ).solution? (ρ.types p) = (Γ.solution? p).map (Ty.renamed ρ) := by
  rw [renamed, solution?, solution?, List.findSome?_map, List.map_findSome?]
  refine congrArg (List.findSome? · Γ) (funext fun e => ?_)
  cases e with
  | solved q τ => by_cases hq : q = p <;> simp [Entry.renamed, hq]
  | _ => rfl

theorem binding?_renamed (Γ : Context) (x : BindingId) :
    (Γ.renamed ρ).binding? x = (Γ.binding? x).map (Ty.renamed ρ) := by
  rw [renamed, binding?, binding?, ← List.map_reverse, List.findSome?_map, List.map_findSome?]
  refine congrArg (List.findSome? · Γ.reverse) (funext fun e => ?_)
  cases e with
  | binding y τ => by_cases hy : y = x <;> simp [Entry.renamed, hy]
  | _ => rfl

theorem resolve_renamed (Γ : Context) (n : Nat) (p : TypeId) :
    (Γ.renamed ρ).resolve n (ρ.types p) = (Γ.resolve n p).renamed ρ := by
  induction n generalizing p with
  | zero => rfl
  | succ n ih =>
    simp only [resolve, solution?_renamed]
    cases Γ.solution? p with
    | none => rfl
    | some τ => exact (Ty.renamed_replace (fun _ => rfl) (fun q => (ih q).symm) τ).symm

theorem apply_renamed (Γ : Context) (ty : Ty) :
    (Γ.renamed ρ).apply (ty.renamed ρ) = (Γ.apply ty).renamed ρ := by
  have hlength : (Γ.renamed ρ).length = Γ.length := List.length_map _
  rw [apply, apply, hlength]
  exact (Ty.renamed_replace (fun _ => rfl) (fun p => (Γ.resolve_renamed _ p).symm) ty).symm

theorem declared_renamed (Γ : Context) : (Γ.renamed ρ).declared =
    ⟨Γ.declared.rigid.map ρ.types, Γ.declared.placeholders.map ρ.types⟩ := by
  simp only [declared, renamed, List.filterMap_map, List.map_filterMap, Declared.mk.injEq]
  refine ⟨congrArg (List.filterMap · Γ) (funext fun e => ?_),
    congrArg (List.filterMap · Γ) (funext fun e => ?_)⟩ <;> cases e <;> rfl

end Context

theorem Declared.admits_renamed (D : Declared) (quantified : List TypeId) (ty : Ty) :
    Declared.admits ⟨D.rigid.map ρ.types, D.placeholders.map ρ.types⟩ (quantified.map ρ.types)
      (ty.renamed ρ) = D.admits quantified ty := by
  have hcontains : ∀ (names : List TypeId) (a : TypeId),
      (names.map ρ.types).contains (ρ.types a) = names.contains a := fun names a => by
    rw [Bool.eq_iff_iff]
    simp
  induction ty generalizing quantified with
  | void => rfl
  | var a => simp only [Ty.renamed, admits, hcontains]
  | placeholder p => simp only [Ty.renamed, admits, hcontains]
  | forAll a body ih => exact ih (a :: quantified)
  | arrow parameter result ihp ihr => simp only [Ty.renamed, admits, ihp, ihr]

theorem Context.wellFormed_renamed (Γ : Context) (ty : Ty) :
    (Γ.renamed ρ).wellFormed (ty.renamed ρ) = Γ.wellFormed ty := by
  rw [wellFormed_eq_admits, wellFormed_eq_admits, declared_renamed]
  exact Γ.declared.admits_renamed [] ty

theorem Entry.renamed_of_fixed {e : Entry} (h : ∀ a ∈ e.names, ρ.types a = a)
    (hm : ∀ m, e = .marker m → ρ.markers m = m) : e.renamed ρ = e := by
  cases e with
  | var a => rw [renamed, h a (List.mem_singleton_self a)]
  | unsolved p => rw [renamed, h p (List.mem_singleton_self p)]
  | solved p τ =>
    rw [renamed, h p List.mem_cons_self,
      Ty.renamed_of_fixed fun a ha => h a (List.mem_cons_of_mem _ ha)]
  | binding x ty => rw [renamed, Ty.renamed_of_fixed h]
  | marker m => rw [renamed, hm m rfl]

theorem Context.renamed_of_fixed {Γ : Context} (h : ∀ e ∈ Γ, ∀ a ∈ e.names, ρ.types a = a)
    (hm : ∀ m, .marker m ∈ Γ → ρ.markers m = m) : Γ.renamed ρ = Γ := by
  refine (List.map_congr_left fun e he => ?_).trans (List.map_id Γ)
  exact Entry.renamed_of_fixed (h e he) fun m heq => hm m (heq ▸ he)

end HigherRank
