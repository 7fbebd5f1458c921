import Pagewright.Proofs.Merge
import Pagewright.Proofs.Substitution

/-!
# Tidy expressions

An expression is tidy if its arguments are in order and everything it holds is
linked to a parent. Copies, substitutions and merges of tidy expressions are
tidy, so every expression that building handles is.
-/

namespace Pagewright

open Outcome

variable {e result : Expression} {property : Expression → Prop} {bindings : Bindings} {t s : Supply}
  {arguments : Arguments} {value : Argument}

structure Expression.IsTidy (e : Expression) : Prop where
  ordered : Entries.Ordered e.arguments
  linked : ∀ name child, e.Holds name child → child.parent.isSome

/-- If the value is a block, everything in it is linked to a parent and has the property
throughout. -/
def Argument.Each (property : Expression → Prop) (value : Argument) : Prop :=
  ∀ children, value = .block children → ∀ child ∈ children,
    child.parent.isSome ∧ child.Throughout property

structure TidyArguments (arguments : Arguments) : Prop where
  ordered : Entries.Ordered arguments
  each : ∀ name value, (name, value) ∈ arguments → value.Each Expression.IsTidy

theorem Argument.Each.imp {other : Expression → Prop} (each : value.Each property)
    (weaker : ∀ e, property e → other e) : value.Each other :=
  fun children equal child member =>
    ⟨(each children equal child member).1, (each children equal child member).2.imp weaker⟩

theorem Expression.throughout_tidy_iff :
    e.Throughout Expression.IsTidy ↔ TidyArguments e.arguments := by
  constructor
  · intro tidy
    refine ⟨tidy.here.ordered, ?_⟩
    rintro name value member children rfl child inside
    have held : e.Holds name child := ⟨children, member, inside⟩
    exact ⟨tidy.here.linked name child held, tidy.child held⟩
  · rintro ⟨ordered, each⟩
    refine Expression.throughout_iff.mpr ⟨⟨ordered, ?_⟩, ?_⟩
    · rintro name child ⟨children, member, inside⟩
      exact (each name _ member children rfl child inside).1
    · rintro name child ⟨children, member, inside⟩
      exact (each name _ member children rfl child inside).2

/-- Tidiness says nothing about identifier, parent or kind of the outermost expression. -/
theorem Expression.Throughout.tidy_of_arguments {other : Expression}
    (tidy : e.Throughout Expression.IsTidy) (same : other.arguments = e.arguments) :
    other.Throughout Expression.IsTidy := by
  rw [Expression.throughout_tidy_iff] at tidy ⊢
  rwa [same]

private theorem TidyArguments.sublist {fewer : Arguments} (tidy : TidyArguments arguments)
    (sublist : fewer.Sublist arguments) : TidyArguments fewer where
  ordered := List.Pairwise.sublist sublist tidy.ordered
  each name value member := tidy.each name value (sublist.mem member)

theorem TidyArguments.erase (tidy : TidyArguments arguments) (name : String) :
    TidyArguments (Entries.erase arguments name) :=
  tidy.sublist List.filter_sublist

/-! ### Copies -/

theorem Expression.copy_tidy (tidy : e.Throughout Expression.IsTidy)
    (parent : Option ExpressionId) (supply : Supply) :
    (e.copy parent supply).1.Throughout Expression.IsTidy := by
  refine tidy.copy ?_ parent supply
  intro e parent supply here
  constructor
  · refine here.ordered.of_names ?_
    rw [Expression.copy_arguments, copyArguments_names]
  · intro name copied held
    obtain ⟨child, later, -, rfl⟩ := held.of_copy
    simp

/-! ### Substitution -/

def TidyBindings (bindings : Bindings) : Prop :=
  ∀ formal actual, bindings.lookup formal = some actual → actual.Each Expression.IsTidy

theorem substitute_parent (run : substitute bindings e s = .ok result t) :
    result.parent = e.parent := by
  obtain ⟨arguments, -, rfl⟩ := substitute_ok.mp run
  rfl

theorem substitute_tidy (actuals : TidyBindings bindings) (tidy : e.Throughout Expression.IsTidy)
    (run : substitute bindings e s = .ok result t) : result.Throughout Expression.IsTidy := by
  induction e using Expression.inductionOn generalizing result s t with
  | step owner ih =>
    -- Every piece of a block of the result is linked and tidy, wherever it comes from.
    have pieces : ∀ name piece, result.Holds name piece →
        piece.parent.isSome ∧ piece.Throughout Expression.IsTidy := by
      intro name piece held
      cases held.of_substitute run with
      | kept original substituted =>
        refine ⟨?_, ih name _ original (tidy.child original) substituted⟩
        rw [substitute_parent substituted]
        exact tidy.here.linked name _ original
      | @renamed child piece kind s t original substituted =>
        refine ⟨?_, (ih name _ original (tidy.child original) substituted).tidy_of_arguments rfl⟩
        show piece.parent.isSome
        rw [substitute_parent substituted]
        exact tidy.here.linked name _ original
      | inserted bound member =>
        refine ⟨by simp, ?_⟩
        exact Expression.copy_tidy (actuals _ _ bound _ rfl _ member).2 _ _
    refine Expression.throughout_iff.mpr ⟨⟨?_, ?_⟩, ?_⟩
    · exact tidy.here.ordered.of_names (substitute_names run)
    · exact fun name piece held => (pieces name piece held).1
    · exact fun name piece held => (pieces name piece held).2

/-! ### Merging -/

/-- What merging puts into a block was in a block before, with the property throughout. -/
theorem merge_each {child parent : Expression} {name : String}
    (relinked : ∀ e : Expression, ∀ owner, e.Throughout property →
      ({ e with parent := some owner } : Expression).Throughout property)
    (own : ∀ name value, (name, value) ∈ child.arguments → value.Each property)
    (taken : ∀ name value, (name, value) ∈ parent.arguments → value.Each property)
    (member : (name, value) ∈ (merge child parent).arguments) : value.Each property := by
  cases mem_merge member with
  | own found => exact own name value (Entries.mem_erase.mp found).1
  | taken found free =>
    rename_i original
    intro adopted equal e inside
    obtain ⟨children, rfl, rfl⟩ := Argument.adopt_eq_block equal
    obtain ⟨before, among, rfl⟩ := List.mem_map.mp inside
    exact ⟨rfl, relinked before _ (taken name _ found children rfl before among).2⟩
  | joined items =>
    intro children equal
    cases equal

end Pagewright
