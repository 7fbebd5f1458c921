import Pagewright.Expression.Copy
import Pagewright.Proofs.Entries
import Pagewright.Proofs.Tree

/-!
# What a copy keeps

A copy has the kind and the argument names of what it copies. What it holds are
copies of what was held, each linked to the copy that holds it. A property of
single expressions that copying keeps is kept throughout.
-/

namespace Pagewright

variable {supply : Supply} {owner : ExpressionId} {e copied : Expression} {name : String}

/-! ### One expression -/

section

variable (e : Expression) (parent : Option ExpressionId) (supply : Supply)

@[simp] theorem Expression.copy_kind : (e.copy parent supply).1.kind = e.kind := by
  obtain ⟨id, link, kind, arguments⟩ := e
  rfl

@[simp] theorem Expression.copy_parent : (e.copy parent supply).1.parent = parent := by
  obtain ⟨id, link, kind, arguments⟩ := e
  rfl

@[simp] theorem Expression.copy_id : (e.copy parent supply).1.id = supply.next.toUInt32 := by
  obtain ⟨id, link, kind, arguments⟩ := e
  rfl

theorem Expression.copy_arguments :
    (e.copy parent supply).1.arguments =
      (copyArguments e.arguments supply.next.toUInt32 ⟨supply.next + 1⟩).1 := by
  obtain ⟨id, link, kind, arguments⟩ := e
  rfl

end

theorem copyArguments_names (arguments : Arguments) (owner : ExpressionId)
    (supply : Supply) :
    (copyArguments arguments owner supply).1.map Prod.fst = arguments.map Prod.fst := by
  induction arguments generalizing supply with
  | nil => rfl
  | cons entry rest ih =>
    simp only [copyArguments, List.map_cons]
    rw [ih]

/-- An argument of a copy is a copy of an argument. -/
theorem mem_copyArguments {arguments : Arguments} {copied : Argument}
    (member : (name, copied) ∈ (copyArguments arguments owner supply).1) :
    ∃ value later, (name, value) ∈ arguments ∧ (value.copy owner later).1 = copied := by
  induction arguments generalizing supply with
  | nil => simp [copyArguments] at member
  | cons entry rest ih =>
    simp only [copyArguments, List.mem_cons] at member
    rcases member with same | inRest
    · cases same
      exact ⟨entry.2, supply, by simp, rfl⟩
    · obtain ⟨value, later, found, equal⟩ := ih inRest
      exact ⟨value, later, List.mem_cons_of_mem _ found, equal⟩

private theorem lookup_copyArguments (arguments : Arguments) (owner : ExpressionId)
    (supply : Supply) (name : String) :
    ∃ later, (copyArguments arguments owner supply).1.lookup name =
      (arguments.lookup name).map fun value => (value.copy owner later).1 := by
  induction arguments generalizing supply with
  | nil => exact ⟨supply, rfl⟩
  | cons entry rest ih =>
    obtain ⟨other, value⟩ := entry
    rw [copyArguments, List.lookup_cons, List.lookup_cons]
    split
    · exact ⟨supply, rfl⟩
    · exact ih _

@[simp] theorem Expression.copy_text? (e : Expression) (parent : Option ExpressionId)
    (supply : Supply) (name : String) : (e.copy parent supply).1.text? name = e.text? name := by
  obtain ⟨later, same⟩ := lookup_copyArguments e.arguments supply.next.toUInt32
    ⟨supply.next + 1⟩ name
  unfold Expression.text? Expression.get?
  rw [Expression.copy_arguments, same]
  cases e.arguments.lookup name with
  | none => rfl
  | some value => cases value <;> rfl

@[simp] theorem Expression.copy_parameters (e : Expression) (parent : Option ExpressionId)
    (supply : Supply) : (e.copy parent supply).1.parameters = e.parameters := by
  have atoms : ∀ (items : List Argument) (owner : ExpressionId) (supply : Supply),
      (copyItems items owner supply).1.filterMap Argument.atom? = items.filterMap Argument.atom? := by
    intro items owner
    induction items with
    | nil => intro supply; rfl
    | cons item rest ih =>
      intro supply
      have first : (item.copy owner supply).1.atom? = item.atom? := by cases item <;> rfl
      simp only [copyItems, List.filterMap_cons, first, ih]
  obtain ⟨later, same⟩ := lookup_copyArguments e.arguments supply.next.toUInt32
    ⟨supply.next + 1⟩ "parameters"
  unfold Expression.parameters Expression.list? Expression.get?
  rw [Expression.copy_arguments, same]
  cases e.arguments.lookup "parameters" with
  | none => rfl
  | some value =>
    cases value with
    | list items => exact atoms items _ _
    | _ => rfl

/-- An expression in a copied block is a copy of an expression in the block. -/
theorem mem_copyBlock {children : List Expression}
    (member : copied ∈ (copyBlock children owner supply).1) :
    ∃ child ∈ children, ∃ later, (child.copy (some owner) later).1 = copied := by
  induction children generalizing supply with
  | nil => simp [copyBlock] at member
  | cons child rest ih =>
    simp only [copyBlock, List.mem_cons] at member
    rcases member with rfl | inRest
    · exact ⟨child, by simp, supply, rfl⟩
    · obtain ⟨other, found, later, equal⟩ := ih inRest
      exact ⟨other, List.mem_cons_of_mem _ found, later, equal⟩

/-- A copied value is a block only if the value is one. -/
theorem Argument.copy_eq_block {value : Argument} {copies : List Expression}
    (copied : (value.copy owner supply).1 = .block copies) :
    ∃ children, value = .block children ∧ (copyBlock children owner supply).1 = copies := by
  cases value with
  | block children => exact ⟨children, rfl, Argument.block.inj copied⟩
  | list | atom | text | number => cases copied

/-- Each child of a copy is the copy of a child. -/
theorem Expression.Holds.of_copy {parent : Option ExpressionId}
    (held : (e.copy parent supply).1.Holds name copied) :
    ∃ child later, e.Holds name child ∧
      (child.copy (some supply.next.toUInt32) later).1 = copied := by
  obtain ⟨copies, member, inside⟩ := held
  rw [Expression.copy_arguments] at member
  obtain ⟨value, first, found, equal⟩ := mem_copyArguments member
  obtain ⟨children, rfl, rfl⟩ := Argument.copy_eq_block equal
  obtain ⟨child, among, later, same⟩ := mem_copyBlock inside
  exact ⟨child, later, ⟨children, found, among⟩, same⟩

/-! ### Throughout -/

/-- What copying keeps of a single expression it keeps throughout. -/
theorem Expression.Throughout.copy {property : Expression → Prop}
    (kept : ∀ e parent supply, property e → property (e.copy parent supply).1)
    (all : e.Throughout property) (parent : Option ExpressionId) (supply : Supply) :
    (e.copy parent supply).1.Throughout property := by
  induction e using Expression.inductionOn generalizing parent supply with
  | step owner ih =>
    refine Expression.throughout_iff.mpr ⟨kept owner parent supply all.here, ?_⟩
    intro name copied held
    obtain ⟨child, later, original, rfl⟩ := held.of_copy
    exact ih name child original (all.child original) _ _

end Pagewright
