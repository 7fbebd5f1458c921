import Pagewright.Expression.Copy
import Pagewright.Proofs.Entries
import Pagewright.Proofs.Tree

/-!
# Renumbering and outlines

Identifiers say which expression is meant and nothing else. `renumber` changes
all identifiers and parent links of a tree; the outline of an expression is what
is left when they are all made the same. Two expressions have one outline if they
differ in identifiers only. Whatever is read off arguments and kinds is the same
after a renumbering.
-/

namespace Pagewright

variable {second first : Expression} {value : Argument} {name : String}

mutual

/-- Changes every identifier, in parent links as well. -/
def Expression.renumber (change : ExpressionId → ExpressionId) : Expression → Expression
  | ⟨id, parent, kind, arguments⟩ =>
    ⟨change id, parent.map change, kind, renumberArguments change arguments⟩

def renumberArguments (change : ExpressionId → ExpressionId) :
    List (String × Argument) → List (String × Argument)
  | [] => []
  | (name, value) :: rest => (name, value.renumber change) :: renumberArguments change rest

def Argument.renumber (change : ExpressionId → ExpressionId) : Argument → Argument
  | .block children => .block (renumberBlock change children)
  | .list items => .list (renumberItems change items)
  | .atom name => .atom name
  | .text value => .text value
  | .number digits => .number digits

def renumberBlock (change : ExpressionId → ExpressionId) : List Expression → List Expression
  | [] => []
  | child :: rest => child.renumber change :: renumberBlock change rest

def renumberItems (change : ExpressionId → ExpressionId) : List Argument → List Argument
  | [] => []
  | item :: rest => item.renumber change :: renumberItems change rest

end

def Expression.outline (e : Expression) : Expression :=
  e.renumber fun _ => 0

def Argument.outline (value : Argument) : Argument :=
  value.renumber fun _ => 0

section

variable (change : ExpressionId → ExpressionId)

/-! ### Lists as maps -/

theorem renumberArguments_eq (arguments : Arguments) :
    renumberArguments change arguments =
      arguments.map fun entry => (entry.1, entry.2.renumber change) := by
  induction arguments with
  | nil => rfl
  | cons entry rest ih => simp [renumberArguments, ih]

theorem renumberBlock_eq (children : List Expression) :
    renumberBlock change children = children.map (Expression.renumber change) := by
  induction children with
  | nil => rfl
  | cons child rest ih => simp [renumberBlock, ih]

theorem renumberItems_eq (items : List Argument) :
    renumberItems change items = items.map (Argument.renumber change) := by
  induction items with
  | nil => rfl
  | cons item rest ih => simp [renumberItems, ih]

/-! ### What renumbering keeps -/

@[simp] theorem Expression.renumber_kind (e : Expression) : (e.renumber change).kind = e.kind := by
  obtain ⟨id, parent, kind, arguments⟩ := e
  rfl

@[simp] theorem Expression.renumber_parent (e : Expression) :
    (e.renumber change).parent = e.parent.map change := by
  obtain ⟨id, parent, kind, arguments⟩ := e
  rfl

theorem Expression.renumber_arguments (e : Expression) :
    (e.renumber change).arguments = renumberArguments change e.arguments := by
  obtain ⟨id, parent, kind, arguments⟩ := e
  rfl

theorem lookup_renumberArguments (name : String) (arguments : Arguments) :
    (renumberArguments change arguments).lookup name =
      (arguments.lookup name).map (Argument.renumber change) := by
  induction arguments with
  | nil => rfl
  | cons entry rest ih =>
    obtain ⟨other, value⟩ := entry
    by_cases same : name = other
    · subst same
      simp [renumberArguments]
    · rw [renumberArguments, Entries.lookup_cons_of_ne same, Entries.lookup_cons_of_ne same, ih]

@[simp] theorem Expression.renumber_get? (e : Expression) (name : String) :
    (e.renumber change).get? name = (e.get? name).map (Argument.renumber change) := by
  rw [Expression.get?, Expression.renumber_arguments, lookup_renumberArguments]
  rfl

@[simp] theorem Argument.renumber_typeName (value : Argument) :
    (value.renumber change).typeName = value.typeName := by
  cases value <;> rfl

@[simp] theorem Argument.renumber_text? (value : Argument) :
    (value.renumber change).text? = value.text? := by
  cases value <;> rfl

@[simp] theorem Argument.renumber_atom? (value : Argument) :
    (value.renumber change).atom? = value.atom? := by
  cases value <;> rfl

@[simp] theorem Argument.renumber_number? (value : Argument) :
    (value.renumber change).number? = value.number? := by
  cases value <;> rfl

private theorem Argument.renumber_list? (value : Argument) :
    (value.renumber change).list? = value.list?.map (List.map (Argument.renumber change)) := by
  cases value <;> simp [Argument.renumber, Argument.list?, renumberItems_eq]

theorem Argument.renumber_block? (value : Argument) :
    (value.renumber change).block? = value.block?.map (List.map (Expression.renumber change)) := by
  cases value <;> simp [Argument.renumber, Argument.block?, renumberBlock_eq]

namespace Expression

variable (e : Expression) (name : String)

@[simp] theorem renumber_has : (e.renumber change).has name = e.has name := by
  simp [has]

@[simp] theorem renumber_text? : (e.renumber change).text? name = e.text? name := by
  cases found : e.get? name <;> simp [text?, found]

@[simp] theorem renumber_number? : (e.renumber change).number? name = e.number? name := by
  cases found : e.get? name <;> simp [number?, found]

private theorem renumber_list? :
    (e.renumber change).list? name = (e.list? name).map (List.map (Argument.renumber change)) := by
  cases found : e.get? name <;> simp [list?, found, Argument.renumber_list?]

@[simp] theorem renumber_texts : (e.renumber change).texts name = e.texts name := by
  cases found : e.list? name <;>
    simp [texts, renumber_list?, found, List.filterMap_map]

@[simp] theorem renumber_defines? : (e.renumber change).defines? = e.defines? := by
  simp [defines?]

@[simp] theorem renumber_isGeneric : (e.renumber change).isGeneric = e.isGeneric := by
  simp [isGeneric]

@[simp] theorem renumber_parameters : (e.renumber change).parameters = e.parameters := by
  cases found : e.list? "parameters" <;>
    simp [parameters, renumber_list?, found, List.filterMap_map]

@[simp] theorem renumber_isConcrete : (e.renumber change).isConcrete = e.isConcrete := by
  simp [isConcrete]

@[simp] theorem renumber_isReference : (e.renumber change).isReference = e.isReference := by
  simp [isReference]

end Expression

end

/-! ### Equal outlines -/

/-- Lists whose images are the same agree entry by entry. -/
theorem map_eq_map_iff_forall₂ {α β : Type} {f : α → β} {xs ys : List α} :
    xs.map f = ys.map f ↔ List.Forall₂ (fun x y => f x = f y) xs ys := by
  rw [← List.forall₂_eq_eq_eq, List.forall₂_map_left_iff, List.forall₂_map_right_iff]

def SameArguments (first second : Arguments) : Prop :=
  List.Forall₂ (fun a b => a.1 = b.1 ∧ a.2.outline = b.2.outline) first second

theorem renumberArguments_eq_iff {first second : Arguments} :
    renumberArguments (fun _ => 0) first = renumberArguments (fun _ => 0) second ↔
      SameArguments first second := by
  simp only [renumberArguments_eq, map_eq_map_iff_forall₂, Prod.mk.injEq]
  rfl

/-- An outline forgets the identifiers and keeps everything else. -/
theorem Expression.outline_eq_iff :
    first.outline = second.outline ↔
      first.parent.isSome = second.parent.isSome ∧ first.kind = second.kind ∧
        SameArguments first.arguments second.arguments := by
  obtain ⟨id, parent, kind, arguments⟩ := first
  obtain ⟨id', parent', kind', arguments'⟩ := second
  simp only [Expression.outline, Expression.renumber, Expression.mk.injEq, true_and,
    renumberArguments_eq_iff]
  refine and_congr_left fun _ => ?_
  cases parent <;> cases parent' <;> simp

/-- Expressions that differ in identifiers only. -/
def SameOutline (first second : Expression) : Prop :=
  first.outline = second.outline

theorem Argument.outline_block_eq_iff {first second : List Expression} :
    (Argument.block first).outline = (Argument.block second).outline ↔
      List.Forall₂ SameOutline first second := by
  simp only [Argument.outline, Argument.renumber, Argument.block.injEq, renumberBlock_eq]
  exact map_eq_map_iff_forall₂

/-- What has the outline of a block is a block. -/
theorem Argument.outline_eq_block {children : List Expression}
    (same : (Argument.block children).outline = value.outline) :
    ∃ others, value = .block others ∧ List.Forall₂ SameOutline children others := by
  cases value with
  | block others => exact ⟨others, rfl, Argument.outline_block_eq_iff.mp same⟩
  | list | atom | text | number => simp [Argument.outline, Argument.renumber] at same

theorem Argument.leaf_of_outline {other : Argument} (same : value.outline = other.outline)
    (leaf : value.block? = none) : other.block? = none := by
  have equal := congrArg Argument.block? same
  simpa [Argument.outline, Argument.renumber_block?, leaf] using equal.symm

/-! ### What expressions of one outline hold -/

theorem exists_of_forall₂_right {α β : Type} {related : α → β → Prop} {xs : List α} {ys : List β}
    (all : List.Forall₂ related xs ys) {y : β} (member : y ∈ ys) : ∃ x ∈ xs, related x y := by
  induction all with
  | nil => simp at member
  | cons first _ ih =>
    rcases List.mem_cons.mp member with rfl | inRest
    · exact ⟨_, by simp, first⟩
    · obtain ⟨x, inside, holds⟩ := ih inRest
      exact ⟨x, List.mem_cons_of_mem _ inside, holds⟩

theorem exists_zip_of_mem {α β : Type} {related : α → β → Prop} {xs : List α} {ys : List β}
    (all : List.Forall₂ related xs ys) {x : α} (member : x ∈ xs) : ∃ y, (x, y) ∈ xs.zip ys := by
  induction all with
  | nil => simp at member
  | cons _ _ ih =>
    rcases List.mem_cons.mp member with rfl | inRest
    · exact ⟨_, List.mem_cons_self⟩
    · obtain ⟨y, inside⟩ := ih inRest
      exact ⟨y, List.mem_cons_of_mem _ inside⟩

theorem SameArguments.of_mem {first second : Arguments} (same : SameArguments first second)
    (member : (name, value) ∈ second) :
    ∃ other, (name, other) ∈ first ∧ other.outline = value.outline := by
  obtain ⟨⟨_, other⟩, there, rfl, outlines⟩ := exists_of_forall₂_right same member
  exact ⟨other, there, outlines⟩

/-- Trees of one outline hold children of one outline. -/
theorem Expression.Holds.same (same : SameArguments first.arguments second.arguments)
    {child : Expression} (held : second.Holds name child) :
    ∃ other, first.Holds name other ∧ SameOutline other child := by
  obtain ⟨children, member, inside⟩ := held
  obtain ⟨value, there, outlines⟩ := same.of_mem member
  obtain ⟨others, rfl, each⟩ := Argument.outline_eq_block outlines.symm
  obtain ⟨other, among, equal⟩ := exists_of_forall₂_right (List.Forall₂.flip each) inside
  exact ⟨other, ⟨others, there, among⟩, equal.symm⟩

/-- Expressions of one kind that differ in identifiers only, but for the link to a parent. -/
structure SameContent (first second : Expression) : Prop where
  kinds : first.kind = second.kind
  arguments : SameArguments first.arguments second.arguments

/-- Equal outlines have equal content. -/
theorem SameOutline.content (outlines : SameOutline first second) : SameContent first second :=
  ⟨(Expression.outline_eq_iff.mp outlines).2.1, (Expression.outline_eq_iff.mp outlines).2.2⟩

/-- What does not look at identifiers holds throughout all expressions of one content. -/
theorem Expression.Throughout.same {property : Expression → Prop}
    (stable : ∀ first second, SameContent first second → property first → property second)
    (contents : SameContent first second) (all : first.Throughout property) :
    second.Throughout property := by
  induction second using Expression.inductionOn generalizing first with
  | step second ih =>
    refine Expression.throughout_iff.mpr ⟨stable first second contents all.here, ?_⟩
    intro name child held
    obtain ⟨other, there, same⟩ := held.same contents.arguments
    exact ih name child held same.content (all.child there)

/-! ### Comparing

Derived instances do not reach through the lists of blocks and arguments. -/

mutual

def Expression.decEq : (first second : Expression) → Decidable (first = second)
  | ⟨id, parent, kind, arguments⟩, ⟨id', parent', kind', arguments'⟩ =>
    have : Decidable (arguments = arguments') := decEqArguments arguments arguments'
    decidable_of_iff (id = id' ∧ parent = parent' ∧ kind = kind' ∧ arguments = arguments')
      (by simp)

def decEqArguments : (first second : List (String × Argument)) → Decidable (first = second)
  | [], [] => isTrue rfl
  | [], _ :: _ | _ :: _, [] => isFalse nofun
  | (name, value) :: rest, (name', value') :: rest' =>
    have : Decidable (value = value') := Argument.decEq value value'
    have : Decidable (rest = rest') := decEqArguments rest rest'
    decidable_of_iff (name = name' ∧ value = value' ∧ rest = rest') (by simp [and_assoc])

def Argument.decEq : (first second : Argument) → Decidable (first = second)
  | .atom name, .atom name' => decidable_of_iff (name = name') (by simp)
  | .text value, .text value' => decidable_of_iff (value = value') (by simp)
  | .number digits, .number digits' => decidable_of_iff (digits = digits') (by simp)
  | .block children, .block children' =>
    have : Decidable (children = children') := decEqBlock children children'
    decidable_of_iff (children = children') (by simp)
  | .list items, .list items' =>
    have : Decidable (items = items') := decEqItems items items'
    decidable_of_iff (items = items') (by simp)
  | .atom _, .text _ | .atom _, .number _ | .atom _, .block _ | .atom _, .list _ => isFalse nofun
  | .text _, .atom _ | .text _, .number _ | .text _, .block _ | .text _, .list _ => isFalse nofun
  | .number _, .atom _ | .number _, .text _ | .number _, .block _ | .number _, .list _ =>
    isFalse nofun
  | .block _, .atom _ | .block _, .text _ | .block _, .number _ | .block _, .list _ => isFalse nofun
  | .list _, .atom _ | .list _, .text _ | .list _, .number _ | .list _, .block _ => isFalse nofun

def decEqBlock : (first second : List Expression) → Decidable (first = second)
  | [], [] => isTrue rfl
  | [], _ :: _ | _ :: _, [] => isFalse nofun
  | child :: rest, child' :: rest' =>
    have : Decidable (child = child') := child.decEq child'
    have : Decidable (rest = rest') := decEqBlock rest rest'
    decidable_of_iff (child = child' ∧ rest = rest') (by simp)

def decEqItems : (first second : List Argument) → Decidable (first = second)
  | [], [] => isTrue rfl
  | [], _ :: _ | _ :: _, [] => isFalse nofun
  | item :: rest, item' :: rest' =>
    have : Decidable (item = item') := item.decEq item'
    have : Decidable (rest = rest') := decEqItems rest rest'
    decidable_of_iff (item = item' ∧ rest = rest') (by simp)

end
instance : DecidableEq Expression := Expression.decEq

instance : DecidableEq Argument := Argument.decEq

end Pagewright
