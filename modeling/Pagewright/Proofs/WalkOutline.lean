import Pagewright.Proofs.Outline
import Pagewright.Proofs.Traversal

/-!
# Walks do not see identifiers

A walk reads kinds, arguments and whether an expression has a parent. It meets
other definitions only through their names, their parameters and their kinds. So
it runs the same over an expression and over a renumbered one, and also under
rules whose table has the same definitions in another order and with other
identifiers.
-/

namespace Pagewright

open Outcome

variable {other table : Table} {second first : Expression} {children : List Expression}

/-- Tables that hold the same definitions, up to their order and up to identifiers. -/
structure Table.Alike (table other : Table) : Prop where
  size : table.size = other.size
  find : ∀ name, (table.find? name).map (fun definition => definition.expression.outline) =
    (other.find? name).map fun definition => definition.expression.outline

/-- Rules that ask for the same definitions in the same way. -/
structure Rules.Alike {σ : Type} (rules other : Rules σ) : Prop where
  table : rules.table.Alike other.table
  rowLimit : rules.rowLimit = other.rowLimit
  request : rules.request = other.request

theorem Table.Alike.refl (table : Table) : table.Alike table :=
  ⟨rfl, fun _ => rfl⟩

theorem Table.Alike.symm (alike : table.Alike other) : other.Alike table :=
  ⟨alike.size.symm, fun name => (alike.find name).symm⟩

theorem Rules.Alike.refl {σ : Type} (rules : Rules σ) : rules.Alike rules :=
  ⟨.refl _, rfl, rfl⟩

/-- Either neither table defines a name, or both do, with one outline. -/
theorem Table.Alike.cases (alike : table.Alike other) (name : String) :
    (table.find? name = none ∧ other.find? name = none) ∨
      ∃ definition counterpart, table.find? name = some definition ∧
        other.find? name = some counterpart ∧
        definition.expression.outline = counterpart.expression.outline := by
  have same := alike.find name
  cases found : table.find? name with
  | none =>
    cases found' : other.find? name with
    | none => exact .inl ⟨rfl, rfl⟩
    | some counterpart => simp [found, found'] at same
  | some definition =>
    cases found' : other.find? name with
    | none => simp [found, found'] at same
    | some counterpart =>
      simp only [found, found', Option.map_some, Option.some.injEq] at same
      exact .inr ⟨definition, counterpart, rfl, rfl, same⟩

private theorem Table.Alike.contains (alike : table.Alike other) (name : String) :
    table.contains name = other.contains name := by
  rcases alike.cases name with ⟨first, second⟩ | ⟨_, _, first, second, -⟩ <;>
    simp [Table.contains_eq, first, second]

/-- What depends on kind and arguments alone is the same for equal outlines. -/
theorem Expression.kind_of_outline (same : first.outline = second.outline) :
    first.kind = second.kind :=
  (Expression.outline_eq_iff.mp same).2.1

theorem Expression.isGeneric_of_outline (same : first.outline = second.outline) :
    first.isGeneric = second.isGeneric := by
  simpa [Expression.outline] using congrArg Expression.isGeneric same

theorem Expression.parameters_of_outline (same : first.outline = second.outline) :
    first.parameters = second.parameters := by
  simpa [Expression.outline] using congrArg Expression.parameters same

private theorem Table.Alike.followKind (alike : table.Alike other) (name : String) (budget : Nat)
    (current : String) :
    table.followKind name budget current = other.followKind name budget current := by
  induction budget generalizing current with
  | zero => rfl
  | succ budget ih =>
    simp only [Table.followKind]
    rcases alike.cases current with ⟨first, second⟩ | ⟨definition, counterpart, first, second, same⟩
    · simp only [first, second]
    · simp only [first, second, Expression.kind_of_outline same, ih]

private theorem Table.Alike.resolveKind (alike : table.Alike other) (name : String) :
    table.resolveKind name = other.resolveKind name := by
  rw [Table.resolveKind, Table.resolveKind, alike.size, alike.followKind]

section Checks

variable (change : ExpressionId → ExpressionId)

def Subject.renumber (subject : Subject) : Subject :=
  { subject with expression := subject.expression.renumber change }

namespace Subject

variable (subject : Subject) (name : String)

@[simp] theorem renumber_fail {α : Type} (fault : ShapeFault) :
    ((subject.renumber change).fail fault : Except Error α) = subject.fail fault :=
  rfl

@[simp] theorem renumber_concrete : (subject.renumber change).concrete = subject.concrete :=
  rfl

@[simp] theorem renumber_expression :
    (subject.renumber change).expression = subject.expression.renumber change :=
  rfl

@[simp] theorem renumber_isPlaceholder (value : Argument) :
    (subject.renumber change).isPlaceholder (value.renumber change) =
      subject.isPlaceholder value := by
  cases value <;> rfl

@[simp] theorem renumber_absent (required : Bool) :
    (subject.renumber change).absent name required = subject.absent name required :=
  rfl

@[simp] theorem renumber_text (required : Bool) :
    (subject.renumber change).text name required = subject.text name required := by
  simp only [text, renumber_expression, Expression.renumber_get?]
  cases subject.expression.get? name with
  | none => rfl
  | some value => cases value <;> rfl

@[simp] theorem renumber_number : (subject.renumber change).number name = subject.number name := by
  simp only [number, renumber_expression, Expression.renumber_get?]
  cases subject.expression.get? name with
  | none => rfl
  | some value => cases value <;> rfl

@[simp] theorem renumber_isTextItem (item : Argument) :
    (subject.renumber change).isTextItem (item.renumber change) = subject.isTextItem item := by
  simp [isTextItem]

@[simp] theorem renumber_texts : (subject.renumber change).texts name = subject.texts name := by
  simp only [texts, renumber_expression, Expression.renumber_get?]
  cases subject.expression.get? name with
  | none => rfl
  | some value =>
    cases value with
    | list items =>
      simp only [Option.map_some, Argument.renumber, renumberItems_eq, List.find?_map,
        Function.comp_def, renumber_isTextItem]
      cases items.find? fun item => !subject.isTextItem item with
      | none => rfl
      | some item => simp
    | atom | text | number | block => rfl

@[simp] theorem renumber_block (required : Bool) :
    (subject.renumber change).block name required = subject.block name required := by
  simp only [block, renumber_expression, Expression.renumber_get?]
  cases subject.expression.get? name with
  | none => rfl
  | some value => cases value <;> rfl

@[simp] theorem renumber_ordered (min initial max : Option Nat) :
    (subject.renumber change).ordered min initial max = subject.ordered min initial max :=
  rfl

@[simp] theorem renumber_onlyHas (names : List String) :
    (subject.renumber change).onlyHas names = subject.onlyHas names := by
  simp only [onlyHas, renumber_expression, Expression.renumber_arguments, renumberArguments_eq,
    List.find?_map, Function.comp_def]
  cases subject.expression.arguments.find? fun entry => !names.contains entry.1 with
  | none => rfl
  | some entry => simp

end Subject

@[simp] theorem checkNesting_renumber (e : Expression) :
    checkNesting (e.renumber change) = checkNesting e := by
  simp [checkNesting]

private theorem checkFormals_renumber (kind : String) (seen : List String) (items : List Argument) :
    checkFormals kind seen (items.map (Argument.renumber change)) =
      checkFormals kind seen items := by
  induction items generalizing seen with
  | nil => rfl
  | cons item rest ih => cases item <;> simp [checkFormals, Argument.renumber, ih]

@[simp] theorem checkParameters_renumber (e : Expression) :
    checkParameters (e.renumber change) = checkParameters e := by
  simp only [checkParameters, Expression.renumber_get?, Expression.renumber_has,
    Expression.renumber_kind]
  cases e.get? "parameters" with
  | none => rfl
  | some value =>
    cases value with
    | list items =>
      simp only [Option.map_some, Argument.renumber, renumberItems_eq, checkFormals_renumber]
    | atom | text | number | block => rfl

@[simp] theorem checkPlace_renumber (e : Expression) (kind : Kind) (context : Context) :
    checkPlace (e.renumber change) kind context = checkPlace e kind context := by
  cases kind <;> simp [checkPlace]

@[simp] theorem checkId_renumber (subject : Subject) (kind : Kind) (context : Context)
    (ids : IdScope) :
    checkId (subject.renumber change) kind context ids = checkId subject kind context ids := by
  simp only [checkId, Subject.renumber_expression, Expression.renumber_get?,
    Subject.renumber_fail, Subject.renumber_concrete]
  cases subject.expression.get? "id" with
  | none => rfl
  | some value => cases value <;> rfl

@[simp] theorem checkListId_renumber (subject : Subject) :
    checkListId (subject.renumber change) = checkListId subject := by
  simp [checkListId]

@[simp] theorem checkRows_renumber (subject : Subject) (rowLimit : Nat) :
    checkRows (subject.renumber change) rowLimit = checkRows subject rowLimit := by
  simp [checkRows]

@[simp] theorem checkInput_renumber (subject : Subject) :
    checkInput (subject.renumber change) = checkInput subject := by
  simp [checkInput]

@[simp] theorem checkTarget_renumber (subject : Subject) (context : Context) (ids : IdScope) :
    checkTarget (subject.renumber change) context ids = checkTarget subject context ids := by
  simp [checkTarget]

end Checks

/-! ### Walks -/

section Walks

variable {σ : Type} {rules other : Rules σ} (change : ExpressionId → ExpressionId)

section

variable (alike : rules.Alike other)

include alike

private theorem refer_renumber (e : Expression) (target : String) :
    refer rules (e.renumber change) target = refer other e target := by
  simp only [refer, Expression.renumber_kind, Expression.renumber_has, alike.request]
  rcases alike.table.cases target with
    ⟨first, second⟩ | ⟨definition, counterpart, first, second, same⟩
  · simp only [first, second]
  · simp only [first, second, Expression.parameters_of_outline same]

private theorem kindOf_renumber (e : Expression) :
    kindOf rules (e.renumber change) = kindOf other e := by
  simp only [kindOf, Expression.renumber_kind, Expression.renumber_has, alike.table.contains,
    refer_renumber change alike, alike.table.resolveKind]

private theorem inherited_renumber (e : Expression) (kind : Kind) :
    inherited rules (e.renumber change) kind = inherited other e kind := by
  simp only [inherited, Expression.renumber_get?, refer_renumber change alike,
    alike.table.resolveKind]
  cases e.get? "inherits" with
  | none => rfl
  | some value => cases value <;> rfl

private theorem checkItemType_alike (target : String) :
    checkItemType rules target = checkItemType other target := by
  simp only [checkItemType, alike.request, alike.table.resolveKind]
  rcases alike.table.cases target with
    ⟨first, second⟩ | ⟨definition, counterpart, first, second, same⟩
  · simp only [first, second]
  · simp only [first, second, Expression.isGeneric_of_outline same]

private theorem checkArguments_renumber (subject : Subject) (kind : Kind) (context : Context)
    (ids : IdScope) :
    checkArguments rules (subject.renumber change) kind context ids =
      checkArguments other subject kind context ids := by
  cases kind <;> simp [checkArguments, checkItemType_alike alike, alike.rowLimit]

/-- Entering differs in the subject that is kept, and only there. -/
theorem enter_renumber (e : Expression) (context : Context) (ids : IdScope) :
    enter rules (e.renumber change) context ids =
      (fun entered => { entered with subject := entered.subject.renumber change }) <$>
        enter other e context ids := by
  have subject : ∀ kind : Kind,
      ({ expression := e.renumber change
         kind := kind.name
         concrete := context.concrete && e.isConcrete } : Subject) =
        Subject.renumber change
          { expression := e, kind := kind.name, concrete := context.concrete && e.isConcrete } :=
    fun _ => rfl
  simp only [enter, checkNesting_renumber, checkParameters_renumber, kindOf_renumber change alike,
    inherited_renumber change alike, Expression.renumber_isConcrete,
    Expression.renumber_isReference, checkPlace_renumber, subject, checkId_renumber,
    Subject.renumber_texts, checkArguments_renumber change alike, map_bind, map_pure]

end

private theorem walkBlock_renumber
    (each : ∀ child ∈ children, ∀ context ids,
      walk rules (child.renumber change) context ids = walk other child context ids)
    (context : Context) (ids : IdScope) :
    walkBlock rules (children.map (Expression.renumber change)) context ids =
      walkBlock other children context ids := by
  induction children generalizing ids with
  | nil => rfl
  | cons child rest ih =>
    simp only [List.map_cons, walkBlock, Expression.renumber_kind, each child (by simp),
      ih (List.forall_mem_cons.mp each).2]

private theorem walk_renumber (alike : rules.Alike other) (e : Expression) (context : Context)
    (ids : IdScope) : walk rules (e.renumber change) context ids = walk other e context ids := by
  induction e using Expression.inductionOn generalizing context ids with
  | step owner ih =>
    have entering := enter_renumber change alike owner context ids
    obtain ⟨id, parent, kind, arguments⟩ := owner
    simp only [Expression.renumber, walk] at entering ⊢
    rw [entering, bind_map_left]
    refine bind_congr fun entered => ?_
    have close : Entered.close { entered with subject := entered.subject.renumber change } =
        entered.close := by
      simp [Entered.close]
    have content : Entered.content? { entered with subject := entered.subject.renumber change } =
        entered.content? :=
      rfl
    rw [close, content]
    cases entered.content? with
    | none => rfl
    | some name =>
      simp only [walkArgument_eq, lookup_renumberArguments]
      cases found : arguments.lookup name with
      | none => rfl
      | some value =>
        cases value with
        | block children =>
          simp only [Option.map_some, Argument.renumber, renumberBlock_eq]
          rw [walkBlock_renumber change]
          intro child member context ids
          exact ih name child ⟨children, Entries.mem_of_lookup found, member⟩ context ids
        | atom | text | number | list => rfl

private theorem walkDefinition_renumber (alike : rules.Alike other) (e : Expression)
    (name : String) :
    walkDefinition rules (e.renumber change) name = walkDefinition other e name := by
  simp only [walkDefinition, Expression.renumber_isConcrete, rootStem, Expression.renumber_kind,
    walk_renumber change alike]

/-- Definitions of one outline are walked in one way. -/
theorem walkDefinition_of_outline (alike : rules.Alike other)
    (same : first.outline = second.outline) (name : String) :
    walkDefinition rules first name = walkDefinition other second name :=
  calc walkDefinition rules first name
    _ = walkDefinition rules first.outline name :=
      (walkDefinition_renumber _ (.refl rules) first name).symm
    _ = walkDefinition rules second.outline name := by rw [same]
    _ = walkDefinition other second name := walkDefinition_renumber _ alike second name

end Walks

/-! ### The ids of an instance -/

private theorem collectBlock_map (change : ExpressionId → ExpressionId)
    (each : ∀ child ∈ children, ∀ stem scope,
      collectIds (child.renumber change) stem scope = collectIds child stem scope) (stem : String)
    (scope : IdScope) :
    collectBlock (children.map (Expression.renumber change)) stem scope =
      collectBlock children stem scope := by
  induction children generalizing scope with
  | nil => rfl
  | cons child rest ih =>
    simp only [List.map_cons, collectBlock, each child (by simp),
      ih (List.forall_mem_cons.mp each).2]

private theorem collectArguments_map (change : ExpressionId → ExpressionId)
    {arguments : Arguments}
    (each : ∀ name children, (name, Argument.block children) ∈ arguments → ∀ child ∈ children,
      ∀ stem scope, collectIds (child.renumber change) stem scope = collectIds child stem scope)
    (stem : String) (scope : IdScope) :
    collectArguments (renumberArguments change arguments) stem scope =
      collectArguments arguments stem scope := by
  induction arguments generalizing scope with
  | nil => rfl
  | cons entry rest ih =>
    obtain ⟨name, value⟩ := entry
    have later := ih fun name children member => each name children (List.mem_cons_of_mem _ member)
    have here : collectArgument (value.renumber change) stem scope =
        collectArgument value stem scope := by
      cases value with
      | block children =>
        simp only [Argument.renumber, collectArgument, renumberBlock_eq]
        exact collectBlock_map change (each name children (by simp)) stem scope
      | atom | text | number | list => rfl
    simp only [renumberArguments, collectArguments, here, later]

private theorem collectIds_renumber (change : ExpressionId → ExpressionId) (e : Expression)
    (stem : String) (scope : IdScope) :
    collectIds (e.renumber change) stem scope = collectIds e stem scope := by
  induction e using Expression.inductionOn generalizing stem scope with
  | step owner ih =>
    have declared : declareId (owner.renumber change) stem scope = declareId owner stem scope := by
      simp [declareId]
    obtain ⟨id, parent, kind, arguments⟩ := owner
    simp only [Expression.renumber, collectIds] at declared ⊢
    rw [declared]
    refine bind_congr fun result => ?_
    refine collectArguments_map change ?_ result.2 result.1
    intro name children member child inside stem scope
    exact ih name child ⟨children, member, inside⟩ stem scope

/-- Identifiers play no part in the check of ids. -/
theorem uniqueIds_of_outline (same : first.outline = second.outline) (stem : String) :
    uniqueIds first stem = uniqueIds second stem := by
  calc collectIds first stem {}
    _ = collectIds first.outline stem {} := (collectIds_renumber _ first stem {}).symm
    _ = collectIds second.outline stem {} := by rw [same]
    _ = collectIds second stem {} := collectIds_renumber _ second stem {}

end Pagewright
