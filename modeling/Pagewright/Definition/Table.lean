import Pagewright.Error
import Pagewright.Expression.Kind
import Pagewright.Text.Identifier

/-!
# The table of definitions

Every top-level expression defines a name. A catalog keeps definitions in the
order in which they were written, and an index beside them that leads from a name
to a place. Both are changed in place when a definition is added. A table is a
catalog whose index is right.

A definition of a kind that is not built in refers to another definition.
`resolveKind` follows these references to the built-in kind at their end. A
chain that is longer than the table visits some definition twice and so never
ends; this is why the table's size bounds the search.
-/

namespace Pagewright

structure Definition where
  name : String
  expression : Expression

/-- Definitions in the order in which they were written, with an index of their places. -/
structure Catalog where
  definitions : List Definition := []
  /-- The place of each name; the newest entry of a name counts. -/
  places : List (String × Nat) := []

namespace Catalog

def size (catalog : Catalog) : Nat :=
  catalog.definitions.length

def names (catalog : Catalog) : List String :=
  catalog.definitions.map Definition.name

def contains (catalog : Catalog) (name : String) : Bool :=
  (catalog.places.lookup name).isSome

/-- The definition at the place that the index gives. -/
def find? (catalog : Catalog) (name : String) : Option Definition :=
  (catalog.places.lookup name).bind fun place => catalog.definitions[place]?

/-- Adds a definition at the end. -/
def insert (name : String) (expression : Expression) : EStateM Error Catalog Unit := do
  if !isIdentifier name then throw (.table (.invalidName name))
  if (← get).contains name then throw (.table (.repeatedName name))
  modify fun catalog => { catalog with places := (name, catalog.size) :: catalog.places }
  modify fun catalog => { catalog with definitions := catalog.definitions ++ [⟨name, expression⟩] }

/-- Adds a top-level expression under the name it defines. -/
def define (expression : Expression) : EStateM Error Catalog Unit :=
  match expression.get? "defines" with
  | none => throw (.table (.unnamed expression.kind))
  | some (.text name) => insert name expression
  | some other => throw (.table (.nameNotText other.typeName))

/-- The index leads to definitions of the name that it is asked for, and it leaves out no name. -/
def IsIndexed (catalog : Catalog) : Prop :=
  (∀ entry ∈ catalog.places, catalog.names[entry.2]? = some entry.1) ∧
    ∀ name ∈ catalog.names, catalog.contains name = true

instance (catalog : Catalog) : Decidable catalog.IsIndexed :=
  inferInstanceAs (Decidable (_ ∧ _))

/-- What becomes of an insertion. -/
theorem insert_eq (name : String) (expression : Expression) (catalog : Catalog) :
    insert name expression catalog =
      if !isIdentifier name then .error (.table (.invalidName name)) catalog
      else if catalog.contains name then .error (.table (.repeatedName name)) catalog
      else .ok () ⟨catalog.definitions ++ [⟨name, expression⟩],
        (name, catalog.size) :: catalog.places⟩ := by
  unfold insert
  cases isIdentifier name with
  | false => rfl
  | true =>
    show (if catalog.contains name then _ else _ : EStateM Error Catalog Unit) catalog = _
    cases catalog.contains name <;> rfl

/-- A definition that is added stands at the end, where its entry in the index leads. -/
theorem IsIndexed.add {catalog : Catalog} (indexed : catalog.IsIndexed) (added : Definition) :
    IsIndexed ⟨catalog.definitions ++ [added], (added.name, catalog.size) :: catalog.places⟩ := by
  obtain ⟨sound, complete⟩ := indexed
  unfold IsIndexed names
  simp only [List.map_append, List.map_cons, List.map_nil]
  constructor
  · intro entry member
    rcases List.mem_cons.mp member with rfl | earlier
    · simp [size]
    · have placed := sound entry earlier
      obtain ⟨inside, -⟩ := List.getElem?_eq_some_iff.mp placed
      exact (List.getElem?_append_left inside).trans placed
  · intro other member
    simp only [contains, List.lookup_cons]
    split
    · rfl
    · next apart =>
      rcases List.mem_append.mp member with earlier | last
      · exact complete other earlier
      · simp [List.mem_singleton.mp last] at apart

theorem isIndexed_empty : ({} : Catalog).IsIndexed := by decide

theorem IsIndexed.define {catalog catalog' : Catalog} {expression : Expression}
    (indexed : catalog.IsIndexed) (run : Catalog.define expression catalog = .ok () catalog') :
    catalog'.IsIndexed := by
  unfold Catalog.define at run
  cases found : expression.get? "defines" with
  | none =>
    simp only [found] at run
    cases run
  | some value =>
    cases value with
    | text name =>
      simp only [found, insert_eq] at run
      split at run
      · cases run
      · split at run
        · cases run
        · cases run
          exact indexed.add _
    | atom | number | block | list =>
      simp only [found] at run
      cases run

end Catalog

/-- A catalog in which every name is found at its place. -/
structure Table extends Catalog where
  indexed : toCatalog.IsIndexed := by decide

namespace Table

/-- Adds a top-level expression under the name it defines. -/
def define (table : Table) (expression : Expression) : Except Error Table :=
  match run : Catalog.define expression table.toCatalog with
  | .ok _ catalog => .ok ⟨catalog, table.indexed.define run⟩
  | .error error _ => .error error

/-- The table of a program. -/
def ofExpressions (expressions : List Expression) : Except Error Table :=
  expressions.foldlM define {}

section Lookup

variable {table : Table} {name : String} {definition : Definition}

/-- An entry of the index leads to a definition of its name. -/
theorem placed_of_lookup {place : Nat} (listed : table.places.lookup name = some place) :
    ∃ definition, table.definitions[place]? = some definition ∧ definition.name = name := by
  obtain ⟨before, after, split, -⟩ := List.lookup_eq_some_iff.mp listed
  have named := table.indexed.1 (name, place) (by simp [split])
  rw [Catalog.names, List.getElem?_map] at named
  exact Option.map_eq_some_iff.mp named

theorem mem_of_find? (found : table.find? name = some definition) :
    definition ∈ table.definitions ∧ definition.name = name := by
  obtain ⟨place, listed, placed⟩ := Option.bind_eq_some_iff.mp found
  obtain ⟨other, there, named⟩ := placed_of_lookup listed
  obtain rfl := Option.some.inj (placed.symm.trans there)
  exact ⟨List.mem_of_getElem? placed, named⟩

theorem name_of_find? (found : table.find? name = some definition) : definition.name = name :=
  (mem_of_find? found).2

theorem mem_names_of_find? (found : table.find? name = some definition) : name ∈ table.names := by
  obtain ⟨member, named⟩ := mem_of_find? found
  exact List.mem_map.mpr ⟨definition, member, named⟩

theorem contains_eq : table.contains name = (table.find? name).isSome := by
  unfold Catalog.contains Catalog.find?
  cases listed : table.places.lookup name with
  | none => rfl
  | some place =>
    obtain ⟨definition, placed, -⟩ := placed_of_lookup listed
    simp [placed]

/-- The table's names are those it finds. -/
theorem mem_names_iff :
    name ∈ table.names ↔ ∃ definition, table.find? name = some definition := by
  constructor
  · intro member
    have known := table.indexed.2 name member
    rw [contains_eq] at known
    exact Option.isSome_iff_exists.mp known
  · rintro ⟨definition, found⟩
    exact mem_names_of_find? found

theorem contains_iff : table.contains name = true ↔ name ∈ table.names := by
  rw [contains_eq, Option.isSome_iff_exists, mem_names_iff]

end Lookup

/-- Follows kinds from `current` for at most `budget` definitions, on behalf of `name`. -/
def followKind (table : Table) (name : String) : Nat → String → Except Error Kind
  | 0, _ => .error (.cycle name)
  | budget + 1, current =>
    match table.find? current with
    | none => .error (.reference (.unknownDefinition current))
    | some definition =>
      match Kind.ofName? definition.expression.kind with
      | some kind => .ok kind
      | none => table.followKind name budget definition.expression.kind

/-- The built-in kind at the end of a definition's chain of kinds. -/
def resolveKind (table : Table) (name : String) : Except Error Kind :=
  table.followKind name (table.size + 1) name

end Table

end Pagewright
