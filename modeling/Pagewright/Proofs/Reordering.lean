import Mathlib.Data.List.Nodup
import Mathlib.Data.List.Perm.Basic
import Pagewright.Proofs.Clearance

/-!
# Definitions in another order

A table finds a definition by its name, and no name stands in it twice. So the
order of its definitions does not matter to what it finds: tables that hold the
same definitions in different orders are alike, and one passes its check exactly
if the other does.
-/

namespace Pagewright

variable {table other : Table}

def Definition.outline (definition : Definition) : Definition :=
  ⟨definition.name, definition.expression.outline⟩

/-- Tables that hold the same definitions, up to identifiers, in some order. -/
def Table.Reorders (table other : Table) : Prop :=
  (table.definitions.map Definition.outline).Perm (other.definitions.map Definition.outline)

/-- With distinct names, a definition is found exactly when the table has it. -/
theorem Table.find?_eq_some_iff (distinct : table.names.Nodup) {name : String}
    {definition : Definition} :
    table.find? name = some definition ↔
      definition ∈ table.definitions ∧ definition.name = name := by
  constructor
  · exact Table.mem_of_find?
  · rintro ⟨member, named⟩
    have known : name ∈ table.names := List.mem_map.mpr ⟨definition, member, named⟩
    obtain ⟨first, found⟩ := Table.mem_names_iff.mp known
    -- what is found has the same name, so it is the same definition
    obtain ⟨among, alsoNamed⟩ := Table.mem_of_find? found
    have same := List.inj_on_of_nodup_map distinct among member (alsoNamed.trans named.symm)
    rw [found, same]

private theorem Table.Reorders.names (reorders : table.Reorders other) :
    table.names.Perm other.names := by
  have perm := reorders.map Definition.name
  rw [List.map_map, List.map_map] at perm
  exact perm

private theorem Table.Reorders.counterpart (reorders : table.Reorders other)
    {definition : Definition} (member : definition ∈ table.definitions) :
    ∃ counterpart ∈ other.definitions, counterpart.name = definition.name ∧
      counterpart.expression.outline = definition.expression.outline := by
  have among := reorders.mem_iff.mp (List.mem_map_of_mem member)
  obtain ⟨counterpart, found, same⟩ := List.mem_map.mp among
  unfold Definition.outline at same
  obtain ⟨sameName, sameOutline⟩ := Definition.mk.inj same
  exact ⟨counterpart, found, sameName, sameOutline⟩

/-- In another order the same definitions are found. -/
theorem Table.Reorders.alike (reorders : table.Reorders other) (distinct : table.names.Nodup) :
    table.Alike other := by
  constructor
  · have same := reorders.length_eq
    rwa [List.length_map, List.length_map] at same
  · intro name
    cases found : table.find? name with
    | some definition =>
      obtain ⟨member, named⟩ := (Table.find?_eq_some_iff distinct).mp found
      obtain ⟨counterpart, among, sameName, sameOutline⟩ := reorders.counterpart member
      have foundThere : other.find? name = some counterpart :=
        (Table.find?_eq_some_iff (reorders.names.nodup_iff.mp distinct)).mpr ⟨among, sameName.trans named⟩
      simp [foundThere, sameOutline]
    | none =>
      have missing : name ∉ other.names := by
        intro known
        obtain ⟨definition, defined⟩ := Table.mem_names_iff.mp (reorders.names.mem_iff.mpr known)
        rw [found] at defined
        cases defined
      have missingThere : other.find? name = none := by
        rw [Option.eq_none_iff_forall_ne_some]
        intro definition defined
        exact missing (Table.mem_names_of_find? defined)
      simp [missingThere]

theorem Table.Alike.clear (alike : table.Alike other) {rowLimit : Nat}
    (clear : table.Clear rowLimit) : other.Clear rowLimit := by
  intro name known
  obtain ⟨counterpart, found⟩ := Table.mem_names_iff.mp known
  have defined : name ∈ table.names := by
    rcases alike.cases name with ⟨-, missing⟩ | ⟨definition, _, found, -, -⟩
    · rw [missing] at found
      cases found
    · exact Table.mem_names_of_find? found
  obtain ⟨depth, clears⟩ := clear name defined
  exact ⟨depth, clears.alike alike⟩

end Pagewright
