import Mathlib.Order.WellFoundedSet
import Pagewright.Proofs.Reordering

/-!
# Checks and cycles of requests

Checking a table walks every definition once and remembers by markers what was
walked. The main result, `checkAll_ok_iff`, says what this comes to without
markers: every definition gets through its walk when all requests are granted,
and none requests itself, directly or through others. What a definition that
clears requests clears in fewer steps; conversely the definitions are finitely
many, so without a cycle requests can be followed until they end.
-/

namespace Pagewright

open Outcome

variable {table : Table} {rowLimit depth : Nat} {name other : String} {asked : List String}
  {definition : Definition}

/-- Rules that grant every request for a definition of the table. -/
def granting (table : Table) (rowLimit : Nat) : Rules Unit :=
  { table, rowLimit
    request := fun name =>
      if table.contains name then pure ()
      else throw (.reference (.unknownDefinition name)) }

/-- What the walk of a definition requests, up to where it ends or fails. -/
def requested (table : Table) (rowLimit : Nat) (definition : Definition) : List String :=
  match walkDefinition (recording table rowLimit) definition.expression definition.name [] with
  | .ok _ asked | .error _ asked => asked

/-- The walk of the first definition requests the second. -/
def Requests (table : Table) (rowLimit : Nat) (name other : String) : Prop :=
  ∃ definition, table.find? name = some definition ∧ other ∈ requested table rowLimit definition

def Table.Acyclic (table : Table) (rowLimit : Nat) : Prop :=
  ∀ name, ¬ Relation.TransGen (Requests table rowLimit) name name

/-- Every definition gets through its walk when requests are granted. -/
def Table.WalksAlone (table : Table) (rowLimit : Nat) : Prop :=
  ∀ name definition, table.find? name = some definition →
    ∃ ids, walkDefinition (granting table rowLimit) definition.expression definition.name () =
      .ok ids ()

theorem requested_of_demands (demanded : demands table rowLimit definition = some asked) :
    requested table rowLimit definition = asked := by
  obtain ⟨ids, recorded⟩ := demands_eq_some.mp demanded
  rw [requested, recorded]

theorem granting_ok :
    (granting table rowLimit).request name () = .ok () () ↔ name ∈ table.names := by
  rw [← Table.contains_iff]
  unfold granting
  by_cases contained : table.contains name = true
  · simp [contained, pure_ok]
  · simp [contained, throw_ok]

private theorem granting_runs :
    Runs (granting table rowLimit).request asked () () ↔ ∀ name ∈ asked, name ∈ table.names := by
  induction asked with
  | nil =>
    constructor
    · intro _ name member
      cases member
    · intro _
      exact .nil ()
  | cons name rest ih =>
    constructor
    · intro runs
      cases runs with
      | cons first later => exact List.forall_mem_cons.mpr ⟨granting_ok.mp first, ih.mp later⟩
    · intro known
      obtain ⟨first, later⟩ := List.forall_mem_cons.mp known
      exact .cons (granting_ok.mpr first) (ih.mpr later)

/-- A walk with granted requests gets through if it does so when requests are only written down, and
they are all for definitions of the table. -/
theorem walk_granting_iff :
    (∃ ids, walkDefinition (granting table rowLimit) definition.expression definition.name () =
        .ok ids ()) ↔
      ∃ asked, demands table rowLimit definition = some asked ∧
        ∀ name ∈ asked, name ∈ table.names := by
  rw [walkDefinition_ok_iff (granting table rowLimit) definition]
  simp only [granting_runs]
  rfl

/-! ### What clears has no cycle -/

private theorem Clears.requests (clears : Clears table rowLimit depth name)
    (asks : Requests table rowLimit name other) :
    ∃ less < depth, Clears table rowLimit less other := by
  cases depth with
  | zero => exact clears.elim
  | succ depth =>
    obtain ⟨definition, asked, found, demanded, others⟩ := clears
    obtain ⟨definition', found', member⟩ := asks
    rw [found] at found'
    cases found'
    rw [requested_of_demands demanded] at member
    exact ⟨depth, Nat.lt_succ_self depth, others other member⟩

private theorem Clears.requests_chain (clears : Clears table rowLimit depth name)
    (chain : Relation.TransGen (Requests table rowLimit) name other) :
    ∃ less < depth, Clears table rowLimit less other := by
  induction chain with
  | single asks => exact clears.requests asks
  | tail _ asks ih =>
    obtain ⟨less, smaller, middle⟩ := ih
    obtain ⟨least, smallest, last⟩ := middle.requests asks
    exact ⟨least, smallest.trans smaller, last⟩

private theorem Clears.no_cycle (clears : Clears table rowLimit depth name) :
    ¬ Relation.TransGen (Requests table rowLimit) name name := by
  -- going round the cycle once more makes the depth smaller
  induction depth using Nat.strong_induction_on with
  | _ depth ih =>
    intro cycle
    obtain ⟨less, smaller, again⟩ := clears.requests_chain cycle
    exact ih less smaller again cycle

theorem Table.Clear.acyclic (clear : table.Clear rowLimit) : table.Acyclic rowLimit := by
  intro name cycle
  -- a definition on a cycle requests something, so the table has it
  obtain ⟨other, ⟨definition, found, -⟩, -⟩ := Relation.TransGen.head'_iff.mp cycle
  obtain ⟨depth, clears⟩ := clear name (Table.mem_names_of_find? found)
  exact clears.no_cycle cycle

private theorem Table.Clear.walksAlone (clear : table.Clear rowLimit) :
    table.WalksAlone rowLimit := by
  intro name definition found
  obtain ⟨depth, clears⟩ := clear name (Table.mem_names_of_find? found)
  cases depth with
  | zero => exact clears.elim
  | succ depth =>
    obtain ⟨definition', asked, found', demanded, others⟩ := clears
    rw [found] at found'
    cases found'
    apply walk_granting_iff.mpr
    exact ⟨asked, demanded, fun other member => (others other member).mem_names⟩

/-! ### What has no cycle clears -/

/-- Finitely many definitions that clear do so at one depth. -/
theorem Clears.together (each : ∀ name ∈ asked, ∃ depth, Clears table rowLimit depth name) :
    ∃ depth, ∀ name ∈ asked, Clears table rowLimit depth name := by
  induction asked with
  | nil => exact ⟨0, by simp⟩
  | cons name rest ih =>
    obtain ⟨⟨depth, first⟩, others⟩ := List.forall_mem_cons.mp each
    obtain ⟨more, later⟩ := ih others
    refine ⟨max depth more, List.forall_mem_cons.mpr ⟨?_, ?_⟩⟩
    · exact first.mono (Nat.le_max_left depth more)
    · intro other member
      exact (later other member).mono (Nat.le_max_right depth more)

private theorem Table.Acyclic.wellFoundedOn (acyclic : table.Acyclic rowLimit) :
    Set.WellFoundedOn {name | name ∈ table.names}
      fun other name => Relation.TransGen (Requests table rowLimit) name other := by
  have strict : IsStrictOrder String
      fun other name => Relation.TransGen (Requests table rowLimit) name other :=
    { irrefl := acyclic
      trans := fun _ _ _ first second => second.trans first }
  exact (List.finite_toSet table.names).wellFoundedOn

private theorem Table.clear_of_acyclic (alone : table.WalksAlone rowLimit)
    (acyclic : table.Acyclic rowLimit) : table.Clear rowLimit := by
  -- the induction is on the requests that can follow those of a definition
  have step : ∀ name ∈ table.names,
      (∀ other ∈ table.names, Relation.TransGen (Requests table rowLimit) name other →
        ∃ depth, Clears table rowLimit depth other) →
      ∃ depth, Clears table rowLimit depth name := by
    intro name known ih
    obtain ⟨definition, found⟩ := Table.mem_names_iff.mp known
    obtain ⟨asked, demanded, defined⟩ := walk_granting_iff.mp (alone name definition found)
    have others : ∀ other ∈ asked, ∃ depth, Clears table rowLimit depth other := by
      intro other member
      have asks : Requests table rowLimit name other := by
        refine ⟨definition, found, ?_⟩
        rwa [requested_of_demands demanded]
      exact ih other (defined other member) (.single asks)
    obtain ⟨depth, all⟩ := Clears.together others
    exact ⟨depth + 1, definition, asked, found, demanded, all⟩
  intro name known
  exact acyclic.wellFoundedOn.induction (P := fun name => ∃ depth, Clears table rowLimit depth name)
    known step

theorem Table.clear_iff :
    table.Clear rowLimit ↔ table.WalksAlone rowLimit ∧ table.Acyclic rowLimit := by
  constructor
  · intro clear
    exact ⟨clear.walksAlone, clear.acyclic⟩
  · rintro ⟨alone, acyclic⟩
    exact Table.clear_of_acyclic alone acyclic

/-- A table has a verdict of its own, whatever markers its check starts from. -/
theorem checkAll_ok_iff_clear {markers : Markers} (fresh : markers.Fresh table) :
    (∃ markers', checkAll table rowLimit markers = .ok () markers') ↔ table.Clear rowLimit := by
  constructor
  · rintro ⟨markers', run⟩
    exact (checkAll_sound fresh run).1
  · exact checkAll_complete fresh

/-! ### The check of a table -/

/-- A check that remembers what it has walked is exact: it passes if every walk gets through with
requests granted and no chain of requests comes back to where it started. The order of the
definitions, and their identifiers, make no difference. -/
theorem checkAll_ok_iff (table : Table) (rowLimit : Nat) (markers : Markers)
    (fresh : ∀ name ∈ table.names, markers.get name = .discovered) :
    ((∃ markers', checkAll table rowLimit markers = .ok () markers') ↔
      (∀ name definition, table.find? name = some definition →
        ∃ ids, walkDefinition (granting table rowLimit) definition.expression definition.name () =
          .ok ids ()) ∧
      ∀ name, ¬ Relation.TransGen (Requests table rowLimit) name name) ∧
    ∀ (other : Table) (start : Markers), table.names.Nodup → table.Reorders other →
      (∀ name ∈ other.names, start.get name = .discovered) →
      ((∃ markers', checkAll table rowLimit markers = .ok () markers') ↔
        ∃ markers', checkAll other rowLimit start = .ok () markers') := by
  constructor
  · rw [checkAll_ok_iff_clear fresh, Table.clear_iff]
    rfl
  · intro other start distinct reorders freshThere
    rw [checkAll_ok_iff_clear fresh, checkAll_ok_iff_clear freshThere]
    have alike := reorders.alike distinct
    exact ⟨alike.clear, alike.symm.clear⟩

/-- A page that stands before the definitions that it requests, one of them twice. -/
def nestedTable : Table :=
  { definitions :=
      [⟨"home", { id := 1, parent := none, kind := "page", arguments :=
        [("defines", .text "home"), ("body", .block
          [{ id := 2, parent := some 1, kind := "card", arguments := [] },
            { id := 3, parent := some 1, kind := "frame", arguments := [] }])] }⟩,
      ⟨"card", { id := 4, parent := none, kind := "frame", arguments :=
        [("defines", .text "card")] }⟩,
      ⟨"frame", { id := 5, parent := none, kind := "div", arguments :=
        [("defines", .text "frame"), ("body", .block [])] }⟩]
    places := [("home", 0), ("card", 1), ("frame", 2)] }

theorem nestedTable_acyclic :
    (∀ name ∈ nestedTable.names, ({} : Markers).get name = .discovered) ∧
      Requests nestedTable 10 "home" "card" ∧ Requests nestedTable 10 "card" "frame" ∧
      ∀ name, ¬ Relation.TransGen (Requests nestedTable 10) name name := by
  have fresh : ∀ name ∈ nestedTable.names, ({} : Markers).get name = .discovered :=
    Markers.fresh_empty
  have passes : ∃ markers', checkAll nestedTable 10 {} = .ok () markers' :=
    ⟨_, rfl⟩
  refine ⟨fresh, ?_, ?_, ((checkAll_ok_iff nestedTable 10 {} fresh).1.mp passes).2⟩
  · exact ⟨_, rfl, by decide +kernel⟩
  · exact ⟨_, rfl, by decide +kernel⟩

end Pagewright
