import Pagewright.Proofs.Drawing
import Pagewright.Proofs.ScriptReading

/-!
# Running a construction script

What a function of a construction script builds is found by doing what its lines
say, one after the other. Blocks are kept on a stack, each with its current
element and the id of its latest node. A loop over a list puts in a `div` for
every row, and below it whatever the function of the item type builds there.
-/

namespace Pagewright

variable {kind : Kind} {elements : String → List Element}

structure Frame where
  /-- The place of the current element among all elements; none before the first one. -/
  element : Option Nat := none
  /-- The id of the element of the latest node. -/
  node : String
  itemType : String := ""
  /-- How often the block is gone through. -/
  times : Nat := 1

structure Machine where
  /-- The id that relative ids go on from. -/
  scope : String := ""
  /-- The open blocks, innermost first. -/
  frames : List Frame
  /-- The elements made so far, in document order. -/
  elements : List Element := []

namespace Machine

variable (make : String → String → Option (List Element))

/-- The elements of a list's rows, each built below the id of its row. -/
def rows (frame : Frame) : Option (List Element) :=
  ((List.range frame.times).mapM fun index =>
    (make frame.itemType (rowId frame.node index)).map fun inside =>
      (⟨"div", some (rowId frame.node index), none⟩ : Element) :: inside).map List.flatten

def change (machine : Machine) (frame : Frame) (update : Element → Element) : Machine :=
  match frame.element with
  | none => machine
  | some place => { machine with elements := machine.elements.modify place update }

def idOf (machine : Machine) (frame : Frame) : String :=
  ((frame.element.bind (machine.elements[·]?)).bind Element.id).getD ""

/-- Does what a line says. A script that closes more blocks than it opens does not run. -/
def step (machine : Machine) (action : Action) : Option Machine :=
  match machine.frames with
  | [] => none
  | frame :: outer =>
    match action with
    | .setScope => some { machine with scope := frame.node }
    | .openBlock => some { machine with frames := frame :: frame :: outer }
    | .openLoop times => some { machine with frames := { frame with times } :: frame :: outer }
    | .closeBlock => some { machine with frames := outer }
    | .create tag =>
      some { machine with
        elements := machine.elements ++ [⟨tag, none, none⟩]
        frames := { frame with element := some machine.elements.length } :: outer }
    | .setId value =>
      some (machine.change frame fun e => { e with id := some (value.resolve machine.scope) })
    | .setTarget value =>
      some (machine.change frame fun e => { e with target := some (value.resolve machine.scope) })
    | .makeNode => some { machine with frames := { frame with node := machine.idOf frame } :: outer }
    | .listify itemType => some { machine with frames := { frame with itemType } :: outer }
    | .insertRow =>
      (rows make frame).map fun made => { machine with elements := machine.elements ++ made }

def run (machine : Machine) (actions : List Action) : Option Machine :=
  actions.foldlM (step make) machine

theorem run_append (machine : Machine) (first second : List Action) :
    run make machine (first ++ second) = (run make machine first).bind (run make · second) :=
  List.foldlM_append

/-- In a block whose node has the id `node`, the lines make these elements and leave the blocks as
they were. -/
def Builds (actions : List Action) (node : String) (elements : List Element) : Prop :=
  ∀ machine frame outer, machine.frames = frame :: outer → frame.node = node →
    ∃ scope, run make machine actions =
      some { machine with scope, elements := machine.elements ++ elements }

variable {make}

theorem builds_nil (node : String) : Builds make [] node [] :=
  fun machine _ _ _ _ => ⟨machine.scope, by simp [run]⟩

theorem Builds.append {first second : List Action} {node : String} {elements more : List Element}
    (one : Builds make first node elements) (two : Builds make second node more) :
    Builds make (first ++ second) node (elements ++ more) := by
  intro machine frame outer frames same
  obtain ⟨scope, ran⟩ := one machine frame outer frames same
  obtain ⟨scope', ran'⟩ := two { machine with scope, elements := machine.elements ++ elements } frame
    outer frames same
  refine ⟨scope', ?_⟩
  rw [run_append, ran, Option.bind_some, ran', List.append_assoc]

/-- What a block of its own builds, the block builds. -/
theorem builds_block (node : String) : Builds make [.openBlock, .closeBlock] node [] := by
  intro machine frame outer frames _
  refine ⟨machine.scope, ?_⟩
  simp [run, step, frames]

end Machine

/-! ### One element -/

private theorem modify_append_length {α : Type} (xs : List α) (x : α) (update : α → α) :
    (xs ++ [x]).modify xs.length update = xs ++ [update x] := by
  induction xs with
  | nil => rfl
  | cons first rest ih => simp [List.modify_succ_cons, ih]

section

variable {make : String → String → Option (List Element)} (e : Expression) {machine : Machine}
  {frame : Frame} {outer : List Frame}

def Machine.opened (machine : Machine) (frame : Frame) (outer : List Frame) (node : String)
    (element : Element) : Machine :=
  { scope := frame.node
    frames := { frame with element := some machine.elements.length, node } :: frame :: outer
    elements := machine.elements ++ [element] }

private theorem run_createElement (frames : machine.frames = frame :: outer) :
    Machine.run make machine ((createElement e).flatMap BuildInstruction.actions) =
      some (machine.opened frame outer frame.node
        ⟨e.tag, e.scopedId?.map fun id => id.fullId frame.node, none⟩) := by
  have silent : ∀ (classes : List String),
      (classes.map BuildInstruction.addClass).flatMap BuildInstruction.actions = [] := by
    intro classes
    simp [BuildInstruction.actions]
  have style : ((e.style?.map BuildInstruction.setStyle).toList.flatMap
      BuildInstruction.actions) = [] := by
    cases e.style? <;> rfl
  simp only [createElement, List.flatMap_append, silent, style, List.append_nil]
  cases id : e.scopedId? with
  | none =>
    simp [Machine.run, Machine.step, frames, Machine.opened, BuildInstruction.actions]
  | some id =>
    simp [Machine.run, Machine.step, frames, Machine.opened, BuildInstruction.actions,
      Machine.change, modify_append_length, ScopedId.resolve_value]

/-- The node of an element is what ids inside are relative to. -/
theorem run_createNode (machine : Machine) (frame : Frame) (outer : List Frame) {element : Element}
    (named : element.id = e.scopedId?.map fun id => id.fullId frame.node) :
    Machine.run make (machine.opened frame outer frame.node element) (createNode e).actions =
      some (machine.opened frame outer (innerStem e frame.node) element) := by
  unfold createNode innerStem
  cases given : e.scopedId? with
  | none => rfl
  | some id =>
    rw [given] at named
    cases tracked : id.isTracked with
    | false => simp [tracked, Machine.run, BuildInstruction.actions]
    | true =>
      simp [tracked, Machine.run, Machine.step, Machine.opened, Machine.idOf,
        BuildInstruction.actions, named]

private theorem run_setTarget (machine : Machine) (frame : Frame) (outer : List Frame)
    (element : Element) (target : ScopedId) :
    Machine.run make (machine.opened frame outer frame.node element)
        (BuildInstruction.setTarget target).actions =
      some (machine.opened frame outer frame.node
        { element with target := some (target.fullId frame.node) }) := by
  simp [Machine.run, Machine.step, Machine.opened, Machine.change, BuildInstruction.actions,
    modify_append_length, ScopedId.resolve_value]

/-- A label gets its target before its node. -/
theorem run_label (machine : Machine) (frame : Frame) (outer : List Frame)
    (label : e.kind = "label") :
    Machine.run make (machine.opened frame outer frame.node
        ⟨e.tag, e.scopedId?.map fun id => id.fullId frame.node, none⟩)
        ((fitOut e .label).flatMap BuildInstruction.actions) =
      some (machine.opened frame outer (innerStem e frame.node) (e.ownElement frame.node)) := by
  simp only [fitOut, List.flatMap_append, List.flatMap_singleton, Machine.run_append,
    Expression.ownElement, label, if_true]
  cases e.text? "for" with
  | none => exact run_createNode e machine frame outer rfl
  | some target =>
    simp only [Option.map_some, Option.toList_some, List.flatMap_singleton, run_setTarget,
      Option.bind_some]
    exact run_createNode e machine frame outer rfl

/-- What other elements get besides their node makes no elements. -/
theorem fitOut_actions (noList : kind ≠ .list) (noLabel : kind ≠ .label) :
    (fitOut e kind).flatMap BuildInstruction.actions = (createNode e).actions := by
  cases kind with
  | list => exact absurd rfl noList
  | label => exact absurd rfl noLabel
  | option =>
    cases value : e.text? "value" <;> simp [fitOut, value, BuildInstruction.actions]
  | input => simp [fitOut, BuildInstruction.actions]
  | page | div | form | select | text | h1 | p | span | button => simp [fitOut]

/-- Up to what it holds, an element that is no list is made with its node. -/
theorem run_opening (named : Kind.ofName? e.kind = some kind) (noList : kind ≠ .list)
    (frames : machine.frames = frame :: outer) :
    Machine.run make machine ((createElement e ++ fitOut e kind).flatMap BuildInstruction.actions) =
      some (machine.opened frame outer (innerStem e frame.node) (e.ownElement frame.node)) := by
  rw [List.flatMap_append, Machine.run_append, run_createElement e frames, Option.bind_some]
  by_cases label : kind = .label
  · subst label
    exact run_label e machine frame outer (Kind.name_of_ofName? named).symm
  · have plain : e.ownElement frame.node =
        ⟨e.tag, e.scopedId?.map fun id => id.fullId frame.node, none⟩ := by
      have other : e.kind ≠ "label" := fun written => label (Kind.eq_of_ofName? named written)
      simp [Expression.ownElement, other]
    rw [plain, fitOut_actions e noList label]
    exact run_createNode e machine frame outer rfl

/-- An element is made before what stands in its block. -/
theorem builds_element (named : Kind.ofName? e.kind = some kind) (noList : kind ≠ .list)
    {inner : List Action} (inside : ∀ node, Machine.Builds make inner node (elements node))
    (node : String) :
    Machine.Builds make
      ((createElement e ++ fitOut e kind).flatMap BuildInstruction.actions ++ inner ++ [.closeBlock])
      node (e.ownElement node :: elements (innerStem e node)) := by
  rintro machine frame outer frames rfl
  obtain ⟨scope, ran⟩ := inside (innerStem e frame.node)
    (machine.opened frame outer (innerStem e frame.node) (e.ownElement frame.node)) _ _ rfl rfl
  refine ⟨scope, ?_⟩
  rw [Machine.run_append, Machine.run_append, run_opening e named noList frames, Option.bind_some,
    ran]
  simp [Machine.run, Machine.step, Machine.opened, frames]

/-! ### Lists -/

def rowElements (elements : String → List Element) (list : String) (count : Nat) : List Element :=
  (List.range count).flatMap fun index =>
    ⟨"div", some (rowId list index), none⟩ :: elements (rowId list index)

private theorem Machine.rows_eq {frame : Frame} {elements : String → List Element}
    (makes : ∀ node, make frame.itemType node = some (elements node)) :
    Machine.rows make frame = some (rowElements elements frame.node frame.times) := by
  unfold Machine.rows rowElements
  have each : (fun index => (make frame.itemType (rowId frame.node index)).map fun inside =>
      (⟨"div", some (rowId frame.node index), none⟩ : Element) :: inside) = fun index =>
      pure (⟨"div", some (rowId frame.node index), none⟩ :: elements (rowId frame.node index)) := by
    funext index
    rw [makes]
    rfl
  rw [each, List.mapM_pure]
  simp [List.flatMap]

/-- A loop makes its rows below the current node. -/
theorem run_insertRows (count : Nat) (frames : machine.frames = frame :: outer)
    (makes : ∀ node, make frame.itemType node = some (elements node)) :
    Machine.run make machine (BuildInstruction.insertRows count).actions =
      some { machine with
        elements := machine.elements ++ rowElements elements frame.node count } := by
  have filled := @Machine.rows_eq make { frame with times := count } elements makes
  simp [Machine.run, Machine.step, BuildInstruction.actions, frames, filled]

/-- A list is made before its rows. -/
theorem builds_list (list : e.kind = "list") {more : List Action} {rows : String → List Element}
    (inside : ∀ machine frame outer, machine.frames = frame :: outer →
      frame.itemType = e.itemType → Machine.run make machine more =
        some { machine with elements := machine.elements ++ rows frame.node }) (node : String) :
    Machine.Builds make ((createElement e ++ [createNode e,
        .listify e.itemType e.leastRows e.mostRows]).flatMap BuildInstruction.actions ++ more ++
        [.closeBlock]) node (e.ownElement node :: rows (innerStem e node)) := by
  rintro machine frame outer frames rfl
  have own : e.ownElement frame.node =
      ⟨e.tag, e.scopedId?.map fun id => id.fullId frame.node, none⟩ := by
    simp [Expression.ownElement, list]
  refine ⟨frame.node, ?_⟩
  simp only [List.flatMap_append, List.flatMap_cons, List.flatMap_nil, List.append_nil,
    Machine.run_append, run_createElement e frames, Option.bind_some]
  rw [run_createNode e machine frame outer rfl, ← own, Option.bind_some]
  have listed : Machine.run make
      (machine.opened frame outer (innerStem e frame.node) (e.ownElement frame.node))
      (BuildInstruction.listify e.itemType e.leastRows e.mostRows).actions = some
        { scope := frame.node
          frames := { frame with
            element := some machine.elements.length, node := innerStem e frame.node
            itemType := e.itemType } :: frame :: outer
          elements := machine.elements ++ [e.ownElement frame.node] } := rfl
  rw [listed, Option.bind_some, inside _ _ _ rfl rfl]
  simp [Machine.run, Machine.step, frames]

end

end Pagewright
