import Pagewright.Proofs.ScriptReading
import Pagewright.Render.Page

/-!
# Reading and running the tree script of a page

The lines of a tree script open and close blocks, keep a node as the one that
the next node goes below, make nodes and turn the latest node into a list.
`readTreeAction` takes this off the text of a line, and `treeLog` does what the
lines say. A script with a line of another form, with blocks that are not closed
or with a variable that has no value does not run.
-/

namespace Pagewright

/-! ### What a line does -/

inductive TreeAction where
  | openFunction
  | closeFunction
  | openBlock
  | closeBlock
  /-- Keeps the node that the next one is put below. -/
  | setParent (parent : TreeParent)
  /-- Keeps the node of the page. -/
  | keepPage
  /-- Makes a node that is below none. -/
  | makeRoot (element name : String)
  | makeNode (element name : String)
  | listify (itemType : String)
  deriving DecidableEq, Repr

inductive TreeForm where
  | openFunction
  | closeFunction
  | openBlock
  | closeBlock
  | parent
  | page
  | root
  | node
  | listify

/-- The id of an element and the name of its node, up to the end of the statement. -/
def readNode (text : List Char) : Option (String × String) := do
  let (element, rest) ← readLiteral text
  let rest ← readAfter "), \"".toList rest
  let name ← readLiteralBefore ");" rest
  return (String.ofList element, name)

namespace TreeForm

/-- A block and a function end alike, so the end of a function is tried first. -/
def all : List TreeForm :=
  [.openFunction, .closeFunction, .openBlock, .closeBlock, .parent, .page, .root, .node, .listify]

def start : TreeForm → String
  | .openFunction => "(function() \x7b"
  | .closeFunction => "\x7d)();"
  | .openBlock => "\x7b"
  | .closeBlock => "\x7d"
  | .parent => "var my_tree_parent = "
  | .page => "window.page = me;"
  | .root => "let me = new Tree_Node(null, document.getElementById(\""
  | .node => "let me = new Tree_Node(my_tree_parent, document.getElementById(\""
  | .listify => "me.tn_listify(tn_make_"

def read : TreeForm → List Char → Option TreeAction
  | .openFunction, rest => if rest = [] then some .openFunction else none
  | .closeFunction, rest => if rest = [] then some .closeFunction else none
  | .openBlock, rest => if rest = [] then some .openBlock else none
  | .closeBlock, rest => if rest = [] then some .closeBlock else none
  | .parent, rest =>
    if rest = "me;".toList then some (.setParent .enclosing)
    else if rest = "window.page;".toList then some (.setParent .page)
    else none
  | .page, rest => if rest = [] then some .keepPage else none
  | .root, rest => (readNode rest).map fun (element, name) => .makeRoot element name
  | .node, rest => (readNode rest).map fun (element, name) => .makeNode element name
  | .listify, rest => some (.listify (String.ofList (rest.takeWhile (· ≠ ','))))

end TreeForm

/-- What a line does; its start decides how the rest is read. -/
def readTreeAction (text : String) : Option TreeAction :=
  (TreeForm.all.findSome? fun form =>
    (readAfter form.start.toList text.toList).map form.read).join

def readTreeActions (lines : List Line) : Option (List TreeAction) :=
  lines.mapM fun line => readTreeAction line.text

/-! ### Reading instructions back -/

namespace TreeInstruction

def actions : TreeInstruction → List TreeAction
  | .enter parent fullId name => [.setParent parent, .openBlock, .makeNode fullId name]
  | .listify itemType _ _ => [.listify itemType]
  | .leave => [.closeBlock]

/-- Item types stand in a script as they are. -/
def Plain : TreeInstruction → Prop
  | .listify itemType _ _ => ',' ∉ itemType.toList
  | _ => True

end TreeInstruction

/-- No start but that of a block's end is that of another form, or begins with it. -/
theorem readTreeAction_form (form : TreeForm) (other : form ≠ .closeBlock) (rest : String) :
    readTreeAction (form.start ++ rest) = form.read rest.toList := by
  rw [readTreeAction, String.toList_append]
  cases form with
  | closeBlock => exact absurd rfl other
  | openFunction | closeFunction | openBlock | parent | page | root | node | listify => rfl

private theorem readNode_escapeScript (element name : String) :
    readNode ((escapeScript element).toList ++ '"' :: ("), \"".toList ++
      ((escapeScript name).toList ++ '"' :: ");".toList))) = some (element, name) := by
  simp only [readNode, readLiteral_escapeScript, readAfter_append, readLiteralBefore_escapeScript,
    Option.bind_eq_bind, Option.bind_some, String.ofList_toList]
  rfl

private theorem readTreeAction_makeNode (element name : String) :
    readTreeAction ("let me = new Tree_Node(my_tree_parent, document.getElementById(\"" ++
      (escapeScript element ++ ("\"), \"" ++ (escapeScript name ++ "\");")))) =
      some (.makeNode element name) := by
  have text : (escapeScript element ++ ("\"), \"" ++ (escapeScript name ++ "\");"))).toList =
      (escapeScript element).toList ++ '"' :: ("), \"".toList ++
        ((escapeScript name).toList ++ '"' :: ");".toList)) := by
    simp
  refine (readTreeAction_form .node (by simp) _).trans ?_
  rw [TreeForm.read, text, readNode_escapeScript]
  rfl

private theorem readTreeAction_listify {itemType : String} (plain : ',' ∉ itemType.toList)
    (rest : String) :
    readTreeAction ("me.tn_listify(tn_make_" ++ (itemType ++ (", " ++ rest))) =
      some (.listify itemType) := by
  refine (readTreeAction_form .listify (by simp) _).trans ?_
  rw [TreeForm.read, takeWhile_comma plain, String.ofList_toList]

theorem readTreeActions_cons (depth : Nat) (text : String) (rest : List Line) :
    readTreeActions (⟨depth, text⟩ :: rest) =
      (readTreeAction text).bind fun action => (readTreeActions rest).map (action :: ·) := by
  rw [readTreeActions, List.mapM_cons, ← readTreeActions]
  cases readTreeAction text with
  | none => rfl
  | some action => cases readTreeActions rest <;> rfl

theorem readTreeActions_append (first second : List Line) :
    readTreeActions (first ++ second) = (readTreeActions first).bind fun actions =>
      (readTreeActions second).map (actions ++ ·) := by
  rw [readTreeActions, List.mapM_append, ← readTreeActions, ← readTreeActions]
  cases readTreeActions first with
  | none => rfl
  | some actions => cases readTreeActions second <;> rfl

/-- The lines of instructions do what the instructions say. -/
theorem readTreeActions_lines {instructions : List TreeInstruction}
    (plain : ∀ instruction ∈ instructions, instruction.Plain) (depth : Nat) :
    readTreeActions (TreeInstruction.lines depth instructions) =
      some (instructions.flatMap TreeInstruction.actions) := by
  induction instructions generalizing depth with
  | nil => rfl
  | cons first rest ih =>
    have here := plain first (by simp)
    have later := ih (List.forall_mem_cons.mp plain).2
    cases first with
    | enter parent fullId name =>
      simp only [TreeInstruction.lines, readTreeActions_cons, later, String.append_assoc,
        readTreeAction_makeNode]
      cases parent <;> rfl
    | listify itemType least most =>
      simp only [TreeInstruction.lines, readTreeActions_cons, later, String.append_assoc,
        readTreeAction_listify here]
      rfl
    | leave =>
      simp only [TreeInstruction.lines, readTreeActions_cons, later]
      rfl

/-! ### Running a script -/

/-- A node of a page's tree, with all the nodes above it. -/
inductive TreeNode where
  | root (element name : String)
  | child (parent : TreeNode) (element name : String)
  deriving DecidableEq, Repr

namespace TreeNode

def element : TreeNode → String
  | .root element _ | .child _ element _ => element

def name : TreeNode → String
  | .root _ name | .child _ _ name => name

end TreeNode

inductive TreeEvent where
  | made (node : TreeNode)
  | listed (node : TreeNode) (itemType : String)
  deriving DecidableEq, Repr

structure TreeBlock where
  isFunction : Bool
  /-- The `me` of the block. -/
  me : Option TreeNode := none

structure TreeMachine where
  /-- The open blocks, innermost first. -/
  blocks : List TreeBlock := []
  /-- The value of `my_tree_parent`. -/
  parent : Option TreeNode := none
  /-- The value of `window.page`. -/
  page : Option TreeNode := none
  /-- What has been done so far, in order. -/
  log : List TreeEvent := []

namespace TreeMachine

/-- The `me` of the innermost block that has one. -/
def me (machine : TreeMachine) : Option TreeNode :=
  machine.blocks.findSome? TreeBlock.me

/-- Makes a node the `me` of the innermost block, which must not have one before. -/
def declare (machine : TreeMachine) (node : TreeNode) : Option TreeMachine :=
  match machine.blocks with
  | ⟨isFunction, none⟩ :: outer =>
    some { machine with
      blocks := ⟨isFunction, some node⟩ :: outer
      log := machine.log ++ [.made node] }
  | _ => none

/-- Closes the innermost block, which is or is not that of a function. -/
def close (machine : TreeMachine) (isFunction : Bool) : Option TreeMachine :=
  match machine.blocks with
  | [] => none
  | block :: outer =>
    if block.isFunction = isFunction then some { machine with blocks := outer } else none

def step (machine : TreeMachine) : TreeAction → Option TreeMachine
  | .openFunction => some { machine with blocks := ⟨true, none⟩ :: machine.blocks }
  | .closeFunction => machine.close true
  | .openBlock => some { machine with blocks := ⟨false, none⟩ :: machine.blocks }
  | .closeBlock => machine.close false
  | .setParent .enclosing => machine.me.map fun me => { machine with parent := some me }
  | .setParent .page => machine.page.map fun page => { machine with parent := some page }
  | .keepPage => machine.me.map fun me => { machine with page := some me }
  | .makeRoot element name => machine.declare (.root element name)
  | .makeNode element name =>
    machine.parent.bind fun parent => machine.declare (.child parent element name)
  | .listify itemType =>
    machine.me.map fun me => { machine with log := machine.log ++ [.listed me itemType] }

def run (machine : TreeMachine) (actions : List TreeAction) : Option TreeMachine :=
  actions.foldlM step machine

theorem run_append (machine : TreeMachine) (first second : List TreeAction) :
    machine.run (first ++ second) = (machine.run first).bind (run · second) :=
  List.foldlM_append

end TreeMachine

/-- What lines do to the tree, if all of them can be read and run and no block stays open. -/
def treeLog (lines : List Line) : Option (List TreeEvent) := do
  let actions ← readTreeActions lines
  let machine ← TreeMachine.run {} actions
  if machine.blocks.isEmpty then some machine.log else none

/-! ### Growth in one block -/

def TreeParent.node (me page : TreeNode) : TreeParent → TreeNode
  | .enclosing => me
  | .page => page

/-- In the block of `me`, on the page of `page`, the lines do this to the tree and leave the blocks
as they were. -/
def Grows (actions : List TreeAction) (me page : TreeNode) (events : List TreeEvent) : Prop :=
  ∀ (machine : TreeMachine) block outer, machine.blocks = block :: outer → block.me = some me →
    machine.page = some page →
    ∃ parent, machine.run actions = some { machine with parent, log := machine.log ++ events }

section

variable {me page : TreeNode} {actions : List TreeAction} {events : List TreeEvent}

theorem grows_nil : Grows [] me page [] :=
  fun machine _ _ _ _ _ => ⟨machine.parent, by simp [TreeMachine.run]⟩

theorem Grows.append {others : List TreeAction} {more : List TreeEvent}
    (one : Grows actions me page events) (two : Grows others me page more) :
    Grows (actions ++ others) me page (events ++ more) := by
  intro machine block outer blocks own home
  obtain ⟨parent, ran⟩ := one machine block outer blocks own home
  obtain ⟨parent', ran'⟩ := two { machine with parent, log := machine.log ++ events } block outer
    blocks own home
  refine ⟨parent', ?_⟩
  rw [TreeMachine.run_append, ran, Option.bind_some, ran', List.append_assoc]

theorem grows_listify (itemType : String) :
    Grows [.listify itemType] me page [.listed me itemType] := by
  intro machine block outer blocks own _
  refine ⟨machine.parent, ?_⟩
  simp [TreeMachine.run, TreeMachine.step, TreeMachine.me, blocks, own]

/-- A node is made in a block of its own, which is closed after what grows there. -/
theorem Grows.enter {parent : TreeParent} {element name : String}
    (inside : Grows actions (.child (parent.node me page) element name) page events) :
    Grows ((TreeInstruction.enter parent element name).actions ++ actions ++ [.closeBlock]) me page
      (.made (.child (parent.node me page) element name) :: events) := by
  intro machine block outer blocks own home
  -- while the inside grows, the new node is the `me` of the innermost block
  let node := TreeNode.child (parent.node me page) element name
  let opened : TreeMachine :=
    { machine with
      blocks := ⟨false, some node⟩ :: block :: outer
      parent := some (parent.node me page)
      log := machine.log ++ [.made node] }
  have opens : machine.run (TreeInstruction.enter parent element name).actions = some opened := by
    cases parent with
    | enclosing =>
      simp [TreeInstruction.actions, TreeMachine.run, TreeMachine.step, TreeMachine.me, blocks, own,
        TreeMachine.declare, opened, node, TreeParent.node]
    | page =>
      simp [TreeInstruction.actions, TreeMachine.run, TreeMachine.step, blocks, home,
        TreeMachine.declare, opened, node, TreeParent.node]
  obtain ⟨later, ran⟩ := inside opened _ _ rfl rfl home
  refine ⟨later, ?_⟩
  rw [TreeMachine.run_append, TreeMachine.run_append, opens, Option.bind_some, ran,
    Option.bind_some]
  simp [TreeMachine.run, TreeMachine.step, TreeMachine.close, opened, node, blocks]

end

end Pagewright
