import Pagewright.Render.Element

/-!
# The tree script of a page

A page ends with a script that makes a node for every tracked element, below the
node of the element around it or below the page's own node, and turns lists into
lists. The script is a sequence of instructions, each of them one or a few lines.
`enter` opens a block in which the new node is `me`, and `leave` closes it.
-/

namespace Pagewright

/-- The node that a new node is put below. -/
inductive TreeParent where
  /-- The node of the enclosing block. -/
  | enclosing
  | page
  deriving DecidableEq, Repr

inductive TreeInstruction where
  /-- Opens the block of a new node. -/
  | enter (parent : TreeParent) (fullId name : String)
  /-- Makes the node of the current block a list. -/
  | listify (itemType least most : String)
  /-- Closes the block of the latest node. -/
  | leave
  deriving DecidableEq, Repr

namespace TreeInstruction

def lines : Nat → List TreeInstruction → List Line
  | _, [] => []
  | depth, .enter parent fullId name :: rest =>
    let above := match parent with
      | .enclosing => "me"
      | .page => "window.page"
    ⟨depth, "var my_tree_parent = " ++ above ++ ";"⟩ ::
      ⟨depth, "\x7b"⟩ ::
      ⟨depth + 1, "let me = new Tree_Node(my_tree_parent, document.getElementById(\""
        ++ escapeScript fullId ++ "\"), \"" ++ escapeScript name ++ "\");"⟩ ::
      lines (depth + 1) rest
  | depth, .listify itemType least most :: rest =>
    ⟨depth, "me.tn_listify(tn_make_" ++ itemType ++ ", " ++ least ++ ", " ++ most ++ ");"⟩ ::
      lines depth rest
  | depth, .leave :: rest => ⟨depth - 1, "\x7d"⟩ :: lines (depth - 1) rest

end TreeInstruction

mutual

/-- The instructions for an element and everything in it, where `stem` is the full id of the
nearest tracked element around it. -/
def treeScript : Expression → String → List TreeInstruction
  | ⟨id, parent, kind, arguments⟩, stem =>
    let expression : Expression := ⟨id, parent, kind, arguments⟩
    let listify : List TreeInstruction :=
      if kind = "list" then
        [.listify expression.itemType expression.leastRows expression.mostRows]
      else []
    match expression.scopedId? with
    | none => treeScriptIn expression.content? arguments stem ++ listify
    | some own =>
      if own.isTracked then
        let fullId := own.fullId stem
        let above := if own.flavor = .global then .page else .enclosing
        .enter above fullId own.name ::
          treeScriptIn expression.content? arguments fullId ++ listify ++ [.leave]
      else
        treeScriptIn expression.content? arguments stem ++ listify

def treeScriptIn (content : Option String) :
    List (String × Argument) → String → List TreeInstruction
  | [], _ => []
  | (name, value) :: rest, stem =>
    if content = some name then treeScriptOf value stem else treeScriptIn content rest stem

def treeScriptOf : Argument → String → List TreeInstruction
  | .block children, stem => treeScriptAll children stem
  | _, _ => []

def treeScriptAll : List Expression → String → List TreeInstruction
  | [], _ => []
  | child :: rest, stem => treeScript child stem ++ treeScriptAll rest stem

end

end Pagewright
