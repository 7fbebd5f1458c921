import Pagewright.Error
import Pagewright.Render.Element

/-!
# Construction scripts

Every export that is not a page becomes a function that builds its elements
below a node of the page's tree. The function is a sequence of instructions.
`enter` opens the block of a new element, in which `dom` is the element and `me`
its node, and `leave` closes it.

A tree that cannot be built leaves the instructions written up to that point.
-/

namespace Pagewright

/-- The node that ids are relative to is that of the enclosing block; a global id's node goes
below the page. -/
inductive NodeParent where
  | scope
  | page
  deriving DecidableEq, Repr

inductive BuildInstruction where
  /-- Opens the block of a new element. -/
  | enter (parent : NodeParent)
  | create (tag : String)
  | setId (id : ScopedId)
  | setStyle (style : String)
  | addClass (name : String)
  | setValue (value : String)
  | appendText (text : String)
  | setTarget (target : ScopedId)
  | setAttribute (attr : Attribute)
  /-- Makes the node of the element. -/
  | makeNode (name : String)
  | noNode
  | listify (itemType least most : String)
  | insertRows (count : Nat)
  /-- Puts a text into the current element. -/
  | text (value : String)
  /-- Closes the block of the latest element. -/
  | leave

namespace BuildInstruction

def literal (text : String) : String :=
  "\"" ++ escapeScript text ++ "\""

/-- The full id of a written id, as a term of the script. -/
def idTerm (id : ScopedId) : String :=
  match id.flavor with
  | .relative => "my_scope.tn_dom.id + " ++ literal ("-" ++ id.name)
  | .global => literal (pageStem ++ "-" ++ id.name)
  | .literal => literal id.name

def lines : Nat → List BuildInstruction → List Line
  | _, [] => []
  | depth, .enter parent :: rest =>
    let above := match parent with
      | .scope => "my_scope"
      | .page => "window.page"
    Line.blank ::
      ⟨depth, "var my_dom_parent = dom;"⟩ ::
      ⟨depth, "var my_scope = me;"⟩ ::
      ⟨depth, "var my_tree_parent = " ++ above ++ ";"⟩ ::
      ⟨depth, "\x7b"⟩ ::
      lines (depth + 1) rest
  | depth, .create tag :: rest =>
    ⟨depth, "let dom = document.createElement(\"" ++ tag ++ "\");"⟩ ::
      ⟨depth, "my_dom_parent.append(dom);"⟩ ::
      lines depth rest
  | depth, .setId id :: rest => ⟨depth, "dom.id = " ++ idTerm id ++ ";"⟩ :: lines depth rest
  | depth, .setStyle style :: rest =>
    ⟨depth, "dom.style = " ++ literal style ++ ";"⟩ :: lines depth rest
  | depth, .addClass name :: rest =>
    ⟨depth, "dom.classList.add(" ++ literal name ++ ");"⟩ :: lines depth rest
  | depth, .setValue value :: rest =>
    ⟨depth, "dom.value = " ++ literal value ++ ";"⟩ :: lines depth rest
  | depth, .appendText value :: rest =>
    ⟨depth, "dom.append(document.createTextNode(" ++ literal value ++ "));"⟩ :: lines depth rest
  | depth, .setTarget target :: rest =>
    ⟨depth, "dom.htmlFor = " ++ idTerm target ++ ";"⟩ :: lines depth rest
  | depth, .setAttribute attr :: rest =>
    ⟨depth, "dom.setAttribute(\"" ++ attr.name ++ "\", " ++ literal (attr.value.getD "") ++ ");"⟩ ::
      lines depth rest
  | depth, .makeNode name :: rest =>
    ⟨depth, "let me = new Tree_Node(my_tree_parent, dom, " ++ literal name ++ ");"⟩ ::
      lines depth rest
  | depth, .noNode :: rest => ⟨depth, "// no tree node."⟩ :: lines depth rest
  | depth, .listify itemType least most :: rest =>
    ⟨depth, "me.tn_listify(tn_make_" ++ itemType ++ ", " ++ least ++ ", " ++ most ++ ");"⟩ ::
      lines depth rest
  | depth, .insertRows count :: rest =>
    ⟨depth, "for(let i = 0; i < " ++ toString count ++ "; i += 1) \x7b"⟩ ::
      ⟨depth + 1, "me.tn_list_insert_new();"⟩ ::
      ⟨depth, "\x7d"⟩ ::
      lines depth rest
  | depth, .text value :: rest =>
    ⟨depth, "\x7b"⟩ ::
      ⟨depth + 1, "let text = document.createTextNode(" ++ literal value ++ ");"⟩ ::
      ⟨depth + 1, "dom.append(text);"⟩ ::
      ⟨depth, "\x7d"⟩ ::
      lines depth rest
  | depth, .leave :: rest => ⟨depth - 1, "\x7d"⟩ :: lines (depth - 1) rest

end BuildInstruction

/-- Instructions written so far, and why no more were written. -/
structure Draft where
  instructions : List BuildInstruction
  failure : Option Error := none

namespace Draft

/-- Goes on writing unless writing has stopped. -/
def andThen (first second : Draft) : Draft :=
  match first.failure with
  | some _ => first
  | none => ⟨first.instructions ++ second.instructions, second.failure⟩

end Draft

/-- Instructions that make a new element with its id, styles and classes. -/
def createElement (expression : Expression) : List BuildInstruction :=
  let id := expression.scopedId?
  let parent := if (id.map ScopedId.flavor) = some .global then .page else .scope
  [.enter parent, .create expression.tag]
  ++ (id.map BuildInstruction.setId).toList
  ++ (expression.style?.map BuildInstruction.setStyle).toList
  ++ expression.classes.map .addClass

def createNode (expression : Expression) : BuildInstruction :=
  match expression.scopedId? with
  | some id => if id.isTracked then .makeNode id.name else .noNode
  | none => .noNode

/-- What an element of some kind gets before and after its node. -/
def fitOut (expression : Expression) (kind : Kind) : List BuildInstruction :=
  match kind with
  | .list =>
    [createNode expression,
      .listify expression.itemType expression.leastRows expression.mostRows]
    ++ ((expression.number? "initial").map BuildInstruction.insertRows).toList
  | .option =>
    ((expression.text? "value").map BuildInstruction.setValue).toList
    ++ [.appendText ((expression.text? "text").getD ""), createNode expression]
  | .label =>
    ((expression.text? "for").map fun target => .setTarget (ScopedId.split target)).toList
    ++ [createNode expression]
  | .input => expression.inputAttributes.map .setAttribute ++ [createNode expression]
  | _ => [createNode expression]

/-- The argument whose block is built inside an element; the rows of a list are made at run time. -/
def builtContent? (expression : Expression) : Option String :=
  if expression.kind = "list" then none else expression.content?

mutual

/-- The instructions for an element and everything in it. -/
def construct : Expression → Draft
  | ⟨id, parent, kind, arguments⟩ =>
    let expression : Expression := ⟨id, parent, kind, arguments⟩
    match Kind.ofName? kind with
    | some .text => ⟨[.text ((expression.text? "value").getD "")], none⟩
    | none | some .page =>
      ⟨createElement expression, some (.internal (.unbuildable kind))⟩
    | some kind =>
      Draft.andThen ⟨createElement expression ++ fitOut expression kind, none⟩
        (Draft.andThen (constructIn (builtContent? expression) arguments) ⟨[.leave], none⟩)

def constructIn (content : Option String) : List (String × Argument) → Draft
  | [] => ⟨[], none⟩
  | (name, value) :: rest =>
    if content = some name then constructOf value else constructIn content rest

def constructOf : Argument → Draft
  | .block children => constructAll children
  | _ => ⟨[], none⟩

def constructAll : List Expression → Draft
  | [] => ⟨[], none⟩
  | child :: rest => Draft.andThen (construct child) (constructAll rest)

end

/-- The first lines of the function that builds the definition `name`. -/
def functionHead (name : String) : List Line :=
  [⟨0, "function tn_make_" ++ name ++ "(parent) \x7b"⟩,
    ⟨1, "console.assert(parent.tn_dom.id != \"\");"⟩,
    Line.blank,
    ⟨1, "let dom = parent.tn_dom;"⟩,
    ⟨1, "let me  = parent;"⟩]

/-- The function that builds the definition `name`, as far as it can be written. -/
def renderFunction (name : String) (root : Expression) : String × Except Error Unit :=
  let draft := construct root
  let written := renderLines (functionHead name ++ BuildInstruction.lines 1 draft.instructions)
  match draft.failure with
  | some error => (written, .error error)
  | none => (written ++ renderLines [⟨0, "\x7d"⟩, Line.blank], .ok ())

/-- The functions of all exports that are not pages, in order. -/
def renderScript : List Expression → Except Error String
  | [] => .ok ""
  | entry :: rest =>
    if entry.kind = "page" then renderScript rest
    else
      match entry.defines? with
      | none => .error (.internal (.unnamedExport entry.kind))
      | some name =>
        match renderFunction name entry with
        | (_, .error error) => .error error
        | (written, .ok ()) => do
          let rest ← renderScript rest
          return written ++ rest

end Pagewright
