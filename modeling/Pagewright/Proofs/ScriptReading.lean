import Mathlib.Tactic.SplitIfs
import Pagewright.Proofs.Decimals
import Pagewright.Render.Construction

/-!
# Reading a construction script

The lines of a construction script say which elements are made, what ids and
targets they get, which blocks are opened and closed, and how often a row is
put into a list. `readAction` takes this off the text of a line. What is read off
the lines of instructions is what the instructions say.
-/

namespace Pagewright

/-! ### Pieces of a line -/

def readAfter : List Char → List Char → Option (List Char)
  | [], text => some text
  | c :: start, d :: text => if c = d then readAfter start text else none
  | _ :: _, [] => none

/-- Reading past a text leaves what follows it. -/
theorem readAfter_append (start rest : List Char) : readAfter start (start ++ rest) = some rest := by
  induction start with
  | nil => rfl
  | cons c start ih => simp [readAfter, ih]

theorem eq_append_of_readAfter {start text rest : List Char}
    (read : readAfter start text = some rest) : text = start ++ rest := by
  induction start generalizing text with
  | nil => exact Option.some.inj read
  | cons c start ih =>
    cases text with
    | nil => cases read
    | cons d text =>
      simp only [readAfter] at read
      split_ifs at read with same
      rw [same, ih read]
      rfl

/-- The character that follows a backslash, as it is meant. -/
def unescaped (c : Char) : Char :=
  if c = 'n' then '\n' else if c = 'r' then '\r' else if c = 't' then '\t' else c

def hexValue (c : Char) : Nat :=
  if c.isDigit then c.toNat - '0'.toNat else c.toNat - 'a'.toNat + 10

/-- The text of a double-quoted literal after its opening quote, and what follows the literal. -/
def readLiteral : List Char → Option (List Char × List Char)
  | [] => none
  | '"' :: rest => some ([], rest)
  | '\\' :: 'u' :: a :: b :: c :: d :: rest =>
    let code := [a, b, c, d].foldl (fun code digit => 16 * code + hexValue digit) 0
    (readLiteral rest).map fun (text, after) => (Char.ofNat code :: text, after)
  | '\\' :: c :: rest => (readLiteral rest).map fun (text, after) => (unescaped c :: text, after)
  | c :: rest => (readLiteral rest).map fun (text, after) => (c :: text, after)

private theorem readLiteral_scriptChar (c : Char) (rest : List Char) :
    readLiteral (scriptChar c ++ rest) =
      (readLiteral rest).map fun (text, after) => (c :: text, after) := by
  unfold scriptChar
  split_ifs with backslash quote newline return' tab angle line paragraph
  · simp [readLiteral, unescaped, backslash]
  · simp [readLiteral, unescaped, quote]
  · simp [readLiteral, unescaped, newline]
  · simp [readLiteral, unescaped, return']
  · simp [readLiteral, unescaped, tab]
  · subst angle
    rfl
  · subst line
    rfl
  · subst paragraph
    rfl
  · simp [readLiteral, backslash]

/-- Escaping loses nothing. -/
theorem readLiteral_escapeScript (text : String) (rest : List Char) :
    readLiteral ((escapeScript text).toList ++ '"' :: rest) = some (text.toList, rest) := by
  unfold escapeScript
  rw [String.toList_ofList]
  induction text.toList with
  | nil => rfl
  | cons c chars ih =>
    rw [List.flatMap_cons, List.append_assoc, readLiteral_scriptChar, ih]
    rfl

/-! ### What a line does -/

inductive IdValue where
  /-- The id of the scope's element, and a text after it. -/
  | scoped (rest : String)
  | fixed (value : String)
  deriving DecidableEq, Repr

/-- The id that is meant where `scope` is the id of the scope's element. -/
def IdValue.resolve (scope : String) : IdValue → String
  | .scoped rest => scope ++ rest
  | .fixed value => value

inductive Action where
  /-- Ids are relative to the latest node from here on. -/
  | setScope
  | openBlock
  | closeBlock
  | create (tag : String)
  | setId (value : IdValue)
  | setTarget (value : IdValue)
  /-- Makes a node for the current element. -/
  | makeNode
  | listify (itemType : String)
  /-- Opens a block that is gone through a number of times. -/
  | openLoop (count : Nat)
  | insertRow
  deriving DecidableEq, Repr

def readLiteralBefore (ending : String) (text : List Char) : Option String :=
  (readLiteral text).bind fun (value, after) =>
    if after = ending.toList then some (String.ofList value) else none

/-- The value of an id up to the end of its statement. -/
def readIdValue (text : List Char) : Option IdValue :=
  match readAfter "my_scope.tn_dom.id + \"".toList text with
  | some rest => (readLiteralBefore ";" rest).map .scoped
  | none => ((readAfter ['"'] text).bind (readLiteralBefore ";")).map .fixed

inductive ActionForm where
  | scope
  | openBlock
  | closeBlock
  | create
  | id
  | target
  | node
  | listify
  | loop
  | row

namespace ActionForm

def all : List ActionForm :=
  [.scope, .openBlock, .closeBlock, .create, .id, .target, .node, .listify, .loop, .row]

def start : ActionForm → String
  | .scope => "var my_scope = me;"
  | .openBlock => "\x7b"
  | .closeBlock => "\x7d"
  | .create => "let dom = document.createElement(\""
  | .id => "dom.id = "
  | .target => "dom.htmlFor = "
  | .node => "let me = new Tree_Node("
  | .listify => "me.tn_listify(tn_make_"
  | .loop => "for(let i = 0; i < "
  | .row => "me.tn_list_insert_new();"

def read : ActionForm → List Char → Option Action
  | .scope, rest => if rest = [] then some .setScope else none
  | .openBlock, rest => if rest = [] then some .openBlock else none
  | .closeBlock, rest => if rest = [] then some .closeBlock else none
  | .create, rest => (readLiteralBefore ");" rest).map .create
  | .id, rest => (readIdValue rest).map .setId
  | .target, rest => (readIdValue rest).map .setTarget
  | .node, _ => some .makeNode
  | .listify, rest => some (.listify (String.ofList (rest.takeWhile (· ≠ ','))))
  | .loop, rest => some (.openLoop (digitsValue (rest.takeWhile Char.isDigit)))
  | .row, rest => if rest = [] then some .insertRow else none

end ActionForm

/-- What a line does to the elements, if anything; its start decides how the rest is read. -/
def readAction (text : String) : Option Action :=
  (ActionForm.all.findSome? fun form =>
    (readAfter form.start.toList text.toList).map form.read).join

def readActions (lines : List Line) : List Action :=
  lines.filterMap fun line => readAction line.text

/-! ### Reading instructions back -/

def ScopedId.value (id : ScopedId) : IdValue :=
  match id.flavor with
  | .relative => .scoped ("-" ++ id.name)
  | .global => .fixed (pageStem ++ "-" ++ id.name)
  | .literal => .fixed id.name

theorem ScopedId.resolve_value (id : ScopedId) (scope : String) :
    id.value.resolve scope = id.fullId scope := by
  unfold ScopedId.value ScopedId.fullId
  cases id.flavor with
  | relative => simp [IdValue.resolve, String.append_assoc]
  | global | literal => rfl

theorem readLiteralBefore_escapeScript (text ending : String) :
    readLiteralBefore ending ((escapeScript text).toList ++ '"' :: ending.toList) = some text := by
  simp [readLiteralBefore, readLiteral_escapeScript]

private theorem readIdValue_literal (text : String) :
    readIdValue ((BuildInstruction.literal text).toList ++ [';']) = some (.fixed text) := by
  have written : (BuildInstruction.literal text).toList ++ [';'] =
      '"' :: ((escapeScript text).toList ++ '"' :: ";".toList) := by
    simp [BuildInstruction.literal]
  have other (rest : List Char) :
      readAfter "my_scope.tn_dom.id + \"".toList ('"' :: rest) = none := rfl
  have quoted (rest : List Char) : readAfter ['"'] ('"' :: rest) = some rest := rfl
  rw [written, readIdValue, other, quoted, Option.bind_some, readLiteralBefore_escapeScript]
  rfl

private theorem readIdValue_idTerm (id : ScopedId) :
    readIdValue ((BuildInstruction.idTerm id).toList ++ [';']) = some id.value := by
  unfold BuildInstruction.idTerm ScopedId.value
  cases id.flavor with
  | relative =>
    have written : ("my_scope.tn_dom.id + " ++ BuildInstruction.literal ("-" ++ id.name)).toList ++
        [';'] = "my_scope.tn_dom.id + \"".toList ++
          ((escapeScript ("-" ++ id.name)).toList ++ '"' :: ";".toList) := by
      simp [BuildInstruction.literal]
    simp only [written, readIdValue, readAfter_append, readLiteralBefore_escapeScript,
      Option.map_some]
  | global | literal => exact readIdValue_literal _

def BuildInstruction.actions : BuildInstruction → List Action
  | .enter _ => [.setScope, .openBlock]
  | .create tag => [.create tag]
  | .setId id => [.setId id.value]
  | .setTarget target => [.setTarget target.value]
  | .makeNode _ => [.makeNode]
  | .listify itemType _ _ => [.listify itemType]
  | .insertRows count => [.openLoop count, .insertRow, .closeBlock]
  | .text _ => [.openBlock, .closeBlock]
  | .leave => [.closeBlock]
  | .setStyle _ | .addClass _ | .setValue _ | .appendText _ | .setAttribute _ | .noNode => []

/-- Tags and item types stand in a script as they are. -/
def BuildInstruction.Plain : BuildInstruction → Prop
  | .create tag => escapeScript tag = tag
  | .listify itemType _ _ => ',' ∉ itemType.toList
  | _ => True

section

open BuildInstruction

private theorem readAction_append (start rest : String) :
    readAction (start ++ rest) = (ActionForm.all.findSome? fun form =>
      (readAfter form.start.toList (start.toList ++ rest.toList)).map form.read).join := by
  rw [readAction, String.toList_append]

/-- No start is that of another form, or begins with it. -/
theorem readAction_form (form : ActionForm) (rest : String) :
    readAction (form.start ++ rest) = form.read rest.toList := by
  rw [readAction_append]
  cases form <;> rfl

private theorem readAction_create {tag : String} (plain : escapeScript tag = tag) :
    readAction ("let dom = document.createElement(\"" ++ (tag ++ "\");")) = some (.create tag) := by
  have text : (tag ++ "\");").toList = (escapeScript tag).toList ++ '"' :: ");".toList := by
    rw [plain, String.toList_append]
    rfl
  refine (readAction_form .create _).trans ?_
  rw [ActionForm.read, text, readLiteralBefore_escapeScript]
  rfl

private theorem readAction_setId (id : ScopedId) :
    readAction ("dom.id = " ++ (idTerm id ++ ";")) = some (.setId id.value) := by
  refine (readAction_form .id _).trans ?_
  rw [ActionForm.read, String.toList_append, show ";".toList = [';'] from rfl, readIdValue_idTerm]
  rfl

private theorem readAction_setTarget (id : ScopedId) :
    readAction ("dom.htmlFor = " ++ (idTerm id ++ ";")) = some (.setTarget id.value) := by
  refine (readAction_form .target _).trans ?_
  rw [ActionForm.read, String.toList_append, show ";".toList = [';'] from rfl, readIdValue_idTerm]
  rfl

/-- What stands before a comma is read as it is. -/
theorem takeWhile_comma {itemType : String} (plain : ',' ∉ itemType.toList) (rest : String) :
    (itemType ++ (", " ++ rest)).toList.takeWhile (· ≠ ',') = itemType.toList := by
  have text : (itemType ++ (", " ++ rest)).toList =
      itemType.toList ++ ',' :: ' ' :: rest.toList := by
    rw [String.toList_append, String.toList_append]
    rfl
  rw [text, List.takeWhile_append_of_pos, List.takeWhile_cons_of_neg (by simp), List.append_nil]
  intro c member
  simpa using fun comma : c = ',' => plain (comma ▸ member)

private theorem readAction_listify {itemType : String} (plain : ',' ∉ itemType.toList)
    (rest : String) :
    readAction ("me.tn_listify(tn_make_" ++ (itemType ++ (", " ++ rest))) =
      some (.listify itemType) := by
  refine (readAction_form .listify _).trans ?_
  rw [ActionForm.read, takeWhile_comma plain, String.ofList_toList]

private theorem readAction_insertRows (count : Nat) :
    readAction ("for(let i = 0; i < " ++ (toString count ++ "; i += 1) \x7b")) =
      some (.openLoop count) := by
  have text : (toString count ++ "; i += 1) \x7b").toList =
      Nat.toDigits 10 count ++ ';' :: " i += 1) \x7b".toList := by
    rw [String.toList_append, Nat.toString_eq_repr, Nat.toList_repr]
    rfl
  refine (readAction_form .loop _).trans ?_
  rw [ActionForm.read, text,
    takeWhile_isDigit_append isDigit_of_mem_toDigits (endsDigits_cons (by decide) _),
    digitsValue_toDigits]

private theorem readAction_makeNode (rest : String) :
    readAction ("let me = new Tree_Node(my_tree_parent, dom, " ++ rest) = some .makeNode := by
  rw [readAction_append]
  rfl

/-- The starts of lines that make no element and change none. -/
def silentStarts : List String :=
  ["var my_tree_parent = ", "dom.style = ", "dom.classList.add(", "dom.value = ",
    "dom.append(document.createTextNode(", "dom.setAttribute(\"",
    "let text = document.createTextNode(", "function tn_make_"]

theorem readAction_silent {start : String} (silent : start ∈ silentStarts) (rest : String) :
    readAction (start ++ rest) = none := by
  rw [readAction_append]
  simp only [silentStarts, List.mem_cons, List.not_mem_nil, or_false] at silent
  rcases silent with rfl | rfl | rfl | rfl | rfl | rfl | rfl | rfl
  all_goals rfl

theorem readActions_cons (depth : Nat) (text : String) (rest : List Line) :
    readActions (⟨depth, text⟩ :: rest) = (readAction text).toList ++ readActions rest := by
  unfold readActions
  cases read : readAction text with
  | none | some => simp [read]

/-- The lines of instructions do what the instructions say. -/
theorem readActions_lines {instructions : List BuildInstruction}
    (plain : ∀ instruction ∈ instructions, instruction.Plain) (depth : Nat) :
    readActions (lines depth instructions) = instructions.flatMap actions := by
  induction instructions generalizing depth with
  | nil => rfl
  | cons first rest ih =>
    have here := plain first (by simp)
    have later := ih (List.forall_mem_cons.mp plain).2
    cases first with
    | create tag =>
      rw [lines, readActions_cons, readActions_cons, later, String.append_assoc,
        readAction_create here]
      rfl
    | setId id =>
      rw [lines, readActions_cons, later, String.append_assoc, readAction_setId]
      rfl
    | setTarget id =>
      rw [lines, readActions_cons, later, String.append_assoc, readAction_setTarget]
      rfl
    | listify itemType least most =>
      simp only [lines, readActions_cons, later, String.append_assoc, readAction_listify here]
      rfl
    | insertRows count =>
      rw [lines, readActions_cons, readActions_cons, readActions_cons, later, String.append_assoc,
        readAction_insertRows]
      rfl
    | makeNode name =>
      rw [lines, readActions_cons, later, String.append_assoc, readAction_makeNode]
      rfl
    | enter parent =>
      simp only [lines, Line.blank, readActions_cons, later]
      cases parent <;> rfl
    | noNode | leave =>
      simp only [lines, readActions_cons, later]
      rfl
    | text | setStyle | addClass | setValue | appendText | setAttribute =>
      simp (disch := decide) only [lines, readActions_cons, later, String.append_assoc,
        readAction_silent]
      rfl

end

end Pagewright
