import Pagewright.Proofs.ScriptElements

/-!
# The functions of a script

The text of a construction script falls into lines. A line that starts with
`function tn_make_` opens the function of the definition whose name follows, and
no other line of a script starts like this. So the names of the functions can be
read off the text: they are those that the script was written for.
-/

namespace Pagewright

variable {instruction : BuildInstruction} {e : Expression} {name start : String} {line : Line}
  {kind : Kind} {c : Char} {exports : List (String × Expression)}

/-! ### The lines of a text -/

def splitLines : List Char → List (List Char)
  | [] => []
  | c :: rest =>
    if c = '\n' then [] :: splitLines rest
    else
      match splitLines rest with
      | [] => [[c]]
      | line :: others => (c :: line) :: others

private theorem splitLines_append {line : List Char} (whole : '\n' ∉ line) (rest : List Char) :
    splitLines (line ++ '\n' :: rest) = line :: splitLines rest := by
  induction line with
  | nil => simp [splitLines]
  | cons c line ih =>
    have apart : c ≠ '\n' := fun same => whole (same ▸ List.mem_cons_self)
    have later := ih fun member => whole (List.mem_cons_of_mem _ member)
    simp only [List.cons_append, splitLines, if_neg apart, later]

/-- A line as it is written, without its end. -/
def Line.chars (line : Line) : List Char :=
  List.replicate (4 * line.depth) ' ' ++ line.text.toList

theorem splitLines_renderLines {lines : List Line}
    (whole : ∀ line ∈ lines, '\n' ∉ line.text.toList) (rest : List Char) :
    splitLines ((renderLines lines).toList ++ rest) = lines.map Line.chars ++ splitLines rest := by
  induction lines with
  | nil => rfl
  | cons line later ih =>
    obtain ⟨first, others⟩ := List.forall_mem_cons.mp whole
    have text : (renderLines (line :: later)).toList ++ rest =
        line.chars ++ '\n' :: ((renderLines later).toList ++ rest) := by
      simp [renderLines, Line.render, Line.chars, String.toList_append]
    have noEnd : '\n' ∉ line.chars := by
      simp [Line.chars, first]
    rw [text, splitLines_append noEnd, ih others, List.map_cons, List.cons_append]

/-! ### The names of functions -/

def functionName? (line : List Char) : Option String :=
  (readAfter "function tn_make_".toList line).map fun rest =>
    String.ofList (rest.takeWhile (· ≠ '('))

def functionNames (text : String) : List String :=
  (splitLines text.toList).filterMap functionName?

/-- Two texts differ at some place where both have a character. -/
def clash : List Char → List Char → Bool
  | c :: first, d :: second => c ≠ d || clash first second
  | _, _ => false

theorem readAfter_of_clash {start text : List Char} (apart : clash start text = true)
    (rest : List Char) : readAfter start (text ++ rest) = none := by
  induction start generalizing text with
  | nil => cases apart
  | cons c start ih =>
    cases text with
    | nil => cases apart
    | cons d text =>
      rw [List.cons_append, readAfter]
      split_ifs with same
      · exact ih (by simpa [clash, same] using apart)
      · rfl

/-- A line opens no function if its text starts like something else. -/
theorem functionName?_of_clash {rest : String} (text : line.text = start ++ rest)
    (apart : clash "function tn_make_".toList start.toList = true) :
    functionName? line.chars = none := by
  rw [functionName?, Line.chars, text, String.toList_append]
  cases depth : 4 * line.depth with
  | zero => rw [List.replicate_zero, List.nil_append, readAfter_of_clash apart, Option.map_none]
  | succ indent => rfl

private theorem functionName?_head (plain : '(' ∉ name.toList) :
    functionName? (Line.chars ⟨0, "function tn_make_" ++ name ++ "(parent) \x7b"⟩) = some name := by
  have all : ∀ c ∈ name.toList, (decide (c ≠ '(')) = true := by
    intro c member
    exact decide_eq_true fun same => plain (same ▸ member)
  have taken : (name.toList ++ "(parent) \x7b".toList).takeWhile (· ≠ '(') = name.toList := by
    rw [List.takeWhile_append_of_pos all]
    simp
  rw [functionName?, Line.chars, Nat.mul_zero, List.replicate_zero, List.nil_append,
    String.toList_append, String.toList_append, List.append_assoc, readAfter_append,
    Option.map_some, taken, String.ofList_toList]

/-! ### The lines of instructions -/

namespace BuildInstruction

/-- Every line belongs to one of the instructions. -/
theorem mem_lines {instructions : List BuildInstruction} {depth : Nat}
    (member : line ∈ lines depth instructions) :
    ∃ instruction ∈ instructions, ∃ depth, line ∈ lines depth [instruction] := by
  induction instructions generalizing depth with
  | nil => cases member
  | cons instruction rest ih =>
    have split : ∃ after, lines depth (instruction :: rest) =
        lines depth [instruction] ++ lines after rest := by
      cases instruction <;> exact ⟨_, rfl⟩
    obtain ⟨after, split⟩ := split
    rw [split] at member
    rcases List.mem_append.mp member with first | later
    · exact ⟨instruction, List.mem_cons_self, depth, first⟩
    · obtain ⟨other, among, found⟩ := ih later
      exact ⟨other, List.mem_cons_of_mem _ among, found⟩

/-- What the lines of instructions start with. -/
def starts : List String :=
  ["var my_dom_parent = dom;", "var my_scope = me;", "var my_tree_parent = ", "\x7b", "\x7d",
    "let dom = document.createElement(\"", "my_dom_parent.append(dom);", "dom.id = ",
    "dom.style = ", "dom.classList.add(", "dom.value = ", "dom.append(document.createTextNode(",
    "dom.htmlFor = ", "dom.setAttribute(\"", "let me = new Tree_Node(my_tree_parent, dom, ",
    "// no tree node.", "me.tn_listify(tn_make_", "for(let i = 0; i < ",
    "me.tn_list_insert_new();", "let text = document.createTextNode(", "dom.append(text);"]

private theorem functionName?_start (listed : start ∈ starts) (depth : Nat) (rest : String) :
    functionName? (Line.chars ⟨depth, start ++ rest⟩) = none := by
  have apart : ∀ start ∈ starts, clash "function tn_make_".toList start.toList = true := by
    decide +kernel
  exact functionName?_of_clash rfl (apart start listed)

private theorem functionName?_text {text : String} (listed : text ∈ starts) (depth : Nat) :
    functionName? (Line.chars ⟨depth, text⟩) = none := by
  simpa using functionName?_start listed depth ""

private theorem functionName?_lines (instructions : List BuildInstruction) (depth : Nat) :
    (lines depth instructions).filterMap (fun line => functionName? line.chars) = [] := by
  have blank : functionName? Line.blank.chars = none := rfl
  induction instructions generalizing depth with
  | nil => rfl
  | cons instruction rest ih =>
    cases instruction <;>
      simp (disch := decide) only [lines, List.filterMap_cons, blank, String.append_assoc,
        functionName?_start, functionName?_text, ih]

def OneLine : BuildInstruction → Prop
  | .create tag => '\n' ∉ tag.toList
  | .setAttribute attr => '\n' ∉ attr.name.toList
  | .listify itemType least most =>
    '\n' ∉ itemType.toList ∧ '\n' ∉ least.toList ∧ '\n' ∉ most.toList
  | _ => True

end BuildInstruction

private theorem not_mem_toDigits (number : Nat) (other : c.isDigit = false) :
    c ∉ Nat.toDigits 10 number := by
  intro member
  simp [Nat.isDigit_of_mem_toDigits (by decide) (by decide) member] at other

/-- The bounds of a list stand in scripts as they are. -/
theorem Expression.bounds_avoid (e : Expression) (special : c ∈ ['<', '\n']) :
    c ∉ e.leastRows.toList ∧ c ∉ e.mostRows.toList := by
  have other : c.isDigit = false ∧ c ∉ "-Infinity".toList ∧ c ∉ "+Infinity".toList := by
    simp only [List.mem_cons, List.not_mem_nil, or_false] at special
    rcases special with rfl | rfl <;> decide
  rw [Expression.leastRows, Expression.mostRows]
  constructor
  · cases e.number? "min" with
    | none => exact other.2.1
    | some number => simpa using not_mem_toDigits number other.1
  · cases e.number? "max" with
    | none => exact other.2.2
    | some number => simpa using not_mem_toDigits number other.1

namespace BuildInstruction

private theorem literal_no_end (text : String) : '\n' ∉ (literal text).toList := by
  have escaped : '\n' ∉ (escapeScript text).toList := not_mem_escapeScript text (by decide)
  simp [literal, String.toList_append, escaped]

private theorem idTerm_no_end (id : ScopedId) : '\n' ∉ (idTerm id).toList := by
  unfold idTerm
  split <;> simp [String.toList_append, literal_no_end]

private theorem lines_no_end (oneLine : instruction.OneLine) (depth : Nat) :
    ∀ line ∈ lines depth [instruction], '\n' ∉ line.text.toList := by
  cases instruction with
  | enter parent => cases parent <;> simp [lines, Line.blank]
  | create tag =>
    have tag : '\n' ∉ tag.toList := oneLine
    simp [lines, tag]
  | setAttribute attr =>
    have name : '\n' ∉ attr.name.toList := oneLine
    simp [lines, name, literal_no_end]
  | listify itemType least most =>
    obtain ⟨type, first, last⟩ := oneLine
    simp [lines, type, first, last]
  | _ => simp [lines, literal_no_end, idTerm_no_end, not_mem_toDigits]

end BuildInstruction

/-! ### The instructions of an expression -/

private theorem Draft.mem_andThen {first second : Draft}
    (member : instruction ∈ (first.andThen second).instructions) :
    instruction ∈ first.instructions ∨ instruction ∈ second.instructions := by
  unfold Draft.andThen at member
  split at member
  · exact .inl member
  · exact List.mem_append.mp member

private theorem mem_constructAll {children : List Expression}
    (member : instruction ∈ (constructAll children).instructions) :
    ∃ child ∈ children, instruction ∈ (construct child).instructions := by
  induction children with
  | nil => cases member
  | cons child rest ih =>
    rcases Draft.mem_andThen member with first | later
    · exact ⟨child, List.mem_cons_self, first⟩
    · obtain ⟨other, among, found⟩ := ih later
      exact ⟨other, List.mem_cons_of_mem _ among, found⟩

/-- A property of instructions holds of all that an expression is built by if it holds of those for
single elements. -/
theorem construct_forall {property : BuildInstruction → Prop} (leave : property .leave)
    (text : ∀ value, property (.text value))
    (own : e.Throughout fun inner => Kind.isBuiltIn inner.kind = true ∧
      ∀ kind, Kind.ofName? inner.kind = some kind →
        ∀ instruction ∈ createElement inner ++ fitOut inner kind, property instruction) :
    ∀ instruction ∈ (construct e).instructions, property instruction := by
  induction e using Expression.inductionOn with
  | step e ih =>
    intro instruction member
    obtain ⟨builtIn, elements⟩ := own.here
    obtain ⟨kind, named⟩ := Option.isSome_iff_exists.mp builtIn
    have here := elements kind named
    by_cases isText : kind = .text
    · subst isText
      rw [construct_text named] at member
      cases List.mem_singleton.mp member
      exact text _
    by_cases isPage : kind = .page
    · subst isPage
      refine here instruction (List.mem_append_left _ ?_)
      rwa [construct_page named] at member
    rw [construct_eq named isText isPage] at member
    rcases Draft.mem_andThen member with first | later
    · exact here instruction first
    rcases Draft.mem_andThen later with inside | last
    · obtain ⟨child, among, found⟩ := mem_constructAll inside
      obtain ⟨name, held⟩ := Expression.holds_of_builtInner among
      exact ih name child held (own.child held) instruction found
    · cases List.mem_singleton.mp last
      exact leave

private theorem BuildInstruction.IsQuoted.oneLine (quoted : instruction.IsQuoted) :
    instruction.OneLine := by
  cases instruction <;> trivial

theorem createElement_oneLine (named : Kind.ofName? e.kind = some kind) :
    ∀ instruction ∈ createElement e, instruction.OneLine := by
  intro instruction member
  rcases mem_createElement member with rfl | quoted
  · show '\n' ∉ e.tag.toList
    rw [Expression.tag, ← Kind.name_of_ofName? named]
    cases kind <;> decide
  · exact quoted.oneLine

theorem fitOut_oneLine (typed : kind = .list → '\n' ∉ e.itemType.toList) :
    ∀ instruction ∈ fitOut e kind, instruction.OneLine := by
  intro instruction member
  rcases mem_fitOut member with ⟨list, rfl⟩ | ⟨attr, among, rfl⟩ | quoted
  · exact ⟨typed list, e.bounds_avoid (by simp)⟩
  · have names : ∀ name ∈ ["type", "min", "max", "value", "checked", "minlength", "maxlength"],
        '\n' ∉ name.toList := by decide
    exact names _ (inputAttributes_names e attr among)
  · exact quoted.oneLine

/-! ### Functions -/

private theorem functionLines_no_end (plain : '\n' ∉ name.toList) {root : Expression}
    (each : ∀ instruction ∈ (construct root).instructions, instruction.OneLine) :
    ∀ line ∈ functionLines name root, '\n' ∉ line.text.toList := by
  intro line member
  rw [functionLines, List.mem_append, List.mem_append] at member
  rcases member with (head | inside) | tail
  · have heads : ∀ line ∈ functionHead name, '\n' ∉ line.text.toList := by
      simp [functionHead, Line.blank, plain]
    exact heads line head
  · obtain ⟨instruction, among, depth, found⟩ := BuildInstruction.mem_lines inside
    exact BuildInstruction.lines_no_end (each instruction among) depth line found
  · have tails : ∀ line ∈ [⟨0, "\x7d"⟩, Line.blank], '\n' ∉ line.text.toList := by decide
    exact tails line tail

/-- A function opens under its name, and nothing in it opens another one. -/
theorem functionLines_name (plain : '(' ∉ name.toList) (root : Expression) :
    (functionLines name root).filterMap (fun line => functionName? line.chars) = [name] := by
  have head : (functionHead name).filterMap (fun line => functionName? line.chars) = [name] := by
    simp only [functionHead, List.filterMap_cons, functionName?_head plain]
    rfl
  rw [functionLines, List.filterMap_append, List.filterMap_append, head,
    BuildInstruction.functionName?_lines]
  rfl

/-- The lines of a script are those of its functions, one after the other. -/
theorem splitLines_script (plain : ∀ name root, (name, root) ∈ exports → '\n' ∉ name.toList)
    (each : ∀ name root, (name, root) ∈ exports → root.kind ≠ "page" →
      ∀ instruction ∈ (construct root).instructions, instruction.OneLine) :
    splitLines (String.join ((scriptFunctions exports).map fun function =>
        renderLines function.2)).toList =
      ((scriptFunctions exports).flatMap Prod.snd).map Line.chars := by
  have text : String.join ((scriptFunctions exports).map fun function => renderLines function.2) =
      renderLines ((scriptFunctions exports).flatMap Prod.snd) := by
    induction scriptFunctions exports with
    | nil => rfl
    | cons function rest ih => simp [ih, renderLines_append]
  have whole : ∀ line ∈ (scriptFunctions exports).flatMap Prod.snd,
      '\n' ∉ line.text.toList := by
    intro line member
    obtain ⟨function, among, inside⟩ := List.mem_flatMap.mp member
    obtain ⟨⟨name, root⟩, exported, rfl⟩ := List.mem_map.mp among
    obtain ⟨exported, noPage⟩ := List.mem_filter.mp exported
    exact functionLines_no_end (plain name root exported)
      (each name root exported (by simpa using noPage)) line inside
  have lines := splitLines_renderLines whole []
  rwa [List.append_nil, splitLines, List.append_nil, ← text] at lines

/-- The functions in the lines of a script are those of the exports that are no pages, in order. -/
theorem filterMap_functionName? (plain : ∀ name root, (name, root) ∈ exports → '(' ∉ name.toList) :
    (((scriptFunctions exports).flatMap Prod.snd).map Line.chars).filterMap functionName? =
      (exports.filter fun entry => entry.2.kind ≠ "page").map Prod.fst := by
  have names : ∀ entry ∈ exports.filter (fun entry => entry.2.kind ≠ "page"),
      (functionLines entry.1 entry.2).filterMap (functionName? ∘ Line.chars) = [entry.1] := by
    intro entry member
    exact functionLines_name (plain entry.1 entry.2 (List.mem_filter.mp member).1) entry.2
  rw [List.filterMap_map, scriptFunctions, List.flatMap_map, List.filterMap_flatMap,
    List.flatMap_congr names, ← List.map_eq_flatMap]

end Pagewright
