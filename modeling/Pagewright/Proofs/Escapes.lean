import Mathlib.Data.List.Basic
import Pagewright.Json.Reader
import Pagewright.Text.Escape

/-!
# What escaped text looks like

Escaped text is a row of pieces, one for each character: an escape, or the
character itself. A character that is never left as it is stands only inside
escapes (`WrittenBy.place`), and these are a few fixed texts, so that a look at
them says where such characters are. Both ways of escaping can be read back, so
no two texts are escaped alike.
-/

namespace Pagewright

variable {c : Char} {before after chars : List Char} {text : String}

/-! ### Pieces -/

/-- A character becomes one of the escapes, or it is left as it is, unless it is special. -/
def WrittenBy (piece : Char → List Char) (escapes : List String) (specials : List Char) : Prop :=
  ∀ c, (∃ escape ∈ escapes, piece c = escape.toList) ∨ piece c = [c] ∧ c ∉ specials

def markupEntities : List String :=
  ["&amp;", "&lt;", "&gt;", "&quot;", "&#39;"]

def scriptEscapes : List String :=
  ["\\\\", "\\\"", "\\n", "\\r", "\\t", "\\u003c", "\\u2028", "\\u2029"]

def markupSpecials : List Char :=
  ['"', '<', '>', '\x27']

/-- What does not stand in the literals of a script: the start of a tag, tabs and the ends of
lines. -/
def scriptSpecials : List Char :=
  ['<', '\n', '\r', '\t', '\u2028', '\u2029']

private theorem markupChar_writtenBy :
    WrittenBy markupChar markupEntities ('&' :: markupSpecials) := by
  intro c
  unfold markupChar
  split_ifs with ampersand less greater quote apostrophe
  case neg => exact .inr ⟨rfl, by simp [markupSpecials, *]⟩
  all_goals exact .inl (by decide)

private theorem scriptChar_writtenBy :
    WrittenBy scriptChar scriptEscapes ('\\' :: '"' :: scriptSpecials) := by
  intro c
  unfold scriptChar
  split_ifs with backslash quote newline return' tab angle line paragraph
  case neg => exact .inr ⟨rfl, by simp [scriptSpecials, *]⟩
  all_goals exact .inl (by decide)

/-- A character of a row of pieces stands in one of them. -/
theorem flatMap_eq_append_cons {piece : Char → List Char}
    (row : chars.flatMap piece = before ++ c :: after) :
    ∃ front origin back start rest, chars = front ++ origin :: back ∧
      piece origin = start ++ c :: rest ∧ before = front.flatMap piece ++ start ∧
      after = rest ++ back.flatMap piece := by
  induction chars generalizing before with
  | nil => simp at row
  | cons first chars ih =>
    rw [List.flatMap_cons] at row
    rcases List.append_eq_append_iff.mp row with ⟨middle, rfl, later⟩ | ⟨middle, here, later⟩
    · obtain ⟨front, origin, back, start, rest, rfl, written, rfl, rfl⟩ := ih later
      exact ⟨first :: front, origin, back, start, rest, rfl, written, by simp, rfl⟩
    · cases middle with
      | nil =>
        have next : chars.flatMap piece = [] ++ c :: after := later.symm
        obtain ⟨front, origin, back, start, rest, rfl, written, place, rfl⟩ := ih next
        refine ⟨first :: front, origin, back, start, rest, rfl, written, ?_, rfl⟩
        rw [List.flatMap_cons, List.append_assoc, ← place, here, List.append_nil, List.append_nil]
      | cons head rest =>
        obtain ⟨rfl, rfl⟩ := List.cons.inj later
        exact ⟨[], first, chars, before, rest, rfl, here, rfl, rfl⟩

section

variable {piece : Char → List Char} {escapes : List String} {specials : List Char}

/-- A special character stands in an escape, behind pieces of the characters before. -/
theorem WrittenBy.place (writes : WrittenBy piece escapes specials) (special : c ∈ specials)
    (row : chars.flatMap piece = before ++ c :: after) :
    ∃ front : List Char, ∃ escape ∈ escapes, ∃ start rest tail, escape.toList = start ++ c :: rest ∧
      before = front.flatMap piece ++ start ∧ after = rest ++ tail := by
  obtain ⟨front, origin, back, start, rest, -, written, place, behind⟩ :=
    flatMap_eq_append_cons row
  rcases writes origin with ⟨escape, among, whole⟩ | ⟨whole, plain⟩
  · exact ⟨front, escape, among, start, rest, _, whole ▸ written, place, behind⟩
  · have itself : c ∈ [origin] := by
      rw [← whole, written]
      simp
    exact absurd (List.mem_singleton.mp itself ▸ special) plain

/-- Special characters that are in no escape are nowhere. -/
theorem WrittenBy.not_mem {others : List Char} (writes : WrittenBy piece escapes specials)
    (absent : ∀ escape ∈ escapes, escape.toList.all (· ∉ others)) (some : others ⊆ specials)
    (other : c ∈ others) (chars : List Char) : c ∉ chars.flatMap piece := by
  intro member
  obtain ⟨before, after, row⟩ := List.append_of_mem member
  obtain ⟨front, escape, among, start, rest, tail, whole, -, -⟩ := writes.place (some other) row
  have apart := List.all_eq_true.mp (absent escape among) c (by rw [whole]; simp)
  exact of_decide_eq_true apart other

end

/-- No quote and no angle bracket survives the escaping of markup. -/
theorem not_mem_escapeMarkup (text : String) (special : c ∈ markupSpecials) :
    c ∉ (escapeMarkup text).toList := by
  rw [escapeMarkup, String.toList_ofList]
  exact markupChar_writtenBy.not_mem (by decide) (List.subset_cons_self _ _) special _

/-- A literal holds no start of a tag, no tab and no end of a line. -/
theorem not_mem_escapeScript (text : String) (special : c ∈ scriptSpecials) :
    c ∉ (escapeScript text).toList := by
  rw [escapeScript, String.toList_ofList]
  exact scriptChar_writtenBy.not_mem (by decide)
    (List.Subset.trans (List.subset_cons_self _ _) (List.subset_cons_self _ _)) special _

/-! ### Where escapes stand -/

/-- What stands before a character of a text, if this is known for every place where the character
is. -/
theorem before_of_places (property : List Char → Prop) {text start rest : List Char}
    (places : ∀ place < text.length, text[place]? = some c → property (text.take place))
    (split : text = start ++ c :: rest) : property start := by
  have here := places start.length (by simp [split]) (by simp [split])
  rwa [split, List.take_left] at here

/-- An ampersand in escaped markup starts an entity. -/
theorem exists_entity_of_ampersand (written : (escapeMarkup text).toList = before ++ '&' :: after) :
    ∃ entity ∈ markupEntities, entity.toList <+: '&' :: after := by
  have first : ∀ entity ∈ markupEntities, ∀ place < entity.toList.length,
      entity.toList[place]? = some '&' → entity.toList.take place = [] := by decide
  rw [escapeMarkup, String.toList_ofList] at written
  obtain ⟨front, entity, among, start, rest, tail, whole, -, rfl⟩ :=
    markupChar_writtenBy.place List.mem_cons_self written
  obtain rfl : start = [] := before_of_places (· = []) (first entity among) whole
  refine ⟨entity, among, ?_⟩
  rw [whole]
  exact List.prefix_append _ _

/-- Reading from the left, the character that follows is escaped: the last one is a backslash that
is not escaped itself. -/
def endsEscaping (before : List Char) : Bool :=
  before.foldl (fun escaped c => !escaped && c = '\\') false

private theorem endsEscaping_append (complete : endsEscaping before = false) (after : List Char) :
    endsEscaping (before ++ after) = endsEscaping after := by
  unfold endsEscaping at complete ⊢
  rw [List.foldl_append, complete]

/-- Escapes are complete where the next piece starts. -/
theorem endsEscaping_pieces (chars : List Char) :
    endsEscaping (chars.flatMap scriptChar) = false := by
  have complete : ∀ escape ∈ scriptEscapes, endsEscaping escape.toList = false := by decide
  induction chars with
  | nil => rfl
  | cons c chars ih =>
    rw [List.flatMap_cons, endsEscaping_append ?_, ih]
    rcases scriptChar_writtenBy c with ⟨escape, among, whole⟩ | ⟨whole, plain⟩
    · rw [whole, complete escape among]
    · rw [whole]
      have other : c ≠ '\\' := fun same => plain (same ▸ List.mem_cons_self)
      simp [endsEscaping, other]

/-- A quote in a literal is escaped. -/
theorem endsEscaping_of_quote (written : (escapeScript text).toList = before ++ '"' :: after) :
    endsEscaping before = true := by
  have escaped : ∀ escape ∈ scriptEscapes, ∀ place < escape.toList.length,
      escape.toList[place]? = some '"' → endsEscaping (escape.toList.take place) = true := by decide
  rw [escapeScript, String.toList_ofList] at written
  obtain ⟨front, escape, among, start, rest, tail, whole, rfl, -⟩ :=
    scriptChar_writtenBy.place (List.mem_cons_of_mem _ List.mem_cons_self) written
  rw [endsEscaping_append (endsEscaping_pieces front)]
  exact before_of_places (endsEscaping · = true) (escaped escape among) whole

/-- A backslash in a literal starts an escape, unless it is escaped itself. -/
theorem exists_escape_of_backslash
    (written : (escapeScript text).toList = before ++ '\\' :: after)
    (unescaped : endsEscaping before = false) :
    ∃ escape ∈ scriptEscapes, escape.toList <+: '\\' :: after := by
  have first : ∀ escape ∈ scriptEscapes, ∀ place < escape.toList.length,
      escape.toList[place]? = some '\\' → endsEscaping (escape.toList.take place) = false →
        escape.toList.take place = [] := by decide
  rw [escapeScript, String.toList_ofList] at written
  obtain ⟨front, escape, among, start, rest, tail, whole, rfl, rfl⟩ :=
    scriptChar_writtenBy.place List.mem_cons_self written
  rw [endsEscaping_append (endsEscaping_pieces front)] at unescaped
  obtain rfl : start = [] :=
    before_of_places (fun start => endsEscaping start = false → start = []) (first escape among)
      whole unescaped
  refine ⟨escape, among, ?_⟩
  rw [whole]
  exact List.prefix_append _ _

/-! ### Reading markup -/

def readMarkupText : List Char → List Char
  | [] => []
  | '&' :: 'a' :: 'm' :: 'p' :: ';' :: rest => '&' :: readMarkupText rest
  | '&' :: 'l' :: 't' :: ';' :: rest => '<' :: readMarkupText rest
  | '&' :: 'g' :: 't' :: ';' :: rest => '>' :: readMarkupText rest
  | '&' :: 'q' :: 'u' :: 'o' :: 't' :: ';' :: rest => '"' :: readMarkupText rest
  | '&' :: '#' :: '3' :: '9' :: ';' :: rest => '\x27' :: readMarkupText rest
  | c :: rest => c :: readMarkupText rest

private theorem readMarkupText_markupChar (c : Char) (rest : List Char) :
    readMarkupText (markupChar c ++ rest) = c :: readMarkupText rest := by
  unfold markupChar
  split_ifs with ampersand less greater quote apostrophe
  · subst ampersand
    rfl
  · subst less
    rfl
  · subst greater
    rfl
  · subst quote
    rfl
  · subst apostrophe
    rfl
  · simp [readMarkupText, ampersand]

/-- Escaped markup is read as the text. -/
theorem readMarkupText_escapeMarkup (text : String) :
    readMarkupText (escapeMarkup text).toList = text.toList := by
  unfold escapeMarkup
  rw [String.toList_ofList]
  induction text.toList with
  | nil => rfl
  | cons c chars ih => rw [List.flatMap_cons, readMarkupText_markupChar, ih]

private theorem escapeMarkup_injective : Function.Injective escapeMarkup := by
  intro text other same
  apply String.toList_inj.mp
  rw [← readMarkupText_escapeMarkup, same, readMarkupText_escapeMarkup]

/-! ### Reading literals of scripts -/

/-- What ends a line, which a literal may not do. -/
def scriptLineEnds : List Char :=
  ['\n', '\r', '\u2028', '\u2029']

/-- The character that is meant by a backslash and the character behind it; none if more belongs to
the escape, or if the line goes on behind its end. -/
def escapeMeaning? (c : Char) : Option Char :=
  if c = 'n' then some '\n'
  else if c = 'r' then some '\r'
  else if c = 't' then some '\t'
  else if c = 'b' then some (Char.ofNat 8)
  else if c = 'v' then some (Char.ofNat 11)
  else if c = 'f' then some (Char.ofNat 12)
  else if c = 'u' ∨ c = 'x' ∨ c.isDigit ∨ c ∈ scriptLineEnds then none
  else some c

/-- The character that four hexadecimal digits name, unless they name half of a surrogate pair. -/
def namedChar? (a b c d : Char) : Option Char :=
  (Json.hexCode? a b c d).bind fun code =>
    if Json.isHighHalf code || Json.isLowHalf code then none else some (Char.ofNat code)

def readBefore (c : Char) (read : Option (List Char × List Char)) :
    Option (List Char × List Char) :=
  read.map fun (text, after) => (c :: text, after)

/-- The text of a double-quoted literal behind its opening quote, and what follows its closing
quote. Of the escapes by number, only those of four digits are read. -/
def scriptLiteral? : List Char → Option (List Char × List Char)
  | [] => none
  | '"' :: rest => some ([], rest)
  | '\\' :: 'u' :: a :: b :: c :: d :: rest =>
    (namedChar? a b c d).bind fun c => readBefore c (scriptLiteral? rest)
  | '\\' :: c :: rest => (escapeMeaning? c).bind fun c => readBefore c (scriptLiteral? rest)
  | c :: rest => if c ∈ scriptLineEnds then none else readBefore c (scriptLiteral? rest)

private theorem scriptLiteral?_scriptChar (c : Char) (rest : List Char) :
    scriptLiteral? (scriptChar c ++ rest) = readBefore c (scriptLiteral? rest) := by
  unfold scriptChar
  split_ifs with backslash quote newline return' tab angle line paragraph
  · subst backslash
    rfl
  · subst quote
    rfl
  · subst newline
    rfl
  · subst return'
    rfl
  · subst tab
    rfl
  · subst angle
    rfl
  · subst line
    rfl
  · subst paragraph
    rfl
  · simp [scriptLiteral?, scriptLineEnds, *]

/-- A literal ends at the quote behind the escaped text, and reads as the text. -/
theorem scriptLiteral?_escapeScript (text : String) (rest : List Char) :
    scriptLiteral? ((escapeScript text).toList ++ '"' :: rest) = some (text.toList, rest) := by
  unfold escapeScript
  rw [String.toList_ofList]
  induction text.toList with
  | nil => rfl
  | cons c chars ih =>
    rw [List.flatMap_cons, List.append_assoc, scriptLiteral?_scriptChar, ih]
    rfl

private theorem escapeScript_injective : Function.Injective escapeScript := by
  intro text other same
  have read := scriptLiteral?_escapeScript text []
  rw [same, scriptLiteral?_escapeScript] at read
  exact (String.toList_inj.mp (Prod.mk.inj (Option.some.inj read)).1).symm

/-! ### Both -/

/-- Escaped markup has neither quotes nor tags in it, its ampersands start entities, and with the
entities replaced it is the text again. A literal of a script holds no start of a tag, no tab and no
end of a line; its quotes are escaped, its backslashes start escapes unless they are escaped
themselves, and it is read as the text, up to the quote that is written behind it. No other text is
escaped in the same way. -/
theorem escapes_safe (text : String) :
    ((∀ c ∈ markupSpecials, c ∉ (escapeMarkup text).toList) ∧
      (∀ before after, (escapeMarkup text).toList = before ++ '&' :: after →
        ∃ entity ∈ markupEntities, entity.toList <+: '&' :: after) ∧
      readMarkupText (escapeMarkup text).toList = text.toList ∧
      ∀ other, escapeMarkup other = escapeMarkup text → other = text) ∧
    ((∀ c ∈ scriptSpecials, c ∉ (escapeScript text).toList) ∧
      (∀ before after, (escapeScript text).toList = before ++ '"' :: after →
        endsEscaping before = true) ∧
      (∀ before after, (escapeScript text).toList = before ++ '\\' :: after →
        endsEscaping before = false →
          ∃ escape ∈ scriptEscapes, escape.toList <+: '\\' :: after) ∧
      (∀ rest, scriptLiteral? ((escapeScript text).toList ++ '"' :: rest) =
        some (text.toList, rest)) ∧
      ∀ other, escapeScript other = escapeScript text → other = text) := by
  refine ⟨⟨?_, ?_, readMarkupText_escapeMarkup text, ?_⟩,
    ⟨?_, ?_, ?_, scriptLiteral?_escapeScript text, ?_⟩⟩
  · exact fun c special => not_mem_escapeMarkup text special
  · exact fun before after written => exists_entity_of_ampersand written
  · exact fun other same => escapeMarkup_injective same
  · exact fun c special => not_mem_escapeScript text special
  · exact fun before after written => endsEscaping_of_quote written
  · exact fun before after written unescaped => exists_escape_of_backslash written unescaped
  · exact fun other same => escapeScript_injective same

/-- Texts that look like what they are escaped to. -/
theorem escapes_safe_lookalikes :
    (∃ entity ∈ markupEntities, entity.toList <+: "&amp;lt;".toList) ∧
      readMarkupText "&amp;lt;".toList = "&lt;".toList ∧
      (∃ escape ∈ scriptEscapes, escape.toList <+: "\\\\\\\"".toList) ∧
      endsEscaping "\\\\\\".toList = true ∧
      scriptLiteral? "\\\\\\\"\"".toList = some ("\\\"".toList, []) := by
  obtain ⟨⟨-, ampersands, decoded, -⟩, -⟩ := escapes_safe "&lt;"
  obtain ⟨-, -, quotes, backslashes, read, -⟩ := escapes_safe "\\\""
  have markup : escapeMarkup "&lt;" = "&amp;lt;" := by decide
  have script : escapeScript "\\\"" = "\\\\\\\"" := by decide
  rw [markup] at ampersands decoded
  rw [script] at quotes backslashes read
  exact ⟨ampersands [] _ rfl, decoded, backslashes [] _ rfl rfl, quotes "\\\\\\".toList [] rfl,
    read []⟩

end Pagewright
