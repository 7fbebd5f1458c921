import Pagewright.Proofs.Escapes
import Pagewright.Render.Markup

/-!
# Reading markup

An element of a document is known by its tag, its id and what it is a label for.
`readElement` takes these off the text of a line that starts an element. What is
read off the lines of markup are the elements of the markup in document order.
-/

namespace Pagewright

variable {attributes : List Attribute} {chars : List Char}

structure Element where
  tag : String
  id : Option String
  /-- The id of the element that this one is a label for. -/
  target : Option String
  deriving DecidableEq, Repr

/-! ### Start tags -/

/-- Where a reader of a start tag stands, and what it has read there. -/
inductive TagPlace where
  | name (read : List Char)
  | value (name read : List Char)

/-- The attributes of a start tag that have values, up to the end of the tag. -/
def readAttributes : TagPlace → List Char → List (String × String)
  | _, [] => []
  | .name read, c :: rest =>
    if c = '>' then []
    else if c = ' ' then readAttributes (.name []) rest
    else if c = '"' then readAttributes (.value read []) rest
    else if c = '=' then readAttributes (.name read) rest
    else readAttributes (.name (read ++ [c])) rest
  | .value name read, c :: rest =>
    if c = '"' then
      (String.ofList name, String.ofList (readMarkupText read)) :: readAttributes (.name []) rest
    else readAttributes (.value name (read ++ [c])) rest

def endsTagName (c : Char) : Bool :=
  c = ' ' || c = '>'

/-- The element that a line starts, if it starts one. -/
def readElement (text : String) : Option Element :=
  match text.toList with
  | '<' :: rest =>
    if rest.head? = some '/' then none
    else
      let tag := rest.takeWhile (!endsTagName ·)
      let attributes := readAttributes (.name []) (rest.dropWhile (!endsTagName ·))
      some ⟨String.ofList tag, attributes.lookup "id", attributes.lookup "for"⟩
  | _ => none

def readElements (lines : List Line) : List Element :=
  lines.filterMap fun line => readElement line.text

def PlainName (name : String) : Prop :=
  ∀ c ∈ name.toList, c ∉ [' ', '>', '"', '=', '/']

instance (name : String) : Decidable (PlainName name) :=
  List.decidableBAll (· ∉ [' ', '>', '"', '=', '/']) name.toList

def attributeValues (attributes : List Attribute) : List (String × String) :=
  attributes.filterMap fun attr => attr.value.map (attr.name, ·)

private theorem readAttributes_name (plain : ∀ c ∈ chars, c ∉ [' ', '>', '"', '=', '/'])
    (read rest : List Char) :
    readAttributes (.name read) (chars ++ rest) = readAttributes (.name (read ++ chars)) rest := by
  induction chars generalizing read with
  | nil => simp
  | cons c chars ih =>
    have here := plain c (by simp)
    simp only [List.mem_cons, List.not_mem_nil, or_false, not_or] at here
    obtain ⟨blank, greater, quote, equals, -⟩ := here
    rw [List.cons_append, readAttributes, if_neg greater, if_neg blank, if_neg quote, if_neg equals,
      ih (List.forall_mem_cons.mp plain).2, List.append_assoc]
    rfl

private theorem readAttributes_value (unquoted : '"' ∉ chars) (name read rest : List Char) :
    readAttributes (.value name read) (chars ++ '"' :: rest) =
      (String.ofList name, String.ofList (readMarkupText (read ++ chars))) ::
        readAttributes (.name []) rest := by
  induction chars generalizing read with
  | nil => simp [readAttributes]
  | cons c chars ih =>
    have other : c ≠ '"' := fun same => unquoted (by simp [same])
    rw [List.cons_append, readAttributes, if_neg other, ih fun member =>
      unquoted (List.mem_cons_of_mem _ member), List.append_assoc]
    rfl

theorem Attribute.render_none (name : String) :
    (⟨name, none⟩ : Attribute).render.toList = ' ' :: name.toList := by
  simp [Attribute.render]

theorem Attribute.render_some (name value : String) :
    (⟨name, some value⟩ : Attribute).render.toList =
      ' ' :: (name.toList ++ '=' :: '"' :: ((escapeMarkup value).toList ++ ['"'])) := by
  simp [Attribute.render]

/-- The attributes that were written are read back. -/
theorem readAttributes_render (plain : ∀ attr ∈ attributes, PlainName attr.name)
    (read rest : List Char) :
    readAttributes (.name read)
      ((attributes.flatMap fun attr => attr.render.toList) ++ '>' :: rest) =
        attributeValues attributes := by
  induction attributes generalizing read with
  | nil => simp [readAttributes, attributeValues]
  | cons attr later ih =>
    have here := plain attr (by simp)
    have after := ih (List.forall_mem_cons.mp plain).2
    obtain ⟨name, value⟩ := attr
    have blank (chars : List Char) :
        readAttributes (.name read) (' ' :: chars) = readAttributes (.name []) chars := by
      simp [readAttributes]
    rw [List.flatMap_cons, List.append_assoc]
    cases value with
    | none =>
      rw [Attribute.render_none, List.cons_append, blank, readAttributes_name here, after]
      rfl
    | some value =>
      have opening (chars : List Char) : readAttributes (.name name.toList) ('=' :: '"' :: chars) =
          readAttributes (.value name.toList []) chars := by
        simp [readAttributes]
      simp only [Attribute.render_some, List.cons_append, List.append_assoc, List.nil_append]
      rw [blank, readAttributes_name here, List.nil_append, opening,
        readAttributes_value (not_mem_escapeMarkup value (by decide)), List.nil_append,
        readMarkupText_escapeMarkup, after]
      simp [attributeValues]

/-- A blank stands before every attribute. -/
theorem Attribute.render_start (attr : Attribute) : ∃ chars, attr.render.toList = ' ' :: chars := by
  obtain ⟨name, value⟩ := attr
  cases value with
  | none => exact ⟨_, Attribute.render_none name⟩
  | some value => exact ⟨_, Attribute.render_some name value⟩

theorem startTag_toList (tag : String) (attributes : List Attribute) :
    (startTag tag attributes).toList =
      '<' :: (tag.toList ++ ((attributes.flatMap fun attr => attr.render.toList) ++ ['>'])) := by
  have joined : (String.join (attributes.map Attribute.render)).toList =
      attributes.flatMap fun attr => attr.render.toList := by
    induction attributes with
    | nil => rfl
    | cons attr later ih => simp [String.join_cons, ih]
  simp [startTag, joined]

def elementOf (tag : String) (attributes : List Attribute) : Element :=
  ⟨tag, (attributeValues attributes).lookup "id", (attributeValues attributes).lookup "for"⟩

/-- An element is read back from its start tag. -/
theorem readElement_startTag {tag : String} (plain : PlainName tag)
    (plains : ∀ attr ∈ attributes, PlainName attr.name) (rest : String) :
    readElement (startTag tag attributes ++ rest) = some (elementOf tag attributes) := by
  -- What follows the name of the tag ends it.
  have ending : ∃ c chars, (attributes.flatMap fun attr => attr.render.toList) ++ '>' :: rest.toList =
      c :: chars ∧ endsTagName c = true ∧ c ≠ '/' := by
    cases attributes with
    | nil => exact ⟨'>', rest.toList, rfl, rfl, by decide⟩
    | cons attr later =>
      obtain ⟨chars, start⟩ := attr.render_start
      exact ⟨' ', chars ++ _, by rw [List.flatMap_cons, start, List.append_assoc]; rfl, rfl, by decide⟩
  have read := readAttributes_render plains [] rest.toList
  obtain ⟨c, chars, equal, ends, noSlash⟩ := ending
  have text : (startTag tag attributes ++ rest).toList = '<' :: (tag.toList ++ c :: chars) := by
    rw [String.toList_append, startTag_toList, ← equal]
    simp
  rw [equal] at read
  have inside : ∀ d ∈ tag.toList, (!endsTagName d) = true := by
    intro d member
    have := plain d member
    simp_all [endsTagName]
  have opens : (tag.toList ++ c :: chars).head? ≠ some '/' := by
    cases letters : tag.toList with
    | nil => simpa using noSlash
    | cons d more =>
      have := plain d (by simp [letters])
      simp_all
  unfold readElement
  simp only [text, opens, if_false]
  rw [List.takeWhile_append_of_pos inside, List.dropWhile_append_of_pos inside,
    List.takeWhile_cons_of_neg (by simp [ends]), List.dropWhile_cons_of_neg (by simp [ends]), read]
  simp [elementOf]

/-! ### Markup -/

namespace Markup

mutual

def elements : Markup → List Element
  | .element tag attributes children => elementOf tag attributes :: elementsOf children
  | .inline tag attributes _ | .void tag attributes => [elementOf tag attributes]
  | .text _ => []

def elementsOf : List Markup → List Element
  | [] => []
  | markup :: rest => elements markup ++ elementsOf rest

end

mutual

/-- All tags and names of attributes stand in the markup as they are. -/
def Plain : Markup → Prop
  | .element tag attributes children =>
    PlainName tag ∧ (∀ attr ∈ attributes, PlainName attr.name) ∧ PlainAll children
  | .inline tag attributes _ | .void tag attributes =>
    PlainName tag ∧ ∀ attr ∈ attributes, PlainName attr.name
  | .text _ => True

def PlainAll : List Markup → Prop
  | [] => True
  | markup :: rest => Plain markup ∧ PlainAll rest

end

theorem readElements_append (first second : List Line) :
    readElements (first ++ second) = readElements first ++ readElements second :=
  List.filterMap_append

private theorem readElement_text (text : String) : readElement (escapeMarkup text) = none := by
  have unopened := not_mem_escapeMarkup text (c := '<') (by decide)
  unfold readElement
  split
  · simp_all
  · rfl

private theorem readElement_endTag (tag : String) : readElement (endTag tag) = none := by
  have text : (endTag tag).toList = '<' :: '/' :: (tag.toList ++ ['>']) := by simp [endTag]
  simp [readElement, text]

mutual

/-- The elements that are read off the lines of markup are its elements in document order. -/
theorem readElements_lines (depth : Nat) :
    ∀ {markup : Markup}, markup.Plain → readElements (markup.lines depth) = markup.elements
  | .element tag attributes children, ⟨plain, plains, inside⟩ => by
    have start := readElement_startTag plain plains ""
    rw [String.append_empty] at start
    rw [lines, List.cons_append, readElements, List.filterMap_cons, start]
    simp only [elements]
    rw [← readElements, readElements_append, readElements_linesOf (depth + 1) inside]
    simp [readElements, readElement_endTag]
  | .inline tag attributes content, ⟨plain, plains⟩ => by
    have start := readElement_startTag plain plains (escapeMarkup content ++ endTag tag)
    simp [lines, readElements, elements, String.append_assoc, start]
  | .void tag attributes, ⟨plain, plains⟩ => by
    have start := readElement_startTag plain plains ""
    rw [String.append_empty] at start
    simp [lines, readElements, elements, start]
  | .text value, _ => by simp [lines, readElements, elements, readElement_text]

private theorem readElements_linesOf (depth : Nat) :
    ∀ {children : List Markup}, PlainAll children →
      readElements (linesOf depth children) = elementsOf children
  | [], _ => rfl
  | child :: rest, ⟨plain, later⟩ => by
    rw [linesOf, readElements_append, readElements_lines depth plain,
      readElements_linesOf depth later, elementsOf]

end

end Markup

end Pagewright
