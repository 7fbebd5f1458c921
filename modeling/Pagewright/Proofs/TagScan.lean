import Pagewright.Proofs.MarkupReading

/-!
# Scanning a document for tags

A document is scanned without regard to how it was written. A tag goes from a `<`
to the next `>`. In it stand a name and attributes, with values between double
quotes or without values; a slash in front of the name closes an element.

`Scans` says which tags a piece of text gives whatever comes after it. It holds of
text without `<`, of start tags and of end tags, and it is kept when pieces are put
together, so markup gives the tags of its elements in document order.
-/

namespace Pagewright

variable {text chars : List Char} {tag : String} {attributes : List Attribute} {lines : List Line}

inductive Tag where
  | opening (name : String) (attributes : List Attribute)
  | closing (name : String)
  deriving DecidableEq, Repr

variable {others : List Tag}

/-! ### Scanning -/

/-- What stands between a `<` and the next `>`, in order, each with the text that follows it. The
first argument is what has been read of a tag. A tag that does not end counts as well. -/
def rawTags : Option (List Char) → List Char → List (List Char × List Char)
  | none, [] => []
  | some read, [] => [(read, [])]
  | none, c :: rest => rawTags (if c = '<' then some [] else none) rest
  | some read, c :: rest =>
    if c = '>' then (read, rest) :: rawTags none rest else rawTags (some (read ++ [c])) rest

/-- Where a reader of attributes stands, and what it has read there. -/
inductive AttributePlace where
  | before
  | name (read : List Char)
  | equals (name : List Char)
  | value (name read : List Char)

/-- The attributes in a tag, if it has no other text behind its name. -/
def attributeList? : AttributePlace → List Char → Option (List Attribute)
  | .before, [] => some []
  | .before, c :: rest => if c = ' ' then attributeList? (.name []) rest else none
  | .name read, [] => some [⟨String.ofList read, none⟩]
  | .name read, c :: rest =>
    if c = ' ' then (attributeList? (.name []) rest).map (⟨String.ofList read, none⟩ :: ·)
    else if c = '=' then attributeList? (.equals read) rest
    else attributeList? (.name (read ++ [c])) rest
  | .equals _, [] => none
  | .equals name, c :: rest => if c = '"' then attributeList? (.value name []) rest else none
  | .value _ _, [] => none
  | .value name read, c :: rest =>
    if c = '"' then
      (attributeList? .before rest).map
        (⟨String.ofList name, some (String.ofList (readMarkupText read))⟩ :: ·)
    else attributeList? (.value name (read ++ [c])) rest

def readTag? (text : List Char) : Option Tag :=
  if text.head? = some '/' then some (.closing (String.ofList text.tail))
  else
    (attributeList? .before (text.dropWhile (· ≠ ' '))).map
      (.opening (String.ofList (text.takeWhile (· ≠ ' '))))

/-- The tags of a document in order, if all of them can be read. -/
def scanTags (text : String) : Option (List Tag) :=
  (rawTags none text.toList).mapM fun tag => readTag? tag.1

/-! ### Tags that were written -/

/-- After a name, attributes start as they do after a value. -/
theorem attributeList?_name (start : text = [] ∨ text.head? = some ' ') (read : List Char) :
    attributeList? (.name read) text =
      (attributeList? .before text).map (⟨String.ofList read, none⟩ :: ·) := by
  cases text with
  | nil => rfl
  | cons c rest =>
    obtain rfl : c = ' ' := by simpa using start
    simp [attributeList?]

private theorem attributeList?_name_append (plain : ∀ c ∈ chars, c ∉ [' ', '>', '"', '=', '/'])
    (read rest : List Char) :
    attributeList? (.name read) (chars ++ rest) = attributeList? (.name (read ++ chars)) rest := by
  induction chars generalizing read with
  | nil => simp
  | cons c chars ih =>
    have here := plain c List.mem_cons_self
    simp only [List.mem_cons, List.not_mem_nil, or_false, not_or] at here
    obtain ⟨blank, -, -, equals, -⟩ := here
    rw [List.cons_append, attributeList?, if_neg blank, if_neg equals,
      ih (List.forall_mem_cons.mp plain).2, List.append_assoc]
    rfl

private theorem attributeList?_value (unquoted : '"' ∉ chars) (name read rest : List Char) :
    attributeList? (.value name read) (chars ++ '"' :: rest) =
      (attributeList? .before rest).map
        (⟨String.ofList name, some (String.ofList (readMarkupText (read ++ chars)))⟩ :: ·) := by
  induction chars generalizing read with
  | nil => simp [attributeList?]
  | cons c chars ih =>
    have other : c ≠ '"' := fun same => unquoted (same ▸ List.mem_cons_self)
    rw [List.cons_append, attributeList?, if_neg other,
      ih fun member => unquoted (List.mem_cons_of_mem _ member), List.append_assoc]
    rfl

private theorem flatMap_render_start (attributes : List Attribute) :
    (attributes.flatMap fun attr => attr.render.toList) = [] ∨
      (attributes.flatMap fun attr => attr.render.toList).head? = some ' ' := by
  cases attributes with
  | nil => exact .inl rfl
  | cons attr later =>
    obtain ⟨chars, start⟩ := attr.render_start
    exact .inr (by simp [start])

/-- The attributes that were written are read back, each value as it was before it was escaped. -/
theorem attributeList?_render (plain : ∀ attr ∈ attributes, PlainName attr.name) :
    attributeList? .before (attributes.flatMap fun attr => attr.render.toList) =
      some attributes := by
  induction attributes with
  | nil => rfl
  | cons attr later ih =>
    have here := plain attr List.mem_cons_self
    have after := ih (List.forall_mem_cons.mp plain).2
    obtain ⟨name, value⟩ := attr
    have blank (chars : List Char) :
        attributeList? .before (' ' :: chars) = attributeList? (.name []) chars := by
      simp [attributeList?]
    rw [List.flatMap_cons]
    cases value with
    | none =>
      rw [Attribute.render_none, List.cons_append, blank, attributeList?_name_append here,
        attributeList?_name (flatMap_render_start later), after]
      simp
    | some value =>
      have opening (chars : List Char) :
          attributeList? (.name name.toList) ('=' :: '"' :: chars) =
            attributeList? (.value name.toList []) chars := by
        simp [attributeList?]
      simp only [Attribute.render_some, List.cons_append, List.append_assoc, List.nil_append]
      rw [blank, attributeList?_name_append here, List.nil_append, opening,
        attributeList?_value (not_mem_escapeMarkup value (by decide)), List.nil_append,
        readMarkupText_escapeMarkup, after]
      simp

private theorem readTag?_opening (plain : PlainName tag)
    (plains : ∀ attr ∈ attributes, PlainName attr.name) :
    readTag? (tag.toList ++ attributes.flatMap fun attr => attr.render.toList) =
      some (.opening tag attributes) := by
  have attributesRead := attributeList?_render plains
  have start := flatMap_render_start attributes
  generalize (attributes.flatMap fun attr => attr.render.toList) = text at attributesRead start
  have inside : ∀ c ∈ tag.toList, decide (c ≠ ' ') = true := by
    intro c member
    simpa using fun same : c = ' ' => plain c member (by simp [same])
  -- what follows the name is nothing or a blank
  have stops : text.takeWhile (· ≠ ' ') = [] ∧ text.dropWhile (· ≠ ' ') = text := by
    cases text with
    | nil => exact ⟨rfl, rfl⟩
    | cons c rest =>
      obtain rfl : c = ' ' := by simpa using start
      simp
  have opens : (tag.toList ++ text).head? ≠ some '/' := by
    intro slash
    cases letters : tag.toList with
    | nil =>
      rw [letters, List.nil_append] at slash
      rcases start with rfl | blank
      · cases slash
      · simp [blank] at slash
    | cons c more =>
      have first := plain c (letters ▸ List.mem_cons_self)
      simp_all
  rw [readTag?, if_neg opens, List.takeWhile_append_of_pos inside,
    List.dropWhile_append_of_pos inside, stops.1, stops.2, attributesRead]
  simp

/-! ### Pieces of a document -/

/-- Whatever follows the text, it gives these tags before those of what follows. -/
def Scans (text : List Char) (tags : List Tag) : Prop :=
  ∀ rest, ∃ found, found.mapM (fun tag => readTag? tag.1) = some tags ∧
    rawTags none (text ++ rest) = found ++ rawTags none rest

theorem Scans.append {more : List Char} {tags : List Tag} (one : Scans text tags)
    (two : Scans more others) : Scans (text ++ more) (tags ++ others) := by
  intro rest
  obtain ⟨found, read, first⟩ := one (more ++ rest)
  obtain ⟨found', read', second⟩ := two rest
  refine ⟨found ++ found', ?_, ?_⟩
  · simp [List.mapM_append, read, read']
  · rw [List.append_assoc, first, second, List.append_assoc]

/-- No tag starts in text without `<`. -/
theorem scans_plain (plain : '<' ∉ text) : Scans text [] := by
  intro rest
  refine ⟨[], rfl, ?_⟩
  induction text with
  | nil => rfl
  | cons c text ih =>
    have other : c ≠ '<' := fun same => plain (same ▸ List.mem_cons_self)
    rw [List.cons_append, rawTags, if_neg other,
      ih fun member => plain (List.mem_cons_of_mem _ member)]

theorem rawTags_tag (whole : '>' ∉ text) (rest : List Char) :
    rawTags none ('<' :: (text ++ '>' :: rest)) = (text, rest) :: rawTags none rest := by
  have inside : ∀ read, rawTags (some read) (text ++ '>' :: rest) =
      (read ++ text, rest) :: rawTags none rest := by
    induction text with
    | nil => simp [rawTags]
    | cons c text ih =>
      intro read
      have other : c ≠ '>' := fun same => whole (same ▸ List.mem_cons_self)
      rw [List.cons_append, rawTags, if_neg other,
        ih fun member => whole (List.mem_cons_of_mem _ member), List.append_assoc]
      rfl
  rw [rawTags, if_pos rfl, inside, List.nil_append]

/-- A tag is scanned whatever comes after it. -/
theorem scans_tag {tag : Tag} (whole : '>' ∉ text) (read : readTag? text = some tag) :
    Scans ('<' :: (text ++ ['>'])) [tag] := by
  intro rest
  refine ⟨[(text, rest)], by simp [read], ?_⟩
  have joined : '<' :: (text ++ ['>']) ++ rest = '<' :: (text ++ '>' :: rest) := by simp
  rw [joined, rawTags_tag whole]
  rfl

private theorem Attribute.render_whole {attr : Attribute} (plain : PlainName attr.name) :
    '>' ∉ attr.render.toList := by
  have name : '>' ∉ attr.name.toList := fun member => plain _ member (by simp)
  obtain ⟨_, value⟩ := attr
  cases value with
  | none => simpa [Attribute.render_none] using name
  | some value =>
    have escaped := not_mem_escapeMarkup value (c := '>') (by decide)
    simpa [Attribute.render_some, escaped] using name

theorem scans_startTag (plain : PlainName tag) (plains : ∀ attr ∈ attributes, PlainName attr.name) :
    Scans (startTag tag attributes).toList [.opening tag attributes] := by
  have whole : '>' ∉ tag.toList ++ attributes.flatMap fun attr => attr.render.toList := by
    intro member
    rcases List.mem_append.mp member with inName | inAttributes
    · exact plain _ inName (by simp)
    · obtain ⟨attr, among, inside⟩ := List.mem_flatMap.mp inAttributes
      exact Attribute.render_whole (plains attr among) inside
  rw [startTag_toList, ← List.append_assoc]
  exact scans_tag whole (readTag?_opening plain plains)

private theorem scans_endTag (plain : PlainName tag) :
    Scans (endTag tag).toList [.closing tag] := by
  have text : (endTag tag).toList = '<' :: (('/' :: tag.toList) ++ ['>']) := by simp [endTag]
  have whole : '>' ∉ '/' :: tag.toList := by
    simpa using fun member => plain _ member (by simp)
  rw [text]
  exact scans_tag whole (by simp [readTag?])

private theorem scans_text (text : String) : Scans (escapeMarkup text).toList [] :=
  scans_plain (not_mem_escapeMarkup text (by decide))

/-! ### Lines -/

/-- The lines, as they are written, give these tags. -/
def ScansLines (lines : List Line) (tags : List Tag) : Prop :=
  Scans (renderLines lines).toList tags

private theorem scansLines_nil : ScansLines [] [] :=
  scans_plain (List.not_mem_nil (a := '<'))

theorem ScansLines.append {more : List Line} {tags : List Tag} (one : ScansLines lines tags)
    (two : ScansLines more others) : ScansLines (lines ++ more) (tags ++ others) := by
  rw [ScansLines, renderLines_append, String.toList_append]
  exact Scans.append one two

/-- A line gives the tags of its text. -/
theorem Scans.line {text : String} {tags : List Tag} (scans : Scans text.toList tags)
    (depth : Nat) : ScansLines [⟨depth, text⟩] tags := by
  have written : (renderLines [⟨depth, text⟩]).toList =
      List.replicate (4 * depth) ' ' ++ (text.toList ++ ['\n']) := by
    simp [renderLines, Line.render]
  have indent : Scans (List.replicate (4 * depth) ' ') [] := scans_plain (by simp)
  have ending : Scans ['\n'] [] := scans_plain (by simp)
  rw [ScansLines, written]
  simpa using indent.append (scans.append ending)

theorem scansLines_plain (plain : ∀ line ∈ lines, '<' ∉ line.text.toList) :
    ScansLines lines [] := by
  induction lines with
  | nil => exact scansLines_nil
  | cons line rest ih =>
    obtain ⟨first, others⟩ := List.forall_mem_cons.mp plain
    exact ((scans_plain first).line line.depth).append (ih others)

/-! ### Markup -/

namespace Markup

mutual

def tags : Markup → List Tag
  | .element tag attributes children =>
    .opening tag attributes :: (tagsOf children ++ [.closing tag])
  | .inline tag attributes _ => [.opening tag attributes, .closing tag]
  | .void tag attributes => [.opening tag attributes]
  | .text _ => []

def tagsOf : List Markup → List Tag
  | [] => []
  | markup :: rest => tags markup ++ tagsOf rest

end

theorem tagsOf_append (first second : List Markup) :
    tagsOf (first ++ second) = tagsOf first ++ tagsOf second := by
  induction first with
  | nil => rfl
  | cons markup rest ih => rw [List.cons_append, tagsOf, tagsOf, ih, List.append_assoc]

mutual

/-- The lines of markup give its tags, whatever its texts and values are. -/
theorem scansLines_lines (depth : Nat) :
    ∀ {markup : Markup}, markup.Plain → ScansLines (markup.lines depth) markup.tags
  | .element tag attributes children, ⟨plain, plains, inside⟩ => by
    have start := (scans_startTag plain plains).line depth
    have content := scansLines_linesOf (depth + 1) inside
    have finish := (scans_endTag plain).line depth
    exact start.append (content.append finish)
  | .inline tag attributes content, ⟨plain, plains⟩ => by
    have pieces := ((scans_startTag plain plains).append (scans_text content)).append
      (scans_endTag plain)
    rw [← String.toList_append, ← String.toList_append] at pieces
    exact pieces.line depth
  | .void tag attributes, ⟨plain, plains⟩ => (scans_startTag plain plains).line depth
  | .text value, _ => (scans_text value).line depth

theorem scansLines_linesOf (depth : Nat) :
    ∀ {children : List Markup}, PlainAll children →
      ScansLines (linesOf depth children) (tagsOf children)
  | [], _ => scansLines_nil
  | _ :: _, ⟨plain, later⟩ =>
    (scansLines_lines depth plain).append (scansLines_linesOf depth later)

end

mutual

/-- Only an element has a tag that opens one. -/
theorem mem_elements_of_tags {tag : String} {attributes : List Attribute} :
    ∀ {markup : Markup}, .opening tag attributes ∈ markup.tags →
      elementOf tag attributes ∈ markup.elements
  | .element _ _ children, member => by
    rcases List.mem_cons.mp member with same | inside
    · cases same
      exact List.mem_cons_self
    · have among : Tag.opening tag attributes ∈ tagsOf children := by simpa using inside
      exact List.mem_cons_of_mem _ (mem_elementsOf_of_tagsOf among)
  | .inline _ _ _, member | .void _ _, member => by
    obtain ⟨rfl, rfl⟩ : tag = _ ∧ attributes = _ := by simpa [tags] using member
    exact List.mem_cons_self

theorem mem_elementsOf_of_tagsOf {tag : String} {attributes : List Attribute} :
    ∀ {children : List Markup}, .opening tag attributes ∈ tagsOf children →
      elementOf tag attributes ∈ elementsOf children
  | _ :: _, member => by
    rcases List.mem_append.mp member with first | later
    · exact List.mem_append_left _ (mem_elements_of_tags first)
    · exact List.mem_append_right _ (mem_elementsOf_of_tagsOf later)

end

end Markup

end Pagewright
