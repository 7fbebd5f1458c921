import Pagewright.Proofs.MarkupReading
import Pagewright.Proofs.Rows
import Pagewright.Render.Page

/-!
# The elements that markup draws

The markup of an expression is made from its kind, from a few of its arguments
and from what stands in one block. `Draws` says which elements it has. Neither
identifiers nor the name that is defined matter, so an instance and its copies
in rows have the same elements.
-/

namespace Pagewright

variable {e : Expression} {stem : String} {elements : List Element} {kind : Kind}
  {children others : List Expression}

/-! ### One step of markup -/

def Expression.inner (e : Expression) : List Expression :=
  ((e.content?.bind e.get?).bind Argument.block?).getD []

/-- A search through arguments for the one that is meant gives what is made of its block; without
such an argument or a block in it, what is made of nothing. -/
theorem search_eq {α : Type} (content : Option String) (search : Arguments → α)
    (all : List Expression → α) (nil : search [] = all [])
    (cons : ∀ name value rest, search ((name, value) :: rest) =
      if content = some name then all (value.block?.getD []) else search rest)
    (arguments : Arguments) :
    search arguments = all
      (((content.bind fun place => arguments.lookup place).bind Argument.block?).getD []) := by
  induction arguments with
  | nil => cases content <;> exact nil
  | cons entry rest ih =>
    obtain ⟨name, value⟩ := entry
    rw [cons]
    by_cases here : content = some name
    · subst here
      simp
    · rw [if_neg here, ih]
      cases content with
      | none => rfl
      | some place =>
        rw [Option.bind_some, Option.bind_some,
          Entries.lookup_cons_of_ne fun same => here (congrArg some same)]

private theorem markupIn_eq (content : Option String) (arguments : Arguments) (stem : String) :
    markupIn content arguments stem = markupAll
      (((content.bind fun place => arguments.lookup place).bind Argument.block?).getD []) stem := by
  refine search_eq content (markupIn content · stem) (markupAll · stem) rfl ?_ arguments
  intro name value rest
  cases value <;> rfl

/-- The markup of an expression in terms of what is read off it. -/
theorem markup_eq (e : Expression) (stem : String) :
    markup e stem =
      match Kind.ofName? e.kind with
      | none | some .page => .error (.internal (.unrenderable e.kind))
      | some .text => .ok (.text ((e.text? "value").getD ""))
      | some .input => .ok (.void "input" (commonAttributes e stem ++ kindAttributes e .input stem))
      | some .option =>
        .ok (.element "option" (commonAttributes e stem ++ kindAttributes e .option stem)
          [.text ((e.text? "text").getD "")])
      | some kind => do
        let children ← markupAll e.inner (innerStem e stem)
        return .element e.tag (commonAttributes e stem ++ kindAttributes e kind stem) children := by
  obtain ⟨id, parent, kind, arguments⟩ := e
  rw [markup]
  simp only [markupIn_eq, Expression.inner]
  rfl

section

variable {first second : Expression}

/-- Markup looks at the kind, at a few arguments and at what stands inside the element. -/
theorem markup_congr (kinds : first.kind = second.kind)
    (text : ∀ name, name ≠ "defines" → first.text? name = second.text? name)
    (number : ∀ name, name ≠ "defines" → first.number? name = second.number? name)
    (texts : ∀ name, name ≠ "defines" → first.texts name = second.texts name)
    (inner : ∀ stem, markupAll first.inner stem = markupAll second.inner stem) (stem : String) :
    markup first stem = markup second stem := by
  have common : commonAttributes first stem = commonAttributes second stem := by
    simp [commonAttributes, Expression.scopedId?, Expression.classes, Expression.style?, text, texts]
  have input : first.inputAttributes = second.inputAttributes := by
    simp [Expression.inputAttributes, text, number]
  have particular : ∀ kind, kindAttributes first kind stem = kindAttributes second kind stem := by
    intro kind
    cases kind <;> simp [kindAttributes, text, input]
  have stems : innerStem first stem = innerStem second stem := by
    simp [innerStem, Expression.scopedId?, text]
  have tags : first.tag = second.tag := by simp [Expression.tag, kinds]
  rw [markup_eq, markup_eq, kinds, common, inner, stems, tags, text "value" (by decide),
    text "text" (by decide)]
  simp only [particular]

private theorem Expression.content?_ne_defines {place : String}
    (content : e.content? = some place) : place ≠ "defines" := by
  rintro rfl
  unfold Expression.content? at content
  split at content <;> simp at content

private theorem markup_unset (e : Expression) (stem : String) :
    markup (e.unset "defines") stem = markup e stem := by
  have kept : ∀ name, name ≠ "defines" → (e.unset "defines").get? name = e.get? name :=
    fun name apart => e.get?_unset_of_ne apart
  have inner : (e.unset "defines").inner = e.inner := by
    unfold Expression.inner
    rw [show (e.unset "defines").content? = e.content? from rfl]
    cases content : e.content? with
    | none => rfl
    | some place => simp [kept place (Expression.content?_ne_defines content)]
  refine markup_congr (show (e.unset "defines").kind = e.kind from rfl) ?_ ?_ ?_ ?_ stem
  · exact fun name apart => by simp [Expression.text?, kept name apart]
  · exact fun name apart => by simp [Expression.number?, kept name apart]
  · exact fun name apart => by simp [Expression.texts, Expression.list?, kept name apart]
  · exact fun stem => by rw [inner]

private theorem SameContent.texts (contents : SameContent first second) (name : String) :
    first.texts name = second.texts name := by
  have same := congrArg (Expression.texts · name) contents.relinked
  simp only [Expression.outline, Expression.renumber_texts] at same
  exact same

private theorem SameContent.inner (contents : SameContent first second) :
    List.Forall₂ SameOutline first.inner second.inner := by
  have content : first.content? = second.content? := by
    simp [Expression.content?, contents.kinds]
  unfold Expression.inner
  rw [content]
  cases second.content? with
  | none => exact .nil
  | some place =>
    cases block : (first.get? place).bind Argument.block? with
    | some children =>
      obtain ⟨value, found, isBlock⟩ := Option.bind_eq_some_iff.mp block
      obtain rfl := Argument.eq_block isBlock
      obtain ⟨others, found', same⟩ := contents.get?_block found
      simpa [found, found', Argument.block?] using same
    | none =>
      cases block' : (second.get? place).bind Argument.block? with
      | none => simp [block, block']
      | some children =>
        obtain ⟨value, found, isBlock⟩ := Option.bind_eq_some_iff.mp block'
        obtain rfl := Argument.eq_block isBlock
        obtain ⟨others, found', -⟩ := contents.symm.get?_block found
        simp [found', Argument.block?] at block

private theorem markupAll_congr (same : List.Forall₂ SameOutline children others)
    (each : ∀ child ∈ children, ∀ other, SameOutline child other →
      markup child stem = markup other stem) : markupAll children stem = markupAll others stem := by
  induction same with
  | nil => rfl
  | @cons child other _ _ outlines _ ih =>
    have later := ih (List.forall_mem_cons.mp each).2
    rw [markupAll, markupAll, each child (by simp) other outlines, later]

theorem Expression.holds_of_inner {child : Expression} (member : child ∈ e.inner) :
    ∃ name, e.content? = some name ∧ e.Holds name child := by
  unfold Expression.inner at member
  cases content : e.content? with
  | none => simp [content] at member
  | some name =>
    refine ⟨name, rfl, Expression.holds_of_block ?_⟩
    simpa [content, Expression.block?] using member

/-- Expressions of one content have one markup. -/
theorem markup_same (contents : SameContent first second) (stem : String) :
    markup first stem = markup second stem := by
  induction first using Expression.inductionOn generalizing second stem with
  | step first ih =>
    refine markup_congr contents.kinds (fun name _ => contents.text? name)
      (fun name _ => contents.number? name) (fun name _ => contents.texts name) (fun stem => ?_) stem
    refine markupAll_congr contents.inner fun child member other outlines => ?_
    obtain ⟨name, -, held⟩ := Expression.holds_of_inner member
    exact ih name child held (SameOutline.content outlines) stem

end

/-! ### Elements -/

def Expression.ownElement (e : Expression) (stem : String) : Element :=
  { tag := e.tag
    id := e.scopedId?.map fun id => id.fullId stem
    target :=
      if e.kind = "label" then (e.text? "for").map fun target => (ScopedId.split target).fullId stem
      else none }

theorem inputAttributes_names (e : Expression) : ∀ attr ∈ e.inputAttributes,
    attr.name ∈ ["type", "min", "max", "value", "checked", "minlength", "maxlength"] := by
  intro attr member
  unfold Expression.inputAttributes at member
  simp only at member
  split_ifs at member
  all_goals
    simp only [List.mem_cons, List.mem_append, Option.mem_toList, Option.map_eq_some_iff,
      List.not_mem_nil, or_false] at member
  · rcases member with rfl | (⟨_, -, rfl⟩ | ⟨_, -, rfl⟩) | ⟨_, -, rfl⟩ <;> simp
  · rcases member with rfl | (⟨_, -, rfl⟩ | ⟨_, -, rfl⟩) | ⟨_, -, rfl⟩ <;> simp
  · rcases member with rfl | rfl <;> simp
  · simp [member]
  · rcases member with rfl | (⟨_, -, rfl⟩ | ⟨_, -, rfl⟩) | ⟨_, -, rfl⟩ <;> simp

private theorem commonAttributes_names (e : Expression) (stem : String) :
    ∀ attr ∈ commonAttributes e stem, attr.name ∈ ["id", "class", "style"] := by
  intro attr member
  simp only [commonAttributes, List.mem_append, Option.mem_toList, Option.map_eq_some_iff] at member
  rcases member with (⟨id, -, rfl⟩ | classes) | ⟨style, -, rfl⟩
  · simp
  · split_ifs at classes
    · simp at classes
    · obtain rfl := List.mem_singleton.mp classes
      simp
  · simp

/-- The attributes of a kind have names of their own; only a label has a target. -/
theorem kindAttributes_names (e : Expression) (kind : Kind) (stem : String) :
    ∀ attr ∈ kindAttributes e kind stem, attr.name ∈ ["type", "min", "max", "value", "checked",
      "minlength", "maxlength"] ∨ kind = .label ∧ attr.name = "for" := by
  intro attr member
  cases kind with
  | input => exact .inl (inputAttributes_names e attr member)
  | option | label =>
    simp only [kindAttributes, Option.mem_toList, Option.map_eq_some_iff] at member
    obtain ⟨_, -, rfl⟩ := member
    simp
  | page | div | form | list | select | text | h1 | p | span | button =>
    simp [kindAttributes] at member

theorem lookup_attributeValues_of_absent {attributes : List Attribute} {name : String}
    (absent : ∀ attr ∈ attributes, attr.name ≠ name) :
    (attributeValues attributes).lookup name = none := by
  rw [List.lookup_eq_none_iff]
  rintro ⟨other, value⟩ member
  obtain ⟨attr, there, given⟩ := List.mem_filterMap.mp member
  obtain ⟨_, -, same⟩ := Option.map_eq_some_iff.mp given
  cases same
  simpa using (absent attr there).symm

private theorem attributeValues_append (first second : List Attribute) :
    attributeValues (first ++ second) = attributeValues first ++ attributeValues second :=
  List.filterMap_append

private theorem elementOf_own (named : Kind.ofName? e.kind = some kind) (stem : String) :
    elementOf e.tag (commonAttributes e stem ++ kindAttributes e kind stem) = e.ownElement stem := by
  have id : (attributeValues (commonAttributes e stem)).lookup "id" =
      e.scopedId?.map fun id => id.fullId stem := by
    unfold commonAttributes
    cases e.scopedId? <;> cases e.style? <;> split_ifs <;> simp [attributeValues]
  have noId : (attributeValues (kindAttributes e kind stem)).lookup "id" = none := by
    refine lookup_attributeValues_of_absent fun attr member same => ?_
    rcases kindAttributes_names e kind stem attr member with known | ⟨-, target⟩
    · simp [same] at known
    · simp [same] at target
  have noTarget : (attributeValues (commonAttributes e stem)).lookup "for" = none := by
    refine lookup_attributeValues_of_absent fun attr member same => ?_
    simpa [same] using commonAttributes_names e stem attr member
  have target : (attributeValues (kindAttributes e kind stem)).lookup "for" =
      (e.ownElement stem).target := by
    by_cases label : kind = .label
    · subst label
      have written : e.kind = "label" := (Kind.name_of_ofName? named).symm
      simp only [kindAttributes, Expression.ownElement, written, if_true]
      cases e.text? "for" <;> simp [attributeValues]
    · have written : e.kind ≠ "label" := fun written => label (Kind.eq_of_ofName? named written)
      simp only [Expression.ownElement, written, if_false]
      refine lookup_attributeValues_of_absent fun attr member same => ?_
      rcases kindAttributes_names e kind stem attr member with known | ⟨isLabel, -⟩
      · simp [same] at known
      · exact label isLabel
  simp [elementOf, attributeValues_append, List.lookup_append, id, noId, noTarget, target,
    Expression.ownElement]

private theorem plain_attributes (e : Expression) (kind : Kind) (stem : String) :
    ∀ attr ∈ commonAttributes e stem ++ kindAttributes e kind stem, PlainName attr.name := by
  have commonPlain : ∀ name ∈ ["id", "class", "style"], PlainName name := by decide
  have kindPlain : ∀ name ∈ ["type", "min", "max", "value", "checked", "minlength", "maxlength"],
      PlainName name := by decide
  intro attr member
  rcases List.mem_append.mp member with common | particular
  · exact commonPlain attr.name (commonAttributes_names e stem attr common)
  · rcases kindAttributes_names e kind stem attr particular with known | ⟨-, target⟩
    · exact kindPlain attr.name known
    · rw [target]
      decide

private theorem plain_tag (named : Kind.ofName? e.kind = some kind) : PlainName e.tag := by
  have written := Kind.name_of_ofName? named
  unfold Expression.tag
  rw [← written]
  cases kind <;> decide

/-- The markup of an expression has these elements, in document order. -/
def Draws (e : Expression) (stem : String) (elements : List Element) : Prop :=
  ∃ made, markup e stem = .ok made ∧ made.Plain ∧ made.elements = elements

def DrawsAll (children : List Expression) (stem : String) (elements : List Element) : Prop :=
  ∃ made, markupAll children stem = .ok made ∧ Markup.PlainAll made ∧
    Markup.elementsOf made = elements

theorem Draws.same {other : Expression} (drawn : Draws e stem elements)
    (contents : SameContent e other) : Draws other stem elements := by
  obtain ⟨made, markedUp, rest⟩ := drawn
  exact ⟨made, (markup_same contents stem).symm.trans markedUp, rest⟩

theorem drawsAll_nil (stem : String) : DrawsAll [] stem [] :=
  ⟨[], rfl, trivial, rfl⟩

theorem DrawsAll.cons {child : Expression} {children : List Expression} {stem : String}
    {elements more : List Element} (first : Draws child stem elements)
    (rest : DrawsAll children stem more) : DrawsAll (child :: children) stem (elements ++ more) := by
  obtain ⟨made, drawn, plain, rfl⟩ := first
  obtain ⟨others, drawnAll, plains, rfl⟩ := rest
  refine ⟨made :: others, ?_, ⟨plain, plains⟩, rfl⟩
  rw [markupAll, drawn, drawnAll]
  rfl

/-- A text draws no element. -/
theorem draws_text (named : Kind.ofName? e.kind = some .text) (stem : String) :
    Draws e stem [] := by
  refine ⟨.text ((e.text? "value").getD ""), ?_, trivial, rfl⟩
  rw [markup_eq, named]

/-- An element is drawn before what stands inside it. -/
theorem draws_element (named : Kind.ofName? e.kind = some kind) (noText : kind ≠ .text)
    (noPage : kind ≠ .page) (inside : DrawsAll e.inner (innerStem e stem) elements) :
    Draws e stem (e.ownElement stem :: elements) := by
  obtain ⟨made, drawn, plain, rfl⟩ := inside
  have plains := plain_attributes e kind stem
  have own := elementOf_own named stem
  have tag := plain_tag named
  have written := Kind.name_of_ofName? named
  -- An input is void and an option holds its text; the others wrap what is drawn inside.
  cases kind with
  | text => exact absurd rfl noText
  | page => exact absurd rfl noPage
  | input =>
    have empty : e.inner = [] := by simp [Expression.inner, Expression.content?, named]
    rw [empty] at drawn
    cases drawn
    have tagged : e.tag = "input" := by simp [Expression.tag, ← written, Kind.name]
    rw [tagged] at own tag
    refine ⟨.void "input" (commonAttributes e stem ++ kindAttributes e .input stem),
      by rw [markup_eq, named], ⟨tag, plains⟩, ?_⟩
    rw [Markup.elements, own]
    rfl
  | option =>
    have empty : e.inner = [] := by simp [Expression.inner, Expression.content?, named]
    rw [empty] at drawn
    cases drawn
    have tagged : e.tag = "option" := by simp [Expression.tag, ← written, Kind.name]
    rw [tagged] at own tag
    refine ⟨.element "option" (commonAttributes e stem ++ kindAttributes e .option stem)
      [.text ((e.text? "text").getD "")], by rw [markup_eq, named],
      ⟨tag, plains, trivial, trivial⟩, ?_⟩
    rw [Markup.elements, own]
    rfl
  | div | form | list | select | label | h1 | p | span | button =>
    refine ⟨.element e.tag (commonAttributes e stem ++ kindAttributes e _ stem) made, ?_,
      ⟨tag, plains, plain⟩, ?_⟩
    · rw [markup_eq, named, drawn]
      rfl
    · rw [Markup.elements, own]

/-! ### Rows -/

theorem ScopedId.split_toString (index : Nat) :
    ScopedId.split (toString index) = ⟨.relative, toString index⟩ := by
  have digits : ∀ c ∈ (toString index).toList, c.isDigit = true := by
    intro c member
    rw [Nat.toString_eq_repr, Nat.toList_repr] at member
    exact Nat.isDigit_of_mem_toDigits (by decide) (by decide) member
  unfold ScopedId.split
  split
  · next rest start => exact absurd (digits '#' (start ▸ List.mem_cons_self)) (by decide)
  · next rest start => exact absurd (digits '$' (start ▸ List.mem_cons_self)) (by decide)
  · rfl

def rowId (list : String) (index : Nat) : String :=
  list ++ "-" ++ toString index

private theorem draws_row {content : Expression} {list : String} {index : Nat}
    (drawn : Draws content (rowId list index) elements) (id owner : ExpressionId) :
    Draws (rowWith id owner index content) list
      (⟨"div", some (rowId list index), none⟩ :: elements) := by
  have row : (rowWith id owner index content).scopedId? = some ⟨.relative, toString index⟩ := by
    rw [← ScopedId.split_toString]
    rfl
  have own : (rowWith id owner index content).ownElement list =
      ⟨"div", some (rowId list index), none⟩ := by
    simp only [Expression.ownElement, row]
    rfl
  have stem : innerStem (rowWith id owner index content) list = rowId list index := by
    simp only [innerStem, row]
    rfl
  have inner : (rowWith id owner index content).inner = [content] := rfl
  have named : Kind.ofName? (rowWith id owner index content).kind = some .div := rfl
  rw [← own]
  refine draws_element named (by decide) (by decide) ?_
  rw [inner, stem]
  simpa using DrawsAll.cons drawn (drawsAll_nil _)

/-- Rows are drawn one after the other, each as the item below the id of the row. -/
theorem draws_rows {item : Expression} (resolved : item.Throughout Expression.IsResolved)
    (tidy : item.Throughout Expression.IsTidy) {elements : String → List Element}
    (drawn : ∀ stem, Draws item stem (elements stem)) (list : String) (owner : ExpressionId)
    (count index : Nat) (supply : Supply) :
    DrawsAll (makeRows item owner count index supply).1 list ((List.range' index count).flatMap
      fun index => ⟨"div", some (rowId list index), none⟩ :: elements (rowId list index)) := by
  induction count generalizing index supply with
  | zero => exact drawsAll_nil list
  | succ count ih =>
    rw [List.range'_succ, List.flatMap_cons]
    refine DrawsAll.cons (draws_row ?_ _ _) (ih (index + 1) _)
    obtain ⟨made, markedUp, rest⟩ := drawn (rowId list index)
    refine ⟨made, ?_, rest⟩
    rw [markup_unset, ← markedUp]
    exact markup_same (Expression.copy_content resolved tidy _ _).symm _

theorem DrawsAll.same (drawn : DrawsAll children stem elements)
    (same : List.Forall₂ SameOutline children others) : DrawsAll others stem elements := by
  obtain ⟨made, markedUp, rest⟩ := drawn
  refine ⟨made, ?_, rest⟩
  rw [← markedUp]
  exact (markupAll_congr same fun child _ other outlines =>
    markup_same (SameOutline.content outlines) stem).symm

end Pagewright
