import Pagewright.Proofs.Drawing
import Pagewright.Proofs.TagScan

/-!
# The tags that expressions stand for

A table says how the expressions of each kind are written in a document: by which
tag, with which attributes and around what. It reads nothing but their arguments.
`Expression.tags` goes through a tree by this table, and `markup_tags` says that
the markup of the tree has exactly these tags.
-/

namespace Pagewright

open Outcome

/-! ### Attributes from arguments -/

/-- How an attribute takes its value from an argument. -/
inductive AttributeSource where
  /-- The full id that a text is written for. -/
  | id
  /-- The texts of a list, with a text between them. -/
  | joined (separator : String)
  /-- A text, or what stands for it where there is none. -/
  | text (otherwise : Option String)
  | number
  /-- No value at all; the attribute is there if the number is 1. -/
  | flag

structure AttributeRule where
  name : String
  argument : String
  source : AttributeSource

/-- The full id of an id as written: after `#` it belongs to the page, after `$` it is used as it is,
and else it stands below `stem`. -/
def fullIdOf (raw stem : String) : String :=
  match raw.toList with
  | '#' :: rest => "page-" ++ String.ofList rest
  | '$' :: rest => String.ofList rest
  | _ => stem ++ "-" ++ raw

/-- The ids in an element stand below its own id, unless that is used as it is. -/
def stemInside (arguments : Arguments) (stem : String) : String :=
  match arguments.lookup "id" with
  | some (.text raw) => if raw.toList.head? = some '$' then stem else fullIdOf raw stem
  | _ => stem

/-- The value of the attribute, if the element has the attribute. -/
def AttributeSource.read (stem : String) (given : Option Argument) :
    AttributeSource → Option (Option String)
  | .id =>
    match given with
    | some (.text raw) => some (fullIdOf raw stem)
    | _ => none
  | .joined separator =>
    match given with
    | some (.list items) =>
      let texts := items.filterMap Argument.text?
      if texts.isEmpty then none else some (some (separator.intercalate texts))
    | _ => none
  | .text otherwise =>
    match given with
    | some (.text value) => some value
    | _ => otherwise.map some
  | .number =>
    match given with
    | some (.number digits) => (numberValue? digits).map fun value => some (toString value)
    | _ => none
  | .flag =>
    match given with
    | some (.number digits) => if numberValue? digits = some 1 then some none else none
    | _ => none

/-- The attributes that the rules give to an element with these arguments. -/
def attributesBy (rules : List AttributeRule) (arguments : Arguments) (stem : String) :
    List Attribute :=
  rules.filterMap fun rule =>
    (rule.source.read stem (arguments.lookup rule.argument)).map (⟨rule.name, ·⟩)

/-! ### Elements by kind -/

/-- How expressions of a kind are written. -/
structure ElementForm where
  tag : String
  /-- The argument whose block stands in the element. -/
  content : Option String := some "body"
  /-- An end tag follows. -/
  closed : Bool := true
  rules : List AttributeRule := []

def commonRules : List AttributeRule :=
  [⟨"id", "id", .id⟩, ⟨"class", "classes", .joined " "⟩, ⟨"style", "styles", .joined "; "⟩]

/-- The limits and the first value of an input of this type. -/
def inputRules : String → List AttributeRule
  | "number" =>
    [⟨"min", "min", .number⟩, ⟨"max", "max", .number⟩, ⟨"value", "initial", .number⟩]
  | "date" =>
    [⟨"min", "min", .text none⟩, ⟨"max", "max", .text none⟩, ⟨"value", "initial", .text none⟩]
  | "checkbox" => [⟨"checked", "initial", .flag⟩]
  | _ =>
    [⟨"minlength", "min", .number⟩, ⟨"maxlength", "max", .number⟩,
      ⟨"value", "initial", .text none⟩]

def inputType (arguments : Arguments) : String :=
  match arguments.lookup "type" with
  | some (.text type) => type
  | _ => "text"

/-- The form of an expression of this kind, if it becomes an element. -/
def elementForm? (kind : String) (arguments : Arguments) : Option ElementForm :=
  match kind with
  | "div" | "form" | "h1" | "p" | "span" | "button" => some { tag := kind }
  | "list" => some { tag := "div" }
  | "label" => some { tag := "label", rules := [⟨"for", "for", .id⟩] }
  | "select" => some { tag := "select", content := some "options" }
  | "option" =>
    some { tag := "option", content := none, rules := [⟨"value", "value", .text none⟩] }
  | "input" =>
    some
      { tag := "input", content := none, closed := false
        rules := ⟨"type", "type", .text (some "text")⟩ :: inputRules (inputType arguments) }
  | _ => none

mutual

/-- The tags of an element and everything in it, in document order, where `stem` is the full id of
the nearest tracked element around it. -/
def Expression.tags : Expression → String → List Tag
  | ⟨_, _, kind, arguments⟩, stem =>
    (elementForm? kind arguments).elim [] fun form =>
      .opening form.tag (attributesBy (commonRules ++ form.rules) arguments stem) ::
        (tagsIn form.content arguments (stemInside arguments stem) ++
          if form.closed then [.closing form.tag] else [])

def tagsIn (content : Option String) : List (String × Argument) → String → List Tag
  | [], _ => []
  | (name, value) :: rest, stem =>
    if content = some name then value.tags stem else tagsIn content rest stem

def Argument.tags : Argument → String → List Tag
  | .block children, stem => tagsAll children stem
  | _, _ => []

def tagsAll : List Expression → String → List Tag
  | [], _ => []
  | child :: rest, stem => child.tags stem ++ tagsAll rest stem

end

/-! ### Attributes that are written -/

section

variable {e : Expression} {stem argument : String}

private theorem fullIdOf_eq (raw stem : String) :
    fullIdOf raw stem = (ScopedId.split raw).fullId stem := by
  unfold fullIdOf ScopedId.split
  rcases raw.toList with _ | ⟨c, rest⟩
  · rfl
  · by_cases hash : c = '#'
    · subst hash
      rfl
    · by_cases dollar : c = '$'
      · subst dollar
        rfl
      · simp [hash, dollar, ScopedId.fullId]

private theorem stemInside_eq (e : Expression) (stem : String) :
    stemInside e.arguments stem = innerStem e stem := by
  have literal (raw : String) :
      raw.toList.head? = some '$' ↔ (ScopedId.split raw).isTracked = false := by
    unfold ScopedId.split
    rcases raw.toList with _ | ⟨c, rest⟩
    · simp [ScopedId.isTracked]
    · by_cases hash : c = '#'
      · simp [hash, ScopedId.isTracked]
      · by_cases dollar : c = '$' <;> simp [hash, dollar, ScopedId.isTracked]
  unfold stemInside innerStem Expression.scopedId? Expression.text? Expression.get?
  cases e.arguments.lookup "id" with
  | none => rfl
  | some value =>
    cases value with
    | text raw =>
      simp only [Option.bind_some, Argument.text?, Option.map_some, fullIdOf_eq, literal]
      cases (ScopedId.split raw).isTracked <;> rfl
    | atom | number | block | list => rfl

private theorem read_id :
    AttributeSource.id.read stem (e.arguments.lookup argument) =
      (e.text? argument).map fun raw => some ((ScopedId.split raw).fullId stem) := by
  unfold Expression.text? Expression.get?
  rcases e.arguments.lookup argument with _ | _ | _ | _ | _ | _ <;>
    simp [AttributeSource.read, Argument.text?, fullIdOf_eq]

private theorem read_joined (separator : String) :
    (AttributeSource.joined separator).read stem (e.arguments.lookup argument) =
      if (e.texts argument).isEmpty then none
      else some (some (separator.intercalate (e.texts argument))) := by
  unfold Expression.texts Expression.list? Expression.get?
  rcases e.arguments.lookup argument with _ | _ | _ | _ | _ | _ <;> rfl

private theorem read_text (otherwise : Option String) :
    (AttributeSource.text otherwise).read stem (e.arguments.lookup argument) =
      ((e.text? argument).or otherwise).map some := by
  unfold Expression.text? Expression.get?
  rcases e.arguments.lookup argument with _ | _ | _ | _ | _ | _ <;> rfl

private theorem read_number :
    AttributeSource.number.read stem (e.arguments.lookup argument) =
      (e.number? argument).map fun value => some (toString value) := by
  unfold Expression.number? Expression.get?
  rcases e.arguments.lookup argument with _ | _ | _ | _ | _ | _ <;> rfl

private theorem read_flag :
    AttributeSource.flag.read stem (e.arguments.lookup argument) =
      if e.number? argument = some 1 then some none else none := by
  unfold Expression.number? Expression.get?
  rcases e.arguments.lookup argument with _ | _ | _ | _ | _ | _ <;> rfl

private theorem attributesBy_cons (rule : AttributeRule) (rules : List AttributeRule)
    (arguments : Arguments) :
    attributesBy (rule :: rules) arguments stem =
      ((rule.source.read stem (arguments.lookup rule.argument)).map (⟨rule.name, ·⟩)).toList ++
        attributesBy rules arguments stem := by
  rw [attributesBy, List.filterMap_cons]
  cases rule.source.read stem (arguments.lookup rule.argument) <;> rfl

private theorem attributesBy_append (rules others : List AttributeRule) (arguments : Arguments) :
    attributesBy (rules ++ others) arguments stem =
      attributesBy rules arguments stem ++ attributesBy others arguments stem :=
  List.filterMap_append

@[simp] theorem attributesBy_nil (arguments : Arguments) : attributesBy [] arguments stem = [] :=
  rfl

private theorem attributesBy_common (e : Expression) (stem : String) :
    attributesBy commonRules e.arguments stem = commonAttributes e stem := by
  simp only [commonRules, attributesBy_cons, read_id, read_joined, commonAttributes,
    Expression.scopedId?, Expression.classes, Expression.style?]
  by_cases classes : (e.texts "classes").isEmpty = true <;> cases e.texts "styles" <;>
    simp [classes, Function.comp_def]

private theorem inputType_eq (e : Expression) :
    inputType e.arguments = (e.text? "type").getD "text" := by
  unfold inputType Expression.text? Expression.get?
  rcases e.arguments.lookup "type" with _ | _ | _ | _ | _ | _ <;> rfl

private theorem attributesBy_input (e : Expression) (stem : String) :
    attributesBy (⟨"type", "type", .text (some "text")⟩ ::
        inputRules ((e.text? "type").getD "text")) e.arguments stem = e.inputAttributes := by
  have first : (e.text? "type").or (some "text") = some ((e.text? "type").getD "text") := by
    cases e.text? "type" <;> rfl
  rw [attributesBy_cons, read_text, first]
  unfold Expression.inputAttributes inputRules
  generalize (e.text? "type").getD "text" = type
  split
  · simp [attributesBy_cons, read_number, Function.comp_def]
  · simp [attributesBy_cons, read_text, Function.comp_def]
  · by_cases one : e.number? "initial" = some 1 <;> simp [attributesBy_cons, read_flag, one]
  · next noNumber noDate noCheckbox =>
    simp only [if_neg noNumber, if_neg noDate, if_neg noCheckbox]
    simp [attributesBy_cons, read_number, read_text, Function.comp_def]

private theorem elementForm?_foreign {written : String} (foreign : Kind.ofName? written = none)
    (arguments : Arguments) : elementForm? written arguments = none := by
  unfold elementForm?
  split <;> first | rfl | cases foreign

end

private theorem tagsIn_eq (content : Option String) (arguments : Arguments) (stem : String) :
    tagsIn content arguments stem = tagsAll
      (((content.bind fun place => arguments.lookup place).bind Argument.block?).getD []) stem := by
  refine search_eq content (tagsIn content · stem) (tagsAll · stem) rfl ?_ arguments
  intro name value rest
  cases value <;> rfl

/-- The table gives the tags and the attributes that markup is made with. -/
theorem Expression.tags_eq (e : Expression) (stem : String) :
    e.tags stem =
      match Kind.ofName? e.kind with
      | none | some .page | some .text => []
      | some .input => [.opening "input" (commonAttributes e stem ++ kindAttributes e .input stem)]
      | some kind =>
        .opening e.tag (commonAttributes e stem ++ kindAttributes e kind stem) ::
          (tagsAll e.inner (innerStem e stem) ++ [.closing e.tag]) := by
  have byForm : e.tags stem = (elementForm? e.kind e.arguments).elim [] fun form =>
      .opening form.tag (attributesBy (commonRules ++ form.rules) e.arguments stem) ::
        (tagsIn form.content e.arguments (stemInside e.arguments stem) ++
          if form.closed then [.closing form.tag] else []) := by
    obtain ⟨id, parent, kind, arguments⟩ := e
    rw [Expression.tags]
  rw [byForm]
  simp only [attributesBy_append, attributesBy_common, stemInside_eq, tagsIn_eq]
  cases named : Kind.ofName? e.kind with
  | none => simp only [elementForm?_foreign named, Option.elim_none]
  | some kind =>
    have written := Kind.name_of_ofName? named
    simp only [Expression.inner, Expression.content?, Expression.tag, ← written, Kind.ofName?_name]
    cases kind with
    | input =>
      simp [elementForm?, Kind.name, inputType_eq, attributesBy_input, kindAttributes, tagsAll]
    | option =>
      simp [elementForm?, Kind.name, attributesBy_cons, read_text, kindAttributes, tagsAll,
        Function.comp_def]
    | label =>
      simp [elementForm?, Kind.name, attributesBy_cons, read_id, kindAttributes, Expression.get?,
        Function.comp_def]
    | page | text | select | list | div | form | h1 | p | span | button =>
      simp [elementForm?, Kind.name, kindAttributes, Expression.get?]

theorem markupAll_tags {children : List Expression} {stem : String} {made : List Markup}
    (each : ∀ child ∈ children, ∀ made, markup child stem = .ok made → made.tags = child.tags stem)
    (drawn : markupAll children stem = .ok made) : Markup.tagsOf made = tagsAll children stem := by
  induction children generalizing made with
  | nil =>
    cases drawn
    rfl
  | cons child rest ih =>
    obtain ⟨first, here, more⟩ := except_bind_ok.mp drawn
    obtain ⟨others, later, same⟩ := except_bind_ok.mp more
    obtain rfl := except_pure_ok.mp same
    have tags := ih (List.forall_mem_cons.mp each).2 later
    rw [Markup.tagsOf, tagsAll, each child List.mem_cons_self first here, tags]

/-- Markup has the tags of what it was made from. -/
theorem markup_tags {e : Expression} {stem : String} {made : Markup}
    (drawn : markup e stem = .ok made) : made.tags = e.tags stem := by
  induction e using Expression.inductionOn generalizing stem made with
  | step e ih =>
    have inside {children : List Markup}
        (drawn : markupAll e.inner (innerStem e stem) = .ok children) :
        Markup.tagsOf children = tagsAll e.inner (innerStem e stem) := by
      -- everything inside is held under some name, which is what the induction is over
      refine markupAll_tags (fun child member made drawn => ?_) drawn
      obtain ⟨name, -, held⟩ := Expression.holds_of_inner member
      exact ih name child held drawn
    rw [markup_eq] at drawn
    rw [Expression.tags_eq]
    cases named : Kind.ofName? e.kind with
    | none => simp [named] at drawn
    | some kind =>
      cases kind with
      | page => simp [named] at drawn
      | text | input =>
        simp only [named] at drawn
        cases drawn
        rfl
      | option =>
        -- an option is written in one line, as it holds nothing but a text
        simp only [named] at drawn
        cases drawn
        have written : e.kind = "option" := (Kind.name_of_ofName? named).symm
        have empty : e.inner = [] := by simp [Expression.inner, Expression.content?, named]
        simp [Expression.tag, written, empty, Markup.tags, Markup.tagsOf, tagsAll]
      | div | form | list | select | label | h1 | p | span | button =>
        simp only [named] at drawn
        obtain ⟨children, content, same⟩ := except_bind_ok.mp drawn
        obtain rfl := except_pure_ok.mp same
        rw [Markup.tags, inside content]

end Pagewright
