import Pagewright.Error
import Pagewright.Render.TreeScript

/-!
# Pages

A page becomes one document: its head, the markup of its body below one element
with the id of the page, and the tree script.
-/

namespace Pagewright

/-- The attributes that every element can have, where `stem` is the full id of the nearest tracked
element around it. -/
def commonAttributes (expression : Expression) (stem : String) : List Attribute :=
  let id : List Attribute :=
    (expression.scopedId?.map fun id => ⟨"id", some (id.fullId stem)⟩).toList
  let classes : List Attribute :=
    if expression.classes.isEmpty then []
    else [⟨"class", some (" ".intercalate expression.classes)⟩]
  let style : List Attribute := (expression.style?.map fun style => ⟨"style", some style⟩).toList
  id ++ classes ++ style

/-- The attributes that an element has because of its kind. -/
def kindAttributes (expression : Expression) (kind : Kind) (stem : String) : List Attribute :=
  match kind with
  | .option => ((expression.text? "value").map fun value => ⟨"value", some value⟩).toList
  | .label =>
    ((expression.text? "for").map fun target =>
      ⟨"for", some ((ScopedId.split target).fullId stem)⟩).toList
  | .input => expression.inputAttributes
  | _ => []

/-- What the ids in an element are relative to. -/
def innerStem (expression : Expression) (stem : String) : String :=
  match expression.scopedId? with
  | some id => if id.isTracked then id.fullId stem else stem
  | none => stem

mutual

/-- The markup of an element and everything in it, where `stem` is the full id of the nearest
tracked element around it. -/
def markup : Expression → String → Except Error Markup
  | ⟨id, parent, kind, arguments⟩, stem =>
    let expression : Expression := ⟨id, parent, kind, arguments⟩
    match Kind.ofName? kind with
    | none | some .page => .error (.internal (.unrenderable kind))
    | some .text => .ok (.text ((expression.text? "value").getD ""))
    | some .input =>
      .ok (.void "input"
        (commonAttributes expression stem ++ kindAttributes expression .input stem))
    | some .option =>
      .ok (.element "option"
        (commonAttributes expression stem ++ kindAttributes expression .option stem)
        [.text ((expression.text? "text").getD "")])
    | some kind => do
      let children ← markupIn expression.content? arguments (innerStem expression stem)
      return .element expression.tag
        (commonAttributes expression stem ++ kindAttributes expression kind stem) children

def markupIn (content : Option String) :
    List (String × Argument) → String → Except Error (List Markup)
  | [], _ => .ok []
  | (name, value) :: rest, stem =>
    if content = some name then markupOf value stem else markupIn content rest stem

def markupOf : Argument → String → Except Error (List Markup)
  | .block children, stem => markupAll children stem
  | _, _ => .ok []

def markupAll : List Expression → String → Except Error (List Markup)
  | [], _ => .ok []
  | child :: rest, stem => do
    let child ← markup child stem
    let rest ← markupAll rest stem
    return child :: rest

end

/-- What the head of a page's document holds. -/
def pageHead (page : Expression) : List Markup :=
  [.void "meta" [⟨"charset", some "UTF-8"⟩],
    .void "meta"
      [⟨"name", some "viewport"⟩, ⟨"content", some "width=device-width, initial-scale=1.0"⟩]]
  ++ ((page.text? "title").map fun title => Markup.inline "title" [] title).toList
  ++ ((page.text? "icon").map fun icon =>
      Markup.void "link" [⟨"rel", some "icon"⟩, ⟨"href", some icon⟩]).toList
  ++ (page.texts "style_sheets").map (fun sheet =>
      .void "link" [⟨"rel", some "stylesheet"⟩, ⟨"href", some sheet⟩])
  ++ (page.texts "scripts").map fun script => .inline "script" [⟨"src", some script⟩] ""

/-- The lines of the script that makes the tree of a page. -/
def pageScript (instructions : List TreeInstruction) : List Line :=
  [⟨2, "(function() \x7b"⟩,
    ⟨3, "let me = new Tree_Node(null, document.getElementById(\"page\"), \"page\");"⟩,
    ⟨3, "window.page = me;"⟩]
  ++ TreeInstruction.lines 3 instructions
  ++ [⟨2, "\x7d)();"⟩]

def documentLines (lang : String) (head body : List Markup)
    (instructions : List TreeInstruction) : List Line :=
  [⟨0, "<!DOCTYPE html>"⟩, ⟨0, startTag "html" [⟨"lang", some lang⟩]⟩, Line.blank, ⟨0, "<head>"⟩]
  ++ Markup.linesOf 1 head
  ++ [⟨0, "</head>"⟩, Line.blank, ⟨0, "<body>"⟩]
  ++ Markup.lines 1 (.element "div" [⟨"id", some pageStem⟩] body)
  ++ [⟨1, "<script>"⟩]
  ++ pageScript instructions
  ++ [⟨1, "</script>"⟩, ⟨0, "</body>"⟩, Line.blank, ⟨0, "</html>"⟩]

def renderPage (lang : String) (page : Expression) : Except Error String :=
  if page.kind ≠ "page" then .error (.internal (.notAPage page.kind))
  else do
    let children := (page.block? "body").getD []
    let body ← markupAll children pageStem
    return renderLines (documentLines lang (pageHead page) body (treeScriptAll children pageStem))

end Pagewright
