import Pagewright.Expression.Kind
import Pagewright.Identity.ScopedId
import Pagewright.Render.Markup

/-!
# What an expression says about its element

Pages and construction scripts are made from the same parts of an expression:
its id, its styles and classes, the attributes of an input and the bounds of a
list.
-/

namespace Pagewright

namespace Expression

/-- The id, if one is given as a text. -/
def scopedId? (expression : Expression) : Option ScopedId :=
  (expression.text? "id").map ScopedId.split

def classes (expression : Expression) : List String :=
  expression.texts "classes"

def style? (expression : Expression) : Option String :=
  match expression.texts "styles" with
  | [] => none
  | styles => some ("; ".intercalate styles)

/-- The tag of the element that a kind becomes. -/
def tag (expression : Expression) : String :=
  if expression.kind = "list" then "div" else expression.kind

/-- The argument whose block becomes the inside of the element. -/
def content? (expression : Expression) : Option String :=
  match Kind.ofName? expression.kind with
  | some .select => some "options"
  | some .div | some .form | some .list | some .label => some "body"
  | some .h1 | some .p | some .span | some .button => some "body"
  | some .page | some .option | some .input | some .text | none => none

def itemType (expression : Expression) : String :=
  (expression.text? "type").getD ""

/-- The least number of rows of a list, as a number of a script. -/
def leastRows (expression : Expression) : String :=
  ((expression.number? "min").map toString).getD "-Infinity"

/-- The largest number of rows of a list, as a number of a script. -/
def mostRows (expression : Expression) : String :=
  ((expression.number? "max").map toString).getD "+Infinity"

def inputAttributes (expression : Expression) : List Attribute :=
  let type := (expression.text? "type").getD "text"
  let text (name source : String) : List Attribute :=
    ((expression.text? source).map fun value => ⟨name, some value⟩).toList
  let number (name source : String) : List Attribute :=
    ((expression.number? source).map fun value => ⟨name, some (toString value)⟩).toList
  ⟨"type", some type⟩ ::
    (if type = "number" then number "min" "min" ++ number "max" "max" ++ number "value" "initial"
    else if type = "date" then text "min" "min" ++ text "max" "max" ++ text "value" "initial"
    else if type = "checkbox" then
      if expression.number? "initial" = some 1 then [⟨"checked", none⟩] else []
    else
      number "minlength" "min" ++ number "maxlength" "max" ++ text "value" "initial")

end Expression

end Pagewright
