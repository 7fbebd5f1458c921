import Pagewright.Text.Escape
import Pagewright.Text.Line

/-!
# Markup

The elements of a page as a tree, and its lines. What stands in an element is
one level deeper than its tags.
-/

namespace Pagewright

structure Attribute where
  name : String
  /-- An attribute without value is written by its name alone. -/
  value : Option String
  deriving DecidableEq, Repr

inductive Markup where
  /-- An element whose tags stand on lines of their own. -/
  | element (tag : String) (attributes : List Attribute) (children : List Markup)
  /-- An element on one line that holds only text. -/
  | inline (tag : String) (attributes : List Attribute) (content : String)
  /-- An element without end tag. -/
  | void (tag : String) (attributes : List Attribute)
  | text (value : String)

namespace Attribute

def render : Attribute → String
  | ⟨name, some value⟩ => " " ++ name ++ "=\"" ++ escapeMarkup value ++ "\""
  | ⟨name, none⟩ => " " ++ name

end Attribute

def startTag (tag : String) (attributes : List Attribute) : String :=
  "<" ++ tag ++ String.join (attributes.map Attribute.render) ++ ">"

def endTag (tag : String) : String :=
  "</" ++ tag ++ ">"

namespace Markup

mutual

def lines (depth : Nat) : Markup → List Line
  | .element tag attributes children =>
    ⟨depth, startTag tag attributes⟩ :: linesOf (depth + 1) children ++ [⟨depth, endTag tag⟩]
  | .inline tag attributes content =>
    [⟨depth, startTag tag attributes ++ escapeMarkup content ++ endTag tag⟩]
  | .void tag attributes => [⟨depth, startTag tag attributes⟩]
  | .text value => [⟨depth, escapeMarkup value⟩]

def linesOf (depth : Nat) : List Markup → List Line
  | [] => []
  | markup :: rest => lines depth markup ++ linesOf depth rest

end

end Markup

end Pagewright
