/-!
# Identifiers

Definition names and the written part of an id are identifiers: an ASCII letter
or an underscore, followed by ASCII letters, digits and underscores.
-/

namespace Pagewright

/-- A character an identifier may start with. -/
def isWordStart (c : Char) : Bool :=
  c.isAlpha || c == '_'

/-- A character an identifier may go on with. -/
def isWordPart (c : Char) : Bool :=
  c.isAlphanum || c == '_'

/-- The whole text is one identifier. -/
def isIdentifier (name : String) : Bool :=
  match name.toList with
  | [] => false
  | first :: rest => isWordStart first && rest.all isWordPart

end Pagewright
