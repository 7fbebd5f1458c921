/-!
# Escapes in generated text

Text goes into markup and into script literals. In markup the five characters
that could end it become entities. In a double-quoted literal of a script,
quotes, backslashes and line ends are escaped, and so is `<`, which could close
the script.
-/

namespace Pagewright

/-- A character of text in markup, also between double quotes. -/
def markupChar (c : Char) : List Char :=
  if c = '&' then "&amp;".toList
  else if c = '<' then "&lt;".toList
  else if c = '>' then "&gt;".toList
  else if c = '"' then "&quot;".toList
  else if c = '\x27' then "&#39;".toList
  else [c]

/-- A character of text in a double-quoted literal of a script. -/
def scriptChar (c : Char) : List Char :=
  if c = '\\' then ['\\', '\\']
  else if c = '"' then ['\\', '"']
  else if c = '\n' then ['\\', 'n']
  else if c = '\r' then ['\\', 'r']
  else if c = '\t' then ['\\', 't']
  else if c = '<' then "\\u003c".toList
  else if c = '\u2028' then "\\u2028".toList
  else if c = '\u2029' then "\\u2029".toList
  else [c]

/-- Text as it stands in markup. -/
def escapeMarkup (text : String) : String :=
  String.ofList (text.toList.flatMap markupChar)

/-- Text as it stands in a double-quoted literal of a script. -/
def escapeScript (text : String) : String :=
  String.ofList (text.toList.flatMap scriptChar)

end Pagewright
