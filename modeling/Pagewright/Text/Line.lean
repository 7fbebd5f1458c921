/-!
# Lines of generated files

Generated files are made of lines, each indented by four blanks for every level
it is nested. A blank line has no indentation.
-/

namespace Pagewright

structure Line where
  depth : Nat
  text : String
  deriving DecidableEq, Repr

namespace Line

def blank : Line :=
  ⟨0, ""⟩

/-- The line with its indentation and its line end. -/
def render (line : Line) : String :=
  String.ofList (List.replicate (4 * line.depth) ' ') ++ line.text ++ "\n"

end Line

def renderLines (lines : List Line) : String :=
  String.join (lines.map Line.render)

theorem renderLines_append (first second : List Line) :
    renderLines (first ++ second) = renderLines first ++ renderLines second := by
  simp [renderLines, String.join_append]

end Pagewright
