import Pagewright.Config.Basic
import Pagewright.Render.Construction
import Pagewright.Render.Page

/-!
# Outputs

Every exported page becomes a document, in order, and all exports together
become the construction script.
-/

namespace Pagewright

structure Output where
  path : String
  contents : String
  deriving DecidableEq, Repr

/-- The document of an exported page. -/
def pageOutput (lang : String) (page : Expression) : Except Error Output :=
  match page.defines? with
  | none => .error (.internal .unnamedPage)
  | some name => do
    let contents ← renderPage lang page
    return { path := name ++ ".html", contents }

/-- The generated files of a deployment. -/
def renderOutputs (config : Config) (exports : List Expression) : Except Error (List Output) := do
  let pages ← (exports.filter fun expression => expression.kind = "page").mapM
    (pageOutput config.htmlLang)
  let script ← renderScript exports
  return pages ++ [{ path := config.instantiateScript, contents := script }]

end Pagewright
