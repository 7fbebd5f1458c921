import Pagewright.Proofs.ExportNames
import Pagewright.Proofs.LabelTargets
import Pagewright.Proofs.ScriptFunctions
import Pagewright.Render.Output

/-!
# The outputs of an analysis

The exports of a successful analysis have documents and functions; the only thing
that can be missing is a name. So outputs are rendered exactly if no export drops
its name, and then there is a document for every page, in order, and a function
for every other export.
-/

namespace Pagewright

open Outcome

variable {plan : Plan} {roots : List Expression} {config : Config} {name script lang : String}
  {root : Expression}

/-- Every exported page has a document. -/
theorem Plan.Exports.renders (checked : plan.Checked) (exported : plan.Exports name root)
    (isPage : root.kind = "page") (lang : String) :
    ∃ contents, renderPage lang root = .ok contents := by
  obtain ⟨inst, instances, rfl⟩ := exported
  obtain ⟨body, drawn, -⟩ := instances.draws_body checked
  rw [renderPage, if_neg (not_not.mpr isPage), Plan.exported_body]
  exact ⟨_, except_bind_ok.mpr ⟨body, drawn, rfl⟩⟩

/-- All lines of a function end where they are meant to. -/
theorem Plan.Exports.oneLine (checked : plan.Checked)
    (identifiers : ∀ name ∈ plan.table.names, isIdentifier name = true)
    (exported : plan.Exports name root) (noPage : root.kind ≠ "page") :
    ∀ instruction ∈ (construct root).instructions, instruction.OneLine := by
  have instances := exported.hasInstance noPage
  refine construct_forall trivial (fun _ => trivial) fun inner inside => ?_
  refine ⟨(instances.resolved checked inner inside).builtIn,
    fun kind named instruction member => ?_⟩
  rcases List.mem_append.mp member with made | fitted
  · exact createElement_oneLine named instruction made
  · -- item types stand in a script as they are, and they are identifiers
    refine fitOut_oneLine (fun list => ?_) instruction fitted
    have isList : inner.kind = "list" := by rw [← Kind.name_of_ofName? named, list]; rfl
    obtain ⟨type, typed, among⟩ := (instances.hasRows checked inner inside).typed isList
    rw [Expression.itemType, typed, Option.getD_some]
    exact isIdentifier_avoids (identifiers type (plan.table.exportNames_sublist.mem among))
      (by decide)

/-- A script is written if all exports that are no pages have names. -/
theorem renderScript_isOk_iff
    (whole : ∀ root ∈ roots, root.kind ≠ "page" → (construct root).failure = none) :
    (∃ text, renderScript roots = .ok text) ↔
      ∀ root ∈ roots, root.kind ≠ "page" → root.defines? ≠ none := by
  induction roots with
  | nil => simp [renderScript]
  | cons root rest ih =>
    obtain ⟨first, others⟩ := List.forall_mem_cons.mp whole
    rw [List.forall_mem_cons, ← ih others, renderScript]
    by_cases page : root.kind = "page"
    · simp [page]
    · rw [if_neg page]
      cases named : root.defines? with
      | none => simp [page]
      | some name =>
        simp only [renderFunction_eq name (first page), except_bind_ok]
        constructor
        · rintro ⟨text, later, written, -⟩
          exact ⟨fun _ => by simp, later, written⟩
        · rintro ⟨-, later, written⟩
          exact ⟨_, later, written, rfl⟩

theorem pageOutput_ok {page : Expression} {output : Output} :
    pageOutput lang page = .ok output ↔ ∃ name contents, page.defines? = some name ∧
      renderPage lang page = .ok contents ∧ output = ⟨name ++ ".html", contents⟩ := by
  rw [pageOutput]
  cases page.defines? with
  | none => simp
  | some name =>
    simp only [except_bind_ok, except_pure_ok, Option.some.injEq]
    constructor
    · rintro ⟨contents, rendered, rfl⟩
      exact ⟨name, contents, rfl, rendered, rfl⟩
    · rintro ⟨_, contents, rfl, rendered, rfl⟩
      exact ⟨contents, rendered, rfl⟩

/-- A document for every page, and behind them the one script. -/
theorem renderOutputs_ok {outputs : List Output} :
    renderOutputs config roots = .ok outputs ↔ ∃ documents script,
      List.Forall₂ (fun page document => pageOutput config.htmlLang page = .ok document)
        (roots.filter fun root => root.kind = "page") documents ∧
      renderScript roots = .ok script ∧
      outputs = documents ++ [{ path := config.instantiateScript, contents := script }] := by
  simp only [renderOutputs, except_bind_ok, except_mapM_ok, except_pure_ok]
  constructor
  · rintro ⟨documents, written, script, text, rfl⟩
    exact ⟨documents, script, written, text, rfl⟩
  · rintro ⟨documents, script, written, text, rfl⟩
    exact ⟨documents, written, script, text, rfl⟩

/-- Where all pages have documents and all functions are whole, outputs need names only. -/
theorem renderOutputs_isOk_iff
    (renders : ∀ root ∈ roots, root.kind = "page" →
      ∃ contents, renderPage config.htmlLang root = .ok contents)
    (whole : ∀ root ∈ roots, root.kind ≠ "page" → (construct root).failure = none) :
    (∃ outputs, renderOutputs config roots = .ok outputs) ↔
      ∀ root ∈ roots, root.defines? ≠ none := by
  have pages : (∃ documents, List.Forall₂ (fun page document =>
        pageOutput config.htmlLang page = .ok document)
        (roots.filter fun root => root.kind = "page") documents) ↔
      ∀ root ∈ roots, root.kind = "page" → root.defines? ≠ none := by
    simp only [← except_mapM_ok, except_mapM_isOk, List.mem_filter, decide_eq_true_eq, and_imp]
    refine forall₂_congr fun root member => forall_congr' fun isPage => ?_
    obtain ⟨contents, rendered⟩ := renders root member isPage
    simp [pageOutput_ok, rendered, Option.ne_none_iff_exists']
  constructor
  · rintro ⟨outputs, run⟩ root member
    obtain ⟨documents, script, written, text, -⟩ := renderOutputs_ok.mp run
    by_cases isPage : root.kind = "page"
    · exact pages.mp ⟨documents, written⟩ root member isPage
    · exact (renderScript_isOk_iff whole).mp ⟨script, text⟩ root member isPage
  · intro named
    obtain ⟨documents, written⟩ := pages.mpr fun root member _ => named root member
    obtain ⟨script, text⟩ := (renderScript_isOk_iff whole).mpr fun root member _ =>
      named root member
    exact ⟨_, renderOutputs_ok.mpr ⟨documents, script, written, text, rfl⟩⟩

/-! ### Exports under their names -/

/-- The documents of pages stand under the names of the pages. -/
theorem Defined.documents {drops : String → Bool} {names : List String}
    (defined : Defined drops names roots) {documents : List Output}
    (written : List.Forall₂ (fun page document => pageOutput lang page = .ok document)
      (roots.filter fun root => root.kind = "page") documents) :
    List.Forall₂ (fun entry document => document.path = entry.1 ++ ".html" ∧
        renderPage lang entry.2 = .ok document.contents)
      ((names.zip roots).filter fun entry => entry.2.kind = "page") documents := by
  induction defined generalizing documents with
  | nil =>
    cases written
    exact .nil
  | @cons name root names roots first _ ih =>
    by_cases isPage : root.kind = "page"
    · rw [List.filter_cons_of_pos (by simpa using isPage)] at written
      cases written with
      | cons here later =>
        rw [List.zip_cons_cons, List.filter_cons_of_pos (by simpa using isPage)]
        refine .cons ?_ (ih later)
        -- a page that has dropped its name would have no document
        obtain ⟨own, contents, named, rendered, rfl⟩ := pageOutput_ok.mp here
        rw [first] at named
        split_ifs at named
        cases named
        exact ⟨rfl, rendered⟩
    · rw [List.filter_cons_of_neg (by simpa using isPage)] at written
      rw [List.zip_cons_cons, List.filter_cons_of_neg (by simpa using isPage)]
      exact ih written

section

variable {roots : List Expression}

section

variable (checked : plan.Checked) (distinct : plan.table.exportNames.Nodup)

include checked distinct

/-- The functions of exports have a name to go under, and are whole. -/
theorem Plan.Checked.functions_whole
    (identifiers : ∀ name ∈ plan.table.exportNames, isIdentifier name = true)
    (exports : List.Forall₂ plan.Exports plan.table.exportNames roots) :
    List.Forall₂ (fun name root => root.kind ≠ "page" →
      (root.defines? = none ∨ root.defines? = some name) ∧ (construct root).failure = none)
        plan.table.exportNames roots := by
  obtain ⟨aligned, each⟩ := List.forall₂_iff_zip.mp exports
  refine List.forall₂_iff_zip.mpr ⟨aligned, fun {name root} member noPage => ?_⟩
  obtain ⟨depth, instances⟩ := (each member).hasInstance noPage
  have whole := callFunction_draws checked distinct (fun name member =>
    isIdentifier_avoids (identifiers name member) (by decide)) exports le_rfl member instances noPage
  exact ⟨Plan.HasInstance.defines checked ⟨depth, instances⟩, whole.1⟩

/-- The lines of a script are those of the functions of the exports. -/
theorem Plan.Checked.scriptLines
    (identifiers : ∀ name ∈ plan.table.names, isIdentifier name = true)
    (exports : List.Forall₂ plan.Exports plan.table.exportNames roots)
    (text : renderScript roots = .ok script) :
    splitLines script.toList =
      ((scriptFunctions (plan.table.exportNames.zip roots)).flatMap Prod.snd).map Line.chars := by
  have exported : ∀ name ∈ plan.table.exportNames, isIdentifier name = true := fun name member =>
    identifiers name (plan.table.exportNames_sublist.mem member)
  rw [renderScript_ok (checked.functions_whole distinct exported exports) text]
  refine splitLines_script (fun name root member => ?_) fun name root member noPage => ?_
  · exact isIdentifier_avoids (exported name (List.of_mem_zip member).1) (by decide)
  · exact ((List.forall₂_iff_zip.mp exports).2 member).oneLine checked identifiers noPage

/-- The functions of a script are those of the exports that are no pages. -/
theorem Plan.Checked.functionNames
    (identifiers : ∀ name ∈ plan.table.names, isIdentifier name = true)
    (exports : List.Forall₂ plan.Exports plan.table.exportNames roots)
    (text : renderScript roots = .ok script) :
    functionNames script = (((plan.table.exportNames.zip roots).filter fun entry =>
      entry.2.kind ≠ "page").map Prod.fst) := by
  rw [Pagewright.functionNames, checked.scriptLines distinct identifiers exports text]
  refine filterMap_functionName? fun name root member => ?_
  have known := plan.table.exportNames_sublist.mem (List.of_mem_zip member).1
  exact isIdentifier_avoids (identifiers name known) (by decide)

end

/-- The exports of a plan are rendered exactly if no name is dropped. -/
theorem Plan.Checked.renders_iff (checked : plan.Checked) (distinct : plan.table.names.Nodup)
    (identifiers : ∀ name ∈ plan.table.exportNames, isIdentifier name = true)
    (exports : List.Forall₂ plan.Exports plan.table.exportNames roots) (config : Config) :
    (∃ outputs, renderOutputs config roots = .ok outputs) ↔
      ∀ name ∈ plan.table.exportNames, plan.table.dropsName name = false := by
  rw [← (checked.defined distinct exports).all_named_iff]
  refine renderOutputs_isOk_iff (fun root member isPage => ?_) fun root member noPage => ?_
  · obtain ⟨name, -, exported⟩ := exists_of_forall₂_right exports member
    exact exported.renders checked isPage config.htmlLang
  · have functions := checked.functions_whole (distinct.sublist plan.table.exportNames_sublist)
      identifiers exports
    obtain ⟨name, -, whole⟩ := exists_of_forall₂_right functions member
    exact (whole noPage).2

end

/-- **Rendering.** The names of the exports of a successful analysis are those of the definitions
without parameters, in order, less those that are dropped. Outputs are rendered exactly if no name is
dropped: a document for every page in order, under its name, and a script with a function for every
other export. -/
theorem outputs_rendered {session session' : Session} {set : ExportSet}
    (reachable : session.Reachable) (run : Session.analyze session = .ok set session') :
    ∃ table, Table.ofExpressions session.expressions = .ok table ∧
      set.names = (table.exportNames.filter fun name => !table.dropsName name) ∧
      (∀ config, (∃ outputs, renderOutputs config set.exports = .ok outputs) ↔
        ∀ name ∈ table.exportNames, table.dropsName name = false) ∧
      ∀ config outputs, renderOutputs config set.exports = .ok outputs →
        ∃ documents script,
          outputs = documents ++ [{ path := config.instantiateScript, contents := script }] ∧
          List.Forall₂ (fun entry document => document.path = entry.1 ++ ".html" ∧
              renderPage config.htmlLang entry.2 = .ok document.contents)
            ((table.exportNames.zip set.exports).filter fun entry => entry.2.kind = "page")
            documents ∧
          functionNames script =
            (((table.exportNames.zip set.exports).filter fun entry =>
              entry.2.kind ≠ "page").map Prod.fst) ∧
          (functionNames script).Nodup := by
  obtain ⟨table, made, checked, exports⟩ := reachable.analyze_sound run
  have holds := Table.ofExpressions_holds made
  have distinct : table.exportNames.Nodup := holds.distinct.sublist table.exportNames_sublist
  have defined := checked.defined holds.distinct exports
  refine ⟨table, made, defined.names_eq, fun config => ?_,
    fun config outputs rendered => ?_⟩
  · exact checked.renders_iff holds.distinct (fun name member =>
      holds.identifiers name (table.exportNames_sublist.mem member)) exports config
  · obtain ⟨documents, script, written, text, rfl⟩ := renderOutputs_ok.mp rendered
    have names := checked.functionNames distinct holds.identifiers exports text
    refine ⟨documents, script, rfl, defined.documents written, names, ?_⟩
    have fst : (table.exportNames.zip set.exports).map Prod.fst = table.exportNames :=
      List.map_fst_zip exports.length_eq.le
    rw [names]
    exact (fst.symm ▸ distinct).sublist (List.filter_sublist.map Prod.fst)

/-- A page made from a generic definition, and a list with its item type. -/
def site : String :=
  "div defines: \"card\", parameters: [title],\n" ++
  "  body: \x7b h1 body: \x7b text value: title \x7d \x7d\n" ++
  "page defines: \"home\", body: \x7b card title: \"Hello\" \x7d\n" ++
  "list defines: \"rows\", id: \"r\", type: \"item\"\n" ++
  "p defines: \"item\"\n"

theorem outputs_rendered_site :
    ∃ set session' table, Session.analyze (Session.ofSource site) = .ok set session' ∧
      Table.ofExpressions (Session.ofSource site).expressions = .ok table ∧
      table.exportNames = ["home", "rows", "item"] ∧
      set.names = (table.exportNames.filter fun name => !table.dropsName name) ∧
      ∀ config, ∃ outputs, renderOutputs config set.exports = .ok outputs ∧
        ∃ documents script,
          outputs = documents ++ [{ path := config.instantiateScript, contents := script }] ∧
          List.Forall₂ (fun entry document => document.path = entry.1 ++ ".html" ∧
              renderPage config.htmlLang entry.2 = .ok document.contents)
            ((table.exportNames.zip set.exports).filter fun entry => entry.2.kind = "page")
            documents ∧
          functionNames script =
            (((table.exportNames.zip set.exports).filter fun entry =>
              entry.2.kind ≠ "page").map Prod.fst) ∧
          (functionNames script).Nodup := by
  have analyzed : (Session.ofSource site).exportSet?.any (fun _ =>
      (Table.ofExpressions (Session.ofSource site).expressions).toOption.any
        fun table => table.exportNames = ["home", "rows", "item"] &&
          table.exportNames.all fun name => !table.dropsName name) = true := by
    decide +kernel
  obtain ⟨set, session', run, tests⟩ := Session.analyze_of_any analyzed
  obtain ⟨table, made, names, rendered, shape⟩ := outputs_rendered (.ofSource site) run
  rw [made] at tests
  have tests : (decide (table.exportNames = ["home", "rows", "item"]) &&
      table.exportNames.all fun name => !table.dropsName name) = true := tests
  simp only [Bool.and_eq_true, decide_eq_true_eq, List.all_eq_true, Bool.not_eq_true'] at tests
  refine ⟨set, session', table, run, made, tests.1, names, fun config => ?_⟩
  obtain ⟨outputs, written⟩ := (rendered config).mpr tests.2
  exact ⟨outputs, written, shape config outputs written⟩

/-- A definition that takes the name of whatever refers to it. -/
def nameless : String :=
  "div defines: \"frame\", parameters: [defines]\n" ++
  "frame defines: \"box\"\n"

/-- The analysis gives an export without a name, for which nothing can be rendered. -/
theorem nameless_not_rendered :
    ∃ set session', Session.analyze (Session.ofSource nameless) = .ok set session' ∧
      set.exports.length = 1 ∧ set.names = [] ∧
      ∀ config outputs, renderOutputs config set.exports ≠ .ok outputs := by
  have analyzed : (Session.ofSource nameless).exportSet?.any (fun set =>
      set.exports.length = 1 && set.names = [] &&
        match renderScript set.exports with
        | .ok _ => false
        | .error _ => true) = true := by
    decide +kernel
  obtain ⟨set, session', run, tests⟩ := Session.analyze_of_any analyzed
  simp only [Bool.and_eq_true, decide_eq_true_eq] at tests
  refine ⟨set, session', run, tests.1.1, tests.1.2, fun config outputs rendered => ?_⟩
  obtain ⟨_, script, -, text, -⟩ := renderOutputs_ok.mp rendered
  simp [text] at tests

end Pagewright
