import Pagewright.Proofs.DeploymentSteps
import Pagewright.Proofs.Outputs
import Pagewright.Proofs.ReferencedFiles

/-!
# The resources of pages

A page loads two scripts that every page loads, and names further scripts and style
sheets. What it names is collected while pages are exported, and a deployment writes
it next to the page. The main result is `page_resources_deployed`: nothing that a
page loads is missing among the files that a deployment reports.
-/

namespace Pagewright

open Outcome

theorem Session.mem_files {session session' : Session} {set : ExportSet} {table : Table}
    (made : Table.ofExpressions session.expressions = .ok table)
    (exports :
      List.Forall₂ (Session.plan session.config table).Exports table.exportNames set.exports)
    (run : Session.analyze session = .ok set session') {file : String} :
    file ∈ set.files ↔ file ∉ session.config.defaultScripts ∧
      ∃ page ∈ set.exports, page.kind = "page" ∧ file ∈ page.resources := by
  obtain ⟨table', made', -, named⟩ := Session.analyze_files run
  rw [made] at made'
  cases made'
  rw [named]
  constructor
  · rintro ⟨name, known, needs⟩
    obtain ⟨root, member⟩ := exists_zip_of_mem exports known
    obtain ⟨inst, instances, rfl⟩ := (List.forall₂_iff_zip.mp exports).2 member
    obtain ⟨isPage, needed⟩ := instances.needs_iff.mp needs
    obtain ⟨loaded, other⟩ := (Plan.mem_pageFiles isPage).mp needed
    exact ⟨other, _, (List.of_mem_zip member).2, (Plan.exported_kind inst).trans isPage, loaded⟩
  · rintro ⟨other, page, member, isPage, loaded⟩
    obtain ⟨name, known, inst, instances, rfl⟩ := exists_of_forall₂_right exports member
    have isPage := (Plan.exported_kind inst).symm.trans isPage
    exact ⟨name, known, instances.needs_iff.mpr
      ⟨isPage, (Plan.mem_pageFiles isPage).mpr ⟨loaded, other⟩⟩⟩

/-! ### What is reported -/

/-- A deployment reports all files that it adds. -/
theorem deploy_reports {config : Config} {now : Timestamp} {set : ExportSet} {report : DeployReport}
    {tree tree' : FileTree} (run : deploy config now set tree = .ok report tree') :
    ∃ outputs, renderOutputs config set.exports = .ok outputs ∧
      ∀ path ∈ outputs.map Output.path ++ config.runtimeScript :: set.files,
        ∃ file ∈ report.files, file.path = path := by
  obtain ⟨last, ran, -⟩ := deploy_ok run
  obtain ⟨outputs, items, added, rendered, paths, adds, finishes, files⟩ := Deployment.run_ok ran
  refine ⟨outputs, rendered, fun path member => ?_⟩
  rw [← paths] at member
  obtain ⟨item, among, rfl⟩ := List.mem_map.mp member
  have reported : item.written ∈ added.files := by
    rw [adds.files]
    exact List.mem_append_right _ (List.mem_map_of_mem among)
  refine ⟨item.written, ?_, rfl⟩
  obtain ⟨more, kept⟩ := finishes.files
  rw [files, kept]
  exact List.mem_append_left _ reported

/-- **Resources of pages.** An exported page loads the two scripts of every page first, and then
scripts none of which is one of these. The files of the analysis are what its pages load, as scripts
or as style sheets, less the scripts of every page, each once. A deployment under the same
configuration reports a file for everything that a page loads and for the page itself. -/
theorem page_resources_deployed {session session' : Session} {set : ExportSet}
    (reachable : session.Reachable) (run : Session.analyze session = .ok set session') :
    ∃ table, Table.ofExpressions session.expressions = .ok table ∧
      (∀ page ∈ set.exports, page.kind = "page" → ∃ further : List String,
        page.get? "scripts" = some (.list
          (([session.config.runtimeScript, session.config.instantiateScript] ++ further).map
            Argument.text)) ∧
        ∀ entry ∈ further, entry ∉ session.config.defaultScripts) ∧
      set.files.Nodup ∧
      (∀ file, file ∈ set.files ↔ file ∉ session.config.defaultScripts ∧
        ∃ page ∈ set.exports, page.kind = "page" ∧
          (file ∈ page.texts "style_sheets" ∨ file ∈ page.texts "scripts")) ∧
      ∀ now tree report tree', deploy session.config now set tree = .ok report tree' →
        ∀ name page, (name, page) ∈ table.exportNames.zip set.exports → page.kind = "page" →
          page.defines? = some name ∧
          ∀ path ∈ (name ++ ".html") :: (page.texts "style_sheets" ++ page.texts "scripts"),
            ∃ file ∈ report.files, file.path = path := by
  obtain ⟨table, made, checked, exports⟩ := reachable.analyze_sound run
  have holds := Table.ofExpressions_holds made
  have files := @Session.mem_files session session' set table made exports run
  refine ⟨table, made, ?_, ?_, ?_, ?_⟩
  · intro page member isPage
    obtain ⟨name, -, inst, instances, rfl⟩ := exists_of_forall₂_right exports member
    refine ⟨_, Plan.exported_scripts ((Plan.exported_kind inst).symm.trans isPage), ?_⟩
    exact fun entry among => (Plan.mem_additional.mp among).2
  · obtain ⟨_, -, increasing, -⟩ := Session.analyze_files run
    exact increasing.imp ne_of_lt
  · intro file
    rw [files]
    simp only [Expression.resources, List.mem_append]
  · intro now tree report tree' deployed name page member isPage
    obtain ⟨outputs, rendered, reported⟩ := deploy_reports deployed
    obtain ⟨documents, script, written, -, rfl⟩ := renderOutputs_ok.mp rendered
    have exported := (List.of_mem_zip member).2
    obtain ⟨document, paired⟩ := exists_zip_of_mem written
      (List.mem_filter.mpr ⟨exported, by simpa using isPage⟩)
    obtain ⟨own, contents, named, -, rfl⟩ :=
      pageOutput_ok.mp ((List.forall₂_iff_zip.mp written).2 paired)
    -- a page that is rendered has kept the name of its definition
    obtain rfl : own = name := by
      have defined := (List.forall₂_iff_zip.mp (checked.defined holds.distinct exports)).2 member
      rw [named] at defined
      split_ifs at defined
      exact Option.some.inj defined
    refine ⟨named, fun path among => reported path ?_⟩
    rcases List.mem_cons.mp among with rfl | loaded
    · have document := List.mem_map_of_mem (f := Output.path) (List.of_mem_zip paired).2
      rw [List.map_append, List.append_assoc]
      exact List.mem_append_left _ document
    · by_cases shared : path ∈ session.config.defaultScripts
      · simp only [Config.defaultScripts, List.mem_cons, List.not_mem_nil, or_false] at shared
        rcases shared with rfl | rfl <;> simp
      · have needed := files.mpr ⟨shared, page, exported, isPage, loaded⟩
        simp [needed]

/-- A page with a style sheet, which names a script that every page loads. -/
def styledPage : String :=
  "page defines: \"home\", style_sheets: [\"a.css\"], scripts: [\"instantiate.js\"], body: \x7b \x7d"

def styleTree : FileTree :=
  FileTree.empty.place "a.css" (some "p".toUTF8)

theorem page_resources_deployed_home :
    ∃ set session', ∃ table : Table,
      Session.analyze (Session.ofSource styledPage) = .ok set session' ∧
      (∃ page ∈ set.exports, page.kind = "page" ∧
        page.texts "scripts" = ["wsc_runtime.js", "instantiate.js"]) ∧
      set.files.Nodup ∧
      (∀ file, file ∈ set.files ↔ file ∉ ["wsc_runtime.js", "instantiate.js"] ∧
        ∃ page ∈ set.exports, page.kind = "page" ∧
          (file ∈ page.texts "style_sheets" ∨ file ∈ page.texts "scripts")) ∧
      ∃ report tree', deploy {} ⟨⟨2026, 1, 1⟩, 0, 0, 0, 0⟩ set styleTree = .ok report tree' ∧
        ∀ name page, (name, page) ∈ table.exportNames.zip set.exports → page.kind = "page" →
          page.defines? = some name ∧
          ∀ path ∈ (name ++ ".html") :: (page.texts "style_sheets" ++ page.texts "scripts"),
            ∃ file ∈ report.files, file.path = path := by
  have analyzed : (Session.ofSource styledPage).exportSet?.any (fun set =>
      (set.exports.any fun page => page.kind = "page" &&
        page.texts "scripts" = ["wsc_runtime.js", "instantiate.js"]) &&
      (deployReport? {} ⟨⟨2026, 1, 1⟩, 0, 0, 0, 0⟩ set styleTree).any fun _ => true) = true := by
    decide +kernel
  obtain ⟨set, session', run, tests⟩ := Session.analyze_of_any analyzed
  obtain ⟨scripts, deployed⟩ := Bool.and_eq_true_iff.mp tests
  obtain ⟨report, tree', ran, -⟩ := deploy_of_any deployed
  have resources := page_resources_deployed (.ofSource styledPage) run
  rw [Session.ofSource, Session.after_parse_config] at resources
  obtain ⟨table, -, -, distinct, files, reported⟩ := resources
  exact ⟨set, session', table, run, by simpa using scripts, distinct, files, report, tree', ran,
    reported _ _ report tree' ran⟩

end Pagewright
