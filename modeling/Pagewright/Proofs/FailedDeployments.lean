import Pagewright.Proofs.ManifestFiles
import Pagewright.Proofs.WriteReach

/-!
# Deployments that fail

A deployment writes as it goes and takes nothing back. If it fails, the files that
were to be written before stay, and so does the one that was being written if it could
not be renamed. The main result, `failed_deployment_leaves`, says which files there
are in the end, and that they are those from before the deployment only if nothing had
been written yet.
-/

namespace Pagewright

open Outcome

variable {tree : FileTree} {now : Timestamp} {config : Config} {written : List Item} {name : String}
  {set : ExportSet} {outputs : List Output}

/-! ### Files after some writes -/

/-- The files once some more have been written below a directory, one after the other. -/
def replayed (atomic : Bool) (base : Location) (files : Location → Option ByteArray)
    (items : List (String × ByteArray)) : Location → Option ByteArray :=
  items.foldl (fun files item => received atomic files (base ++ Path.names item.1) item.2) files

private theorem Writer.WritesAll.fileAt? {w w' : Writer} {items : List (String × ByteArray)}
    (runs : WritesAll w items w') :
    w'.tree.fileAt? = replayed w.atomic (w.tree.base w.root) w.tree.fileAt? items := by
  induction runs with
  | nil => rfl
  | cons first _ ih =>
    rw [ih, first.receives.fileAt?, first.atomic, first.root,
      FileTree.base_congr first.receives.current]
    rfl

/-- The file that was written last is there. -/
theorem replayed_concat (atomic : Bool) (base : Location) (files : Location → Option ByteArray)
    (items : List (String × ByteArray)) (path : String) (content : ByteArray) :
    replayed atomic base files (items ++ [(path, content)]) (base ++ Path.names path) =
      some content := by
  rw [replayed, List.foldl_append]
  exact Function.update_self ..

namespace Deployment

/-! ### Steps that fail -/

variable {config : Config} {set : ExportSet} {path : String} {content : ByteArray} {error : Error}
  {d d' : Deployment}

private theorem writeOnce_error (failed : writeOnce path content d = .error error d') :
    d.writer.Abandons path content d'.writer := by
  unfold writeOnce at failed
  split_ifs at failed
  · cases failed
    exact .early rfl (.refl _)
  · split at failed
    · cases failed
    · next run =>
      cases failed
      exact Writer.write_error run

private theorem add_error {origin : Origin} (failed : add origin path content d = .error error d') :
    d.writer.Abandons path content d'.writer := by
  rcases bind_error.mp failed with once | ⟨_, _, -, changed⟩
  · exact writeOnce_error once
  · exact (modify_error.mp changed).elim

private theorem copy_error (failed : copy config name d = .error error d') :
    ∃ content, d.writer.Abandons name content d'.writer := by
  rcases bind_error.mp failed with got | ⟨_, _, got, failed⟩
  · exact (get_error.mp got).elim
  obtain ⟨rfl, rfl⟩ := get_ok.mp got
  rcases bind_error.mp failed with missing | ⟨⟨_, content⟩, _, found, added⟩
  · obtain ⟨-, rfl⟩ := ofExcept_error.mp missing
    exact ⟨.empty, .early rfl (.refl _)⟩
  · obtain ⟨-, rfl⟩ := ofExcept_ok.mp found
    exact ⟨content, add_error added⟩

private theorem writeManifest_error (failed : writeManifest d = .error error d') :
    ∃ content, d.writer.Abandons manifestName content d'.writer := by
  rcases bind_error.mp failed with got | ⟨_, _, got, failed⟩
  · exact (get_error.mp got).elim
  obtain ⟨rfl, rfl⟩ := get_ok.mp got
  rcases bind_error.mp failed with written | ⟨_, _, -, given⟩
  · exact ⟨_, writeOnce_error (map_error.mp written)⟩
  · exact (pure_error.mp given).elim

end Deployment

/-! ### Plans -/

def Output.item (output : Output) : Deployment.Item :=
  ⟨.generated, output.path, output.contents.toUTF8⟩

namespace Deployment

def supportItem (config : Config) : Item :=
  ⟨.runtime, config.runtimeScript, supportScript.toUTF8⟩

def plan (config : Config) (outputs : List Output) (copies : List Item) : List Item :=
  outputs.map Output.item ++ supportItem config :: copies

def planPaths (config : Config) (outputs : List Output) (files : List String) : List String :=
  outputs.map Output.path ++ config.runtimeScript :: files ++
    if config.writeManifest then [manifestName] else []

variable {config : Config} {set : ExportSet} {error : Error} {d d' : Deployment}

/-- A deployment stops at one of its paths, after it has added what comes before. -/
structure StopsAt (config : Config) (set : ExportSet) (outputs : List Output) (d : Deployment)
    (written : List Item) (path : String) (content : ByteArray) (d' : Deployment) : Prop where
  reached : written.map Item.path ++ [path] <+: planPaths config outputs set.files
  planned : ∃ copies, copies.map Item.path <+: set.files ∧ written <+: plan config outputs copies
  stopped : ∃ last, Adds d written last ∧ last.writer.Abandons path content d'.writer

section

variable {outputs : List Output} {copies : List Item} {content : ByteArray} {last : Deployment}

private theorem map_path_item (outputs : List Output) :
    (outputs.map Output.item).map Item.path = outputs.map Output.path := by
  rw [List.map_map]
  rfl

private theorem plan_paths (config : Config) (outputs : List Output) (copies : List Item) :
    (plan config outputs copies).map Item.path =
      outputs.map Output.path ++ config.runtimeScript :: copies.map Item.path := by
  rw [plan, List.map_append, map_path_item]
  rfl

private theorem StopsAt.of_output {before rest : List Output} {output : Output}
    (split : outputs = before ++ output :: rest) (adds : Adds d (before.map Output.item) last)
    (abandons : last.writer.Abandons output.path content d'.writer) :
    StopsAt config set outputs d (before.map Output.item) output.path content d' where
  reached := by
    rw [map_path_item, planPaths, split, List.map_append, List.append_assoc, List.append_assoc]
    exact (List.prefix_append_right_inj _).mpr ⟨_, rfl⟩
  planned := by
    refine ⟨[], List.nil_prefix, ?_⟩
    rw [plan, split, List.map_append, List.append_assoc]
    exact List.prefix_append _ _
  stopped := ⟨last, adds, abandons⟩

private theorem StopsAt.of_support (adds : Adds d (outputs.map Output.item) last)
    (abandons : last.writer.Abandons config.runtimeScript content d'.writer) :
    StopsAt config set outputs d (outputs.map Output.item) config.runtimeScript content d' where
  reached := by
    rw [map_path_item, planPaths, List.append_assoc]
    exact (List.prefix_append_right_inj _).mpr ⟨_, rfl⟩
  planned := ⟨[], List.nil_prefix, List.prefix_append _ _⟩
  stopped := ⟨last, adds, abandons⟩

private theorem StopsAt.of_copy {before rest : List String}
    (split : set.files = before ++ name :: rest) (named : copies.map Item.path = before)
    (adds : Adds d (plan config outputs copies) last)
    (abandons : last.writer.Abandons name content d'.writer) :
    StopsAt config set outputs d (plan config outputs copies) name content d' where
  reached := by
    rw [plan_paths, planPaths, named, split]
    exact ⟨rest ++ if config.writeManifest then [manifestName] else [], by simp⟩
  planned := ⟨copies, by rw [named, split]; exact List.prefix_append _ _, List.prefix_refl _⟩
  stopped := ⟨last, adds, abandons⟩

private theorem StopsAt.of_manifest (listed : config.writeManifest = true)
    (named : copies.map Item.path = set.files) (adds : Adds d (plan config outputs copies) last)
    (abandons : last.writer.Abandons manifestName content d'.writer) :
    StopsAt config set outputs d (plan config outputs copies) manifestName content d' where
  reached := by
    rw [plan_paths, planPaths, named, if_pos listed]
  planned := ⟨copies, by rw [named], List.prefix_refl _⟩
  stopped := ⟨last, adds, abandons⟩

end

private theorem adds_outputs
    (runs : Runs (fun output => add .generated output.path output.contents.toUTF8) outputs d d') :
    Adds d (outputs.map Output.item) d' := by
  obtain ⟨written, adds, same⟩ :=
    runs_adds id Output.item (fun _ _ _ ran => ⟨_, add_ok ran, rfl⟩) runs
  rw [List.map_id] at same
  exact same ▸ adds

private theorem adds_copies {names : List String} (runs : Runs (copy config) names d d') :
    ∃ copies, Adds d copies d' ∧ copies.map Item.path = names := by
  obtain ⟨copies, adds, named⟩ := runs_adds Item.path id (fun _ _ _ ran => copy_ok ran) runs
  rw [List.map_id] at named
  exact ⟨copies, adds, named⟩

/-- A deployment fails before it has written anything, or at one of its paths. -/
theorem run_error (failed : run config set d = .error error d') :
    (∃ fault, renderOutputs config set.exports = .error fault) ∧ d' = d ∨
      ∃ outputs written path content, renderOutputs config set.exports = .ok outputs ∧
        StopsAt config set outputs d written path content d' := by
  rcases bind_error.mp failed with rendering | ⟨outputs, _, given, failed⟩
  · obtain ⟨fault, rfl⟩ := ofExcept_error.mp rendering
    exact .inl ⟨⟨_, fault⟩, rfl⟩
  obtain ⟨rendered, rfl⟩ := ofExcept_ok.mp given
  refine .inr ⟨outputs, ?_⟩
  -- in the order of the steps: a later one fails only where all before have been added
  rcases bind_error.mp failed with generating | ⟨_, _, generated, failed⟩
  · obtain ⟨before, output, rest, last, split, runs, stopped⟩ := forM_error generating
    exact ⟨_, _, _, rendered, .of_output split (adds_outputs runs) (add_error stopped)⟩
  have adds := adds_outputs (forM_ok.mp generated)
  rcases bind_error.mp failed with supporting | ⟨_, d₂, supported, failed⟩
  · exact ⟨_, _, _, rendered, .of_support adds (add_error supporting)⟩
  rcases bind_error.mp failed with copying | ⟨_, d₃, copied, failed⟩
  · obtain ⟨before, name, rest, last, split, runs, stopped⟩ := forM_error copying
    obtain ⟨copies, more, named⟩ := adds_copies runs
    obtain ⟨content, abandons⟩ := copy_error stopped
    exact ⟨_, _, _, rendered,
      .of_copy split named (adds.append (.cons (add_ok supported) more)) abandons⟩
  obtain ⟨copies, more, named⟩ := adds_copies (forM_ok.mp copied)
  have all := adds.append (.cons (add_ok supported) more)
  -- the manifest is the last file, and nothing can fail behind it
  have finished : ∀ (manifest : Option Manifest) (d : Deployment),
      ¬ (do
        let deployment ← get
        return {
          files := deployment.files
          filesCreated := deployment.writer.filesCreated
          bytesWritten := deployment.writer.bytesWritten
          manifest } : Deploying DeployReport) d = .error error d' := by
    intro manifest d failed
    rcases bind_error.mp failed with got | ⟨_, _, -, given⟩
    · exact get_error.mp got
    · exact pure_error.mp given
  by_cases listed : config.writeManifest = true
  · rw [if_pos listed] at failed
    rcases bind_error.mp failed with writing | ⟨_, _, -, failed⟩
    · obtain ⟨content, abandons⟩ := writeManifest_error (map_error.mp writing)
      exact ⟨_, _, _, rendered, .of_manifest listed named all abandons⟩
    · exact (finished _ _ failed).elim
  · rw [if_neg listed] at failed
    rcases bind_error.mp failed with given | ⟨_, _, -, failed⟩
    · exact (pure_error.mp given).elim
    · exact (finished _ _ failed).elim

/-! ### What stays -/

/-- The files once `written` have been written and one more has stayed beside its place. -/
def leftover (config : Config) (tree : FileTree) (written : List Item)
    (stray? : Option (String × ByteArray)) : Location → Option ByteArray :=
  let files := replayed config.atomicWrite (tree.base config.outputRoot) tree.fileAt?
    (written.map Item.file)
  match stray? with
  | none => files
  | some (path, content) =>
    Function.update files (tree.base (Writer.temporary (Path.join config.outputRoot path)))
      (some content)

def touched (config : Config) (tree : FileTree) (written : List Item)
    (stray? : Option (String × ByteArray)) : List Location :=
  (written.map fun item => tree.base config.outputRoot ++ Path.names item.path) ++
    stray?.toList.map fun stray =>
      tree.base (Writer.temporary (Path.join config.outputRoot stray.1))

/-- Where there were no files before, every file that stays makes a difference. -/
theorem leftover_eq_iff {stray? : Option (String × ByteArray)}
    (vacant : ∀ location ∈ touched config tree written stray?, tree.fileAt? location = none) :
    leftover config tree written stray? = tree.fileAt? ↔ written = [] ∧ stray? = none := by
  constructor
  · intro same
    cases stray? with
    | some stray =>
      have there := congrFun same
        (tree.base (Writer.temporary (Path.join config.outputRoot stray.1)))
      rw [vacant _ (by simp [touched]), leftover, Function.update_self] at there
      cases there
    | none =>
      refine ⟨?_, rfl⟩
      -- the file that was written last cannot have been written over
      rcases List.eq_nil_or_concat' written with nothing | ⟨front, item, rfl⟩
      · exact nothing
      · have there := congrFun same (tree.base config.outputRoot ++ Path.names item.path)
        rw [vacant _ (by simp [touched]), leftover, List.map_append] at there
        exact absurd (there.symm.trans (replayed_concat ..)) (by simp)
  · rintro ⟨rfl, rfl⟩
    rfl

/-- A deployment may have come this far: it has written what stands first in its plan, and with
atomic writes it may have begun to write what is next. -/
structure Interrupts (config : Config) (set : ExportSet) (written : List Item)
    (stray? : Option (String × ByteArray)) : Prop where
  unrendered : ∀ fault, renderOutputs config set.exports = .error fault →
    written = [] ∧ stray? = none
  planned : ∀ outputs, renderOutputs config set.exports = .ok outputs →
    ∃ copies, copies.map Item.path <+: set.files ∧ written <+: plan config outputs copies
  next : ∀ outputs stray, renderOutputs config set.exports = .ok outputs → stray? = some stray →
    config.atomicWrite = true ∧
      written.map Item.path ++ [stray.1] <+: planPaths config outputs set.files

private theorem StopsAt.leaves {path : String} {content : ByteArray}
    (rendered : renderOutputs config set.exports = .ok outputs)
    (stops : StopsAt config set outputs (start config now tree) written path content d') :
    ∃ stray?, Interrupts config set written stray? ∧
      d'.writer.tree.fileAt? = leftover config tree written stray? := by
  obtain ⟨last, adds, abandons⟩ := stops.stopped
  obtain ⟨root, atomic, current, -⟩ := adds.writes.kept
  have files := adds.writes.fileAt?
  -- the outputs are known, so only what stays beside its place is still open
  have interrupts {stray? : Option (String × ByteArray)}
      (next : ∀ stray, stray? = some stray → config.atomicWrite = true ∧ stray.1 = path) :
      Interrupts config set written stray? := by
    refine ⟨fun fault failed => ?_, fun outputs' ok => ?_, fun outputs' stray ok found => ?_⟩
    · rw [rendered] at failed
      cases failed
    · cases rendered.symm.trans ok
      exact stops.planned
    · cases rendered.symm.trans ok
      obtain ⟨written, rfl⟩ := next stray found
      exact ⟨written, stops.reached⟩
  rcases abandons.fileAt? with same | ⟨inTwoSteps, -, beside⟩
  · exact ⟨none, interrupts (by simp), by rw [same, files]; rfl⟩
  · refine ⟨some (path, content), interrupts ?_, ?_⟩
    · intro stray found
      cases found
      exact ⟨atomic.symm.trans inTwoSteps, rfl⟩
    · rw [beside, files, Writer.besidePlace, root, FileTree.base_congr current]
      rfl

end Deployment

open Deployment

private theorem deploy_error {error : Error} {tree' : FileTree}
    (failed : deploy config now set tree = .error error tree') :
    ∃ last, run config set (start config now tree) = .error error last ∧
      tree' = last.writer.tree := by
  unfold deploy at failed
  split at failed
  · cases failed
  · next ran =>
    cases failed
    exact ⟨_, ran, rfl⟩

/-- A deployment that fails leaves what it has written so far. If there were no files in these
places before, the files are those from before the deployment exactly if nothing was written. -/
theorem failed_deployment_leaves {config : Config} {now : Timestamp} {set : ExportSet}
    {error : Error} {tree tree' : FileTree}
    (failed : deploy config now set tree = .error error tree') :
    ∃ written stray?, Interrupts config set written stray? ∧
      tree'.fileAt? = leftover config tree written stray? ∧
      ((∀ location ∈ touched config tree written stray?, tree.fileAt? location = none) →
        (tree'.fileAt? = tree.fileAt? ↔ written = [] ∧ stray? = none)) := by
  obtain ⟨last, ran, rfl⟩ := deploy_error failed
  rcases run_error ran with ⟨⟨fault, unrendered⟩, rfl⟩ | ⟨outputs, written, path, content, rendered,
    stops⟩
  · refine ⟨[], none, ⟨fun _ _ => ⟨rfl, rfl⟩, ?_, ?_⟩, rfl, fun _ => by simp [start]⟩
    · intro outputs ok
      rw [unrendered] at ok
      cases ok
    · rintro outputs stray - ⟨⟩
  · obtain ⟨stray?, interrupts, files⟩ := stops.leaves rendered
    refine ⟨written, stray?, interrupts, files, fun vacant => ?_⟩
    rw [files, leftover_eq_iff vacant]

def failedTree? (config : Config) (now : Timestamp) (set : ExportSet) (tree : FileTree) :
    Option FileTree :=
  match deploy config now set tree with
  | .ok _ _ => none
  | .error _ tree' => some tree'

private theorem deploy_of_failedTree? {test : FileTree → Bool}
    (passed : (failedTree? config now set tree).any test = true) :
    ∃ error tree', deploy config now set tree = .error error tree' ∧ test tree' = true := by
  unfold failedTree? at passed
  cases ran : deploy config now set tree with
  | ok report tree' => simp [ran] at passed
  | error error tree' => exact ⟨error, tree', rfl, by simpa [ran] using passed⟩

private theorem FileTree.fileAt?_empty (location : Location) :
    FileTree.empty.fileAt? location = none := by
  unfold fileAt? at? empty
  cases location with
  | nil => rfl
  | cons first rest =>
    by_cases work : first = "work"
    · subst work
      cases rest <;> simp [FileEntry.at?]
    · simp [FileEntry.at?, Entries.lookup_cons_of_ne work]

theorem failed_deployment_leaves_scripts :
    ∃ error tree' written stray?,
      deploy {} ⟨⟨2026, 1, 1⟩, 0, 0, 0, 0⟩ ⟨[], ["a.css"]⟩ .empty = .error error tree' ∧
      Interrupts {} ⟨[], ["a.css"]⟩ written stray? ∧
      tree'.fileAt? = leftover {} .empty written stray? ∧ ¬ (written = [] ∧ stray? = none) := by
  have failed : (failedTree? {} ⟨⟨2026, 1, 1⟩, 0, 0, 0, 0⟩ ⟨[], ["a.css"]⟩ .empty).any (fun tree' =>
      (tree'.fileAt? ["work", "wsc-output", "instantiate.js"]).isSome) = true := by
    decide +kernel
  obtain ⟨error, tree', run, there⟩ := deploy_of_failedTree? failed
  obtain ⟨written, stray?, interrupts, files, unchanged⟩ := failed_deployment_leaves run
  refine ⟨error, tree', written, stray?, run, interrupts, files, fun nothing => ?_⟩
  rw [(unchanged fun location _ => FileTree.fileAt?_empty location).mpr nothing,
    FileTree.fileAt?_empty] at there
  cases there

/-- A page that loads a file that is not there. -/
def missingSheet : String :=
  "page defines: \"home\", style_sheets: [\"a.css\"], body: \x7b \x7d"

/-- The deployment fails when the page has been written already, and the page stays. -/
theorem missingSheet_leaves_page :
    ∃ set session' error tree',
      Session.analyze (Session.ofSource missingSheet) = .ok set session' ∧
      deploy {} ⟨⟨2026, 1, 1⟩, 0, 0, 0, 0⟩ set .empty = .error error tree' ∧
      tree'.fileAt? ["work", "wsc-output", "home.html"] ≠
        FileTree.empty.fileAt? ["work", "wsc-output", "home.html"] := by
  have analyzed : (Session.ofSource missingSheet).exportSet?.any (fun set =>
      (failedTree? {} ⟨⟨2026, 1, 1⟩, 0, 0, 0, 0⟩ set .empty).any fun tree' =>
        (tree'.fileAt? ["work", "wsc-output", "home.html"]).isSome) = true := by
    decide +kernel
  obtain ⟨set, session', analyzed, tested⟩ := Session.analyze_of_any analyzed
  obtain ⟨error, tree', run, there⟩ := deploy_of_failedTree? tested
  refine ⟨set, session', error, tree', analyzed, run, ?_⟩
  rw [FileTree.fileAt?_empty]
  exact Option.isSome_iff_ne_none.mp there

end Pagewright
