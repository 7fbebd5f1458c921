import Mathlib.Data.UInt
import Pagewright.Deploy.Deployment
import Pagewright.Proofs.Outcome

/-!
# The steps of a deployment

A deployment adds files one after the other and then may write a manifest of them.
`Adds` follows the files that are added, and what it leaves in the report and in the
manifest is read off them.
-/

namespace Pagewright

open Outcome

variable {config : Config} {d d' last : Deployment} {w w' : Writer} {path : String}
  {content : ByteArray} {set : ExportSet} {tree : FileTree} {file : WrittenFile}
  {report : DeployReport} {now : Timestamp}

namespace Writer

theorem change_ok {operation : FileTree → Except FileFault FileTree} :
    change operation w = .ok () w' ↔
      ∃ tree, operation w.tree = .ok tree ∧ w' = { w with tree } := by
  unfold change
  cases operation w.tree with
  | error fault => simp
  | ok tree => simp [eq_comm]

/-- The directory that a target lies in is made if it is not there. -/
def MakesParent (tree : FileTree) (target : String) (made : FileTree) : Prop :=
  match Path.parent? target with
  | none => made = tree
  | some parent => tree.makeDirectories (Path.route parent) = (made, .ok ())

theorem makeParent_ok {target : String} :
    makeParent target w = .ok () w' ↔
      ∃ tree, MakesParent w.tree target tree ∧ w' = { w with tree } := by
  unfold makeParent MakesParent
  cases Path.parent? target with
  | none =>
    simp only [EStateM.Result.ok.injEq, true_and, exists_eq_left]
    exact eq_comm
  | some parent =>
    simp only
    generalize w.tree.makeDirectories (Path.route parent) = result
    obtain ⟨made, outcome⟩ := result
    cases outcome with
    | error fault => simp
    | ok _ => simp [eq_comm]

def WritesFile (atomic : Bool) (tree : FileTree) (target : String) (content : ByteArray)
    (tree' : FileTree) : Prop :=
  if atomic then
    ∃ beside, tree.write (Path.route (temporary target)) content = .ok beside ∧
      beside.rename (Path.route (temporary target)) (Path.route target) = .ok tree'
  else tree.write (Path.route target) content = .ok tree'

/-- A write makes the directories above its file, writes the file and counts it. -/
theorem write_ok (run : write path content w = .ok file w') :
    isBelow path = true ∧ file = ⟨path, content.size.toUInt64, digest content⟩ ∧
      ∃ made tree, MakesParent w.tree (Path.join w.root path) made ∧
        WritesFile w.atomic made (Path.join w.root path) content tree ∧
        w' = { w with
          tree
          filesCreated := w.filesCreated + 1
          bytesWritten := w.bytesWritten + content.size } := by
  unfold write at run
  split_ifs at run with outside
  · obtain ⟨_, _, thrown, -⟩ := bind_ok.mp run
    exact (throw_ok.mp thrown).elim
  have below : isBelow path = true := by simpa using outside
  obtain ⟨writer, _, got, run⟩ := bind_ok.mp run
  obtain ⟨rfl, rfl⟩ := get_ok.mp got
  obtain ⟨_, _, parent, run⟩ := bind_ok.mp run
  obtain ⟨made, makes, rfl⟩ := makeParent_ok.mp parent
  refine ⟨below, ?_⟩
  -- the two ways to write differ in the middle only
  cases atomic : w.atomic with
  | false =>
    rw [atomic, if_neg (by simp)] at run
    obtain ⟨_, _, changed, run⟩ := bind_ok.mp run
    obtain ⟨tree, written, rfl⟩ := change_ok.mp changed
    obtain ⟨_, _, modified, run⟩ := bind_ok.mp run
    obtain rfl := modify_ok.mp modified
    obtain ⟨rfl, rfl⟩ := pure_ok.mp run
    exact ⟨rfl, made, tree, makes, written, rfl⟩
  | true =>
    rw [atomic, if_pos rfl] at run
    obtain ⟨_, _, changed, run⟩ := bind_ok.mp run
    obtain ⟨beside, written, rfl⟩ := change_ok.mp changed
    obtain ⟨_, _, changed, run⟩ := bind_ok.mp run
    obtain ⟨tree, renamed, rfl⟩ := change_ok.mp changed
    obtain ⟨_, _, modified, run⟩ := bind_ok.mp run
    obtain rfl := modify_ok.mp modified
    obtain ⟨rfl, rfl⟩ := pure_ok.mp run
    exact ⟨rfl, made, tree, makes, ⟨beside, written, renamed⟩, rfl⟩

end Writer

namespace Deployment

structure Item where
  origin : Origin
  path : String
  content : ByteArray

def Item.written (item : Item) : WrittenFile :=
  ⟨item.path, item.content.size.toUInt64, digest item.content⟩

def Item.entry (item : Item) : ManifestFile :=
  ⟨item.path, item.content.size.toUInt64, digest item.content, item.origin⟩

/-- No path is written twice. -/
theorem writeOnce_ok :
    writeOnce path content d = .ok file d' ↔ (∀ other ∈ d.files, other.path ≠ path) ∧
      ∃ writer, Writer.write path content d.writer = .ok file writer ∧
        d' = { d with writer, files := d.files ++ [file] } := by
  unfold writeOnce
  split_ifs with repeated
  · simp only [List.any_eq_true, decide_eq_true_eq] at repeated
    refine iff_of_false (by simp) ?_
    rintro ⟨fresh, -⟩
    obtain ⟨other, member, same⟩ := repeated
    exact absurd same (fresh other member)
  · have fresh : ∀ other ∈ d.files, other.path ≠ path := by simpa using repeated
    rw [and_iff_right fresh]
    cases Writer.write path content d.writer with
    | error fault writer => simp
    | ok written writer =>
      simp only [EStateM.Result.ok.injEq]
      constructor
      · rintro ⟨rfl, rfl⟩
        exact ⟨writer, ⟨rfl, rfl⟩, rfl⟩
      · rintro ⟨_, ⟨rfl, rfl⟩, rfl⟩
        exact ⟨rfl, rfl⟩

/-- A step adds an item: nothing is written over under its path, and it is recorded. -/
structure AddsOne (d : Deployment) (item : Item) (d' : Deployment) : Prop where
  fresh : ∀ other ∈ d.files, other.path ≠ item.path
  write : Writer.write item.path item.content d.writer = .ok item.written d'.writer
  files : d'.files = d.files ++ [item.written]
  manifest : d'.manifest = d.manifest.addFile item.written item.origin

theorem add_ok {origin : Origin} (run : add origin path content d = .ok () d') :
    AddsOne d ⟨origin, path, content⟩ d' := by
  obtain ⟨file, _, once, changed⟩ := bind_ok.mp run
  obtain ⟨fresh, writer, written, rfl⟩ := writeOnce_ok.mp once
  obtain rfl := modify_ok.mp changed
  obtain rfl := (Writer.write_ok written).2.1
  exact ⟨fresh, written, rfl, rfl⟩

inductive Adds : Deployment → List Item → Deployment → Prop
  | nil (d : Deployment) : Adds d [] d
  | cons {d d' d'' : Deployment} {item : Item} {items : List Item} (first : AddsOne d item d')
      (rest : Adds d' items d'') : Adds d (item :: items) d''

section

variable {d d' d'' : Deployment} {items more : List Item}

theorem Adds.append (first : Adds d items d') (second : Adds d' more d'') :
    Adds d (items ++ more) d'' := by
  induction first with
  | nil => exact second
  | cons one _ ih => exact .cons one (ih second)

/-- Files are listed in the order in which they are written. -/
theorem Adds.files (adds : Adds d items d') : d'.files = d.files ++ items.map Item.written := by
  induction adds with
  | nil => simp
  | cons first _ ih => rw [ih, first.files, List.append_assoc]; rfl

theorem Adds.manifest_files (adds : Adds d items d') :
    d'.manifest.files = d.manifest.files ++ items.map Item.entry := by
  induction adds with
  | nil => simp
  | cons first _ ih => rw [ih, first.manifest, Manifest.addFile, List.append_assoc]; rfl

/-- The size in a manifest is that of all its files. -/
theorem Adds.totalSize (adds : Adds d items d')
    (sum : d.manifest.totalSize = (d.manifest.files.map ManifestFile.size).sum) :
    d'.manifest.totalSize = (d'.manifest.files.map ManifestFile.size).sum := by
  induction adds with
  | nil => exact sum
  | cons first _ ih =>
    apply ih
    rw [first.manifest, Manifest.addFile, List.map_append, List.sum_append, sum]
    simp

theorem Adds.distinct (adds : Adds d items d') (distinct : (d.files.map WrittenFile.path).Nodup) :
    (d'.files.map WrittenFile.path).Nodup := by
  induction adds with
  | nil => exact distinct
  | @cons d d' d'' item items first _ ih =>
    apply ih
    rw [first.files, List.map_append]
    refine List.nodup_append.mpr ⟨distinct, by simp, ?_⟩
    rintro path member _ last rfl
    obtain ⟨other, among, rfl⟩ := List.mem_map.mp member
    exact first.fresh other among (by simpa [Item.written] using last)

/-- What a list of items is made from is added if each of it is. -/
theorem runs_adds {α β : Type} {step : α → Deploying PUnit} (view : Item → β) (aim : α → β)
    (each : ∀ x d d', step x d = .ok ⟨⟩ d' → ∃ item, AddsOne d item d' ∧ view item = aim x)
    {xs : List α} (runs : Runs step xs d d') :
    ∃ items, Adds d items d' ∧ items.map view = xs.map aim := by
  induction runs with
  | nil d => exact ⟨[], .nil d, rfl⟩
  | @cons x xs d d' d'' first _ ih =>
    obtain ⟨item, one, named⟩ := each _ _ _ first
    obtain ⟨items, adds, paths⟩ := ih
    exact ⟨item :: items, .cons one adds, by simp [named, paths]⟩

end

/-- What is copied is added under its own name. -/
theorem copy_ok {name : String} (run : copy config name d = .ok () d') :
    ∃ item, AddsOne d item d' ∧ item.path = name := by
  obtain ⟨_, _, got, run⟩ := bind_ok.mp run
  obtain ⟨rfl, rfl⟩ := get_ok.mp got
  obtain ⟨⟨path, content⟩, _, found, added⟩ := bind_ok.mp run
  obtain ⟨-, rfl⟩ := ofExcept_ok.mp found
  exact ⟨_, add_ok added, rfl⟩

/-- The manifest, if there is to be one, is written behind everything it lists. -/
inductive Finishes (config : Config) (d : Deployment) : Option Manifest → Deployment → Prop
  | listed {file : WrittenFile} {last : Deployment} (wanted : config.writeManifest = true)
      (written : writeOnce manifestName d.manifest.render.toUTF8 d = .ok file last) :
      Finishes config d (some d.manifest) last
  | unlisted (unwanted : config.writeManifest = false) : Finishes config d none d

theorem Finishes.files {manifest : Option Manifest} (finishes : Finishes config d manifest last) :
    ∃ more, last.files = d.files ++ more := by
  cases finishes with
  | unlisted => exact ⟨[], by simp⟩
  | @listed file _ _ written =>
    obtain ⟨-, _, -, rfl⟩ := writeOnce_ok.mp written
    exact ⟨[file], rfl⟩

/-- A deployment adds the generated files, the support script and the copied files, in this order,
and then finishes. -/
theorem run_ok (run : run config set d = .ok report last) :
    ∃ outputs items added, renderOutputs config set.exports = .ok outputs ∧
      items.map Item.path = outputs.map Output.path ++ config.runtimeScript :: set.files ∧
      Adds d items added ∧ Finishes config added report.manifest last ∧
      report.files = last.files := by
  obtain ⟨outputs, _, given, run⟩ := bind_ok.mp run
  obtain ⟨rendered, rfl⟩ := ofExcept_ok.mp given
  obtain ⟨_, d₁, generated, run⟩ := bind_ok.mp run
  obtain ⟨_, d₂, runtime, run⟩ := bind_ok.mp run
  obtain ⟨_, d₃, copied, run⟩ := bind_ok.mp run
  obtain ⟨first, adds, paths⟩ := runs_adds Item.path Output.path
    (fun _ _ _ ran => ⟨_, add_ok ran, rfl⟩) (forM_ok.mp generated)
  obtain ⟨copies, more, names⟩ := runs_adds Item.path id (fun _ _ _ ran => copy_ok ran)
    (forM_ok.mp copied)
  -- the support script stands between the generated and the copied files
  have all := adds.append (.cons (add_ok runtime) more)
  refine ⟨outputs, _, d₃, rendered, by simp [paths, names], all, ?_⟩
  cases wanted : config.writeManifest with
  | false =>
    rw [wanted, if_neg (by simp)] at run
    obtain ⟨_, _, nothing, run⟩ := bind_ok.mp run
    obtain ⟨rfl, rfl⟩ := pure_ok.mp nothing
    obtain ⟨_, _, got, run⟩ := bind_ok.mp run
    obtain ⟨rfl, rfl⟩ := get_ok.mp got
    obtain ⟨rfl, rfl⟩ := pure_ok.mp run
    exact ⟨.unlisted wanted, rfl⟩
  | true =>
    rw [wanted, if_pos rfl] at run
    obtain ⟨_, _, finished, run⟩ := bind_ok.mp run
    obtain ⟨manifest, making, rfl⟩ := map_ok.mp finished
    obtain ⟨_, _, got, making⟩ := bind_ok.mp making
    obtain ⟨rfl, rfl⟩ := get_ok.mp got
    obtain ⟨_, _, kept, making⟩ := bind_ok.mp making
    obtain ⟨file, written⟩ := discard_ok.mp kept
    obtain ⟨rfl, rfl⟩ := pure_ok.mp making
    obtain ⟨_, _, got, run⟩ := bind_ok.mp run
    obtain ⟨rfl, rfl⟩ := get_ok.mp got
    obtain ⟨rfl, rfl⟩ := pure_ok.mp run
    exact ⟨.listed wanted written, rfl⟩

end Deployment

theorem deploy_ok {tree' : FileTree} (run : deploy config now set tree = .ok report tree') :
    ∃ last, Deployment.run config set (Deployment.start config now tree) = .ok report last ∧
      tree' = last.writer.tree := by
  unfold deploy at run
  split at run
  · next ran =>
    cases run
    exact ⟨_, ran, rfl⟩
  · cases run

def deployReport? (config : Config) (now : Timestamp) (set : ExportSet) (tree : FileTree) :
    Option DeployReport :=
  match deploy config now set tree with
  | .ok report _ => some report
  | .error _ _ => none

theorem deploy_of_any {test : DeployReport → Bool}
    (passed : (deployReport? config now set tree).any test = true) :
    ∃ report tree', deploy config now set tree = .ok report tree' ∧ test report = true := by
  unfold deployReport? at passed
  cases ran : deploy config now set tree with
  | error fault tree' => simp [ran] at passed
  | ok report tree' => exact ⟨report, tree', rfl, by simpa [ran] using passed⟩

end Pagewright
