import Pagewright.Proofs.DeploymentSteps
import Pagewright.Proofs.PathPlaces

/-!
# What a writer leaves

Writing a file puts it where its path leads, and takes away what was where it was
written first. All other files and all directories stay. Over a run of writes, a file
stays as long as no later one is written to its place or first written there.
-/

namespace Pagewright

open Outcome

variable {atomic : Bool} {content : ByteArray} {made tree : FileTree} {target : String}

/-- A tree has got a file at a location. If the file was written beside it first, what was there
is gone. -/
structure FileTree.Receives (atomic : Bool) (tree : FileTree) (location : Location)
    (content : ByteArray) (tree' : FileTree) : Prop where
  current : tree'.current = tree.current
  directories : ∀ place, tree.sight place = .directory → tree'.sight place = .directory
  files : ∀ place found, tree'.sight place = .file found ↔
    (place = location ∧ found = content) ∨
      (place ≠ location ∧ (atomic = true → place ≠ temporaryPlace location) ∧
        tree.sight place = .file found)

namespace FileTree

variable {tree tree' : FileTree} {route : Path.Route} {location : Location} {content : ByteArray}

private theorem GrowsTo.receives (grows : tree.GrowsTo made) (current : made.current = tree.current)
    (receives : made.Receives atomic location content tree') :
    tree.Receives atomic location content tree' where
  current := receives.current.trans current
  directories := fun place there => receives.directories place (grows.directory there)
  files := by
    intro place found
    rw [receives.files, grows.file_iff]

end FileTree

namespace Writer

theorem MakesParent.grows (makes : MakesParent tree target made) :
    made.current = tree.current ∧ tree.GrowsTo made := by
  unfold MakesParent at makes
  split at makes
  · subst makes
    exact ⟨rfl, .refl _⟩
  · exact FileTree.makeDirectories_grows makes

/-- Directories stay where something else changes. -/
theorem directory_update {sight : Location → Sight} {location place : Location} {seen : Sight}
    (other : sight location ≠ .directory) (there : sight place = .directory) :
    Function.update sight location seen place = .directory := by
  rw [Function.update_of_ne _ seen sight, there]
  rintro rfl
  exact other there

/-- However a file is written, it gets to where its path leads. -/
theorem WritesFile.receives {tree' : FileTree}
    (writes : WritesFile atomic tree target content tree') :
    ∃ location, tree'.Opens (Path.route target) location ∧
      (Path.route target).trailing = false ∧ tree.Receives atomic location content tree' := by
  cases atomic with
  | false =>
    obtain ⟨location, opens, whole, other, current, sight⟩ := FileTree.write_ok writes
    have kept : ∀ place, tree.sight place = .directory → tree'.sight place = .directory := by
      intro place there
      rw [sight]
      exact directory_update other there
    refine ⟨location, opens.mono current kept, whole, current, kept, ?_⟩
    intro place found
    rw [sight, Function.update_apply]
    split_ifs with here <;> simp [here, eq_comm]
  | true =>
    obtain ⟨beside, written, renamed⟩ := writes
    obtain ⟨first, opensFirst, wholeFirst, otherFirst, currentFirst, sightFirst⟩ :=
      FileTree.write_ok written
    have keptFirst : ∀ place, tree.sight place = .directory → beside.sight place = .directory := by
      intro place there
      rw [sightFirst]
      exact directory_update otherFirst there
    -- until it is renamed, the file is seen under its first name
    have there : beside.sight first = .file content := by rw [sightFirst, Function.update_self]
    obtain ⟨location, opens, whole, other, current, sight⟩ :=
      FileTree.rename_ok (opensFirst.mono currentFirst keptFirst) wholeFirst there renamed
    obtain rfl : first = temporaryPlace location := by
      rw [opensFirst.base, ← opens.temporary whole, FileTree.base_congr currentFirst]
    have apart : temporaryPlace location ≠ location := by
      obtain ⟨_, _, rfl, -⟩ := opens.inside
      exact temporaryPlace_ne (by simp)
    have sight := sight apart
    have kept : ∀ place, beside.sight place = .directory → tree'.sight place = .directory := by
      intro place directory
      rw [sight]
      refine directory_update ?_ (directory_update (by simp [there]) directory)
      rwa [Function.update_of_ne apart.symm]
    refine ⟨location, opens.mono current kept, whole, current.trans currentFirst,
      fun place directory => kept place (keptFirst place directory), ?_⟩
    intro place found
    -- at the target, beside it, and everywhere else
    rw [sight, Function.update_apply, Function.update_apply, sightFirst, Function.update_apply]
    split_ifs with here gone
    · simp [here, eq_comm]
    · simp [gone, apart]
    · simp [here, gone]

def place (w : Writer) (path : String) : Location :=
  w.tree.base w.root ++ Path.names path

/-- A writer has written a file where its path leads. -/
structure Wrote (w : Writer) (path : String) (content : ByteArray) (w' : Writer) : Prop where
  root : w'.root = w.root
  atomic : w'.atomic = w.atomic
  named : Path.names path ≠ []
  opens : w'.tree.Opens (Path.route (Path.join w.root path)) (w.place path)
  whole : (Path.route (Path.join w.root path)).trailing = false
  receives : w.tree.Receives w.atomic (w.place path) content w'.tree

theorem wrote_of_ok {path : String} {file : WrittenFile} {w w' : Writer}
    (run : write path content w = .ok file w') : Wrote w path content w' := by
  obtain ⟨below, -, made, tree, makes, writes, rfl⟩ := write_ok run
  obtain ⟨current, grows⟩ := makes.grows
  obtain ⟨location, opens, whole, receives⟩ := writes.receives
  have receives := grows.receives current receives
  obtain rfl : location = w.place path := by
    rw [opens.base, FileTree.base_congr receives.current, FileTree.base_below below, place]
  exact ⟨rfl, rfl, opens.names_ne_nil whole below, opens, whole, receives⟩

/-! ### Runs -/

inductive WritesAll : Writer → List (String × ByteArray) → Writer → Prop
  | nil (w : Writer) : WritesAll w [] w
  | cons {w w' w'' : Writer} {path : String} {content : ByteArray}
      {rest : List (String × ByteArray)} (first : Wrote w path content w')
      (later : WritesAll w' rest w'') : WritesAll w ((path, content) :: rest) w''

section

variable {w w' w'' : Writer} {items more : List (String × ByteArray)} {path : String}
  {content found : ByteArray} {location : Location}

theorem WritesAll.append (first : WritesAll w items w') (second : WritesAll w' more w'') :
    WritesAll w (items ++ more) w'' := by
  induction first with
  | nil => exact second
  | cons one _ ih => exact .cons one (ih second)

private theorem writesAll_append (runs : WritesAll w (items ++ more) w'') :
    ∃ w', WritesAll w items w' ∧ WritesAll w' more w'' := by
  induction items generalizing w with
  | nil => exact ⟨w, .nil w, runs⟩
  | cons item rest ih =>
    cases runs with
    | cons first later =>
      obtain ⟨w', before, behind⟩ := ih later
      exact ⟨w', .cons first before, behind⟩

private theorem Wrote.place_eq (wrote : Wrote w path content w') (other : String) :
    w'.place other = w.place other := by
  rw [place, place, wrote.root, FileTree.base_congr wrote.receives.current]

/-- What every write keeps, a run of writes keeps. -/
theorem WritesAll.kept (runs : WritesAll w items w') :
    w'.root = w.root ∧ w'.atomic = w.atomic ∧ w'.tree.current = w.tree.current ∧
      (∀ location, w.tree.sight location = .directory → w'.tree.sight location = .directory) := by
  induction runs with
  | nil => exact ⟨rfl, rfl, rfl, fun _ there => there⟩
  | cons first _ ih =>
    obtain ⟨root, atomic, current, directories⟩ := ih
    exact ⟨root.trans first.root, atomic.trans first.atomic, current.trans first.receives.current,
      fun location there => directories location (first.receives.directories location there)⟩

private theorem WritesAll.place_eq (runs : WritesAll w items w') (other : String) :
    w'.place other = w.place other := by
  obtain ⟨root, -, current, -⟩ := runs.kept
  rw [place, place, root, FileTree.base_congr current]

/-- A file that is not written over stays as long as no other is written to its place first. -/
theorem WritesAll.file_iff (runs : WritesAll w items w')
    (apart : ∀ item ∈ items, location ≠ w.place item.1) :
    w'.tree.sight location = .file found ↔
      (w.atomic = true → ∀ item ∈ items, location ≠ temporaryPlace (w.place item.1)) ∧
        w.tree.sight location = .file found := by
  induction runs with
  | nil => simp
  | @cons w w₁ w₂ path content rest first _ ih =>
    have here : location ≠ w.place path := apart (path, content) (by simp)
    have later : ∀ item ∈ rest, location ≠ w₁.place item.1 := by
      intro item member
      rw [first.place_eq]
      exact apart item (by simp [member])
    -- the first write is not to this location, so it takes a file away or leaves it
    rw [ih later, first.receives.files, first.atomic]
    simp only [first.place_eq, here, false_and, ne_eq, not_false_eq_true, true_and, false_or,
      List.forall_mem_cons]
    constructor
    · rintro ⟨others, own, there⟩
      exact ⟨fun atomic => ⟨own atomic, others atomic⟩, there⟩
    · rintro ⟨all, there⟩
      exact ⟨fun atomic => (all atomic).2, fun atomic => (all atomic).1, there⟩

/-- What a run leaves of a file that no later one is written over. -/
theorem WritesAll.file_of_mem
    (runs : WritesAll w (items ++ (path, content) :: more) w')
    (apart : ∀ item ∈ more, w.place path ≠ w.place item.1) (found : ByteArray) :
    w'.tree.sight (w.place path) = .file found ↔
      (w.atomic = true → ∀ item ∈ more, w.place path ≠ temporaryPlace (w.place item.1)) ∧
        found = content := by
  obtain ⟨w₁, before, behind⟩ := writesAll_append runs
  cases behind with
  | cons first later =>
    obtain ⟨-, atomic, -⟩ := before.kept
    rw [later.file_iff, first.receives.files]
    · simp [first.place_eq, before.place_eq, first.atomic, atomic]
    · simpa [first.place_eq, before.place_eq] using apart

/-- The way to every file of a run stays open. -/
theorem WritesAll.opens_of_mem (runs : WritesAll w items w') {item : String × ByteArray}
    (member : item ∈ items) : Path.names item.1 ≠ [] ∧
      w'.tree.Opens (Path.route (Path.join w.root item.1)) (w.place item.1) ∧
      (Path.route (Path.join w.root item.1)).trailing = false := by
  induction runs with
  | nil => simp at member
  | cons first later ih =>
    rcases List.mem_cons.mp member with rfl | among
    · -- directories stay, and with them the way
      obtain ⟨-, -, current, directories⟩ := later.kept
      exact ⟨first.named, first.opens.mono current directories, first.whole⟩
    · rw [← first.root, ← first.place_eq]
      exact ih among

end

end Writer

end Pagewright
