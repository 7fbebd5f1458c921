import Pagewright.Proofs.WrittenFiles

/-!
# How far a write reaches

Whether it succeeds or fails, a write changes files at two places at most: where its
path leads and where the file is written first. Both lie below the output directory,
with one exception. A path without names, such as a single dot, leads to the output
directory itself. Nothing can be written there, but with atomic writes the file has
been written beside it by the time this is found out, and stays.
-/

namespace Pagewright

open Outcome

variable {content : ByteArray} {path : String} {location : Location} {tree tree' : FileTree}

/-! ### Files -/

def FileTree.fileAt? (tree : FileTree) (location : Location) : Option ByteArray :=
  match tree.at? location with
  | some (.file content) => some content
  | _ => none

/-- The location is in the directory, at any depth. -/
def IsWithin (directory location : Location) : Prop :=
  directory <+: location ∧ directory ≠ location

private theorem isWithin_append (directory : Location) {names : Location} (nonempty : names ≠ []) :
    IsWithin directory (directory ++ names) :=
  ⟨List.prefix_append _ _, fun same => nonempty (List.self_eq_append_right.mp same)⟩

/-- What is in a directory is in the one above, if there is one. -/
theorem isWithin_dropLast (directory : Location) (name : String) :
    IsWithin directory.dropLast (directory ++ [name]) := by
  refine ⟨(List.dropLast_prefix _).trans (List.prefix_append _ _), fun same => ?_⟩
  have lengths := congrArg List.length same
  simp only [List.length_dropLast, List.length_append, List.length_singleton] at lengths
  omega

/-- What is beside a place is not in it. -/
theorem not_isWithin_temporaryPlace (front : Location) (name : String) :
    ¬IsWithin (front ++ [name]) (temporaryPlace (front ++ [name])) := by
  rintro ⟨inside, apart⟩
  refine apart (inside.eq_of_length ?_)
  simp

namespace FileTree

variable {tree tree' : FileTree} {location : Location} {content : ByteArray}

theorem fileAt?_eq_some :
    tree.fileAt? location = some content ↔ tree.sight location = .file content := by
  rw [← at?_eq_file]
  unfold fileAt?
  split
  · next found => simp [found]
  · next other => simpa using other content

private theorem fileAt?_ext (same : ∀ location content,
    tree'.sight location = .file content ↔ tree.sight location = .file content) :
    tree'.fileAt? = tree.fileAt? := by
  funext location
  refine Option.ext fun content => ?_
  rw [fileAt?_eq_some, fileAt?_eq_some, same]

private theorem GrowsTo.fileAt? (grows : tree.GrowsTo tree') : tree'.fileAt? = tree.fileAt? :=
  fileAt?_ext fun _ _ => grows.file_iff

end FileTree

/-- The files once one more has been written, and whatever was where it was written first is gone. -/
def received (atomic : Bool) (files : Location → Option ByteArray) (location : Location)
    (content : ByteArray) : Location → Option ByteArray :=
  Function.update (if atomic then Function.update files (temporaryPlace location) none else files)
    location (some content)

theorem FileTree.Receives.fileAt? {atomic : Bool}
    (receives : tree.Receives atomic location content tree') :
    tree'.fileAt? = received atomic tree.fileAt? location content := by
  funext place
  refine Option.ext fun found => ?_
  rw [fileAt?_eq_some, receives.files, received, Function.update_apply]
  split_ifs with here whole
  · simp [here, eq_comm]
  · rw [Function.update_apply]
    split_ifs with beside
    · subst beside
      simp [here, whole]
    · simp [here, beside, fileAt?_eq_some]
  · simp [here, whole, fileAt?_eq_some]

/-- A file that is written directly is at the end of its way. -/
theorem FileTree.write_fileAt? (run : tree.write (Path.route path) content = .ok tree') :
    tree'.fileAt? = Function.update tree.fileAt? (tree.base path) (some content) := by
  obtain ⟨location, opens, -, -, -, sight⟩ := write_ok run
  obtain rfl := opens.base
  funext place
  refine Option.ext fun found => ?_
  rw [fileAt?_eq_some, sight, Function.update_apply, Function.update_apply]
  split_ifs with here
  · simp
  · rw [fileAt?_eq_some]

/-! ### Where a file is written first -/

/-- A path below a directory that has no names is made of blank parts only. -/
theorem Path.blank_of_names (below : Writer.isBelow path = true) (unnamed : Path.names path = []) :
    ∀ part ∈ Path.parts path, Path.IsBlank part := by
  intro part member
  rw [Path.names_eq_parts, List.filterMap_eq_nil_iff] at unnamed
  by_contra solid
  rcases Path.up_or_isName solid with rfl | isName
  · exact (Path.parts_of_isBelow below).2 member
  · have noName := unnamed part member
    rw [Path.partName?_of_isName isName] at noName
    cases noName

private theorem Path.filterMap_partName?_blank {blanks : List String}
    (blank : ∀ part ∈ blanks, Path.IsBlank part) : blanks.filterMap Path.partName? = [] := by
  refine List.filterMap_eq_nil_iff.mpr fun part member => ?_
  rcases blank part member with rfl | rfl <;> rfl

namespace FileTree

variable {tree : FileTree} {root path : String}

private theorem base_temporary_named (below : Writer.isBelow path = true)
    (named : Path.names path ≠ []) :
    tree.base (Writer.temporary (Path.join root path)) =
      temporaryPlace (tree.base root ++ Path.names path) := by
  obtain ⟨relative, down⟩ := Path.parts_of_isBelow below
  obtain ⟨front, empties, joined, own, empty⟩ := Path.parts_join root relative
  rcases Path.blank_or_solid (Path.parts path) with blank | ⟨before, last, blanks, read, solid, blank⟩
  · rw [Path.names_eq_parts, Path.filterMap_partName?_blank blank] at named
    exact absurd rfl named
  have isName : Path.partName? last = some last := by
    rcases Path.up_or_isName solid with rfl | isName
    · exact absurd (by simp [read]) down
    · exact Path.partName?_of_isName isName
  have names : Path.names path = before.filterMap Path.partName? ++ [last] := by
    rw [Path.names_eq_parts, read, List.filterMap_append, List.filterMap_cons_some isName,
      Path.filterMap_partName?_blank blank]
  have whole : Path.parts (Path.join root path) = front ++ before ++ last :: blanks := by
    rw [joined, read, List.append_assoc]
  have downBefore : ".." ∉ before := fun up => down (by simp [read, up])
  rw [base_temporary whole solid blank, isName, Option.getD_some, Path.isAbsolute_join relative,
    names, ← List.append_assoc, temporaryPlace_concat, List.filterMap_append, destination_append,
    Path.destination_parts _ downBefore, base, Path.steps_of_parts own empty]

/-- The file of a path without names is written first beside the directory, or in it if the path of
the directory ends with no name. -/
theorem base_temporary_unnamed (below : Writer.isBelow path = true)
    (unnamed : Path.names path = []) :
    (∃ front name, Path.fileName? (Path.components root) = some name ∧
      tree.base root = front ++ [name] ∧
      tree.base (Writer.temporary (Path.join root path)) = temporaryPlace (tree.base root)) ∨
    Path.fileName? (Path.components root) = none ∧
      IsWithin (tree.base root) (tree.base (Writer.temporary (Path.join root path))) := by
  obtain ⟨relative, -⟩ := Path.parts_of_isBelow below
  obtain ⟨front, empties, joined, own, empty⟩ := Path.parts_join root relative
  have nameless := Path.blank_of_names below unnamed
  have blankEnd : ∀ part ∈ empties, Path.IsBlank part := fun part member =>
    .inl (empty part member)
  rcases Path.blank_or_solid front with blank | ⟨before, last, blanks, rfl, solid, blank⟩
  · -- all parts are blank, so the directory is the current one or the root
    right
    have blankRoot : ∀ part ∈ Path.parts root, Path.IsBlank part := by
      rw [own]
      exact List.forall_mem_append.mpr ⟨blank, blankEnd⟩
    have blankTarget : ∀ part ∈ Path.parts (Path.join root path), Path.IsBlank part := by
      rw [joined]
      exact List.forall_mem_append.mpr ⟨blank, nameless⟩
    refine ⟨Path.fileName?_blank blankRoot, ?_⟩
    have stays (start : Location) : destination start (Path.steps root) = start := by
      rw [Path.steps_of_parts own empty, ← Path.destination_trimParts, Path.trimParts_blank blank]
      rfl
    obtain ⟨fromHere, way, ends, leads⟩ := Path.temporary_leads_blank blankTarget
    have here : tree.base (Writer.temporary (Path.join root path)) =
        tree.current ++ [Path.temporaryName "output"] := by
      rw [base, fromHere, ends, destination_append, leads]
      rfl
    rw [here, base, stays]
    split_ifs
    · exact isWithin_append [] (by simp)
    · exact isWithin_append _ (by simp)
  · -- the last part that is not blank is that of the directory, since the path has none
    have wholeRoot : Path.parts root = before ++ last :: (blanks ++ empties) := by
      rw [own, List.append_assoc]
      rfl
    have wholeTarget : Path.parts (Path.join root path) =
        before ++ last :: (blanks ++ Path.parts path) := by
      rw [joined, List.append_assoc]
      rfl
    rw [base_temporary wholeTarget solid (List.forall_mem_append.mpr ⟨blank, nameless⟩),
      Path.fileName?_of_parts wholeRoot solid (List.forall_mem_append.mpr ⟨blank, blankEnd⟩),
      Path.isAbsolute_join relative]
    have last_step {step : Path.Step} (leads : Path.step? last = some step) :
        tree.base root = step.target (destination
          (if Path.isAbsolute root then [] else tree.current) (before.filterMap Path.step?)) := by
      rw [base, Path.steps_of_parts own empty, ← Path.destination_trimParts,
        Path.trimParts_solid solid blank, List.filterMap_append, destination_append,
        List.filterMap_cons_some leads]
      rfl
    rcases Path.up_or_isName solid with rfl | isName
    · -- the directory is one above, so what is put into the one before is in it
      right
      refine ⟨rfl, ?_⟩
      rw [last_step rfl]
      exact isWithin_dropLast _ _
    · left
      have up := last_step (Path.step?_eq_down.mpr ⟨rfl, isName⟩)
      rw [Path.partName?_of_isName isName, up]
      exact ⟨_, last, rfl, rfl, (temporaryPlace_concat _ _).symm⟩

end FileTree

/-! ### Writes that fail -/

namespace Writer

variable {w w' : Writer} {path target : String} {content : ByteArray} {error : Error}

private theorem change_error {operation : FileTree → Except FileFault FileTree}
    (run : change operation w = .error error w') : w' = w := by
  unfold change at run
  split at run
  · cases run
  · cases run
    rfl

private theorem makeParent_error (run : makeParent target w = .error error w') :
    ∃ tree, w' = { w with tree } ∧ tree.current = w.tree.current ∧ w.tree.GrowsTo tree := by
  unfold makeParent at run
  split at run
  · cases run
  · split at run
    · cases run
    · next made =>
      cases run
      exact ⟨_, rfl, FileTree.makeDirectories_grows made⟩

/-- What is left of a write that failed. -/
inductive Abandons (w : Writer) (path : String) (content : ByteArray) : Writer → Prop
  /-- Some directories may have been made. -/
  | early {tree : FileTree} (current : tree.current = w.tree.current)
      (grows : w.tree.GrowsTo tree) : Abandons w path content { w with tree }
  /-- The file has been written beside its place and could not be renamed. -/
  | late {made tree : FileTree} (atomic : w.atomic = true) (below : isBelow path = true)
      (current : made.current = w.tree.current) (grows : w.tree.GrowsTo made)
      (beside : made.write (Path.route (temporary (Path.join w.root path))) content = .ok tree) :
      Abandons w path content { w with tree }

theorem write_error (run : write path content w = .error error w') :
    Abandons w path content w' := by
  unfold write at run
  split_ifs at run with outside
  · -- the path is refused
    rcases bind_error.mp run with thrown | ⟨_, _, thrown, -⟩
    · obtain ⟨-, rfl⟩ := throw_error.mp thrown
      exact .early rfl (.refl _)
    · exact (throw_ok.mp thrown).elim
  have below : isBelow path = true := by simpa using outside
  rcases bind_error.mp run with failed | ⟨_, _, got, run⟩
  · exact (get_error.mp failed).elim
  obtain ⟨rfl, rfl⟩ := get_ok.mp got
  rcases bind_error.mp run with failed | ⟨_, _, parent, run⟩
  · obtain ⟨tree, rfl, current, grows⟩ := makeParent_error failed
    exact .early current grows
  obtain ⟨made, makes, rfl⟩ := makeParent_ok.mp parent
  obtain ⟨current, grows⟩ := makes.grows
  -- nothing can fail once the file is in its place
  have finished : ∀ (file : WrittenFile) (count : Writer → Writer) (v : Writer),
      ¬ (do modify count; return file : Writing WrittenFile) v = .error error w' := by
    intro file count v failed
    rcases bind_error.mp failed with counted | ⟨_, _, -, given⟩
    · exact modify_error.mp counted
    · exact pure_error.mp given
  by_cases atomic : w.atomic = true
  · rw [if_pos atomic] at run
    rcases bind_error.mp run with failed | ⟨_, _, changed, run⟩
    · obtain rfl := change_error failed
      exact .early current grows
    obtain ⟨tree, written, rfl⟩ := change_ok.mp changed
    rcases bind_error.mp run with failed | ⟨_, _, -, run⟩
    · obtain rfl := change_error failed
      exact .late atomic below current grows written
    · exact (finished _ _ _ run).elim
  · rw [if_neg atomic] at run
    rcases bind_error.mp run with failed | ⟨_, _, -, run⟩
    · obtain rfl := change_error failed
      exact .early current grows
    · exact (finished _ _ _ run).elim

/-- Where the file of a path is written first. -/
def besidePlace (w : Writer) (path : String) : Location :=
  w.tree.base (temporary (Path.join w.root path))

/-- A write that fails changes no file, or it has put one beside its place. -/
theorem Abandons.fileAt? (abandons : Abandons w path content w') :
    w'.tree.fileAt? = w.tree.fileAt? ∨ w.atomic = true ∧ isBelow path = true ∧
      w'.tree.fileAt? = Function.update w.tree.fileAt? (w.besidePlace path) (some content) := by
  cases abandons with
  | early _ grows => exact .inl grows.fileAt?
  | late atomic below current grows beside =>
    refine .inr ⟨atomic, below, ?_⟩
    rw [FileTree.write_fileAt? beside, grows.fileAt?, FileTree.base_congr current]
    rfl

def after (w : Writer) (path : String) (content : ByteArray) : Writer :=
  match write path content w with
  | .ok _ w' | .error _ w' => w'

/-- What has changed once a write has ended: a file in its place and what was written first, or a
file beside its place. -/
theorem after_changes
    (changed : (w.after path content).tree.fileAt? location ≠ w.tree.fileAt? location) :
    (Path.names path ≠ [] ∧ (location = w.place path ∨ location = temporaryPlace (w.place path))) ∨
      (∃ error w', write path content w = .error error w') ∧ w.atomic = true ∧
        isBelow path = true ∧ location = w.besidePlace path := by
  unfold after at changed
  cases run : write path content w with
  | ok file w' =>
    simp only [run] at changed
    have wrote := wrote_of_ok run
    refine .inl ⟨wrote.named, ?_⟩
    -- any other place has been left alone
    by_contra apart
    obtain ⟨here, beside⟩ := not_or.mp apart
    refine changed ?_
    rw [wrote.receives.fileAt?, received, Function.update_of_ne here]
    split_ifs
    · exact Function.update_of_ne beside ..
    · rfl
  | error error w' =>
    simp only [run] at changed
    rcases (write_error run).fileAt? with same | ⟨atomic, below, beside⟩
    · exact absurd (congrFun same location) changed
    · refine .inr ⟨⟨error, w', rfl⟩, atomic, below, ?_⟩
      by_contra apart
      rw [beside, Function.update_of_ne apart] at changed
      exact changed rfl

/-- A path that leads to the output directory itself, whose own name is then taken for that of the
file. -/
structure Strays (w : Writer) (path : String) : Prop where
  atomic : w.atomic = true
  below : isBelow path = true
  unnamed : Path.names path = []
  named : (Path.fileName? (Path.components w.root)).isSome = true

/-- Whatever file a write changes is in the output directory, unless the path strays. Then the write
fails, and what it leaves is beside the output directory. -/
theorem after_changes_within_iff {location : Location}
    (changed : (w.after path content).tree.fileAt? location ≠ w.tree.fileAt? location) :
    (IsWithin (w.tree.base w.root) location ↔ ¬w.Strays path) ∧
      (w.Strays path → (∃ error w', write path content w = .error error w') ∧
        location = temporaryPlace (w.tree.base w.root)) := by
  have inside : Path.names path ≠ [] →
      (location = w.place path ∨ location = temporaryPlace (w.place path)) →
      IsWithin (w.tree.base w.root) location ∧ ¬w.Strays path := by
    intro named places
    refine ⟨?_, fun strays => named strays.unnamed⟩
    rcases places with rfl | rfl
    · exact isWithin_append _ named
    · rw [place, temporaryPlace_append _ named]
      exact isWithin_append _ (temporaryPlace_ne_nil named)
  rcases after_changes changed with ⟨named, places⟩ | ⟨failed, atomic, below, here⟩
  · obtain ⟨within, tame⟩ := inside named places
    exact ⟨iff_of_true within tame, fun strays => absurd strays tame⟩
  -- the write has failed; what it has put beside its place is told by the names of the path
  by_cases named : Path.names path = []
  · rw [besidePlace] at here
    rcases @FileTree.base_temporary_unnamed w.tree w.root path below named with
      ⟨front, name, rootName, base, beside⟩ | ⟨noName, within⟩
    · have strays : w.Strays path := ⟨atomic, below, named, by rw [rootName]; rfl⟩
      rw [beside] at here
      refine ⟨iff_of_false ?_ (not_not_intro strays), fun _ => ⟨failed, here⟩⟩
      rw [here, base]
      exact not_isWithin_temporaryPlace front name
    · have tame : ¬w.Strays path := fun strays => by simpa [noName] using strays.named
      rw [← here] at within
      exact ⟨iff_of_true within tame, fun strays => absurd strays tame⟩
  · have beside : w.besidePlace path = temporaryPlace (w.place path) :=
      FileTree.base_temporary_named below named
    obtain ⟨within, tame⟩ := inside named (.inr (here.trans beside))
    exact ⟨iff_of_true within tame, fun strays => absurd strays tame⟩

/-- A writer that finds a directory where it is to write a file. -/
def blocked : Writer where
  root := "out"
  tree := ⟨.directory [("work", .directory [("out", .directory [("a", .directory [])])])], ["work"]⟩

/-- The file cannot be renamed to the name of the directory, but it is still in the output
directory. -/
theorem after_changes_within_blocked :
    (blocked.after "./a" ⟨#[120]⟩).tree.fileAt? ["work", "out", ".a.tmp"] = some ⟨#[120]⟩ ∧
      blocked.tree.fileAt? ["work", "out", ".a.tmp"] = none ∧ ¬blocked.Strays "./a" ∧
      IsWithin (blocked.tree.base blocked.root) ["work", "out", ".a.tmp"] := by
  have left : (blocked.after "./a" ⟨#[120]⟩).tree.fileAt? ["work", "out", ".a.tmp"] =
      some ⟨#[120]⟩ ∧ blocked.tree.fileAt? ["work", "out", ".a.tmp"] = none ∧
      Path.names "./a" ≠ [] := by
    decide +kernel
  obtain ⟨now, before, named⟩ := left
  have tame : ¬blocked.Strays "./a" := fun strays => named strays.unnamed
  have changed : (blocked.after "./a" ⟨#[120]⟩).tree.fileAt? ["work", "out", ".a.tmp"] ≠
      blocked.tree.fileAt? ["work", "out", ".a.tmp"] := by
    rw [now, before]
    simp
  exact ⟨now, before, tame, (after_changes_within_iff changed).1.mpr tame⟩

def unwritten : Writer where
  root := "out"
  tree := .empty

/-- A single dot is taken for a path below the output directory, and leaves a file beside it. -/
theorem dot_leaves_output_directory :
    isBelow "." = true ∧ unwritten.tree.fileAt? ["work", ".out.tmp"] = none ∧
      (unwritten.after "." ⟨#[120]⟩).tree.fileAt? ["work", ".out.tmp"] = some ⟨#[120]⟩ ∧
      ¬IsWithin (unwritten.tree.base unwritten.root) ["work", ".out.tmp"] := by
  have run : isBelow "." = true ∧ unwritten.tree.fileAt? ["work", ".out.tmp"] = none ∧
      (unwritten.after "." ⟨#[120]⟩).tree.fileAt? ["work", ".out.tmp"] = some ⟨#[120]⟩ ∧
      unwritten.tree.base unwritten.root = ["work"] ++ ["out"] := by
    decide +kernel
  obtain ⟨below, before, now, base⟩ := run
  rw [base]
  exact ⟨below, before, now, not_isWithin_temporaryPlace ["work"] "out"⟩

end Writer

end Pagewright
