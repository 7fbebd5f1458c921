import Pagewright.File.Tree
import Pagewright.Proofs.Entries
import Pagewright.Proofs.Outcome

/-!
# What is at a location

A file tree is seen as a function from locations to what is there: nothing, a
directory or a file. Every operation that changes a tree changes this function at
one or two locations, or puts directories where nothing was. Routes lead to
locations that can be computed without the tree; a tree only says whether the way
is open.
-/

namespace Pagewright

open Outcome

inductive Sight where
  | missing
  | directory
  | file (content : ByteArray)

/-! ### Entries -/

namespace FileEntry

def sight : FileEntry → Sight
  | .file content => .file content
  | .directory _ => .directory

def sightAt (entry : FileEntry) (location : Location) : Sight :=
  ((entry.at? location).map sight).getD .missing

variable {entry : FileEntry} {entries : List (String × FileEntry)} {name : String}
  {place : Location} {seen : Sight}

@[simp] theorem sightAt_nil (entry : FileEntry) : entry.sightAt [] = entry.sight := by
  rw [sightAt, at?]
  rfl

@[simp] theorem sightAt_file_cons (content : ByteArray) (name : String) (place : Location) :
    (FileEntry.file content).sightAt (name :: place) = .missing := by
  rw [sightAt, at?]
  rfl

private theorem sightAt_directory_cons (entries : List (String × FileEntry)) (name : String)
    (place : Location) : (FileEntry.directory entries).sightAt (name :: place) =
      ((entries.lookup name).map fun inner => inner.sightAt place).getD .missing := by
  rw [sightAt, at?]
  cases entries.lookup name <;> rfl

/-- Only a directory has anything inside. -/
theorem directory_of_inside (there : entry.sightAt (name :: place) = seen)
    (present : seen ≠ .missing) : ∃ entries inner, entry = .directory entries ∧
      entries.lookup name = some inner ∧ inner.sightAt place = seen := by
  subst there
  cases entry with
  | file content => simp at present
  | directory entries =>
    rw [sightAt_directory_cons] at present ⊢
    cases found : entries.lookup name with
    | none => simp [found] at present
    | some inner => exact ⟨entries, inner, rfl, found, rfl⟩

private theorem sightAt_parent (name : String)
    (there : entry.sightAt (place ++ [name]) ≠ .missing) : entry.sightAt place = .directory := by
  induction place generalizing entry with
  | nil =>
    obtain ⟨entries, -, rfl, -⟩ := directory_of_inside rfl there
    rfl
  | cons first rest ih =>
    rw [List.cons_append] at there
    obtain ⟨entries, inner, rfl, found, same⟩ := directory_of_inside rfl there
    rw [← same] at there
    simpa [sightAt_directory_cons, found] using ih there

/-- If one name of a directory changes at one place, so does the directory. -/
theorem sightAt_directory_update {others : List (String × FileEntry)}
    (same : ∀ other, other ≠ name → others.lookup other = entries.lookup other)
    (changed : ∀ rest, (FileEntry.directory others).sightAt (name :: rest) =
      if rest = place then seen else (FileEntry.directory entries).sightAt (name :: rest)) :
    (FileEntry.directory others).sightAt =
      Function.update (FileEntry.directory entries).sightAt (name :: place) seen := by
  funext location
  cases location with
  | nil => simp [Function.update_of_ne, sight]
  | cons first rest =>
    by_cases here : first = name
    · subst here
      rw [changed, Function.update_apply]
      simp
    · rw [Function.update_of_ne (by simp [here]), sightAt_directory_cons, sightAt_directory_cons,
        same first here]

/-- The same for a name under which something is put. -/
theorem sightAt_directory_insert {new : FileEntry} (changed : ∀ rest, new.sightAt rest =
      if rest = place then seen else (FileEntry.directory entries).sightAt (name :: rest)) :
    (FileEntry.directory (Entries.insert name new entries)).sightAt =
      Function.update (FileEntry.directory entries).sightAt (name :: place) seen := by
  refine sightAt_directory_update (fun _ apart => Entries.lookup_insert_of_ne _ _ apart) ?_
  intro rest
  rw [sightAt_directory_cons, Entries.lookup_insert_self, Option.map_some, Option.getD_some, changed]

/-- Putting something without inside into a directory changes what is seen there and nowhere else,
unless it takes the place of a directory. -/
theorem sightAt_put (new : FileEntry) (inside : entry.sightAt place = .directory)
    (other : entry.sightAt (place ++ [name]) ≠ .directory)
    (single : ∀ name rest, new.sightAt (name :: rest) = .missing) :
    (entry.put (place ++ [name]) new).sightAt =
      Function.update entry.sightAt (place ++ [name]) new.sight := by
  induction place generalizing entry with
  | nil =>
    cases entry with
    | file content => simp [sight] at inside
    | directory entries =>
      -- the directory itself gets the name
      rw [List.nil_append, put, put]
      refine sightAt_directory_insert fun rest => ?_
      cases rest with
      | nil => simp
      | cons second more =>
        -- what was there had no inside either
        rw [if_neg (by simp), single]
        by_contra there
        obtain ⟨_, inner, same, found, read⟩ := directory_of_inside rfl (Ne.symm there)
        cases same
        rw [← read] at there
        obtain ⟨_, _, rfl, -⟩ := directory_of_inside rfl (Ne.symm there)
        exact other (by simp [sightAt_directory_cons, found, sight])
  | cons first place ih =>
    obtain ⟨entries, inner, rfl, found, inside⟩ := directory_of_inside inside (by simp)
    have later : inner.sightAt (place ++ [name]) ≠ .directory := by
      simpa [sightAt_directory_cons, found] using other
    rw [List.cons_append, put, found, Option.getD_some]
    refine sightAt_directory_insert fun rest => ?_
    rw [ih inside later, Function.update_apply, sightAt_directory_cons, found]
    rfl

/-- Taking a file away changes what is seen there and nowhere else. -/
theorem sightAt_remove {content : ByteArray}
    (there : entry.sightAt (place ++ [name]) = .file content) :
    (entry.remove (place ++ [name])).sightAt =
      Function.update entry.sightAt (place ++ [name]) .missing := by
  induction place generalizing entry with
  | nil =>
    obtain ⟨entries, inner, rfl, found, there⟩ := directory_of_inside there (by simp)
    rw [List.nil_append, remove]
    refine sightAt_directory_update (fun _ apart => Entries.lookup_erase_of_ne _ apart) ?_
    intro rest
    rw [sightAt_directory_cons, Entries.lookup_erase_self]
    cases rest with
    | nil => simp
    | cons second more =>
      -- a file has nothing inside that would be lost
      cases inner with
      | file content => simp [sightAt_directory_cons, found]
      | directory entries => simp [sight] at there
  | cons first place ih =>
    rw [List.cons_append] at there
    obtain ⟨entries, inner, rfl, found, inside⟩ := directory_of_inside there (by simp)
    rw [List.cons_append, remove, found]
    · refine sightAt_directory_insert fun rest => ?_
      rw [ih inside, Function.update_apply, sightAt_directory_cons, found]
      rfl
    · simp

end FileEntry

/-! ### Ways -/

def Path.Step.target (location : Location) : Path.Step → Location
  | .stay => location
  | .up => location.dropLast
  | .down name => location ++ [name]

def destination (location : Location) (steps : List Path.Step) : Location :=
  steps.foldl Path.Step.target location

/-- Steps are taken one after another. -/
theorem destination_append (location : Location) (first second : List Path.Step) :
    destination location (first ++ second) = destination (destination location first) second :=
  List.foldl_append

namespace FileTree

def sight (tree : FileTree) : Location → Sight :=
  tree.root.sightAt

variable {tree tree' : FileTree} {location next : Location} {steps : List Path.Step}
  {route : Path.Route} {content : ByteArray} {outcome : Except FileFault Unit}

/-- What is at a location is seen there. -/
theorem at?_sight (tree : FileTree) (location : Location) :
    (tree.at? location = none ∧ tree.sight location = .missing) ∨
      (∃ content, tree.at? location = some (.file content) ∧ tree.sight location = .file content) ∨
      ∃ entries, tree.at? location = some (.directory entries) ∧
        tree.sight location = .directory := by
  rw [sight, FileEntry.sightAt, at?]
  cases tree.root.at? location with
  | none => simp
  | some entry => cases entry <;> simp [FileEntry.sight]

theorem at?_eq_file : tree.at? location = some (.file content) ↔
    tree.sight location = .file content := by
  rcases tree.at?_sight location with ⟨at?, seen⟩ | ⟨_, at?, seen⟩ | ⟨_, at?, seen⟩ <;>
    simp [at?, seen]

private theorem at?_eq_directory : (∃ entries, tree.at? location = some (.directory entries)) ↔
    tree.sight location = .directory := by
  rcases tree.at?_sight location with ⟨at?, seen⟩ | ⟨_, at?, seen⟩ | ⟨_, at?, seen⟩ <;>
    simp [at?, seen]

private theorem sight_ne_directory
    (other : ∀ entries, tree.at? location = some (.directory entries) → False) :
    tree.sight location ≠ .directory := by
  intro directory
  obtain ⟨entries, found⟩ := at?_eq_directory.mpr directory
  exact other entries found

theorem at?_eq_none : tree.at? location = none ↔ tree.sight location = .missing := by
  rcases tree.at?_sight location with ⟨at?, seen⟩ | ⟨_, at?, seen⟩ | ⟨_, at?, seen⟩ <;>
    simp [at?, seen]

theorem needDirectory_ok {u : Unit} :
    tree.needDirectory location = .ok u ↔ tree.sight location = .directory := by
  rcases tree.at?_sight location with ⟨at?, seen⟩ | ⟨_, at?, seen⟩ | ⟨_, at?, seen⟩ <;>
    simp [needDirectory, at?, seen]

/-- The step starts in a directory, and a name in it is not too long. -/
def CanTake (tree : FileTree) (location : Location) (step : Path.Step) : Prop :=
  tree.sight location = .directory ∧ ∀ name, step = .down name → name.utf8ByteSize ≤ nameLimit

theorem take_ok {step : Path.Step} :
    tree.take location step = .ok next ↔
      tree.CanTake location step ∧ next = step.target location := by
  unfold take
  rw [except_bind_ok]
  simp only [needDirectory_ok, exists_const, CanTake, and_assoc]
  refine and_congr_right fun _ => ?_
  cases step with
  | stay | up => simpa [except_pure_ok, Path.Step.target] using eq_comm
  | down name =>
    by_cases long : name.utf8ByteSize > nameLimit
    · simp [long, throw, throwThe, MonadExceptOf.throw, bind, Except.bind, Nat.not_le.mpr long]
    · simpa [long, except_pure_ok, Path.Step.target, Nat.le_of_not_lt long] using eq_comm

def CanFollow (tree : FileTree) : Location → List Path.Step → Prop
  | _, [] => True
  | location, step :: rest =>
    tree.CanTake location step ∧ tree.CanFollow (step.target location) rest

theorem follow_ok : tree.follow location steps = .ok next ↔
    tree.CanFollow location steps ∧ next = destination location steps := by
  induction steps generalizing location with
  | nil => simp [follow, CanFollow, destination, eq_comm]
  | cons step rest ih =>
    simp only [follow, except_bind_ok, take_ok, ih, CanFollow]
    constructor
    · rintro ⟨_, ⟨taken, rfl⟩, followed, rfl⟩
      exact ⟨⟨taken, followed⟩, rfl⟩
    · rintro ⟨⟨taken, followed⟩, rfl⟩
      exact ⟨_, ⟨taken, rfl⟩, followed, rfl⟩

private theorem canFollow_append {more : List Path.Step} : tree.CanFollow location (steps ++ more) ↔
    tree.CanFollow location steps ∧ tree.CanFollow (destination location steps) more := by
  induction steps generalizing location with
  | nil => simp [CanFollow, destination]
  | cons step rest ih =>
    rw [List.cons_append, CanFollow, CanFollow, ih, and_assoc]
    rfl

/-- A way stays open as long as directories stay. -/
theorem CanFollow.mono (kept : ∀ location, tree.sight location = .directory →
      tree'.sight location = .directory) (follows : tree.CanFollow location steps) :
    tree'.CanFollow location steps := by
  induction steps generalizing location with
  | nil => trivial
  | cons step rest ih => exact ⟨⟨kept _ follows.1.1, follows.1.2⟩, ih follows.2⟩

/-- A route leads to a file if its way is open and there is one. -/
theorem locate_file : tree.locate route = .ok (location, .file content) ↔
    ∃ start, tree.start route = .ok start ∧ tree.CanFollow start route.steps ∧
      location = destination start route.steps ∧ tree.sight location = .file content ∧
      route.trailing = false := by
  simp only [locate, except_bind_ok, follow_ok]
  constructor
  · rintro ⟨start, starts, location', ⟨follows, rfl⟩, found⟩
    split at found
    · cases found
    · cases found
    · next content' there =>
      split_ifs at found with trailing
      · cases found
      · cases found
        exact ⟨start, starts, follows, rfl, at?_eq_file.mp there, by simpa using trailing⟩
  · rintro ⟨start, starts, follows, rfl, there, trailing⟩
    refine ⟨start, starts, _, ⟨follows, rfl⟩, ?_⟩
    simp only [at?_eq_file.mpr there, trailing]
    rfl

/-- The way to the name at the end of a route is open; the name itself is at this location. -/
def Opens (tree : FileTree) (route : Path.Route) (location : Location) : Prop :=
  ∃ start front name, tree.start route = .ok start ∧ route.steps = front ++ [.down name] ∧
    tree.CanFollow start route.steps ∧ location = destination start front ++ [name]

theorem locateName_ok {otherwise : FileFault} :
    tree.locateName route otherwise = .ok location ↔ tree.Opens route location := by
  simp only [locateName, except_bind_ok, follow_ok, needDirectory_ok, Opens]
  constructor
  · rintro ⟨start, starts, directory, ⟨follows, rfl⟩, _, inside, named⟩
    split at named
    · next name last =>
      have steps := List.dropLast_append_getLast? _ last
      obtain ⟨taken, rfl⟩ := take_ok.mp named
      refine ⟨start, route.steps.dropLast, name, starts, steps.symm, ?_, rfl⟩
      rw [← steps, canFollow_append]
      exact ⟨follows, taken, trivial⟩
    · cases named
  · rintro ⟨start, front, name, starts, steps, follows, rfl⟩
    rw [steps, canFollow_append] at follows
    obtain ⟨before, taken, -⟩ := follows
    refine ⟨start, starts, _, ⟨?_, rfl⟩, (), ?_, ?_⟩
    · simpa [steps] using before
    · simpa [steps] using taken.1
    · simp only [steps, List.getLast?_append, List.getLast?_singleton, Option.some_or,
        List.dropLast_concat]
      exact take_ok.mpr ⟨taken, rfl⟩

/-- The location lies in a directory. -/
theorem Opens.inside (opens : tree.Opens route location) :
    ∃ place name, location = place ++ [name] ∧ tree.sight place = .directory := by
  obtain ⟨start, front, name, -, steps, follows, rfl⟩ := opens
  rw [steps, canFollow_append] at follows
  exact ⟨_, name, rfl, follows.2.1.1⟩

private theorem start_congr (current : tree'.current = tree.current) :
    tree'.start route = tree.start route := by
  rw [start, start, current]

theorem Opens.mono (opens : tree.Opens route location) (current : tree'.current = tree.current)
    (kept : ∀ location, tree.sight location = .directory → tree'.sight location = .directory) :
    tree'.Opens route location := by
  obtain ⟨start, front, name, starts, steps, follows, rfl⟩ := opens
  exact ⟨start, front, name, start_congr current ▸ starts, steps, follows.mono kept, rfl⟩

/-- A file at the end of an open way is found. -/
theorem Opens.locate (opens : tree.Opens route location) (whole : route.trailing = false)
    (there : tree.sight location = .file content) :
    tree.locate route = .ok (location, .file content) := by
  obtain ⟨start, front, name, starts, steps, follows, rfl⟩ := opens
  refine locate_file.mpr ⟨start, starts, follows, ?_, there, whole⟩
  rw [steps, destination_append]
  rfl

/-- Nothing but the file at the end of an open way is found. -/
theorem Opens.locate_iff (opens : tree.Opens route location) (whole : route.trailing = false) :
    tree.locate route = .ok (next, .file content) ↔
      next = location ∧ tree.sight location = .file content := by
  constructor
  · intro located
    obtain ⟨start, front, name, starts, steps, follows, rfl⟩ := opens
    obtain ⟨start', starts', -, rfl, there, -⟩ := locate_file.mp located
    rw [starts] at starts'
    cases starts'
    have same : destination start route.steps = destination start front ++ [name] := by
      rw [steps, destination_append]
      rfl
    exact ⟨same, same ▸ there⟩
  · rintro ⟨rfl, there⟩
    exact opens.locate whole there

/-! ### Operations -/

theorem write_ok (run : tree.write route content = .ok tree') :
    ∃ location, tree.Opens route location ∧ route.trailing = false ∧
      tree.sight location ≠ .directory ∧ tree'.current = tree.current ∧
      tree'.sight = Function.update tree.sight location (.file content) := by
  simp only [write, except_bind_ok, locateName_ok] at run
  obtain ⟨location, opens, run⟩ := run
  split_ifs at run with trailing
  · cases run
  split at run
  · cases run
  · next other =>
    cases run
    have noDirectory := sight_ne_directory other
    obtain ⟨place, name, rfl, inside⟩ := opens.inside
    exact ⟨_, opens, by simpa using trailing, noDirectory, rfl,
      FileEntry.sightAt_put (.file content) inside noDirectory fun _ _ => rfl⟩

/-- A file that gets another name is no longer seen under its old one. -/
theorem rename_ok {source target : Path.Route} {old : Location} (opens : tree.Opens source old)
    (whole : source.trailing = false) (there : tree.sight old = .file content)
    (run : tree.rename source target = .ok tree') :
    ∃ location, tree.Opens target location ∧ target.trailing = false ∧
      tree.sight location ≠ .directory ∧ tree'.current = tree.current ∧
      (old ≠ location → tree'.sight =
        Function.update (Function.update tree.sight old .missing) location (.file content)) := by
  simp only [rename, except_bind_ok, locateName_ok, opens.locate whole there] at run
  obtain ⟨_, same, location, opensTarget, run⟩ := run
  cases same
  by_cases trailing : target.trailing
  · rw [if_pos trailing] at run
    cases run
  rw [if_neg trailing] at run
  split at run
  · cases run
  · next other =>
    have noDirectory := sight_ne_directory other
    obtain ⟨place, name, rfl, inside⟩ := opensTarget.inside
    refine ⟨_, opensTarget, by simpa using trailing, noDirectory, ?_⟩
    split_ifs at run with same
    · -- a file that is already there stays as it is
      cases run
      exact ⟨rfl, fun apart => absurd same apart⟩
    · cases run
      refine ⟨rfl, fun apart => ?_⟩
      obtain ⟨oldPlace, oldName, rfl, -⟩ := opens.inside
      have removed : (tree.root.remove (oldPlace ++ [oldName])).sightAt =
          Function.update tree.sight (oldPlace ++ [oldName]) .missing :=
        FileEntry.sightAt_remove there
      -- the new place is in a directory still, and no directory itself
      have inside' : (tree.root.remove (oldPlace ++ [oldName])).sightAt place = .directory := by
        rw [removed, Function.update_of_ne ?_, inside]
        rintro rfl
        rw [there] at inside
        cases inside
      have other' : (tree.root.remove (oldPlace ++ [oldName])).sightAt (place ++ [name]) ≠
          .directory := by
        rwa [removed, Function.update_of_ne (Ne.symm apart)]
      have put := FileEntry.sightAt_put (.file content) inside' other' fun _ _ => rfl
      rw [removed] at put
      exact put

/-- One tree has all that another has, and perhaps more directories. -/
def GrowsTo (tree tree' : FileTree) : Prop :=
  ∀ location, tree'.sight location = tree.sight location ∨
    tree.sight location = .missing ∧ tree'.sight location = .directory

theorem GrowsTo.trans {tree'' : FileTree} (first : tree.GrowsTo tree')
    (second : tree'.GrowsTo tree'') : tree.GrowsTo tree'' := by
  intro location
  rcases first location with same | ⟨missing, made⟩ <;>
    rcases second location with same' | ⟨missing', made'⟩
  · exact .inl (same'.trans same)
  · exact .inr ⟨same ▸ missing', made'⟩
  · exact .inr ⟨missing, same'.trans made⟩
  · simp [made] at missing'

theorem GrowsTo.directory (grows : tree.GrowsTo tree') (there : tree.sight location = .directory) :
    tree'.sight location = .directory := by
  rcases grows location with same | ⟨missing, -⟩
  · exact same.trans there
  · simp [there] at missing

/-- A tree that grows has the same files. -/
theorem GrowsTo.file_iff (grows : tree.GrowsTo tree') :
    tree'.sight location = .file content ↔ tree.sight location = .file content := by
  rcases grows location with same | ⟨missing, made⟩
  · rw [same]
  · simp [missing, made]

/-- What is above a directory is one. -/
theorem sight_dropLast (directory : tree.sight location = .directory) :
    tree.sight location.dropLast = .directory := by
  rcases List.eq_nil_or_concat' location with rfl | ⟨front, last, rfl⟩
  · exact directory
  · rw [List.dropLast_concat]
    refine FileEntry.sightAt_parent last ?_
    intro missing
    rw [sight, missing] at directory
    cases directory

theorem GrowsTo.refl (tree : FileTree) : tree.GrowsTo tree :=
  fun _ => .inl rfl

/-- Whether or not all directories can be made, nothing else changes. -/
theorem makeAlong_grows (run : tree.makeAlong location steps = (tree', outcome)) :
    tree'.current = tree.current ∧ tree.GrowsTo tree' := by
  induction steps generalizing tree location with
  | nil =>
    cases (Prod.mk.inj run).1
    exact ⟨rfl, .refl _⟩
  | cons step rest ih =>
    rw [makeAlong] at run
    split at run
    · cases run
      exact ⟨rfl, .refl _⟩
    · next taken =>
      obtain ⟨⟨directory, -⟩, rfl⟩ := take_ok.mp taken
      split at run
      · exact ih run
      · cases run
        exact ⟨rfl, .refl _⟩
      · next missing =>
        have missing := at?_eq_none.mp missing
        -- only a name can lead out of what is there
        have down : ∃ name, step.target location = location ++ [name] := by
          cases step with
          | stay => exact absurd (directory.symm.trans missing) (by simp)
          | up =>
            exact absurd ((sight_dropLast directory).symm.trans missing) (by simp)
          | down name => exact ⟨name, rfl⟩
        obtain ⟨name, next⟩ := down
        rw [next] at missing run
        obtain ⟨current, grows⟩ := ih run
        refine ⟨current, GrowsTo.trans ?_ grows⟩
        have vacant : tree.root.sightAt (location ++ [name]) ≠ .directory := by
          rw [show tree.root.sightAt _ = _ from missing]
          simp
        have put : FileEntry.sightAt _ = _ :=
          FileEntry.sightAt_put (.directory []) directory vacant fun _ _ => rfl
        intro other
        rw [sight, put]
        by_cases here : other = location ++ [name]
        · subst here
          exact .inr ⟨missing, Function.update_self ..⟩
        · exact .inl (Function.update_of_ne here ..)

/-- Directories are only added, also where making them fails. -/
theorem makeDirectories_grows (run : tree.makeDirectories route = (tree', outcome)) :
    tree'.current = tree.current ∧ tree.GrowsTo tree' := by
  unfold makeDirectories at run
  split at run
  · cases run
    exact ⟨rfl, .refl _⟩
  · exact makeAlong_grows run

end FileTree

end Pagewright
