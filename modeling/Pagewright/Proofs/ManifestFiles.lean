import Pagewright.Proofs.Exports
import Pagewright.Proofs.WrittenFiles

/-!
# Manifests and files

A manifest lists the files of a deployment by their paths. Two paths can lead to one
file, and the place where a file is written first can be the place of another one, so
the manifest need not describe what is there in the end. The main result,
`manifest_describes_iff`, says when it does.
-/

namespace Pagewright

open Outcome

variable {second last first : String} {text : ByteArray}

/-! ### Descriptions -/

/-- What a manifest says about a file, as it was reported. -/
def ManifestFile.written (entry : ManifestFile) : WrittenFile :=
  ⟨entry.path, entry.size, entry.hash⟩

/-- The entry names the file at a location, and has its size and its digest. -/
def DescribedAt (root : String) (tree : FileTree) (entry : ManifestFile) (location : Location) :
    Prop :=
  ∃ content, tree.locate (Path.route (Path.join root entry.path)) = .ok (location, .file content) ∧
    entry.size = content.size.toUInt64 ∧ entry.hash = digest content

/-- Every entry describes a file below a directory, and each another one. -/
def Describes (root : String) (tree : FileTree) (entries : List ManifestFile) : Prop :=
  ∃ locations, List.Forall₂ (DescribedAt root tree) entries locations ∧ locations.Nodup

/-- Nothing that is recorded of them tells two contents apart. -/
def Alike (first second : ByteArray) : Prop :=
  first.size.toUInt64 = second.size.toUInt64 ∧ digest first = digest second

/-- What is related to the value of a function alone is related to a list of its values. -/
theorem forall₂_iff_map {α β : Type} {relation : α → β → Prop} {f : α → β} {holds : α → Prop}
    {xs : List α} {ys : List β}
    (same : ∀ x ∈ xs, ∀ y, relation x y ↔ y = f x ∧ holds x) :
    List.Forall₂ relation xs ys ↔ ys = xs.map f ∧ ∀ x ∈ xs, holds x := by
  induction xs generalizing ys with
  | nil => simp
  | cons x xs ih =>
    obtain ⟨first, rest⟩ := List.forall_mem_cons.mp same
    cases ys with
    | nil => simp
    | cons y ys =>
      rw [List.forall₂_cons, first, ih rest]
      simp only [List.map_cons, List.cons.injEq, List.forall_mem_cons]
      exact and_and_and_comm

/-- A relation holds in order if it holds between everything and what is behind it. -/
theorem pairwise_concat_iff {α : Type} {R : α → α → Prop} {xs : List α} {last : α} :
    (xs ++ [last]).Pairwise R ↔
      ∀ before x after, xs = before ++ x :: after → ∀ later ∈ after ++ [last], R x later := by
  induction xs with
  | nil => simp
  | cons first rest ih =>
    rw [List.cons_append, List.pairwise_cons, ih]
    constructor
    · rintro ⟨head, tail⟩ before x after split
      cases before with
      | nil =>
        cases split
        exact head
      | cons other before =>
        cases split
        exact tail before x after rfl
    · intro all
      exact ⟨all [] first rest rfl, fun before x after split =>
        all (first :: before) x after (by rw [split, List.cons_append])⟩

/-! ### Places -/

namespace Writer

variable {w w' : Writer} {items : List (String × ByteArray)}

private theorem place_inj : w.place first = w.place second ↔ Path.names first = Path.names second :=
  List.append_right_inj _

private theorem place_eq_temporaryPlace (named : Path.names second ≠ []) :
    w.place first = temporaryPlace (w.place second) ↔
      Path.names first = temporaryPlace (Path.names second) := by
  rw [place, place, temporaryPlace_append _ named]
  exact List.append_right_inj _

/-- What is left of one file of a run: it is as it was written if it is not at a place where a later
file was written first, and not at the place of the last one, unless nothing tells it from that. -/
theorem WritesAll.alike_of_split {before after : List (String × ByteArray)} {path : String}
    {content : ByteArray}
    (runs : WritesAll w (before ++ (path, content) :: (after ++ [(last, text)])) w')
    (distinct : ∀ later ∈ after, Path.names path ≠ Path.names later.1)
    (visible : ∀ place, Path.names last ≠ temporaryPlace place) :
    (∃ found, w'.tree.sight (w.place path) = .file found ∧ Alike content found) ↔
      (w.atomic = true → ∀ later ∈ after ++ [(last, text)],
        Path.names path ≠ temporaryPlace (Path.names later.1)) ∧
      (Path.names path = Path.names last → Alike content text) := by
  by_cases shared : Path.names path = Path.names last
  · -- the last file is written over it
    have runs : WritesAll w ((before ++ (path, content) :: after) ++ (last, text) :: []) w' := by
      simpa using runs
    have replaced := runs.file_of_mem (by simp)
    rw [place_inj.mpr shared]
    simp [replaced, shared, visible]
  · -- nothing is written over it, so only temporary files count
    have named : ∀ later ∈ after ++ [(last, text)], Path.names later.1 ≠ [] := by
      intro later member
      exact (runs.opens_of_mem (List.mem_append_right _ (List.mem_cons_of_mem _ member))).1
    have apart : ∀ later ∈ after ++ [(last, text)], w.place path ≠ w.place later.1 := by
      intro later member
      rw [Ne, place_inj]
      rcases List.mem_append.mp member with among | final
      · exact distinct later among
      · rw [List.mem_singleton.mp final]
        exact shared
    have left := runs.file_of_mem apart
    have same : (∀ later ∈ after ++ [(last, text)],
        w.place path ≠ temporaryPlace (w.place later.1)) ↔ ∀ later ∈ after ++ [(last, text)],
        Path.names path ≠ temporaryPlace (Path.names later.1) :=
      forall₂_congr fun later member => (place_eq_temporaryPlace (named later member)).not
    simp only [left, same, shared, false_implies, and_true]
    constructor
    · rintro ⟨found, ⟨untouched, rfl⟩, -⟩
      exact untouched
    · intro untouched
      exact ⟨content, ⟨untouched, rfl⟩, rfl, rfl⟩

/-- After a run that writes no file twice before its last one, all files before that one are as they
were written if none is at a place where a later file was written first, or at the place of the last
one, unless nothing tells it from that one. -/
theorem WritesAll.alike_iff (runs : WritesAll w (items ++ [(last, text)]) w')
    (distinct : (items.map fun item => Path.names item.1).Nodup)
    (visible : ∀ place, Path.names last ≠ temporaryPlace place) :
    (∀ item ∈ items, ∃ found, w'.tree.sight (w.place item.1) = .file found ∧ Alike item.2 found) ↔
      (w.atomic = true → (items ++ [(last, text)]).Pairwise fun earlier later =>
        Path.names earlier.1 ≠ temporaryPlace (Path.names later.1)) ∧
      ∀ item ∈ items, Path.names item.1 = Path.names last → Alike item.2 text := by
  -- each file depends on those behind it only
  have each : ∀ before item after, items = before ++ item :: after → ((∃ found,
      w'.tree.sight (w.place item.1) = .file found ∧ Alike item.2 found) ↔
      (w.atomic = true → ∀ later ∈ after ++ [(last, text)],
        Path.names item.1 ≠ temporaryPlace (Path.names later.1)) ∧
      (Path.names item.1 = Path.names last → Alike item.2 text)) := by
    rintro before ⟨path, content⟩ after rfl
    rw [List.append_assoc, List.cons_append] at runs
    refine runs.alike_of_split ?_ visible
    rw [List.map_append, List.map_cons] at distinct
    have own := (List.nodup_cons.mp (List.nodup_append.mp distinct).2.1).1
    rintro later member same
    exact own (List.mem_map.mpr ⟨later, member, same.symm⟩)
  rw [pairwise_concat_iff]
  constructor
  · intro all
    refine ⟨fun atomic before item after split => ?_, fun item member => ?_⟩
    · exact ((each before item after split).mp (all item (by simp [split]))).1 atomic
    · obtain ⟨before, after, split⟩ := List.append_of_mem member
      exact ((each before item after split).mp (all item member)).2
  · rintro ⟨temporary, final⟩ item member
    obtain ⟨before, after, split⟩ := List.append_of_mem member
    exact (each before item after split).mpr
      ⟨fun atomic => temporary atomic before item after split, final item member⟩

end Writer

/-! ### Deployments -/

namespace Deployment

def Item.file (item : Item) : String × ByteArray :=
  (item.path, item.content)

theorem Adds.writes {d d' : Deployment} {items : List Item} (adds : Adds d items d') :
    Writer.WritesAll d.writer (items.map Item.file) d'.writer := by
  induction adds with
  | nil => exact .nil _
  | cons first _ ih => exact .cons (Writer.wrote_of_ok first.write) ih

/-- A deployment with a manifest writes its items, and the manifest of them last. -/
theorem listed_of_run {config : Config} {now : Timestamp} {set : ExportSet} {tree : FileTree}
    {report : DeployReport} {last : Deployment} {manifest : Manifest}
    (run : run config set (start config now tree) = .ok report last)
    (listed : report.manifest = some manifest) :
    ∃ (items : List Item) (text : ByteArray),
      Writer.WritesAll (start config now tree).writer
        (items.map Item.file ++ [(manifestName, text)]) last.writer ∧
      manifest.files = items.map Item.entry ∧
      manifest.totalSize = (manifest.files.map ManifestFile.size).sum ∧
      report.files = items.map Item.written ++
        [⟨manifestName, text.size.toUInt64, digest text⟩] ∧
      (report.files.map WrittenFile.path).Nodup := by
  obtain ⟨-, items, added, -, -, adds, finishes, files⟩ := run_ok run
  rw [listed] at finishes
  cases finishes with
  | listed wanted written =>
    obtain ⟨fresh, writer, wrote, rfl⟩ := writeOnce_ok.mp written
    obtain ⟨-, rfl, -⟩ := Writer.write_ok wrote
    have entries : added.manifest.files = items.map Item.entry := adds.manifest_files
    have written : added.files = items.map Item.written := adds.files
    refine ⟨items, _, adds.writes.append (.cons (Writer.wrote_of_ok wrote) (.nil _)), entries,
      adds.totalSize rfl, by rw [files, written], ?_⟩
    -- the manifest is refused as well if its path was written before
    rw [files, List.map_append]
    refine List.nodup_append.mpr ⟨adds.distinct List.nodup_nil, by simp, ?_⟩
    rintro path member _ final rfl
    obtain ⟨other, among, rfl⟩ := List.mem_map.mp member
    exact fresh other among (by simpa using final)

variable {w w' : Writer} {items : List Item} {text : ByteArray}

theorem describedAt_iff
    (runs : Writer.WritesAll w (items.map Item.file ++ [(manifestName, text)]) w') {item : Item}
    (member : item ∈ items) {location : Location} :
    DescribedAt w.root w'.tree item.entry location ↔ location = w.place item.path ∧
      ∃ found, w'.tree.sight (w.place item.path) = .file found ∧ Alike item.content found := by
  obtain ⟨-, opens, whole⟩ := runs.opens_of_mem
    (List.mem_append_left _ (List.mem_map_of_mem (f := Item.file) member))
  constructor
  · rintro ⟨content, located, alike⟩
    obtain ⟨rfl, there⟩ := (opens.locate_iff whole).mp located
    exact ⟨rfl, content, there, alike⟩
  · rintro ⟨rfl, content, there, alike⟩
    exact ⟨content, (opens.locate_iff whole).mpr ⟨rfl, there⟩, alike⟩

/-- Items are described if they are at different places and each is there as it was written. -/
theorem describes_iff
    (runs : Writer.WritesAll w (items.map Item.file ++ [(manifestName, text)]) w') :
    Describes w.root w'.tree (items.map Item.entry) ↔
      (items.map fun item => Path.names item.path).Nodup ∧ ∀ item ∈ items,
        ∃ found, w'.tree.sight (w.place item.path) = .file found ∧ Alike item.content found := by
  have places : (items.map fun item => w.place item.path) =
      (items.map fun item => Path.names item.path).map (w.tree.base w.root ++ ·) := by
    rw [List.map_map]
    rfl
  -- where the entries lead is known from their paths
  have located (locations : List Location) :
      List.Forall₂ (DescribedAt w.root w'.tree) (items.map Item.entry) locations ↔
        locations = (items.map fun item => w.place item.path) ∧ ∀ item ∈ items,
          ∃ found, w'.tree.sight (w.place item.path) = .file found ∧ Alike item.content found := by
    rw [List.forall₂_map_left_iff]
    exact forall₂_iff_map fun item member location => describedAt_iff runs member
  unfold Describes
  simp only [located]
  rw [← List.nodup_map_iff (List.append_right_injective (w.tree.base w.root)), ← places]
  constructor
  · rintro ⟨_, ⟨rfl, there⟩, distinct⟩
    exact ⟨distinct, there⟩
  · rintro ⟨distinct, there⟩
    exact ⟨_, ⟨rfl, there⟩, distinct⟩

end Deployment

private theorem manifestName_visible (place : Location) :
    Path.names manifestName ≠ temporaryPlace place := by
  have own : Path.names manifestName = [] ++ ["manifest.json"] := by decide +kernel
  rw [own]
  rcases List.eq_nil_or_concat' place with rfl | ⟨front, name, rfl⟩
  · simp [temporaryPlace]
  · rw [temporaryPlace_concat]
    intro same
    -- the name of a temporary file starts with a dot
    have start := congrArg (fun names => (names.getLast?.map String.toList).bind List.head?) same
    simp [Path.temporaryName, String.toList_append] at start

/-- **Manifests describe files.** A deployment with a manifest reports the files of the manifest, in
its order, and the manifest itself behind them; no path is reported twice, and the sizes add up. The
manifest describes what is there in the end exactly if no two of its paths have the same names, no
path has the names of the temporary file of a later one, where there are such files, and a path with
the names of the manifest itself was recorded with the size and the digest of the manifest. -/
theorem manifest_describes_iff {config : Config} {now : Timestamp} {set : ExportSet}
    {report : DeployReport} {tree tree' : FileTree} {manifest : Manifest}
    (run : deploy config now set tree = .ok report tree')
    (listed : report.manifest = some manifest) :
    ∃ last : WrittenFile, last.path = manifestName ∧
      report.files = manifest.files.map ManifestFile.written ++ [last] ∧
      (report.files.map WrittenFile.path).Nodup ∧
      manifest.totalSize = (manifest.files.map ManifestFile.size).sum ∧
      (Describes config.outputRoot tree' manifest.files ↔
        (manifest.files.map fun entry => Path.names entry.path).Nodup ∧
        (config.atomicWrite = true → report.files.Pairwise fun earlier later =>
          Path.names earlier.path ≠ temporaryPlace (Path.names later.path)) ∧
        ∀ entry ∈ manifest.files, Path.names entry.path = Path.names manifestName →
          entry.size = last.size ∧ entry.hash = last.hash) := by
  obtain ⟨last, ran, rfl⟩ := deploy_ok run
  obtain ⟨items, text, runs, entries, size, files, distinct⟩ := Deployment.listed_of_run ran listed
  refine ⟨⟨manifestName, text.size.toUInt64, digest text⟩, rfl, ?_, distinct, size, ?_⟩
  · rw [files, entries, List.map_map]
    rfl
  · rw [entries, List.map_map]
    refine (Deployment.describes_iff runs).trans (and_congr_right fun places => ?_)
    have left := runs.alike_iff (by rwa [List.map_map]) manifestName_visible
    simp only [List.forall_mem_map] at left ⊢
    refine left.trans (and_congr (imp_congr_right fun _ => ?_) Iff.rfl)
    -- both lists have the same paths
    have paths : (items.map Deployment.Item.file ++ [(manifestName, text)]).map Prod.fst =
        report.files.map WrittenFile.path := by
      rw [files]
      simp only [List.map_append, List.map_map]
      rfl
    rw [← List.pairwise_map (f := Prod.fst) (R := fun earlier later =>
      Path.names earlier ≠ temporaryPlace (Path.names later)), paths, List.pairwise_map]

def oneFileTree (path : String) : FileTree :=
  FileTree.empty.place path (some "p".toUTF8)

theorem manifest_describes_iff_dotted :
    ∃ report tree' manifest,
      deploy {} ⟨⟨2026, 1, 1⟩, 0, 0, 0, 0⟩ ⟨[], ["./a.css"]⟩ (oneFileTree "a.css") =
        .ok report tree' ∧
      report.manifest = some manifest ∧
      (manifest.files.map fun entry => Path.names entry.path) =
        [["instantiate.js"], ["wsc_runtime.js"], ["a.css"]] ∧
      Describes "wsc-output" tree' manifest.files := by
  have deployed : (deployReport? {} ⟨⟨2026, 1, 1⟩, 0, 0, 0, 0⟩ ⟨[], ["./a.css"]⟩
      (oneFileTree "a.css")).any (fun report => report.manifest.any fun manifest =>
        (manifest.files.map fun entry => Path.names entry.path) =
          [["instantiate.js"], ["wsc_runtime.js"], ["a.css"]]) = true := by
    decide +kernel
  obtain ⟨report, tree', run, tested⟩ := deploy_of_any deployed
  obtain ⟨manifest, listed, tested⟩ := (Option.any_eq_true _ _).mp tested
  have names := of_decide_eq_true tested
  refine ⟨report, tree', manifest, run, listed, names, ?_⟩
  obtain ⟨last, named, files, -, -, describes⟩ := manifest_describes_iff run listed
  have reported : (report.files.map fun file => Path.names file.path) =
      (manifest.files.map fun entry => Path.names entry.path) ++ [Path.names manifestName] := by
    rw [files, List.map_append, List.map_map, List.map_singleton, named]
    rfl
  refine describes.mpr ⟨by rw [names]; decide, fun _ => ?_, ?_⟩
  · have apart : (report.files.map fun file => Path.names file.path).Pairwise
        fun earlier later => earlier ≠ temporaryPlace later := by
      rw [reported, names]
      decide +kernel
    exact List.pairwise_map.mp apart
  · intro entry member shared
    have among := List.mem_map_of_mem (f := fun entry => Path.names entry.path) member
    rw [names, shared] at among
    exact absurd among (by decide +kernel)

/-- A page that loads a file with its own names, by another path. -/
def homeOverHome : String :=
  "page defines: \"home\", style_sheets: [\"./home.html\"], body: \x7b \x7d"

theorem homeOverHome_not_described :
    ∃ set session' report tree' manifest,
      Session.analyze (Session.ofSource homeOverHome) = .ok set session' ∧
      deploy {} ⟨⟨2026, 1, 1⟩, 0, 0, 0, 0⟩ set (oneFileTree "home.html") = .ok report tree' ∧
      report.manifest = some manifest ∧
      (manifest.files.map fun entry => Path.names entry.path) =
        [["home.html"], ["instantiate.js"], ["wsc_runtime.js"], ["home.html"]] ∧
      ¬ Describes "wsc-output" tree' manifest.files := by
  have analyzed : (Session.ofSource homeOverHome).exportSet?.any (fun set =>
      (deployReport? {} ⟨⟨2026, 1, 1⟩, 0, 0, 0, 0⟩ set (oneFileTree "home.html")).any
        fun report => report.manifest.any fun manifest =>
          (manifest.files.map fun entry => Path.names entry.path) =
            [["home.html"], ["instantiate.js"], ["wsc_runtime.js"], ["home.html"]]) = true := by
    decide +kernel
  obtain ⟨set, session', analyzed, tested⟩ := Session.analyze_of_any analyzed
  obtain ⟨report, tree', run, tested⟩ := deploy_of_any tested
  obtain ⟨manifest, listed, tested⟩ := (Option.any_eq_true _ _).mp tested
  have names := of_decide_eq_true tested
  refine ⟨set, session', report, tree', manifest, analyzed, run, listed, names, ?_⟩
  obtain ⟨last, ran, rfl⟩ := deploy_ok run
  obtain ⟨items, text, runs, entries, -⟩ := Deployment.listed_of_run ran listed
  -- two of the entries have the same names, and so lead to one file
  intro described
  rw [entries] at described names
  have distinct := ((Deployment.describes_iff runs).mp described).1
  rw [List.map_map] at names
  rw [show (items.map fun item => Path.names item.path) = _ from names] at distinct
  exact absurd distinct (by decide)

end Pagewright
