import Mathlib.Data.List.DropRight
import Pagewright.Deploy.Writer
import Pagewright.Proofs.FileLocations

/-!
# Places of paths

Paths below a directory are compared as texts, but it is their names that say which
file they lead to: a dot or a doubled separator leads nowhere. `Path.names` are these
names, and `temporaryPlace` is where a file is written before it is renamed.
-/

namespace Pagewright

variable {path part first target last root : String} {blanks before : List String}
  {location : Location}

namespace Path

/-! ### Parts -/

private theorem split_eq_splitOn (text : List Char) :
    (split text).1 :: (split text).2 = text.splitOn '/' := by
  fun_induction split text with
  | case1 => rfl
  | case2 rest part parts read ih =>
    rw [read] at ih
    rw [List.splitOn_cons_eq_if_modifyHead, if_pos (by rfl), ← ih]
  | case3 c rest other part parts read ih =>
    rw [read] at ih
    have apart : ¬ (c == '/') = true := by simpa using other
    rw [List.splitOn_cons_eq_if_modifyHead, if_neg apart, ← ih]
    rfl

private theorem parts_eq_splitOn (path : String) :
    parts path = (path.toList.splitOn '/').map String.ofList := by
  rw [← split_eq_splitOn]
  rfl

private theorem slash_not_mem_parts (path : String) (member : part ∈ parts path) :
    '/' ∉ part.toList := by
  have pieces (text : List Char) : ∀ piece ∈ text.splitOn '/', '/' ∉ piece := by
    induction text with
    | nil => simp
    | cons c rest ih =>
      rw [List.splitOn_cons_eq_if_modifyHead]
      split_ifs with slash
      · simpa using ih
      · cases read : rest.splitOn '/' with
        | nil => simp
        | cons piece more =>
          have apart : '/' ≠ c := fun same => slash (beq_iff_eq.mpr same.symm)
          simpa [read, apart] using ih
  rw [parts_eq_splitOn] at member
  obtain ⟨piece, among, rfl⟩ := List.mem_map.mp member
  rw [String.toList_ofList]
  exact pieces _ piece among

private theorem parts_ne_nil (path : String) : parts path ≠ [] :=
  List.cons_ne_nil _ _

private theorem parts_slash (front rest : String) :
    parts (front ++ "/" ++ rest) = parts front ++ parts rest := by
  have text : (front ++ "/" ++ rest).toList = front.toList ++ '/' :: rest.toList := by
    simp [String.toList_append]
  rw [parts_eq_splitOn, text, List.splitOn_append_cons_self, List.map_append, ← parts_eq_splitOn,
    ← parts_eq_splitOn]

private theorem parts_of_not_mem (whole : '/' ∉ path.toList) : parts path = [path] := by
  rw [parts_eq_splitOn, List.splitOn_eq_singleton whole, List.map_singleton, String.ofList_toList]

private theorem parts_intercalate {parts : List String} (nonempty : parts ≠ [])
    (whole : ∀ part ∈ parts, '/' ∉ part.toList) : Path.parts ("/".intercalate parts) = parts := by
  rw [parts_eq_splitOn, String.toList_intercalate]
  have pieces : List.splitOn '/' (['/'].intercalate (parts.map String.toList)) =
      parts.map String.toList :=
    List.splitOn_intercalate '/' (by simpa using whole) (by simpa using nonempty)
  rw [show "/".toList = ['/'] from rfl, pieces, List.map_map]
  exact (List.map_congr_left fun part _ => String.ofList_toList).trans (List.map_id _)

private theorem intercalate_parts (path : String) : "/".intercalate (parts path) = path := by
  apply String.toList_inj.mp
  rw [String.toList_intercalate, parts_eq_splitOn, List.map_map]
  have same : String.toList ∘ String.ofList = id := by
    funext text
    exact String.toList_ofList
  rw [same, List.map_id]
  exact List.intercalate_splitOn '/'

private theorem parts_injective {second : String} (same : parts first = parts second) :
    first = second := by
  rw [← intercalate_parts first, same, intercalate_parts]

/-- A path from the root starts with a part that is empty, and has others. -/
theorem isAbsolute_iff {rest : List String} (read : parts path = first :: rest) :
    isAbsolute path = true ↔ first = "" ∧ rest ≠ [] := by
  have whole : '/' ∉ first.toList := slash_not_mem_parts path (by simp [read])
  have text : path.toList = ['/'].intercalate (first.toList :: rest.map String.toList) := by
    rw [← intercalate_parts path, read, String.toList_intercalate]
    rfl
  rw [isAbsolute, text]
  cases letters : first.toList with
  | nil =>
    obtain rfl : first = "" := String.toList_eq_nil_iff.mp letters
    cases rest <;> simp [List.intercalate_cons_cons]
  | cons c more =>
    -- the path starts with a character of its first part
    have apart : c ≠ '/' := by
      rintro rfl
      exact whole (by simp [letters])
    have nonempty : first ≠ "" := by
      rintro rfl
      simp at letters
    cases rest <;> simp [List.intercalate_cons_cons, apart, nonempty]

/-! ### Steps -/

/-- The part is a name, and not one that stands for a way. -/
def IsName (part : String) : Prop :=
  part ≠ "" ∧ part ≠ "." ∧ part ≠ ".."

theorem step?_eq_down {name : String} :
    step? part = some (.down name) ↔ part = name ∧ IsName name := by
  unfold step? IsName
  split_ifs with empty dot up
  · refine iff_of_false (by simp) ?_
    rintro ⟨rfl, nonempty, -⟩
    exact nonempty empty
  · refine iff_of_false (by simp) ?_
    rintro ⟨rfl, -, noDot, -⟩
    exact noDot dot
  · refine iff_of_false (by simp) ?_
    rintro ⟨rfl, -, -, noUp⟩
    exact noUp up
  · rw [Option.some_inj, Step.down.injEq]
    refine ⟨?_, And.left⟩
    rintro rfl
    exact ⟨rfl, empty, dot, up⟩

private theorem component?_of_isName {name : String} (isName : IsName name) :
    component? name = some (.name name) := by
  rw [component?, if_neg (by simp [isName.1, isName.2.1]), if_neg isName.2.2]

def steps (path : String) : List Step :=
  (parts path).filterMap step?

private theorem route_steps (path : String) : (route path).steps = steps path :=
  rfl

private theorem route_fromRoot (path : String) : (route path).fromRoot = isAbsolute path :=
  rfl

private theorem route_trailing (path : String) : (route path).trailing =
    (!(steps path).isEmpty && decide (path.toList.getLast? = some '/')) :=
  rfl

/-- The last character of a path is a separator if its last part is empty and has others before. -/
theorem getLast?_of_parts (nonempty : before ≠ []) (read : parts path = before ++ [""]) :
    path.toList.getLast? = some '/' := by
  have whole : ∀ part ∈ before, '/' ∉ part.toList := by
    intro part member
    exact slash_not_mem_parts path (by simp [read, member])
  have same : path = "/".intercalate before ++ "/" ++ "" := by
    apply parts_injective
    rw [read, parts_slash, parts_intercalate nonempty whole]
    rfl
  rw [same]
  simp [String.toList_append]

/-- A path whose last step is to a name ends with that name. -/
theorem parts_of_steps {name : String} {front : List Step}
    (ends : steps path = front ++ [.down name]) (whole : (route path).trailing = false) :
    ∃ before, parts path = before ++ [name] ∧ IsName name ∧ before.filterMap step? = front := by
  obtain ⟨before, last, read⟩ : ∃ before last, parts path = before ++ [last] :=
    ⟨_, _, (List.dropLast_concat_getLast (parts_ne_nil path)).symm⟩
  rw [steps, read, List.filterMap_append] at ends
  by_cases blank : last = ""
  · subst blank
    by_cases single : before = []
    · simp [single, step?] at ends
    · -- then the path would end with a separator
      have leads : (steps path).isEmpty = false := by simp [steps, read, ends]
      rw [route_trailing, leads, getLast?_of_parts single read] at whole
      simp at whole
  · -- a part that is not empty makes a step, here the last one
    obtain ⟨step, leads⟩ : ∃ step, step? last = some step := by
      unfold step?
      split_ifs <;> simp
    rw [List.filterMap_cons_some leads] at ends
    obtain ⟨rfl, same⟩ := List.append_inj' ends rfl
    cases same
    obtain ⟨rfl, isName⟩ := step?_eq_down.mp leads
    exact ⟨before, read, isName, rfl⟩

/-- A path below a directory has its own parts behind those of the directory, but for an empty one
at the end. -/
theorem parts_join (root : String) (relative : isAbsolute path = false) :
    ∃ front blanks, parts (join root path) = front ++ parts path ∧ parts root = front ++ blanks ∧
      ∀ part ∈ blanks, part = "" := by
  unfold join
  rw [relative, Bool.false_or]
  split_ifs with empty ends
  · rw [String.isEmpty_iff.mp empty]
    exact ⟨[], [""], rfl, rfl, by simp⟩
  · obtain ⟨front, text⟩ := List.getLast?_eq_some_iff.mp ends
    obtain rfl : root = String.ofList front ++ "/" := by
      apply String.toList_inj.mp
      simpa [String.toList_append] using text
    -- the part behind the separator is empty
    have bare := parts_slash (String.ofList front) ""
    rw [String.append_empty] at bare
    exact ⟨_, [""], parts_slash _ path, bare, by simp⟩
  · exact ⟨_, [], parts_slash root path, (List.append_nil _).symm, by simp⟩

theorem steps_of_parts {front : List String} (read : parts path = front ++ blanks)
    (empty : ∀ part ∈ blanks, part = "") : steps path = front.filterMap step? := by
  have skipped : blanks.filterMap step? = [] := by
    refine List.filterMap_eq_nil_iff.mpr fun part member => ?_
    rw [empty part member]
    rfl
  rw [steps, read, List.filterMap_append, skipped, List.append_nil]

private theorem steps_join (relative : isAbsolute path = false) :
    steps (join root path) = steps root ++ steps path := by
  obtain ⟨front, blanks, joined, own, empty⟩ := parts_join root relative
  rw [steps_of_parts own empty, steps, joined, List.filterMap_append, steps]

theorem isAbsolute_join (relative : isAbsolute path = false) :
    isAbsolute (join root path) = isAbsolute root := by
  -- what stands behind a path does not change how it starts
  have front (rest : String) (some : ¬ root.isEmpty = true) :
      isAbsolute (root ++ rest) = isAbsolute root := by
    have some : root.toList ≠ [] := by simpa using some
    rw [isAbsolute, isAbsolute, String.toList_append, List.head?_append_of_ne_nil _ some]
  unfold join
  rw [relative, Bool.false_or]
  split_ifs with empty ends
  · rw [relative, String.isEmpty_iff.mp empty]
    rfl
  · exact front path empty
  · rw [String.append_assoc]
    exact front _ empty

/-! ### Names -/

def Component.name? : Component → Option String
  | .name own => some own
  | _ => none

def names (path : String) : Location :=
  (components path).filterMap Component.name?

def partName? (part : String) : Option String :=
  (component? part).bind Component.name?

theorem partName?_of_isName {name : String} (isName : IsName name) :
    partName? name = some name := by
  rw [partName?, component?_of_isName isName]
  rfl

theorem names_eq_parts (path : String) : names path = (parts path).filterMap partName? := by
  unfold names components
  cases read : parts path with
  | nil => rfl
  | cons first rest =>
    have front : List.filterMap partName? (first :: rest) =
        List.filterMap partName? [first] ++ List.filterMap partName? rest := by
      rw [← List.filterMap_append]
      rfl
    rw [List.filterMap_append, List.filterMap_filterMap, front]
    -- only the first part can make a component that is no name
    congr 1
    split_ifs with absolute dot
    · obtain ⟨rfl, -⟩ := (isAbsolute_iff read).mp absolute
      rfl
    · subst dot
      rfl
    · rw [List.filterMap_cons, partName?]
      cases component? first with
      | none => rfl
      | some component => cases component <;> rfl

/-- Dots lead nowhere. -/
theorem destination_parts (base : Location) {parts : List String} (down : ".." ∉ parts) :
    destination base (parts.filterMap step?) =
      base ++ parts.filterMap partName? := by
  induction parts generalizing base with
  | nil => simp [destination]
  | cons part rest ih =>
    obtain ⟨up, down⟩ := List.ne_and_not_mem_of_not_mem_cons down
    by_cases blank : part = "" ∨ part = "."
    · -- no step at all, or one that stays
      have noName : partName? part = none := by
        rw [partName?, component?, if_pos blank]
        rfl
      rw [List.filterMap_cons_none noName, ← ih base down]
      rcases blank with rfl | rfl
      · rfl
      · rfl
    · obtain ⟨nonempty, dot⟩ := not_or.mp blank
      have isName : IsName part := ⟨nonempty, dot, Ne.symm up⟩
      have leads : step? part = some (.down part) := step?_eq_down.mpr ⟨rfl, isName⟩
      rw [List.filterMap_cons_some leads, List.filterMap_cons_some (partName?_of_isName isName)]
      exact (ih _ down).trans (by simp [Step.target])

/-- What lies below a directory has no part that leads up. -/
theorem parts_of_isBelow (below : Writer.isBelow path = true) :
    isAbsolute path = false ∧ ".." ∉ parts path := by
  unfold Writer.isBelow at below
  obtain ⟨-, all⟩ := Bool.and_eq_true_iff.mp below
  rw [List.all_eq_true] at all
  unfold components at all
  cases read : parts path with
  | nil => exact absurd read (parts_ne_nil path)
  | cons first rest =>
    simp only [read] at all
    by_cases absolute : isAbsolute path = true
    · simpa [absolute] using all .root
    · refine ⟨by simpa using absolute, ?_⟩
      intro up
      -- the part would be a component
      have component : Component.parent ∈ (if isAbsolute path = true then [Component.root]
          else if first = "." then [Component.current] else (component? first).toList) ++
          rest.filterMap component? := by
        rw [if_neg absolute]
        rcases List.mem_cons.mp up with rfl | later
        · exact List.mem_append_left _ (by decide)
        · exact List.mem_append_right _ (List.mem_filterMap.mpr ⟨_, later, by decide⟩)
      exact absurd (all _ component) (by decide)

/-- A path below a directory leads to its names there. -/
theorem destination_below (base : Location) (below : Writer.isBelow path = true) :
    destination base (steps path) = base ++ names path := by
  rw [steps, destination_parts base (parts_of_isBelow below).2, names_eq_parts]

/-! ### Temporary files -/

/-- The part leads nowhere. -/
def IsBlank (part : String) : Prop :=
  part = "" ∨ part = "."

private theorem IsName.not_isBlank {name : String} (isName : IsName name) : ¬IsBlank name :=
  not_or.mpr ⟨isName.1, isName.2.1⟩

private theorem component?_isNone : (component? part).isNone = true ↔ IsBlank part := by
  unfold component? IsBlank
  split_ifs with blank <;> simp [blank]

/-- A part that is not blank leads up or is a name. -/
theorem up_or_isName (solid : ¬IsBlank part) : part = ".." ∨ IsName part := by
  obtain ⟨nonempty, dot⟩ := not_or.mp solid
  by_cases up : part = ".."
  · exact .inl up
  · exact .inr ⟨nonempty, dot, up⟩

private theorem component?_of_not_isBlank (solid : ¬IsBlank part) :
    component? part = some .parent ∨ component? part = some (.name part) := by
  rcases up_or_isName solid with rfl | isName
  · exact .inl rfl
  · exact .inr (component?_of_isName isName)

/-- A path has a last part that is not blank, or none. -/
theorem blank_or_solid (parts : List String) : (∀ part ∈ parts, IsBlank part) ∨
    ∃ before last blanks, parts = before ++ last :: blanks ∧ ¬IsBlank last ∧
      ∀ part ∈ blanks, IsBlank part := by
  induction parts with
  | nil => exact .inl (by simp)
  | cons first rest ih =>
    rcases ih with blank | ⟨before, last, blanks, rfl, solid, blank⟩
    · by_cases here : IsBlank first
      · exact .inl (List.forall_mem_cons.mpr ⟨here, blank⟩)
      · exact .inr ⟨[], first, rest, rfl, here, blank⟩
    · exact .inr ⟨first :: before, last, blanks, rfl, solid, blank⟩

private theorem trimParts_concat_blank (blank : IsBlank part) (rest : List String) :
    trimParts (rest ++ [part]) = trimParts rest :=
  List.rdropWhile_concat_pos _ _ _ (component?_isNone.mpr blank)

/-- Exactly the blank parts at the end are left out. -/
theorem trimParts_solid (solid : ¬IsBlank last) (blank : ∀ part ∈ blanks, IsBlank part)
    (rest : List String) : trimParts (rest ++ last :: blanks) = rest ++ [last] := by
  induction blanks using List.reverseRecOn with
  | nil => exact List.rdropWhile_concat_neg _ _ _ (component?_isNone.not.mpr solid)
  | append_singleton blanks part ih =>
    rw [← List.cons_append, ← List.append_assoc, trimParts_concat_blank (blank part (by simp))]
    exact ih fun other member => blank other (List.mem_append_left _ member)

theorem trimParts_blank (blank : ∀ part ∈ blanks, IsBlank part) : trimParts blanks = [] :=
  List.rdropWhile_eq_nil_iff.mpr fun part member => component?_isNone.mpr (blank part member)

/-- The parts that are left out at the end lead nowhere. -/
theorem destination_trimParts (base : Location) (parts : List String) :
    destination base ((trimParts parts).filterMap step?) =
      destination base (parts.filterMap step?) := by
  -- from the back, where parts are left out
  induction parts using List.reverseRecOn with
  | nil => rfl
  | append_singleton rest part ih =>
    by_cases blank : IsBlank part
    · rw [trimParts_concat_blank blank, ih, List.filterMap_append, destination_append]
      rcases blank with rfl | rfl <;> rfl
    · rw [trimParts_solid blank (by simp)]

private theorem filterMap_component?_blank (blank : ∀ part ∈ blanks, IsBlank part) :
    blanks.filterMap component? = [] :=
  List.filterMap_eq_nil_iff.mpr fun part member =>
    Option.isNone_iff_eq_none.mp (component?_isNone.mpr (blank part member))

section

variable {path last : String} {before blanks : List String}

private theorem components_getLast? (read : parts path = before ++ last :: blanks)
    (solid : ¬IsBlank last) (blank : ∀ part ∈ blanks, IsBlank part) :
    (components path).getLast? = component? last := by
  obtain ⟨component, counts⟩ : ∃ component, component? last = some component :=
    Option.ne_none_iff_exists'.mp fun none => solid (component?_isNone.mp (by rw [none]; rfl))
  unfold components
  rw [read]
  cases before with
  | nil =>
    have relative : ¬ isAbsolute path = true := by
      rw [isAbsolute_iff read]
      exact fun absolute => solid (.inl absolute.1)
    have noDot : last ≠ "." := fun dot => solid (.inr dot)
    simp [relative, noDot, counts, filterMap_component?_blank blank]
  | cons first rest => simp [counts, filterMap_component?_blank blank]

theorem fileName?_of_parts (read : parts path = before ++ last :: blanks) (solid : ¬IsBlank last)
    (blank : ∀ part ∈ blanks, IsBlank part) : fileName? (components path) = partName? last := by
  rw [fileName?, components_getLast? read solid blank, partName?]
  rcases component?_of_not_isBlank solid with counts | counts <;>
  · rw [counts]
    rfl

/-- Blank parts make no component, but for a dot in front or the root. -/
theorem components_blank (read : parts path = first :: blanks) (here : IsBlank first)
    (blank : ∀ part ∈ blanks, IsBlank part) :
    components path = if isAbsolute path then [.root] else
      if first = "." then [.current] else [] := by
  have none := Option.isNone_iff_eq_none.mp (component?_isNone.mpr here)
  simp [components, read, filterMap_component?_blank blank, none]

theorem fileName?_blank (blank : ∀ part ∈ parts path, IsBlank part) :
    fileName? (components path) = none := by
  cases read : parts path with
  | nil => exact absurd read (parts_ne_nil path)
  | cons first rest =>
    rw [read, List.forall_mem_cons] at blank
    rw [components_blank read blank.1 blank.2]
    split_ifs <;> rfl

/-- What a path lies in is written as the parts before its last one that is not blank. -/
theorem parent?_of_parts (read : parts path = first :: (before ++ last :: blanks))
    (solid : ¬IsBlank last) (blank : ∀ part ∈ blanks, IsBlank part) :
    parent? path = some (if first :: trimParts before = [""] then "/"
      else "/".intercalate (first :: trimParts before)) := by
  have ends := components_getLast? (read.trans (List.cons_append).symm) solid blank
  unfold parent?
  rcases component?_of_not_isBlank solid with counts | counts <;>
  · rw [ends, counts, read]
    simp only [trimParts_solid solid blank before]
    split
    · next empty => simp at empty
    · rw [List.dropLast_concat]

private theorem parent?_single (read : parts path = last :: blanks) (solid : ¬IsBlank last)
    (blank : ∀ part ∈ blanks, IsBlank part) : parent? path = some "" := by
  have ends := @components_getLast? path last [] blanks read solid blank
  unfold parent?
  rcases component?_of_not_isBlank solid with counts | counts <;>
  · rw [ends, counts, read]
    simp only [trimParts_blank blank]

/-- The directory of a path is where its parts before the last one that is not blank lead. -/
theorem destination_parent (read : parts path = before ++ last :: blanks) (solid : ¬IsBlank last)
    (blank : ∀ part ∈ blanks, IsBlank part) :
    ∃ parent, parent? path = some parent ∧ isAbsolute parent = isAbsolute path ∧
      ∀ base, destination base (steps parent) = destination base (before.filterMap step?) := by
  cases before with
  | nil =>
    have relative : isAbsolute path = false := by
      rw [← Bool.not_eq_true, isAbsolute_iff read]
      exact fun absolute => solid (.inl absolute.1)
    exact ⟨"", parent?_single read solid blank, relative.symm, fun _ => rfl⟩
  | cons first rest =>
    rw [List.cons_append] at read
    have absolute : isAbsolute path = true ↔ first = "" := by
      rw [isAbsolute_iff read]
      simp
    have trimmed (base : Location) : destination base ((first :: trimParts rest).filterMap step?) =
        destination base ((first :: rest).filterMap step?) := by
      rw [← List.singleton_append, ← List.singleton_append (l := rest), List.filterMap_append,
        List.filterMap_append, destination_append, destination_append, destination_trimParts]
    refine ⟨_, parent?_of_parts read solid blank, ?_⟩
    split_ifs with root
    · -- a single empty part stands for the root
      obtain ⟨rfl, -⟩ := List.cons.inj root
      refine ⟨by rw [absolute.mpr rfl]; rfl, fun base => ?_⟩
      rw [← trimmed base, root]
      rfl
    · have kept : parts ("/".intercalate (first :: trimParts rest)) = first :: trimParts rest := by
        apply parts_intercalate (List.cons_ne_nil _ _)
        intro part member
        apply slash_not_mem_parts path
        rw [read]
        rcases List.mem_cons.mp member with rfl | later
        · exact List.mem_cons_self
        · exact List.mem_cons_of_mem _
            (List.mem_append_left _ ((List.rdropWhile_prefix _ _).subset later))
      refine ⟨?_, fun base => ?_⟩
      · apply Bool.eq_iff_iff.mpr
        rw [absolute, isAbsolute_iff kept]
        constructor
        · exact And.left
        · rintro rfl
          exact ⟨rfl, fun empty => root (by rw [empty])⟩
      · rw [steps, kept, trimmed]

end

def temporaryName (name : String) : String :=
  "." ++ name ++ ".tmp"

private theorem temporaryName_isName (name : String) : IsName (temporaryName name) := by
  have long : 5 ≤ (temporaryName name).length := by
    simp only [temporaryName, String.length_append, show ".".length = 1 from rfl,
      show ".tmp".length = 4 from rfl]
    omega
  refine ⟨?_, ?_, ?_⟩ <;>
  · intro short
    rw [short] at long
    exact absurd long (by decide)

/-- A temporary name is a single part, and so a single step. -/
theorem steps_temporaryName {name : String} (whole : '/' ∉ name.toList) :
    isAbsolute (temporaryName name) = false ∧
      steps (temporaryName name) = [.down (temporaryName name)] := by
  have plain : parts (temporaryName name) = [temporaryName name] := by
    apply parts_of_not_mem
    simp [temporaryName, String.toList_append, whole]
  constructor
  · simpa using (isAbsolute_iff plain).not.mpr (by simp)
  · rw [steps, plain, List.filterMap_cons_some (step?_eq_down.mpr ⟨rfl, temporaryName_isName name⟩)]
    rfl

/-- The temporary file of a target lies in the directory of the target. -/
theorem temporary_leads (read : parts target = before ++ last :: blanks) (solid : ¬IsBlank last)
    (blank : ∀ part ∈ blanks, IsBlank part) :
    isAbsolute (Writer.temporary target) = isAbsolute target ∧
      ∃ front, steps (Writer.temporary target) =
          front ++ [.down (temporaryName ((partName? last).getD "output"))] ∧
        ∀ base, destination base front = destination base (before.filterMap step?) := by
  have whole : '/' ∉ ((partName? last).getD "output").toList := by
    rcases up_or_isName solid with rfl | isName
    · decide
    · rw [partName?_of_isName isName]
      exact slash_not_mem_parts target (by simp [read])
  obtain ⟨relative, leads⟩ := steps_temporaryName whole
  obtain ⟨parent, above, absolute, same⟩ := destination_parent read solid blank
  have joined : Writer.temporary target =
      join parent (temporaryName ((partName? last).getD "output")) := by
    rw [Writer.temporary, fileName?_of_parts read solid blank, above]
    rfl
  rw [joined, isAbsolute_join relative, steps_join relative, leads]
  exact ⟨absolute, _, rfl, same⟩

/-- The temporary file of a target without names and steps up lies in the current directory. -/
theorem temporary_leads_blank (blank : ∀ part ∈ parts target, IsBlank part) :
    isAbsolute (Writer.temporary target) = false ∧
      ∃ front, steps (Writer.temporary target) = front ++ [.down (temporaryName "output")] ∧
        ∀ base, destination base front = base := by
  cases read : parts target with
  | nil => exact absurd read (parts_ne_nil target)
  | cons first rest =>
    rw [read, List.forall_mem_cons] at blank
    obtain ⟨here, later⟩ := blank
    have joined : Writer.temporary target = join "." (temporaryName "output") ∨
        Writer.temporary target = join "" (temporaryName "output") := by
      unfold Writer.temporary parent?
      rw [read, components_blank read here later]
      split_ifs
      · exact .inl rfl
      · simp only [List.getLast?_singleton, trimParts_blank later]
        exact .inr rfl
      · exact .inl rfl
    rcases joined with dot | bare
    · rw [dot]
      exact ⟨by decide, [.stay], by decide, fun _ => rfl⟩
    · rw [bare]
      exact ⟨by decide, [], by decide, fun _ => rfl⟩

end Path

/-! ### Locations -/

/-- Where the file of a location is written first. -/
def temporaryPlace (location : Location) : Location :=
  match location.getLast? with
  | none => []
  | some name => location.dropLast ++ [Path.temporaryName name]

@[simp] theorem temporaryPlace_concat (front : Location) (name : String) :
    temporaryPlace (front ++ [name]) = front ++ [Path.temporaryName name] := by
  simp [temporaryPlace]

theorem temporaryPlace_append (base : Location) {place : Location} (nonempty : place ≠ []) :
    temporaryPlace (base ++ place) = base ++ temporaryPlace place := by
  rcases List.eq_nil_or_concat' place with rfl | ⟨front, name, rfl⟩
  · exact absurd rfl nonempty
  · rw [← List.append_assoc, temporaryPlace_concat, temporaryPlace_concat, List.append_assoc]

theorem temporaryPlace_ne_nil (nonempty : location ≠ []) : temporaryPlace location ≠ [] := by
  rcases List.eq_nil_or_concat' location with rfl | ⟨front, name, rfl⟩
  · exact absurd rfl nonempty
  · simp

theorem temporaryPlace_ne (nonempty : location ≠ []) : temporaryPlace location ≠ location := by
  rcases List.eq_nil_or_concat' location with rfl | ⟨front, name, rfl⟩
  · exact absurd rfl nonempty
  · rw [temporaryPlace_concat]
    intro same
    have longer := congrArg String.length (List.singleton_inj.mp (List.append_cancel_left same))
    simp only [Path.temporaryName, String.length_append] at longer
    have dot : ".".length = 1 := rfl
    omega

namespace FileTree

variable {tree tree' : FileTree} {root path : String} {location : Location}

def base (tree : FileTree) (root : String) : Location :=
  destination (if Path.isAbsolute root then [] else tree.current) (Path.steps root)

theorem start_ok {route : Path.Route} {start : Location} (starts : tree.start route = .ok start) :
    start = if route.fromRoot then [] else tree.current := by
  unfold FileTree.start at starts
  split at starts
  · cases starts
  · split_ifs at starts ⊢ <;> cases starts <;> rfl

theorem base_congr (current : tree'.current = tree.current) (path : String) :
    tree'.base path = tree.base path := by
  rw [base, base, current]

/-- An open way leads to where its path leads. -/
theorem Opens.base (opens : tree.Opens (Path.route path) location) : location = tree.base path := by
  obtain ⟨start, front, name, starts, ends, -, rfl⟩ := opens
  have last : destination start front ++ [name] = destination start (front ++ [.down name]) := by
    rw [destination_append]
    rfl
  rw [last, ← ends, Path.route_steps, start_ok starts, Path.route_fromRoot]
  rfl

private theorem base_join (relative : Path.isAbsolute path = false) :
    tree.base (Path.join root path) = destination (tree.base root) (Path.steps path) := by
  rw [base, Path.isAbsolute_join relative, Path.steps_join relative, destination_append]
  rfl

/-- A path below a directory leads to its names below where the directory is. -/
theorem base_below (below : Writer.isBelow path = true) :
    tree.base (Path.join root path) = tree.base root ++ Path.names path := by
  rw [base_join (Path.parts_of_isBelow below).1, Path.destination_below _ below]

/-- A file below a directory has a name of its own. -/
theorem Opens.names_ne_nil (opens : tree.Opens (Path.route (Path.join root path)) location)
    (whole : (Path.route (Path.join root path)).trailing = false)
    (below : Writer.isBelow path = true) : Path.names path ≠ [] := by
  obtain ⟨_, _, name, -, ends, -⟩ := opens
  rw [Path.route_steps] at ends
  obtain ⟨before, read, isName, -⟩ := Path.parts_of_steps ends whole
  obtain ⟨front, _, joined, -⟩ := Path.parts_join root (Path.parts_of_isBelow below).1
  obtain ⟨rest, last, own⟩ : ∃ rest last, Path.parts path = rest ++ [last] :=
    ⟨_, _, (List.dropLast_concat_getLast (Path.parts_ne_nil path)).symm⟩
  -- what is joined ends with the last part of the path itself
  rw [read, own, ← List.append_assoc] at joined
  obtain ⟨-, same⟩ := List.append_inj' joined rfl
  cases same
  rw [Path.names_eq_parts, own, List.filterMap_append,
    List.filterMap_cons_some (Path.partName?_of_isName isName)]
  simp

/-- The temporary file of a path is where the parts before its last one that is not blank lead. -/
theorem base_temporary (read : Path.parts path = before ++ last :: blanks)
    (solid : ¬Path.IsBlank last) (blank : ∀ part ∈ blanks, Path.IsBlank part) :
    tree.base (Writer.temporary path) =
      destination (if Path.isAbsolute path then [] else tree.current)
        (before.filterMap Path.step?) ++
        [Path.temporaryName ((Path.partName? last).getD "output")] := by
  obtain ⟨absolute, front, leads, same⟩ := Path.temporary_leads read solid blank
  rw [base, leads, destination_append, absolute, same]
  rfl

/-- A file is written first beside the place that it gets to. -/
theorem Opens.temporary (opens : tree.Opens (Path.route target) location)
    (whole : (Path.route target).trailing = false) :
    tree.base (Writer.temporary target) = temporaryPlace location := by
  obtain ⟨start, front, name, starts, ends, -, rfl⟩ := opens
  rw [Path.route_steps] at ends
  obtain ⟨before, read, isName, rfl⟩ := Path.parts_of_steps ends whole
  rw [base_temporary read isName.not_isBlank (by simp), Path.partName?_of_isName isName,
    temporaryPlace_concat, start_ok starts, Path.route_fromRoot]
  rfl

end FileTree

end Pagewright
