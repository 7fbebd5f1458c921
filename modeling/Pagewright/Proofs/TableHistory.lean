import Mathlib.Computability.RegularExpressions
import Pagewright.Proofs.AnalysisComplete

/-!
# Catalogs along a history of calls

A catalog is filled by inserting definitions one after the other, and meanwhile
its definitions get markers. An insertion is refused if its name is no identifier
or has been given already, and then nothing changes. So the catalog holds the
definitions that were accepted, in the order in which they came, and its index
leads to each of them; a name that is not in the catalog has no marker.

A regular expression says what an identifier is, independently of the test that
the table makes.
-/

namespace Pagewright

variable {expressions : List Expression} {names : List String} {chars text : List Char}
  {left : Catalog} {place : Nat} {fault : Error}

/-! ### Identifiers as a regular expression -/

def oneOf (chars : List Char) : RegularExpression Char :=
  (chars.map RegularExpression.char).sum

/-- `A-Za-z_` -/
def startChars : List Char :=
  "ABCDEFGHIJKLMNOPQRSTUVWXYZabcdefghijklmnopqrstuvwxyz_".toList

/-- `A-Za-z0-9_` -/
def partChars : List Char :=
  startChars ++ "0123456789".toList

/-- `[A-Za-z_][A-Za-z0-9_]*` -/
def identifierPattern : RegularExpression Char :=
  oneOf startChars * (oneOf partChars).star

/-- The whole text matches the pattern of identifiers. -/
def IsIdentifier (name : String) : Prop :=
  name.toList ∈ identifierPattern.matches'

private theorem mem_oneOf : text ∈ (oneOf chars).matches' ↔ ∃ c ∈ chars, text = [c] := by
  induction chars with
  | nil => simp [oneOf]
  | cons first rest ih =>
    have split : oneOf (first :: rest) = .char first + oneOf rest := by simp [oneOf]
    rw [split, RegularExpression.matches'_add, Language.mem_add, ih,
      RegularExpression.matches'_char]
    simp only [List.mem_cons, exists_eq_or_imp]
    rfl

private theorem mem_star_oneOf : text ∈ (oneOf chars).star.matches' ↔ ∀ c ∈ text, c ∈ chars := by
  rw [RegularExpression.matches'_star, Language.mem_kstar]
  constructor
  · rintro ⟨pieces, rfl, each⟩ c member
    obtain ⟨piece, among, inside⟩ := List.mem_flatten.mp member
    obtain ⟨single, allowed, rfl⟩ := mem_oneOf.mp (each piece among)
    exact List.mem_singleton.mp inside ▸ allowed
  · intro all
    refine ⟨text.map ([·]), (List.flatMap_singleton' text).symm, fun piece among => ?_⟩
    obtain ⟨c, member, rfl⟩ := List.mem_map.mp among
    exact mem_oneOf.mpr ⟨c, all c member, rfl⟩

/-- A test of ASCII characters is known by the characters it lets through. -/
theorem test_iff_mem {test : Char → Bool} (passes : chars.all test = true)
    (complete : ∀ code < 128, test (Char.ofNat code) = true → Char.ofNat code ∈ chars)
    (ascii : ∀ c, test c = true → c.toNat < 128) (c : Char) : test c = true ↔ c ∈ chars := by
  constructor
  · intro tested
    have listed := complete c.toNat (ascii c tested)
    rw [Char.ofNat_toNat] at listed
    exact listed tested
  · exact List.all_eq_true.mp passes c

private theorem isWordPart_ascii {c : Char} (part : isWordPart c = true) : c.toNat < 128 := by
  have bound : ∀ {most : UInt32}, c.val ≤ most → most < 128 → c.toNat < 128 :=
    fun below small => lt_of_le_of_lt (UInt32.le_iff_toNat_le.mp below) small
  simp only [isWordPart, Char.isAlphanum, Bool.or_eq_true] at part
  rcases part with (letter | digit) | under
  · rcases Bool.or_eq_true_iff.mp letter with upper | lower
    · exact bound (of_decide_eq_true upper).2 (by decide)
    · exact bound (of_decide_eq_true (Bool.and_eq_true_iff.mp lower).2) (by decide)
  · exact bound (of_decide_eq_true (Bool.and_eq_true_iff.mp digit).2) (by decide)
  · rw [eq_of_beq under]
    decide

theorem isWordStart_iff (c : Char) : isWordStart c = true ↔ c ∈ startChars :=
  test_iff_mem (by decide) (by decide)
    (fun _ start => isWordPart_ascii (isWordPart_of_isWordStart start)) c

theorem isWordPart_iff (c : Char) : isWordPart c = true ↔ c ∈ partChars :=
  test_iff_mem (by decide) (by decide) (fun _ => isWordPart_ascii) c

/-- The test of the table is a match with the pattern. -/
theorem isIdentifier_iff (name : String) : isIdentifier name = true ↔ IsIdentifier name := by
  unfold isIdentifier IsIdentifier identifierPattern
  rw [RegularExpression.matches'_mul, Language.mem_mul]
  cases name.toList with
  | nil =>
    refine iff_of_false Bool.false_ne_true ?_
    rintro ⟨start, isStart, rest, -, joined⟩
    obtain ⟨c, -, rfl⟩ := mem_oneOf.mp isStart
    cases joined
  | cons first rest =>
    simp only [Bool.and_eq_true, List.all_eq_true, isWordStart_iff, isWordPart_iff]
    constructor
    · rintro ⟨start, parts⟩
      exact ⟨[first], mem_oneOf.mpr ⟨first, start, rfl⟩, rest, mem_star_oneOf.mpr parts, rfl⟩
    · rintro ⟨start, isStart, parts, isRest, joined⟩
      obtain ⟨c, allowed, rfl⟩ := mem_oneOf.mp isStart
      obtain ⟨rfl, rfl⟩ := List.cons.inj joined
      exact ⟨allowed, mem_star_oneOf.mp isRest⟩

/-! ### One call -/

/-- A call on a catalog and the markers of its definitions. -/
inductive TableCall where
  | insert (name : String) (expression : Expression)
  | mark (name : String) (marker : Marker)

structure Registry where
  catalog : Catalog := {}
  markers : Markers := {}

namespace Registry

/-- The definition that a call adds: that of an insertion which succeeds. -/
def accepts (registry : Registry) : TableCall → Option Definition
  | .insert name expression =>
    match Catalog.insert name expression registry.catalog with
    | .ok _ _ => some ⟨name, expression⟩
    | .error _ _ => none
  | .mark _ _ => none

/-- What a call leaves behind, whether it succeeds or not. -/
def after (registry : Registry) : TableCall → Registry
  | .insert name expression =>
    match Catalog.insert name expression registry.catalog with
    | .ok _ catalog | .error _ catalog => { registry with catalog }
  | .mark name marker =>
    { registry with markers := registry.catalog.setMarker registry.markers name marker }

def accepted : Registry → List TableCall → List Definition
  | _, [] => []
  | registry, call :: rest => (registry.accepts call).toList ++ accepted (registry.after call) rest

/-- What is left by calls that are made one after the other, from an empty catalog on. -/
def history (calls : List TableCall) : Registry :=
  calls.foldl after {}

/-- What holds of a catalog and its markers at any time. -/
structure Sound (registry : Registry) : Prop where
  indexed : registry.catalog.IsIndexed
  distinct : registry.catalog.names.Nodup
  identifiers : ∀ name ∈ registry.catalog.names, IsIdentifier name
  unmarked : ∀ name, name ∉ registry.catalog.names → registry.markers.get name = .discovered

variable {registry : Registry} {name : String} {expression : Expression} {catalog : Catalog}

theorem Sound.contains_iff (sound : registry.Sound) :
    registry.catalog.contains name = true ↔ name ∈ registry.catalog.names :=
  @Table.contains_iff ⟨registry.catalog, sound.indexed⟩ name

theorem Sound.insert_ok (sound : registry.Sound) :
    Catalog.insert name expression registry.catalog = .ok () catalog ↔
      IsIdentifier name ∧ name ∉ registry.catalog.names ∧
        catalog = ⟨registry.catalog.definitions ++ [⟨name, expression⟩],
          (name, registry.catalog.size) :: registry.catalog.places⟩ := by
  rw [Catalog.insert_ok, isIdentifier_iff, ← sound.contains_iff, Bool.not_eq_true]

/-- An insertion that is refused has changed neither the definitions nor the index. -/
theorem insert_error (refused : Catalog.insert name expression catalog = .error fault left) :
    left = catalog := by
  rw [Catalog.insert_eq] at refused
  split_ifs at refused <;> cases refused <;> rfl

private theorem after_refused
    (refused : Catalog.insert name expression registry.catalog = .error fault left) :
    registry.after (.insert name expression) = registry := by
  simp only [after, refused, insert_error refused]

private theorem after_definitions (registry : Registry) (call : TableCall) :
    (registry.after call).catalog.definitions =
      registry.catalog.definitions ++ (registry.accepts call).toList := by
  cases call with
  | mark name marker => simp [after, accepts]
  | insert name expression =>
    cases inserted : Catalog.insert name expression registry.catalog with
    | error fault left => simp [after, accepts, inserted, insert_error inserted]
    | ok _ catalog =>
      obtain ⟨-, -, rfl⟩ := Catalog.insert_ok.mp inserted
      simp [after, accepts, inserted]

/-- One call keeps a catalog and its markers sound. -/
theorem Sound.after (sound : registry.Sound) (call : TableCall) : (registry.after call).Sound := by
  cases call with
  | mark name marker =>
    refine ⟨sound.indexed, sound.distinct, sound.identifiers, fun other missing => ?_⟩
    have apart : (registry.catalog.setMarker registry.markers name marker).get other =
        registry.markers.get other := by
      unfold Catalog.setMarker
      split_ifs with known
      · refine Markers.get_set_of_ne _ _ ?_
        rintro rfl
        exact missing (sound.contains_iff.mp known)
      · rfl
    exact apart.trans (sound.unmarked other missing)
  | insert name expression =>
    cases inserted : Catalog.insert name expression registry.catalog with
    | error fault left => rwa [after_refused inserted]
    | ok _ catalog =>
      obtain ⟨identifier, fresh, rfl⟩ := sound.insert_ok.mp inserted
      have names : (registry.after (.insert name expression)).catalog.names =
          registry.catalog.names ++ [name] := by
        simp [Registry.after, inserted, Catalog.names]
      refine ⟨?_, ?_, ?_, ?_⟩
      · simpa only [Registry.after, inserted] using sound.indexed.add ⟨name, expression⟩
      · rw [names]
        exact sound.distinct.append (List.nodup_singleton name) (by simpa using fresh)
      · rw [names]
        simpa [or_imp, forall_and] using ⟨sound.identifiers, identifier⟩
      · rw [names]
        intro other missing
        simp only [Registry.after, inserted]
        exact sound.unmarked other fun known => missing (List.mem_append_left _ known)

/-! ### All calls -/

private theorem foldl_after_definitions (registry : Registry) (calls : List TableCall) :
    (calls.foldl after registry).catalog.definitions =
      registry.catalog.definitions ++ registry.accepted calls := by
  induction calls generalizing registry with
  | nil => simp [accepted]
  | cons call rest ih =>
    rw [List.foldl_cons, ih, after_definitions, accepted, List.append_assoc]

private theorem history_sound (calls : List TableCall) : (history calls).Sound := by
  have start : ({} : Registry).Sound :=
    ⟨by decide, List.nodup_nil, by simp [Catalog.names], fun _ _ => rfl⟩
  exact List.foldlRecOn calls Registry.after start fun _ sound call _ => sound.after call

/-- The index and the definitions say the same about every name and every place. -/
theorem Sound.places_iff (sound : registry.Sound) :
    registry.catalog.places.lookup name = some place ↔
      registry.catalog.names[place]? = some name := by
  have placed : ∀ {place}, registry.catalog.places.lookup name = some place →
      registry.catalog.names[place]? = some name :=
    fun listed => sound.indexed.1 _ (Entries.mem_of_lookup listed)
  refine ⟨placed, fun named => ?_⟩
  have known := sound.contains_iff.mpr (List.mem_of_getElem? named)
  obtain ⟨other, listed⟩ := Option.isSome_iff_exists.mp known
  obtain ⟨inside, -⟩ := List.getElem?_eq_some_iff.mp named
  -- no name stands at two places
  have same := (List.getElem?_inj inside sound.distinct).mp (named.trans (placed listed).symm)
  rw [listed, same]

/-- Looking a name up gives the definition at its place. -/
theorem Sound.find?_of_place (sound : registry.Sound)
    (named : registry.catalog.names[place]? = some name) :
    registry.catalog.find? name = registry.catalog.definitions[place]? := by
  rw [Catalog.find?, sound.places_iff.mpr named, Option.bind_some]

end Registry

/-! ### The table of a program -/

/-- The names that expressions define, one for each of them. -/
def DefineNames (expressions : List Expression) (names : List String) : Prop :=
  List.Forall₂ (fun e name => e.get? "defines" = some (.text name)) expressions names

private theorem DefineNames.filterMap_eq (defined : DefineNames expressions names) :
    expressions.filterMap Expression.defines? = names := by
  induction defined with
  | nil => rfl
  | cons first _ ih =>
    rw [List.filterMap_cons_some (Expression.defines?_eq_some.mpr first), ih]

private theorem DefineNames.exists_of_mem (defined : DefineNames expressions names) {e : Expression}
    (member : e ∈ expressions) : ∃ name ∈ names, e.defines? = some name := by
  induction defined with
  | nil => cases member
  | @cons first name _ _ here _ ih =>
    rcases List.mem_cons.mp member with rfl | later
    · exact ⟨name, List.mem_cons_self, Expression.defines?_eq_some.mpr here⟩
    · obtain ⟨other, among, defines⟩ := ih later
      exact ⟨other, List.mem_cons_of_mem _ among, defines⟩

private theorem Table.Holds.defineNames {table : Table} (holds : table.Holds expressions) :
    DefineNames expressions table.names := by
  rw [← holds.expressions, DefineNames, Catalog.names, List.forall₂_map_left_iff,
    List.forall₂_map_right_iff, List.forall₂_same]
  exact holds.named

/-- Expressions make a table exactly if they define different identifiers, which are its names. -/
theorem Table.ofExpressions_names_iff :
    (∃ table, Table.ofExpressions expressions = .ok table ∧ table.names = names) ↔
      DefineNames expressions names ∧ (∀ name ∈ names, IsIdentifier name) ∧ names.Nodup := by
  constructor
  · rintro ⟨table, made, rfl⟩
    have holds := Table.ofExpressions_holds made
    exact ⟨holds.defineNames, fun name member =>
      (isIdentifier_iff name).mp (holds.identifiers name member), holds.distinct⟩
  · rintro ⟨defined, identifiers, distinct⟩
    have definable : Definable expressions := by
      refine ⟨fun e member => ?_, by rwa [defined.filterMap_eq]⟩
      obtain ⟨name, among, defines⟩ := defined.exists_of_mem member
      exact ⟨name, defines, (isIdentifier_iff name).mpr (identifiers name among)⟩
    obtain ⟨table, made⟩ := definable.makes_table
    have holds := Table.ofExpressions_holds made
    exact ⟨table, made, by rw [holds.names_eq, defined.filterMap_eq]⟩

/-- Along every history of calls the names of the catalog are those of the insertions that
succeeded, in order, different identifiers all of them. The index leads to a place from a name
exactly if the definition of this name stands there. So exactly these names are found, each with the
definition that was inserted. An insertion succeeds exactly if its name is a new identifier, whose
marker is then as at the start; one that fails leaves the definitions, the index and the markers as
they were. And a program makes a table exactly if its expressions define different identifiers,
which are then the table's names. -/
theorem table_follows_calls (calls : List TableCall) :
    let registry := Registry.history calls
    let catalog := registry.catalog
    let accepted := Registry.accepted {} calls
    (catalog.names = accepted.map Definition.name ∧ catalog.names.Nodup ∧
      ∀ name ∈ catalog.names, IsIdentifier name) ∧
    (∀ name place,
      catalog.places.lookup name = some place ↔ catalog.names[place]? = some name) ∧
    ((∀ name, (catalog.find? name).isSome ↔ name ∈ catalog.names) ∧
      (∀ name, catalog.contains name = true ↔ name ∈ catalog.names) ∧
      (∀ definition ∈ accepted, catalog.find? definition.name = some definition) ∧
      ∀ (place : Nat) name, catalog.names[place]? = some name →
        catalog.find? name = catalog.definitions[place]?) ∧
    (∀ name expression,
      ((∃ left, Catalog.insert name expression catalog = .ok () left) ↔
        IsIdentifier name ∧ name ∉ catalog.names) ∧
      (∀ left, Catalog.insert name expression catalog = .ok () left →
        left.markers registry.markers =
          catalog.markers registry.markers ++ [(name, .discovered)]) ∧
      ∀ fault left, Catalog.insert name expression catalog = .error fault left →
        left = catalog ∧ registry.after (.insert name expression) = registry) ∧
    ∀ expressions names,
      (∃ table, Table.ofExpressions expressions = .ok table ∧ table.names = names) ↔
        DefineNames expressions names ∧ (∀ name ∈ names, IsIdentifier name) ∧ names.Nodup := by
  intro registry catalog accepted
  have sound : registry.Sound := Registry.history_sound calls
  have definitions : catalog.definitions = accepted := Registry.foldl_after_definitions {} calls
  let table : Table := ⟨catalog, sound.indexed⟩
  refine ⟨⟨?_, sound.distinct, sound.identifiers⟩, fun _ _ => sound.places_iff,
    ⟨?_, fun _ => sound.contains_iff, ?_, fun _ _ => sound.find?_of_place⟩, ?_, ?_⟩
  · rw [← definitions, Catalog.names]
  · intro name
    rw [Option.isSome_iff_exists]
    exact (@Table.mem_names_iff table name).symm
  · intro definition member
    exact (@Table.find?_eq_some_iff table sound.distinct _ _).mpr ⟨definitions ▸ member, rfl⟩
  · intro name expression
    refine ⟨?_, ?_, ?_⟩
    · simp only [sound.insert_ok, catalog, ← and_assoc, exists_and_left, exists_eq, and_true]
    · intro left inserted
      obtain ⟨-, fresh, rfl⟩ := sound.insert_ok.mp inserted
      simp [Catalog.markers, Catalog.names, sound.unmarked name fresh, catalog]
    · intro fault left refused
      exact ⟨Registry.insert_error refused, Registry.after_refused refused⟩
  · intro expressions names
    exact Table.ofExpressions_names_iff

/-- Two insertions that succeed, around two that fail and a marker. -/
def mixedCalls : List TableCall :=
  [.insert "box" ⟨1, none, "div", []⟩, .insert "my-box" ⟨2, none, "div", []⟩,
    .mark "box" .processing, .insert "box" ⟨3, none, "p", []⟩, .insert "row" ⟨4, none, "p", []⟩]

theorem table_follows_calls_mixed :
    (Registry.history mixedCalls).catalog.names = ["box", "row"] ∧
      (Registry.history mixedCalls).catalog.places.lookup "row" = some 1 ∧
      (Registry.history mixedCalls).catalog.find? "box" = some ⟨"box", 1, none, "div", []⟩ ∧
      (Registry.history mixedCalls).after (.insert "row" ⟨5, none, "div", []⟩) =
        Registry.history mixedCalls := by
  have accepted : Registry.accepted {} mixedCalls =
      [⟨"box", 1, none, "div", []⟩, ⟨"row", 4, none, "p", []⟩] := by rfl
  obtain ⟨⟨names, -, -⟩, index, ⟨-, -, found, -⟩, inserts, -⟩ := table_follows_calls mixedCalls
  rw [accepted] at names found
  refine ⟨names, (index "row" 1).mpr (by rw [names]; rfl), found _ List.mem_cons_self, ?_⟩
  obtain ⟨fault, left, refused⟩ : ∃ fault left, Catalog.insert "row" ⟨5, none, "div", []⟩
      (Registry.history mixedCalls).catalog = .error fault left := ⟨_, _, rfl⟩
  exact ((inserts "row" _).2.2 fault left refused).2

end Pagewright
