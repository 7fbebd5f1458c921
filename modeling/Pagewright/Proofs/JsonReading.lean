import Mathlib.Data.List.DropRight
import Pagewright.Json.Printer
import Pagewright.Json.Reader
import Pagewright.Proofs.Decimals

/-!
# Reading back written JSON

The reader takes the pretty layout of a value back to the value, whatever
strings and names are in it and however deep it is nested. The budget that the
reader sets itself is never used up: every routine that a value needs is paid
for by a character of its layout.

Left out are values that are no values of their own: half a surrogate pair,
which is written as null, and numbers kept in a spelling other than the decimal
digits of a natural number.
-/

namespace Pagewright

variable {c : Char} {rest text after more : List Char} {json : Json} {budget : Nat} {name : String}

namespace Json

/-- Values that say one thing when written: all texts are texts and all numbers natural. -/
inductive Plain : Json → Prop where
  | null : Plain .null
  | bool (value : Bool) : Plain (.bool value)
  | number (value : Nat) : Plain (.ofNat value)
  | text (value : String) : Plain (.text value)
  | array {items : List Json} (all : ∀ item ∈ items, Plain item) : Plain (.array items)
  | object {fields : List (String × Json)} (all : ∀ field ∈ fields, Plain field.2) :
    Plain (.object fields)

/-! ### Strings -/

private theorem hexValue?_hexDigit : ∀ value < 16, hexValue? (hexDigit value) = some value := by
  decide

private theorem ofCode_toNat (small : c.toNat < 0x20) : Piece.ofCode c.toNat = .whole c := by
  have single : (isHighHalf c.toNat || isLowHalf c.toNat) = false := by
    simp [isHighHalf, isLowHalf]
    omega
  rw [Piece.ofCode, single, Char.ofNat_toNat]
  rfl

section Pieces

variable {rest after : List Char} {pieces : List Piece} (read : pieces? rest = some (pieces, after))

include read

private theorem pieces?_short {letter : Char} (short : shortEscape? letter = some c) :
    pieces? ('\\' :: letter :: rest) = some (.whole c :: pieces, after) := by
  have noCode : letter ≠ 'u' := by
    rintro rfl
    simp [shortEscape?] at short
  simp [pieces?, noCode, short, read]

private theorem pieces?_control (control : c.toNat < 0x20) :
    pieces? ('\\' :: 'u' :: '0' :: '0' :: hexDigit (c.toNat / 16) :: hexDigit (c.toNat % 16) ::
      rest) = some (.whole c :: pieces, after) := by
  have code : hexCode? '0' '0' (hexDigit (c.toNat / 16)) (hexDigit (c.toNat % 16)) =
      some c.toNat := by
    have zero : hexValue? '0' = some 0 := rfl
    have first := hexValue?_hexDigit (c.toNat / 16) (by omega)
    have second := hexValue?_hexDigit (c.toNat % 16) (by omega)
    simp only [hexCode?, zero, first, second, Option.bind_eq_bind, Option.bind_some,
      Option.pure_def, Option.some.injEq]
    omega
  simp [pieces?, code, read, ofCode_toNat control]

private theorem pieces?_unescaped (noQuote : c ≠ '"') (noBackslash : c ≠ '\\')
    (noControl : ¬c.toNat < 0x20) : pieces? (c :: rest) = some (.whole c :: pieces, after) := by
  simp [pieces?, noBackslash, noControl, read]

/-- A character stands in a literal as a piece of its own. -/
theorem pieces?_escapeChar (c : Char) :
    pieces? (escapeChar c ++ rest) = some (.whole c :: pieces, after) := by
  unfold escapeChar
  split_ifs with quote backslash line carriage tab backspace feed control
  · exact pieces?_short read (by rw [quote]; rfl)
  · exact pieces?_short read (by rw [backslash]; rfl)
  · exact pieces?_short read (by rw [line]; rfl)
  · exact pieces?_short read (by rw [carriage]; rfl)
  · exact pieces?_short read (by rw [tab]; rfl)
  · exact pieces?_short read (by rw [← Char.ofNat_toNat c, backspace]; rfl)
  · exact pieces?_short read (by rw [← Char.ofNat_toNat c, feed]; rfl)
  · exact pieces?_control read control
  · exact pieces?_unescaped read quote backslash control

end Pieces

private theorem pieces?_quoted (text rest : List Char) :
    pieces? (text.flatMap escapeChar ++ '"' :: rest) = some (text.map .whole, rest) := by
  induction text with
  | nil => rfl
  | cons c text ih =>
    rw [List.flatMap_cons, List.append_assoc]
    exact pieces?_escapeChar ih c

private theorem joinPieces?_whole (text : List Char) :
    joinPieces? (text.map .whole) = some text := by
  induction text with
  | nil => rfl
  | cons c text ih => simp [joinPieces?, ih]

private theorem string?_quoted (text : String) (rest : List Char) :
    string? (text.toList.flatMap escapeChar ++ '"' :: rest) = some (some text, rest) := by
  simp [string?, pieces?_quoted, joinPieces?_whole]

private theorem quote_append (text : String) (rest : List Char) :
    quote text ++ rest = '"' :: (text.toList.flatMap escapeChar ++ '"' :: rest) := by
  simp [quote]

/-! ### Numbers -/

/-- What may stand behind a number, since it does not go on with it. -/
def EndsNumber (rest : List Char) : Prop :=
  ∀ c ∈ rest.head?, c.isDigit = false ∧ c ∉ ['.', 'e', 'E']

private theorem EndsNumber.endsDigits (ends : EndsNumber rest) : EndsDigits rest :=
  fun c first => (ends c first).1

private theorem whole?_toDigits (number : Nat) (ends : EndsNumber rest) :
    whole? (Nat.toDigits 10 number ++ rest) = some (Nat.toDigits 10 number, rest) := by
  have read : digits? (Nat.toDigits 10 number ++ rest) = some (Nat.toDigits 10 number, rest) := by
    simp [digits?, takeWhile_isDigit_append isDigit_of_mem_toDigits ends.endsDigits,
      dropWhile_isDigit_append isDigit_of_mem_toDigits ends.endsDigits, Nat.toDigits_ne_nil]
  rcases Nat.eq_zero_or_pos number with rfl | positive
  · rfl
  · rw [whole?]
    · exact read
    · obtain ⟨c, tail, written, -⟩ := toDigits_eq_cons number
      have first := head_toDigits_ne_zero positive
      rw [written] at first ⊢
      rintro _ ⟨⟩
      exact first rfl

private theorem unsigned?_toDigits (number : Nat) (ends : EndsNumber rest) :
    unsigned? (Nat.toDigits 10 number ++ rest) = some (Nat.toDigits 10 number, rest) := by
  have noFraction : fraction? rest = some ([], rest) := by
    cases rest with
    | nil => rfl
    | cons c rest =>
      have other := (ends c rfl).2
      simp only [List.mem_cons, not_or] at other
      simp [fraction?, other]
  have noExponent : exponent? rest = some ([], rest) := by
    cases rest with
    | nil => rfl
    | cons c rest =>
      have other := (ends c rfl).2
      simp only [List.mem_cons, not_or] at other
      simp [exponent?, other]
  simp [unsigned?, whole?_toDigits number ends, noFraction, noExponent]

private theorem number?_toDigits (number : Nat) (ends : EndsNumber rest) :
    number? (Nat.toDigits 10 number ++ rest) = some (.ofNat number, rest) := by
  have unsigned : ∀ tail, Nat.toDigits 10 number ++ rest ≠ '-' :: tail := by
    obtain ⟨c, tail, written, digit⟩ := toDigits_eq_cons number
    rw [written]
    rintro _ ⟨⟩
    exact absurd digit (by decide)
  rw [number?, ofNat, Nat.toString_eq_ofList_toDigits]
  · simp [unsigned?_toDigits number ends]
  · exact unsigned

/-! ### Blanks -/

private theorem skipSpaces_newLine (depth : Nat) (text : List Char) :
    skipSpaces (newLine depth ++ text) = skipSpaces text := by
  apply List.dropWhile_append_of_pos
  intro c member
  rcases List.mem_cons.mp member with rfl | indent
  · rfl
  · rw [List.eq_of_mem_replicate indent]
    rfl

private theorem skipSpaces_cons (other : isSpace c = false) (rest : List Char) :
    skipSpaces (c :: rest) = c :: rest := by
  simp [skipSpaces, other]

private theorem value?_skipSpaces (budget : Nat) (input : List Char) :
    value? budget (skipSpaces input) = value? budget input := by
  cases budget with
  | zero => rfl
  | succ budget => simp only [value?, skipSpaces, List.dropWhile_idempotent]

private theorem value?_newLine (budget depth : Nat) (text : List Char) :
    value? budget (newLine depth ++ text) = value? budget text := by
  rw [← value?_skipSpaces, skipSpaces_newLine, value?_skipSpaces]

private theorem value?_space (budget : Nat) (text : List Char) :
    value? budget (' ' :: text) = value? budget text := by
  rw [← value?_skipSpaces budget (' ' :: text), ← value?_skipSpaces budget text]
  rfl

private theorem items?_newLine (budget depth : Nat) (text : List Char) :
    items? budget (newLine depth ++ text) = items? budget text := by
  cases budget with
  | zero => rfl
  | succ budget => simp only [items?, value?_newLine]

private theorem fields?_newLine (budget depth : Nat) (text : List Char) :
    fields? budget (newLine depth ++ text) = fields? budget text := by
  cases budget with
  | zero => rfl
  | succ budget => simp only [fields?, skipSpaces_newLine]

private theorem isSpace_of_isDigit (digit : c.isDigit) : isSpace c = false := by
  by_contra space
  simp only [isSpace, Bool.not_eq_false, Bool.or_eq_true, beq_iff_eq] at space
  rcases space with ((rfl | rfl) | rfl) | rfl <;> exact absurd digit (by decide)

/-! ### Values -/

private theorem prettyAt_ofNat (depth number : Nat) :
    prettyAt depth (.ofNat number) = Nat.toDigits 10 number := by
  rw [ofNat, prettyAt, Nat.toString_eq_ofList_toDigits, String.toList_ofList]

/-- A written value starts with neither a blank nor a closing bracket. -/
theorem Plain.starts (plain : json.Plain) (depth : Nat) :
    ∃ c tail, prettyAt depth json = c :: tail ∧ isSpace c = false ∧ c ≠ ']' := by
  cases plain with
  | null => exact ⟨'n', _, by rw [prettyAt]; rfl, by decide, by decide⟩
  | bool value =>
    cases value
    · exact ⟨'f', _, by rw [prettyAt]; rfl, by decide, by decide⟩
    · exact ⟨'t', _, by rw [prettyAt]; rfl, by decide, by decide⟩
  | number value =>
    obtain ⟨c, tail, written, digit⟩ := toDigits_eq_cons value
    refine ⟨c, tail, (prettyAt_ofNat depth value).trans written, isSpace_of_isDigit digit, ?_⟩
    rintro rfl
    exact absurd digit (by decide)
  | text value => exact ⟨'"', _, by rw [prettyAt]; rfl, by decide, by decide⟩
  | @array items all =>
    cases items with
    | nil => exact ⟨'[', _, by rw [prettyAt], by decide, by decide⟩
    | cons item items => exact ⟨'[', _, by rw [prettyAt]; rfl, by decide, by decide⟩
  | @object fields all =>
    rcases fields with _ | ⟨⟨name, value⟩, fields⟩
    · exact ⟨'\x7b', _, by rw [prettyAt], by decide, by decide⟩
    · exact ⟨'\x7b', _, by rw [prettyAt]; rfl, by decide, by decide⟩

/-- A value is found where it stands written, with a budget of one for each of its characters. -/
def ReadsBack (json : Json) : Prop :=
  ∀ (depth budget : Nat) (rest : List Char), EndsNumber rest →
    (prettyAt depth json).length ≤ budget →
    value? budget (prettyAt depth json ++ rest) = some (json, rest)

/-- A written value is not empty, so that there is a budget to start with. -/
theorem Plain.readsBack_of (plain : json.Plain)
    (read : ∀ (depth budget : Nat) (rest : List Char), EndsNumber rest →
      (prettyAt depth json).length ≤ budget + 1 →
      value? (budget + 1) (prettyAt depth json ++ rest) = some (json, rest)) : json.ReadsBack := by
  intro depth budget rest ends enough
  obtain ⟨c, tail, written, -⟩ := plain.starts depth
  have positive : 0 < budget := Nat.lt_of_lt_of_le (by simp [written]) enough
  obtain ⟨budget, rfl⟩ := Nat.exists_eq_add_one.mpr positive
  exact read depth budget rest ends enough

private theorem readsBack_text (text : String) : ReadsBack (.text text) := by
  apply (Plain.text text).readsBack_of
  intro depth budget rest _ _
  rw [prettyAt, quote_append, value?, skipSpaces_cons (by decide)]
  simp [string?_quoted]

private theorem value?_digit (digit : c.isDigit) (budget : Nat) (tail : List Char) :
    value? (budget + 1) (c :: tail) = number? (c :: tail) := by
  rw [value?, skipSpaces_cons (isSpace_of_isDigit digit)]
  split
  case h_8 => rfl
  all_goals
    rename_i same
    cases same
  all_goals exact absurd digit (by decide)

private theorem readsBack_ofNat (number : Nat) : ReadsBack (.ofNat number) := by
  apply (Plain.number number).readsBack_of
  intro depth budget rest ends _
  obtain ⟨c, tail, written, digit⟩ := toDigits_eq_cons number
  have read := number?_toDigits number ends
  rw [written, List.cons_append] at read
  rw [prettyAt_ofNat, written, List.cons_append, value?_digit digit, read]

private theorem endsNumber_cons (other : c.isDigit = false ∧ c ∉ ['.', 'e', 'E'])
    (rest : List Char) : EndsNumber (c :: rest) := by
  rintro _ ⟨⟩
  exact other

private theorem endsNumber_prettyItems (depth : Nat) (items : List Json) (rest : List Char) :
    EndsNumber (prettyItems depth items ++ rest) := by
  cases items <;> exact endsNumber_cons (by decide) _

private theorem endsNumber_prettyFields (depth : Nat) (fields : List (String × Json))
    (rest : List Char) : EndsNumber (prettyFields depth fields ++ rest) := by
  cases fields <;> exact endsNumber_cons (by decide) _

private theorem items?_prettyItems (depth budget : Nat) (rest : List Char) {item : Json}
    {items : List Json} (all : ∀ other ∈ item :: items, ReadsBack other)
    (enough : (prettyAt (depth + 1) item ++ prettyItems depth items).length ≤ budget) :
    items? budget (prettyAt (depth + 1) item ++ (prettyItems depth items ++ rest)) =
      some (item :: items, rest) := by
  induction items generalizing item budget with
  | nil =>
    simp only [prettyItems, newLine, List.length_append, List.length_cons] at enough
    obtain ⟨budget, rfl⟩ := Nat.exists_eq_add_one.mpr (show 0 < budget by omega)
    have read := all item (by simp) (depth + 1) budget _ (endsNumber_prettyItems depth [] rest)
      (by omega)
    have ended : skipSpaces (prettyItems depth [] ++ rest) = ']' :: rest := by
      rw [prettyItems, List.append_assoc, skipSpaces_newLine]
      rfl
    simp [items?, read, ended]
  | cons next items ih =>
    simp only [prettyItems, List.length_append, List.length_cons] at enough ih
    obtain ⟨budget, rfl⟩ := Nat.exists_eq_add_one.mpr (show 0 < budget by omega)
    have read := all item (by simp) (depth + 1) budget _
      (endsNumber_prettyItems depth (next :: items) rest) (by omega)
    have others := ih budget (List.forall_mem_cons.mp all).2
      (by omega)
    have going : skipSpaces (prettyItems depth (next :: items) ++ rest) =
        ',' :: (newLine (depth + 1) ++ (prettyAt (depth + 1) next ++
          (prettyItems depth items ++ rest))) := by
      simp [prettyItems, skipSpaces, isSpace]
    simp [items?, read, going, items?_newLine, others]

/-- What the reader makes of fields whose names are all texts. -/
def named (fields : List (String × Json)) : List (Option String × Json) :=
  fields.map fun field => (some field.1, field.2)

private theorem ofFields_named (fields : List (String × Json)) :
    ofFields (named fields) = .object fields := by
  have all : (named fields).mapM (fun field : Option String × Json => field.1.map (·, field.2)) =
      some fields := by
    induction fields with
    | nil => rfl
    | cons field fields ih =>
      rw [named, List.map_cons, List.mapM_cons, ← named, ih]
      rfl
  simp only [ofFields, all]
  rfl

private theorem fields?_last {value : Json} (read : value? budget text = some (value, more))
    (ended : skipSpaces more = '\x7d' :: rest) :
    fields? (budget + 1) (quote name ++ ':' :: ' ' :: text) =
      some ([(some name, value)], rest) := by
  rw [quote_append, fields?, skipSpaces_cons (by decide)]
  simp only [string?_quoted, Option.bind_eq_bind, Option.bind_some]
  rw [skipSpaces_cons (by decide)]
  simp [value?_space, read, ended]

private theorem fields?_more {value : Json} {fields : List (Option String × Json)}
    (read : value? budget text = some (value, more)) (going : skipSpaces more = ',' :: rest)
    (others : fields? budget rest = some (fields, after)) :
    fields? (budget + 1) (quote name ++ ':' :: ' ' :: text) =
      some ((some name, value) :: fields, after) := by
  rw [quote_append, fields?, skipSpaces_cons (by decide)]
  simp only [string?_quoted, Option.bind_eq_bind, Option.bind_some]
  rw [skipSpaces_cons (by decide)]
  simp [value?_space, read, going, others]

private theorem fields?_prettyFields (depth budget : Nat) (rest : List Char) {value : Json}
    {fields : List (String × Json)} (all : ∀ other ∈ (name, value) :: fields, ReadsBack other.2)
    (enough : (prettyAt (depth + 1) value ++ prettyFields depth fields).length ≤ budget) :
    fields? budget (quote name ++ ':' :: ' ' :: (prettyAt (depth + 1) value ++
      (prettyFields depth fields ++ rest))) = some (named ((name, value) :: fields), rest) := by
  induction fields generalizing name value budget with
  | nil =>
    simp only [prettyFields, newLine, List.length_append, List.length_cons] at enough
    obtain ⟨budget, rfl⟩ := Nat.exists_eq_add_one.mpr (show 0 < budget by omega)
    have first : ReadsBack value := all (name, value) (by simp)
    apply fields?_last (first _ _ _ (endsNumber_prettyFields depth [] rest) (by omega))
    rw [prettyFields, List.append_assoc, skipSpaces_newLine]
    rfl
  | cons next fields ih =>
    obtain ⟨other, kept⟩ := next
    simp only [prettyFields, List.length_append, List.length_cons] at enough ih
    obtain ⟨budget, rfl⟩ := Nat.exists_eq_add_one.mpr (show 0 < budget by omega)
    have first : ReadsBack value := all (name, value) (by simp)
    have others := ih budget (List.forall_mem_cons.mp all).2
      (by omega)
    have going : skipSpaces (prettyFields depth ((other, kept) :: fields) ++ rest) =
        ',' :: (newLine (depth + 1) ++ (quote other ++ ':' :: ' ' ::
          (prettyAt (depth + 1) kept ++ (prettyFields depth fields ++ rest)))) := by
      simp [prettyFields, skipSpaces, isSpace]
    rw [← fields?_newLine budget (depth + 1)] at others
    exact fields?_more (first _ _ _ (endsNumber_prettyFields depth _ rest) (by omega)) going others

/-! ### Whole texts -/

private theorem value?_array {items : List Json} (inside : skipSpaces text = c :: rest)
    (noEnd : c ≠ ']') (read : items? budget (c :: rest) = some (items, after)) :
    value? (budget + 1) ('[' :: text) = some (.array items, after) := by
  rw [value?, skipSpaces_cons (by decide)]
  simp [inside, noEnd, read]

private theorem value?_object {fields : List (String × Json)}
    (inside : skipSpaces text = '"' :: rest)
    (read : fields? budget ('"' :: rest) = some (named fields, after)) :
    value? (budget + 1) ('\x7b' :: text) = some (.object fields, after) := by
  rw [value?, skipSpaces_cons (by decide)]
  simp [inside, read, ofFields_named]

/-- The induction is on the value: what stands in an array or object is read back one level deeper,
each part with the budget that the parts before it left over. -/
theorem Plain.readsBack (plain : json.Plain) : json.ReadsBack := by
  induction plain with
  | null => exact Plain.null.readsBack_of fun _ _ _ _ _ => rfl
  | bool value =>
    cases value <;> exact (Plain.bool _).readsBack_of fun _ _ _ _ _ => rfl
  | number value => exact readsBack_ofNat value
  | text value => exact readsBack_text value
  | @array items all ih =>
    apply (Plain.array all).readsBack_of
    intro depth budget rest _ enough
    cases items with
    | nil => rfl
    | cons item items =>
      simp only [prettyAt, List.length_append, List.length_cons] at enough
      have read := items?_prettyItems depth budget rest ih (by rw [List.length_append]; omega)
      -- What an item starts with is neither a blank nor the end of the array.
      obtain ⟨c, tail, written, noBlank, noEnd⟩ := (all item (by simp)).starts (depth + 1)
      have inside : skipSpaces (newLine (depth + 1) ++ (prettyAt (depth + 1) item ++
          (prettyItems depth items ++ rest))) =
          c :: (tail ++ (prettyItems depth items ++ rest)) := by
        rw [skipSpaces_newLine, written]
        exact skipSpaces_cons noBlank _
      rw [written, List.cons_append] at read
      simpa [prettyAt] using value?_array inside noEnd read
  | @object fields all ih =>
    apply (Plain.object all).readsBack_of
    intro depth budget rest _ enough
    rcases fields with _ | ⟨⟨name, value⟩, fields⟩
    · rfl
    · simp only [prettyAt, List.length_append, List.length_cons] at enough
      have read := fields?_prettyFields depth budget rest ih (by rw [List.length_append]; omega)
      have inside : skipSpaces (newLine (depth + 1) ++ (quote name ++ ':' :: ' ' ::
          (prettyAt (depth + 1) value ++ (prettyFields depth fields ++ rest)))) =
          quote name ++ ':' :: ' ' ::
            (prettyAt (depth + 1) value ++ (prettyFields depth fields ++ rest)) := by
        rw [skipSpaces_newLine, quote_append]
        exact skipSpaces_cons (by decide) _
      rw [quote_append name] at inside read
      simpa [prettyAt, quote_append] using value?_object inside read

theorem Plain.parse?_pretty (plain : json.Plain) : parse? json.pretty = some json := by
  have read := plain.readsBack 0 (2 * (prettyAt 0 json).length + 2) [] (by simp [EndsNumber])
    (by omega)
  rw [List.append_nil] at read
  rw [parse?, pretty, String.toList_ofList, String.length_ofList, read]
  rfl

end Json

end Pagewright
