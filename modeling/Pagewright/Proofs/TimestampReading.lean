import Pagewright.Proofs.Decimals
import Pagewright.Time.Timestamp

/-!
# Reading back written timestamps

The reader takes the text of a timestamp back to the timestamp, for every date
that timestamps reach and every fraction of a second, however many of its nine
digits are written.
-/

namespace Pagewright

variable {value width : Nat} {timestamp : Timestamp} {c : Char} {rest : List Char}

namespace Timestamp

/-! ### Digits -/

private theorem padded_length (positive : 0 < width) (fits : value < 10 ^ width) :
    (padded width value).length = width := by
  have short : (Nat.toDigits 10 value).length ≤ width :=
    (Nat.length_toDigits_le_iff (by decide) positive).mpr fits
  rw [padded, List.length_append, List.length_replicate]
  omega

private theorem isDigit_of_mem_padded : ∀ c ∈ padded width value, c.isDigit := by
  intro c member
  rcases List.mem_append.mp member with filled | written
  · rw [List.eq_of_mem_replicate filled]
    rfl
  · exact isDigit_of_mem_toDigits c written

private theorem padded_eq_cons (width value : Nat) :
    ∃ c tail, padded width value = c :: tail ∧ c.isDigit := by
  cases written : padded width value with
  | nil =>
    have empty : Nat.toDigits 10 value = [] := (List.append_eq_nil_iff.mp written).2
    exact absurd empty Nat.toDigits_ne_nil
  | cons c tail =>
    exact ⟨c, tail, rfl, isDigit_of_mem_padded c (written ▸ List.mem_cons_self)⟩

private theorem digitsValue_padded (width value : Nat) : digitsValue (padded width value) = value :=
  (digitsValue_zeros_append _ _).trans (digitsValue_toDigits value)

/-- Digits are read up to the limit or up to the first character that is none. -/
theorem digits?_padded {limit : Nat} (within : (padded width value).length ≤ limit)
    (ends : (padded width value).length = limit ∨ EndsDigits rest) :
    digits? limit (padded width value ++ rest) = some (value, rest) := by
  have after : EndsDigits (rest.take (limit - (padded width value).length)) := by
    rcases ends with full | ends
    · simp [full, EndsDigits]
    · intro c first
      rw [List.head?_take] at first
      split_ifs at first
      · simp at first
      · exact ends c first
  have taken : ((padded width value ++ rest).take limit).takeWhile Char.isDigit =
      padded width value := by
    rw [List.take_append, List.take_of_length_le within]
    exact takeWhile_isDigit_append isDigit_of_mem_padded after
  obtain ⟨c, tail, written, -⟩ := padded_eq_cons width value
  simp only [digits?, taken, digitsValue_padded, List.drop_left]
  simp [written]

private theorem isBlank_of_isDigit (digit : c.isDigit) : isBlank c = false := by
  have code : 48 ≤ c.toNat ∧ c.toNat ≤ 57 := by
    simpa [Char.isDigit, UInt32.le_iff_toNat_le] using digit
  simp [isBlank, blankRanges]
  omega

private theorem skipBlanks_cons (noBlank : isBlank c = false) (rest : List Char) :
    skipBlanks (c :: rest) = c :: rest := by
  simp [skipBlanks, noBlank]

private theorem skipBlanks_padded (width value : Nat) (rest : List Char) :
    skipBlanks (padded width value ++ rest) = padded width value ++ rest := by
  obtain ⟨c, tail, written, digit⟩ := padded_eq_cons width value
  rw [written]
  exact skipBlanks_cons (isBlank_of_isDigit digit) _

private theorem field?_padded (fits : value < 100) (rest : List Char) :
    field? (padded 2 value ++ rest) = some (value, rest) := by
  have length : (padded 2 value).length = 2 := padded_length (by decide) fits
  rw [field?, skipBlanks_padded]
  exact digits?_padded length.le (.inl length)

/-! ### Parts -/

/-- A year is read back in four digits or behind its sign, where digits go on up to the dash. -/
theorem year?_renderYear (year : Int) (rest : List Char) :
    year? (renderYear year ++ '-' :: rest) = some (year, '-' :: rest) := by
  have signed (value : Nat) : digits? (padded 4 value ++ '-' :: rest).length
      (padded 4 value ++ '-' :: rest) = some (value, '-' :: rest) :=
    digits?_padded (by simp) (.inr (endsDigits_cons (by decide) rest))
  unfold renderYear
  split_ifs with short positive
  · have length : (padded 4 year.toNat).length = 4 := padded_length (by decide) (by omega)
    have read : digits? 4 (padded 4 year.toNat ++ '-' :: rest) = some (year.toNat, '-' :: rest) :=
      digits?_padded length.le (.inl length)
    obtain ⟨c, tail, written, digit⟩ := padded_eq_cons 4 year.toNat
    rw [year?, skipBlanks_padded]
    split
    case h_3 =>
      simp only [read, Option.map_some, Option.some.injEq, Prod.mk.injEq, and_true]
      omega
    all_goals
      rename_i same
      rw [written] at same
      cases same
      exact absurd digit (by decide)
  · rw [List.cons_append, year?, skipBlanks_cons (by decide)]
    simp only [signed, Option.map_some, Option.some.injEq, Prod.mk.injEq, and_true]
    omega
  · rw [List.cons_append, year?, skipBlanks_cons (by decide)]
    simp only [signed, Option.map_some, Option.some.injEq, Prod.mk.injEq, and_true]
    omega

private theorem mark?_self (noBlank : isBlank c = false) (rest : List Char) :
    mark? c (c :: rest) = some ((), rest) := by
  simp [mark?, skipBlanks_cons noBlank]

private theorem fraction?_padded (positive : 0 < width) (short : width ≤ 9)
    (fits : value < 10 ^ width) (ends : EndsDigits rest) :
    fraction? ('.' :: padded width value ++ rest) = some (10 ^ (9 - width) * value, rest) := by
  have length : (padded width value).length = width := padded_length positive fits
  have kept : (padded width value).take 9 = padded width value :=
    List.take_of_length_le (by omega)
  obtain ⟨c, tail, written, -⟩ := padded_eq_cons width value
  have some : (padded width value).isEmpty = false := by simp [written]
  rw [List.cons_append, fraction?]
  simp only [takeWhile_isDigit_append isDigit_of_mem_padded ends,
    dropWhile_isDigit_append isDigit_of_mem_padded ends, some, kept, length,
    digitsValue_append_zeros, digitsValue_padded]
  rfl

private theorem fraction?_renderFraction {nanosecond : Nat} (fits : nanosecond < 1000000000) :
    fraction? (renderFraction nanosecond ++ ['Z']) = some (nanosecond, ['Z']) := by
  have ends : EndsDigits ['Z'] := endsDigits_cons (by decide) []
  unfold renderFraction
  split_ifs with whole milli micro
  · rw [whole]
    rfl
  · rw [fraction?_padded (by decide) (by decide) (by omega) ends]
    congr 2
    omega
  · rw [fraction?_padded (by decide) (by decide) (by omega) ends]
    congr 2
    omega
  · rw [fraction?_padded (by decide) (by decide) fits ends]
    simp

/-! ### Timestamps -/

private theorem isValid_bounds (valid : timestamp.isValid) :
    timestamp.date.month ≤ 12 ∧ timestamp.date.day ≤ 31 ∧ timestamp.hour ≤ 23 ∧
      timestamp.minute ≤ 59 ∧ timestamp.second ≤ 60 := by
  have days : Date.daysInMonth timestamp.date.year timestamp.date.month ≤ 31 := by
    unfold Date.daysInMonth
    split_ifs <;> decide
  simp only [isValid, Date.isValid, Bool.and_eq_true, decide_eq_true_eq] at valid
  obtain ⟨⟨⟨⟨⟨⟨-, month⟩, -⟩, day⟩, hour⟩, minute⟩, second⟩ := valid
  exact ⟨month, day.trans days, hour, minute, second⟩

private theorem toUniversal_zero (hour : timestamp.hour ≤ 23) (minute : timestamp.minute ≤ 59) :
    toUniversal 0 timestamp = timestamp := by
  have sameDay : ¬(60 * timestamp.hour + timestamp.minute : Int) - 0 < 0 ∧
      (60 * timestamp.hour + timestamp.minute : Int) - 0 < 1440 := by omega
  have clock : ((60 * timestamp.hour + timestamp.minute : Int) - 0).toNat =
      60 * timestamp.hour + timestamp.minute := by omega
  simp only [toUniversal, if_neg sameDay.1, if_pos sameDay.2, clock]
  congr 1 <;> omega

private theorem render_toList (timestamp : Timestamp) :
    timestamp.render.toList = renderYear timestamp.date.year
      ++ '-' :: (padded 2 timestamp.date.month ++ '-' :: (padded 2 timestamp.date.day
      ++ 'T' :: (padded 2 timestamp.hour ++ ':' :: (padded 2 timestamp.minute
      ++ ':' :: (padded 2 timestamp.second ++ (renderFraction timestamp.nanosecond ++ ['Z'])))))) := by
  simp [render]

private theorem bind_part {α β : Type} {part : Option (α × List Char)} {value : α}
    {next : α × List Char → Option β} {result : Option β} (read : part = some (value, rest))
    (done : next (value, rest) = result) : part >>= next = result := by
  rw [read]
  exact done

theorem parse?_render (valid : timestamp.isValid) (fits : timestamp.nanosecond < 1000000000) :
    parse? timestamp.render = some timestamp := by
  obtain ⟨month, day, hour, minute, second⟩ := isValid_bounds valid
  have date : timestamp.date.isValid := by
    simp only [isValid, Bool.and_eq_true] at valid
    exact valid.1.1.1
  rw [parse?, render_toList]
  apply bind_part (year?_renderYear _ _)
  apply bind_part (mark?_self rfl _)
  apply bind_part (field?_padded (by omega) _)
  apply bind_part (mark?_self rfl _)
  apply bind_part (field?_padded (by omega) _)
  apply bind_part rfl
  apply bind_part (field?_padded (by omega) _)
  apply bind_part (mark?_self rfl _)
  apply bind_part (field?_padded (by omega) _)
  apply bind_part (mark?_self rfl _)
  apply bind_part (field?_padded (by omega) _)
  apply bind_part (fraction?_renderFraction fits)
  apply bind_part rfl
  -- What is written is in universal time already, so that nothing is left to take away.
  simp [skipBlanks, valid, toUniversal_zero hour minute, date]

end Timestamp

end Pagewright
