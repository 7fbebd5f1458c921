import Mathlib.Data.List.Forall2
import Mathlib.Data.Nat.Basic
import Mathlib.Order.Basic
import Pagewright.Expression.Token

/-!
# Where tokens stand

Every token of a source is written at a span of it. The spans come in order and
have no character in common, and a character outside of them is a blank that
ends no line. If a source does not split into tokens, then the text before some
character does, and this character is a quote that is never closed, or no token
can start with it.

The scanner counts lines and columns as it goes. That it counts right is one
lemma (`Position.advance_behind`), since it moves over exactly the characters of
a span.
-/

namespace Pagewright

variable {c : Char} {i : Nat} {rest : List Char} {lexeme : Lexeme}
  {result : Except Error (List Token)}

/-! ### Places by counting -/

/-- The place behind some text: its line is one more than the line ends in the text, its column one
more than the characters behind the last of them. -/
def Position.behind (before : List Char) : Position :=
  ⟨1 + before.count '\n', 1 + (before.reverse.takeWhile (· ≠ '\n')).length⟩

private theorem Position.step_behind (before : List Char) (c : Char) :
    (Position.behind before).step c = Position.behind (before ++ [c]) := by
  unfold Position.behind Position.step
  by_cases newline : c = '\n'
  · simp [newline, Nat.add_assoc]
  · simp [newline, Nat.add_assoc]

/-- Going over a text from the place behind another one leads to the place behind both. -/
theorem Position.advance_behind (before passed : List Char) :
    (Position.behind before).advance passed = Position.behind (before ++ passed) := by
  induction passed generalizing before with
  | nil => simp [Position.advance]
  | cons c rest ih =>
    show ((Position.behind before).step c).advance rest = _
    rw [Position.step_behind, ih, List.append_assoc]
    rfl

/-! ### What is written at a span -/

/-- The text between two quotes, and what it stands for. A backslash and the character behind it
stand for one character; no quote is without a backslash. -/
inductive Quoted : List Char → List Char → Prop
  | empty : Quoted [] []
  | lineFeed {text value : List Char} :
      Quoted text value → Quoted ('\\' :: 'n' :: text) ('\n' :: value)
  | tab {text value : List Char} : Quoted text value → Quoted ('\\' :: 't' :: text) ('\t' :: value)
  | escaped {c : Char} {text value : List Char} : c ≠ 'n' → c ≠ 't' →
      Quoted text value → Quoted ('\\' :: c :: text) (c :: value)
  | plain {c : Char} {text value : List Char} : c ≠ '"' → c ≠ '\\' →
      Quoted text value → Quoted (c :: text) (c :: value)

/-- A text is written for a lexeme where `rest` follows. Words and numbers are as long as possible:
what follows does not go on with a character of theirs. -/
inductive Spells : List Char → List Char → Lexeme → Prop
  | word {c : Char} {more rest : List Char} : isWordStart c = true →
      (∀ d ∈ more, isWordPart d = true) → (∀ d ∈ rest.head?, isWordPart d = false) →
      Spells (c :: more) rest (.word (String.ofList (c :: more)))
  | digits {c : Char} {more rest : List Char} : c.isDigit = true →
      (∀ d ∈ more, Token.isNumberPart d = true) → (∀ d ∈ rest.head?, Token.isNumberPart d = false) →
      Spells (c :: more) rest (.digits (String.ofList (c :: more)))
  | quoted {text value rest : List Char} : Quoted text value →
      Spells ('"' :: text ++ ['"']) rest (.quoted (String.ofList value))
  | mark {c : Char} {rest : List Char} : c ∈ Token.marks → Spells [c] rest (.mark c)
  | endOfLine {rest : List Char} : Spells ['\n'] rest .endOfLine

private theorem Spells.length_pos {text : List Char} (spells : Spells text rest lexeme) :
    0 < text.length := by
  cases spells <;> simp

/-- The characters of a source from the index `first` up to the index `stop`, which is outside. -/
structure Span where
  first : Nat
  stop : Nat

namespace Span

def Covers (span : Span) (i : Nat) : Prop :=
  span.first ≤ i ∧ i < span.stop

def text (span : Span) (chars : List Char) : List Char :=
  (chars.take span.stop).drop span.first

end Span

/-- The source has the token at the span. -/
structure Token.WrittenAt (chars : List Char) (token : Token) (span : Span) : Prop where
  nonempty : span.first < span.stop
  inside : span.stop ≤ chars.length
  spelled : Spells (span.text chars) (chars.drop span.stop) token.lexeme
  placed : token.position = Position.behind (chars.take span.first)

variable {span : Span}

private theorem Spells.writtenAt {before text : List Char} (spells : Spells text rest lexeme) :
    Token.WrittenAt (before ++ (text ++ rest)) ⟨lexeme, Position.behind before⟩
      ⟨before.length, before.length + text.length⟩ where
  nonempty := Nat.lt_add_of_pos_right spells.length_pos
  inside := by
    simp only [List.length_append]
    omega
  spelled := by
    have written : Span.text ⟨before.length, before.length + text.length⟩ (before ++ (text ++ rest)) =
        text := by
      rw [Span.text, ← List.append_assoc, ← List.length_append, List.take_left, List.drop_left]
    have left : (before ++ (text ++ rest)).drop (before.length + text.length) = rest := by
      rw [← List.append_assoc, ← List.length_append, List.drop_left]
    rw [written, left]
    exact spells
  placed := by simp

/-! ### Spans one after the other -/

/-- The characters from the index `first` up to the index `last` split into tokens, each at a span of
its own, and blanks between them. -/
structure SplitsInto (chars : List Char) (first last : Nat) (tokens : List Token)
    (spans : List Span) : Prop where
  ordered : first ≤ last
  written : List.Forall₂ (Token.WrittenAt chars) tokens spans
  between : ∀ span ∈ spans, first ≤ span.first ∧ span.stop ≤ last
  apart : spans.Pairwise fun span later => span.stop ≤ later.first
  blank : ∀ i c, first ≤ i → i < last → chars[i]? = some c → (∀ span ∈ spans, ¬span.Covers i) →
    isBlank c = true ∧ c ≠ '\n'

section

variable {chars : List Char} {first middle last : Nat} {tokens : List Token} {spans : List Span}

private theorem SplitsInto.nil (chars : List Char) (first : Nat) :
    SplitsInto chars first first [] [] where
  ordered := le_rfl
  written := .nil
  between := by simp
  apart := .nil
  blank i c atLeast below := by omega

private theorem SplitsInto.skip (here : chars[first]? = some c) (blank : isBlank c = true)
    (inLine : c ≠ '\n') (splits : SplitsInto chars (first + 1) last tokens spans) :
    SplitsInto chars first last tokens spans where
  ordered := (Nat.le_succ first).trans splits.ordered
  written := splits.written
  between span member :=
    ⟨(Nat.le_succ first).trans (splits.between span member).1, (splits.between span member).2⟩
  apart := splits.apart
  blank i d atLeast below found outside := by
    rcases Nat.eq_or_lt_of_le atLeast with rfl | later
    · obtain rfl : c = d := Option.some.inj (here.symm.trans found)
      exact ⟨blank, inLine⟩
    · exact splits.blank i d later below found outside

private theorem SplitsInto.cons {token : Token} (written : token.WrittenAt chars ⟨first, middle⟩)
    (splits : SplitsInto chars middle last tokens spans) :
    SplitsInto chars first last (token :: tokens) (⟨first, middle⟩ :: spans) where
  ordered := written.nonempty.le.trans splits.ordered
  written := .cons written splits.written
  between := by
    refine List.forall_mem_cons.mpr ⟨⟨le_rfl, splits.ordered⟩, fun span member => ?_⟩
    obtain ⟨start, stop⟩ := splits.between span member
    exact ⟨written.nonempty.le.trans start, stop⟩
  apart := List.pairwise_cons.mpr ⟨fun span member => (splits.between span member).1, splits.apart⟩
  blank i c atLeast below found outside := by
    obtain ⟨notHere, notLater⟩ := List.forall_mem_cons.mp outside
    have later : middle ≤ i := Nat.le_of_not_lt fun before => notHere ⟨atLeast, before⟩
    exact splits.blank i c later below found notLater

/-- The span over an index has a token. -/
theorem SplitsInto.exists_covering (splits : SplitsInto chars first last tokens spans)
    (atLeast : first ≤ i) (below : i < last) (found : chars[i]? = some c)
    (solid : isBlank c = false ∨ c = '\n') :
    ∃ token span, (token, span) ∈ tokens.zip spans ∧ token.WrittenAt chars span ∧
      span.Covers i := by
  by_contra none
  have outside : ∀ span ∈ spans, ¬span.Covers i := by
    intro span member covers
    obtain ⟨j, inRange, rfl⟩ := List.getElem_of_mem member
    have paired := List.forall₂_iff_get.mp splits.written
    have bound : j < tokens.length := paired.1 ▸ inRange
    refine none ⟨tokens[j], spans[j], ?_, paired.2 j bound inRange, covers⟩
    have both : j < (tokens.zip spans).length := by
      rw [List.length_zip]
      exact lt_min bound inRange
    exact List.mem_iff_getElem.mpr ⟨j, both, List.getElem_zip⟩
  obtain ⟨blank, inLine⟩ := splits.blank i c atLeast below found outside
  rcases solid with solid | newline
  · rw [blank] at solid
    cases solid
  · exact inLine newline

private theorem Span.Covers.mem_text (covers : span.Covers i) (found : chars[i]? = some c) :
    c ∈ span.text chars := by
  obtain ⟨atLeast, below⟩ := covers
  refine List.mem_iff_getElem?.mpr ⟨i - span.first, ?_⟩
  rw [Span.text, List.getElem?_drop, Nat.add_sub_cancel' atLeast, List.getElem?_take_of_lt below]
  exact found

/-- A line end inside of a token is one in a quoted text, or it is the whole token. -/
theorem Token.WrittenAt.newline {token : Token} (written : token.WrittenAt chars span)
    (covers : span.Covers i) (found : chars[i]? = some '\n') :
    (∃ text, token.lexeme = .quoted text) ∨
      token = ⟨.endOfLine, Position.behind (chars.take i)⟩ ∧ span = ⟨i, i + 1⟩ := by
  have inside := covers.mem_text found
  have length : (span.text chars).length = span.stop - span.first := by
    rw [Span.text, List.length_drop, List.length_take, Nat.min_eq_left written.inside]
  obtain ⟨lexeme, position⟩ := token
  obtain ⟨first, stop⟩ := span
  obtain ⟨atLeast, below⟩ := covers
  have spelled := written.spelled
  generalize Span.text ⟨first, stop⟩ chars = text at spelled inside length
  generalize chars.drop stop = rest at spelled
  dsimp only at spelled length atLeast below
  cases spelled with
  | word starts parts _ | digits starts parts _ =>
    rcases List.mem_cons.mp inside with rfl | more
    · exact absurd starts (by decide)
    · exact absurd (parts _ more) (by decide)
  | quoted between => exact .inl ⟨_, rfl⟩
  | mark among =>
    obtain rfl := List.mem_singleton.mp inside
    exact absurd among (by decide)
  | endOfLine =>
    obtain ⟨rfl, rfl⟩ : first = i ∧ stop = i + 1 := by
      simp only [List.length_singleton] at length
      omega
    exact .inr ⟨congrArg (Token.mk .endOfLine) written.placed, rfl⟩

end

/-! ### Quotations -/

section

variable {chars : List Char}

theorem Token.quotation?_eq_some {quotation : Token.Quotation}
    (found : Token.quotation? chars = some quotation) :
    ∃ text, Quoted text quotation.value ∧ quotation.passed = text ++ ['"'] ∧
      chars = quotation.passed ++ quotation.rest := by
  fun_induction Token.quotation? chars generalizing quotation with
  | case1 => cases found
  | case2 rest =>
    cases found
    exact ⟨[], .empty, rfl, rfl⟩
  | case3 c rest ih =>
    obtain ⟨inner, closed, rfl⟩ := Option.map_eq_some_iff.mp found
    obtain ⟨text, quoted, passed, same⟩ := ih closed
    refine ⟨'\\' :: c :: text, ?_, by simp [passed], by simpa using same⟩
    by_cases lineFeed : c = 'n'
    · rw [lineFeed]
      exact .lineFeed quoted
    · by_cases tab : c = 't'
      · rw [tab]
        exact .tab quoted
      · have itself : Token.unescape c = c := by
          unfold Token.unescape
          split <;> trivial
        rw [itself]
        exact .escaped lineFeed tab quoted
  | case4 c rest notQuote notEscape ih =>
    obtain ⟨inner, closed, rfl⟩ := Option.map_eq_some_iff.mp found
    obtain ⟨text, quoted, passed, same⟩ := ih closed
    refine ⟨c :: text, .plain notQuote ?_ quoted, by simp [passed], by simpa using same⟩
    rintro rfl
    cases rest with
    | nil => cases closed
    | cons d rest => exact notEscape d rest rfl rfl

/-- A quoted text before a quote is found. -/
theorem Quoted.closes {text value : List Char} (quoted : Quoted text value) (rest : List Char) :
    (Token.quotation? (text ++ '"' :: rest)).isSome = true := by
  induction quoted with
  | empty => rfl
  | lineFeed _ ih | tab _ ih | escaped _ _ _ ih => simpa [Token.quotation?] using ih
  | plain notQuote notEscape _ ih => simpa [Token.quotation?, notQuote, notEscape] using ih

end

/-! ### Scanning -/

/-- Why the source does not split behind the index `stop`: a quote stands there to which there is no
closing one, or a character that is no blank and that no token starts with. -/
inductive Blocks (chars : List Char) (stop : Nat) : Error → Prop
  | unclosed : chars[stop]? = some '"' →
      (∀ text value rest, Quoted text value → chars.drop (stop + 1) ≠ text ++ '"' :: rest) →
      Blocks chars stop (.lexical (Position.behind (chars.take stop)) .unclosedQuote)
  | unexpected {c : Char} : chars[stop]? = some c → isBlank c = false →
      (∀ text rest lexeme, ¬Spells (c :: text) rest lexeme) →
      Blocks chars stop (.lexical (Position.behind (chars.take stop)) (.unexpected c))

inductive ScansRight (chars : List Char) (first : Nat) : Except Error (List Token) → Prop
  | ok {tokens : List Token} {spans : List Span} :
      SplitsInto chars first chars.length tokens spans → ScansRight chars first (.ok tokens)
  | error {tokens : List Token} {spans : List Span} {stop : Nat} {error : Error} :
      SplitsInto chars first stop tokens spans → Blocks chars stop error →
      ScansRight chars first (.error error)

section

variable {before rest : List Char}

private theorem ScansRight.skip (blank : isBlank c = true) (inLine : c ≠ '\n')
    (later : ScansRight (before ++ [c] ++ rest) (before ++ [c]).length result) :
    ScansRight (before ++ c :: rest) before.length result := by
  have here : (before ++ c :: rest)[before.length]? = some c := by simp
  rw [List.append_assoc, List.length_append] at later
  cases later with
  | ok splits => exact .ok (splits.skip here blank inLine)
  | error splits blocks => exact .error (splits.skip here blank inLine) blocks

private theorem ScansRight.token {text : List Char} (spells : Spells text rest lexeme)
    (later : ScansRight (before ++ text ++ rest) (before ++ text).length result) :
    ScansRight (before ++ (text ++ rest)) before.length
      (result >>= fun tokens => pure (⟨lexeme, Position.behind before⟩ :: tokens)) := by
  rw [List.append_assoc, List.length_append] at later
  cases later with
  | ok splits => exact .ok (splits.cons spells.writtenAt)
  | error splits blocks => exact .error (splits.cons spells.writtenAt) blocks

private theorem ScansRight.blocked {error : Error}
    (blocks : Blocks (before ++ rest) before.length error) :
    ScansRight (before ++ rest) before.length (.error error) :=
  .error (.nil _ _) blocks

end

private theorem scan_unclosed (before : List Char) (none : Token.quotation? rest = none) :
    Blocks (before ++ '"' :: rest) before.length
      (.lexical (Position.behind before) .unclosedQuote) := by
  have taken : (before ++ '"' :: rest).take before.length = before := by simp
  have opening : (before ++ '"' :: rest)[before.length]? = some '"' := by simp
  rw [← congrArg Position.behind taken]
  refine .unclosed opening fun text value behind quoted same => ?_
  have closes := quoted.closes behind
  have dropped : (before ++ '"' :: rest).drop (before.length + 1) = rest := by simp
  rw [← same, dropped, none] at closes
  cases closes

private theorem scan_unexpected (before rest : List Char) (notBlank : isBlank c = false)
    (noWord : isWordStart c = false) (noDigit : c.isDigit = false) (noQuote : c ≠ '"')
    (noMark : c ∉ Token.marks) :
    Blocks (before ++ c :: rest) before.length
      (.lexical (Position.behind before) (.unexpected c)) := by
  have taken : (before ++ c :: rest).take before.length = before := by simp
  rw [← congrArg Position.behind taken]
  refine .unexpected (by simp) notBlank fun text behind lexeme spells => ?_
  cases spells with
  | word starts => simp [noWord] at starts
  | digits starts => simp [noDigit] at starts
  | quoted => exact noQuote rfl
  | mark among => exact noMark among
  | endOfLine => exact absurd notBlank (by decide)

/-- One step of the scanner passes over a blank or a token, or it reports where it is blocked. The
induction is on the budget, which covers what is left of the source. -/
theorem scan_right (budget : Nat) (before rest : List Char) (enough : rest.length ≤ budget) :
    ScansRight (before ++ rest) before.length
      (Token.scan budget (Position.behind before) rest) := by
  induction budget generalizing before rest with
  | zero =>
    obtain rfl : rest = [] := List.eq_nil_of_length_eq_zero (Nat.le_zero.mp enough)
    rw [List.append_nil, Token.scan]
    exact .ok (.nil _ _)
  | succ budget ih =>
    cases rest with
    | nil =>
      rw [List.append_nil, Token.scan]
      exact .ok (.nil _ _)
    | cons c rest =>
      have fits : rest.length ≤ budget := Nat.le_of_succ_le_succ enough
      -- what is left behind a token that starts with `c`
      have later : ∀ text behind : List Char, c :: rest = text ++ behind → 0 < text.length →
          ScansRight (before ++ text ++ behind) (before ++ text).length
            (Token.scan budget ((Position.behind before).advance text) behind) := by
        intro text behind same nonempty
        rw [Position.advance_behind]
        refine ih _ _ ?_
        have lengths := congrArg List.length same
        simp only [List.length_cons, List.length_append] at lengths
        omega
      have longest : ∀ part : Char → Bool, c :: rest =
          c :: rest.takeWhile part ++ rest.dropWhile part := by
        intro part
        rw [List.cons_append, List.takeWhile_append_dropWhile]
      have parts : ∀ part : Char → Bool, (∀ d ∈ rest.takeWhile part, part d = true) ∧
          ∀ d ∈ (rest.dropWhile part).head?, part d = false := by
        intro part
        refine ⟨List.all_eq_true.mp List.all_takeWhile, fun d member => ?_⟩
        have stops := List.head?_dropWhile_not part rest
        rw [Option.mem_def.mp member] at stops
        simpa using stops
      unfold Token.scan
      split_ifs with newline blank wordStart digit quote mark
      · subst newline
        exact .token .endOfLine (later ['\n'] rest rfl (by simp))
      · exact .skip blank newline (later [c] rest rfl (by simp))
      · rw [longest isWordPart]
        obtain ⟨inside, behind⟩ := parts isWordPart
        exact .token (.word wordStart inside behind) (later _ _ (longest isWordPart) (by simp))
      · rw [longest Token.isNumberPart]
        obtain ⟨inside, behind⟩ := parts Token.isNumberPart
        exact .token (.digits digit inside behind)
          (later _ _ (longest Token.isNumberPart) (by simp))
      · subst quote
        cases found : Token.quotation? rest with
        | none => exact .blocked (scan_unclosed before found)
        | some quotation =>
          obtain ⟨text, quoted, passed, same⟩ := Token.quotation?_eq_some found
          have whole : '"' :: rest = '"' :: quotation.passed ++ quotation.rest := by
            rw [List.cons_append, ← same]
          have spells : Spells ('"' :: quotation.passed) quotation.rest
              (.quoted (String.ofList quotation.value)) := by
            rw [passed]
            exact .quoted quoted
          rw [whole]
          exact .token spells (later _ _ whole (by simp))
      · have among : c ∈ Token.marks := by simpa using mark
        exact .token (.mark among) (later [c] rest rfl (by simp))
      · have noMark : c ∉ Token.marks := by simpa using mark
        exact .blocked (scan_unexpected before rest (Bool.of_not_eq_true blank)
          (Bool.of_not_eq_true wordStart) (Bool.of_not_eq_true digit) quote noMark)

theorem tokenize_right (source : String) : ScansRight source.toList 0 (tokenize source) := by
  have scanned := scan_right source.length [] source.toList (le_of_eq String.length_toList)
  exact scanned

/-- **Tokens are faithful to their source.** If a source splits into tokens, then they are written in
order at spans that have no character in common, what is outside of them is only blanks within
lines, and every line end outside of a quoted text is a token of its own. The place of each token is
found by counting up to its span. If the source does not split, the error has the place, found by
counting as well, of a quote that is not closed or of a character that can start no token, and
everything before it splits. -/
theorem tokenize_faithful (source : String) :
    (∀ tokens, tokenize source = .ok tokens → ∃ spans,
      SplitsInto source.toList 0 source.toList.length tokens spans ∧
      ∀ i, source.toList[i]? = some '\n' →
        (∃ token span text, (token, span) ∈ tokens.zip spans ∧ span.Covers i ∧
          token.lexeme = .quoted text) ∨
        (⟨.endOfLine, Position.behind (source.toList.take i)⟩, ⟨i, i + 1⟩) ∈ tokens.zip spans) ∧
    ∀ error, tokenize source = .error error → ∃ tokens spans stop,
      SplitsInto source.toList 0 stop tokens spans ∧ Blocks source.toList stop error := by
  have right := tokenize_right source
  constructor
  · intro tokens split
    rw [split] at right
    obtain @⟨_, spans, splits⟩ := right
    refine ⟨spans, splits, fun i found => ?_⟩
    have below : i < source.toList.length := (List.getElem?_eq_some_iff.mp found).1
    obtain ⟨token, span, paired, written, covers⟩ :=
      splits.exists_covering (Nat.zero_le i) below found (.inr rfl)
    rcases written.newline covers found with ⟨text, quoted⟩ | ⟨rfl, rfl⟩
    · exact .inl ⟨token, span, text, paired, covers, quoted⟩
    · exact .inr paired
  · intro error failed
    rw [failed] at right
    cases right with
    | error splits blocks => exact ⟨_, _, _, splits, blocks⟩

end Pagewright
