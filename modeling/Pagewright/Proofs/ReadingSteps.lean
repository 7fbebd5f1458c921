import Pagewright.Expression.Source
import Pagewright.Proofs.Grammar
import Pagewright.Proofs.Outcome

/-!
# Reading steps over lexemes

`Reads` says that a reading step succeeds on given lexemes, which lexemes it leaves and what it
gives. Each step has rules for the lexemes that it can meet, which also say how to go on behind it.
-/

namespace Pagewright

def Cursor.lexemes (cursor : Cursor) : List Lexeme :=
  cursor.tokens.map Token.lexeme

namespace Reading

open Grammar Outcome

/-- On these lexemes the step gives a result with the property, which also speaks of the lexemes that
are left. -/
def Reads {α : Type} (lexemes : List Lexeme) (step : Reading α)
    (property : List Lexeme → α → Prop) : Prop :=
  ∀ cursor : Cursor, cursor.lexemes = lexemes →
    ∃ a cursor', step cursor = .ok a cursor' ∧ property cursor'.lexemes a

variable {α β : Type} {lexemes rest : List Lexeme} {property : List Lexeme → α → Prop}
  {last : Position} {c : Char} {yes no : Reading α}

namespace Reads

theorem pure {a : α} (holds : property lexemes a) :
    Reads lexemes (pure a : Reading α) property := by
  rintro cursor rfl
  exact ⟨a, cursor, rfl, holds⟩

theorem bind {step : Reading β} {next : β → Reading α} {first : List Lexeme → β → Prop}
    (reads : Reads lexemes step first)
    (later : ∀ rest b, first rest b → Reads rest (next b) property) :
    Reads lexemes (step >>= next) property := by
  intro cursor same
  obtain ⟨b, middle, ran, holds⟩ := reads cursor same
  obtain ⟨a, left, run, whole⟩ := later _ b holds middle rfl
  exact ⟨a, left, bind_ok.mpr ⟨b, middle, ran, run⟩, whole⟩

theorem imp {step : Reading α} {weaker : List Lexeme → α → Prop}
    (reads : Reads lexemes step property)
    (implies : ∀ rest a, property rest a → weaker rest a) : Reads lexemes step weaker := by
  intro cursor same
  obtain ⟨a, left, run, holds⟩ := reads cursor same
  exact ⟨a, left, run, implies _ a holds⟩

theorem get {next : Cursor → Reading α}
    (later : ∀ cursor, cursor.lexemes = lexemes → Reads lexemes (next cursor) property) :
    Reads lexemes (get >>= next) property :=
  fun cursor same => later cursor same cursor same

/-- What follows a check that passes. -/
theorem check {condition : Prop} [Decidable condition] {error : Error} {step : Reading α}
    (passes : ¬condition) (reads : Reads lexemes step property) :
    Reads lexemes
      (if condition then (MonadExcept.throw error : Reading Unit) >>= fun _ => step else step)
      property := by
  rwa [if_neg passes]

end Reads

/-! ### Steps over lexemes -/

theorem passing_reads (rest : List Token) {next : PUnit → Reading α}
    (later : Reads (rest.map Token.lexeme) (next ⟨⟩) property) :
    Reads lexemes
      ((modify fun cursor => { cursor with tokens := rest } : Reading PUnit) >>= next) property :=
  fun _ _ => later _ rfl

theorem skipLines_reads {next : Unit → Reading α}
    (later : Reads (lexemes.dropWhile (· == .endOfLine)) (next ()) property) :
    Reads lexemes (skipLines >>= next) property := by
  rintro cursor rfl
  refine later _ ?_
  show List.map _ (List.dropWhile _ _) = List.dropWhile _ (List.map _ _)
  rw [List.dropWhile_map]
  rfl

theorem takeId_reads {next : ExpressionId → Reading α}
    (later : ∀ id, Reads lexemes (next id) property) :
    Reads lexemes (takeId >>= next) property :=
  fun cursor same => later cursor.ids.take.1 { cursor with ids := cursor.ids.take.2 } same

theorem accept_reads (later : Reads rest yes property) :
    Reads (.mark c :: rest) (accept c >>= fun found => if found then yes else no) property := by
  have accepts : Reads (.mark c :: rest) (accept c) fun left found => found = true ∧ left = rest := by
    apply Reads.get
    rintro ⟨tokens, ids⟩ same
    obtain ⟨⟨_, place⟩, behind, rfl, rfl, rfl⟩ := List.map_eq_cons_iff.mp same
    dsimp only
    rw [if_pos rfl]
    exact passing_reads behind (.pure ⟨rfl, rfl⟩)
  apply accepts.bind
  rintro _ _ ⟨rfl, rfl⟩
  exact later

theorem accept_reads_other (other : lexemes.head? ≠ some (.mark c))
    (later : Reads lexemes no property) :
    Reads lexemes (accept c >>= fun found => if found then yes else no) property := by
  have refuses : Reads lexemes (accept c) fun left found => found = false ∧ left = lexemes := by
    apply Reads.get
    rintro ⟨tokens, ids⟩ rfl
    cases tokens with
    | nil => exact .pure ⟨rfl, rfl⟩
    | cons token behind =>
      have mark : token.lexeme ≠ .mark c := by simpa [Cursor.lexemes] using other
      dsimp only
      rw [if_neg mark]
      exact .pure ⟨rfl, rfl⟩
  apply refuses.bind
  rintro _ _ ⟨rfl, rfl⟩
  exact later

theorem atEnd_reads {next : Bool → Reading α} (later : Reads lexemes (next lexemes.isEmpty) property) :
    Reads lexemes (atEnd >>= next) property := by
  rintro ⟨tokens, ids⟩ rfl
  cases tokens <;> exact later _ rfl

/-- Lexemes at an argument are those of tokens at an argument. -/
theorem tokens_at_argument {tokens : List Token} (argument : AtArgument (tokens.map Token.lexeme)) :
    ∃ name position colon rest,
      tokens = ⟨.word name, position⟩ :: ⟨.mark ':', colon⟩ :: rest := by
  obtain ⟨name, after, same⟩ := argument
  obtain ⟨⟨_, position⟩, more, rfl, rfl, behind⟩ := List.map_eq_cons_iff.mp same
  obtain ⟨⟨_, colon⟩, rest, rfl, rfl, -⟩ := List.map_eq_cons_iff.mp behind
  exact ⟨name, position, colon, rest, rfl⟩

theorem argumentName?_reads {name : String} {next : Option (String × Position) → Reading α}
    (later : ∀ position, Reads rest (next (some (name, position))) property) :
    Reads (.word name :: .mark ':' :: rest) (argumentName? >>= next) property := by
  rintro ⟨tokens, ids⟩ same
  obtain ⟨_, position, colon, left, rfl⟩ := tokens_at_argument ⟨name, rest, same⟩
  cases same
  exact later position _ rfl

theorem argumentName?_reads_none {next : Option (String × Position) → Reading α}
    (none : ¬AtArgument lexemes) (later : Reads lexemes (next Option.none) property) :
    Reads lexemes (argumentName? >>= next) property := by
  have names : Reads lexemes argumentName? fun left name? =>
      name? = Option.none ∧ left = lexemes := by
    apply Reads.get
    rintro ⟨tokens, ids⟩ rfl
    dsimp only
    split
    · exact absurd ⟨_, _, rfl⟩ none
    · exact .pure ⟨rfl, rfl⟩
  apply names.bind
  rintro _ _ ⟨rfl, rfl⟩
  exact later

theorem atArgument_reads {name : String}
    (later : Reads (.word name :: .mark ':' :: rest) yes property) :
    Reads (.word name :: .mark ':' :: rest)
      (atArgument >>= fun found => if found then yes else no) property := by
  rintro ⟨tokens, ids⟩ same
  obtain ⟨_, position, colon, left, rfl⟩ := tokens_at_argument ⟨name, rest, same⟩
  exact later _ same

theorem kindName_reads {kind : String} {next : String → Reading α}
    (later : Reads rest (next kind) property) :
    Reads (.word kind :: rest) (kindName last >>= next) property := by
  rintro ⟨tokens, ids⟩ same
  obtain ⟨⟨_, place⟩, behind, rfl, rfl, rfl⟩ := List.map_eq_cons_iff.mp same
  exact later _ rfl

end Reading

end Pagewright
