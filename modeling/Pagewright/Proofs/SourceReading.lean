import Pagewright.Proofs.ReadingSteps
import Pagewright.Proofs.SourceLayout

/-!
# What is read from a source

A routine moves over some tokens and takes some identifiers (`Moves`), or it ends with an error of
the grammar; the supply never goes back. By induction on the budget, the tokens that a routine has
moved over are the layout of its result, their lexemes derive the outline of the result, and the
expressions in it have the identifiers that were taken, in the order in which they begin.
-/

namespace Pagewright

open Grammar Outcome

variable {source : String} {gap : List Token} {fault : GrammarFault} {earlier read : Arguments}
  {ids ids' : Supply} {position : Position}

/-- The lexemes do not follow the grammar. -/
def Error.IsGrammar (error : Error) : Prop :=
  ∃ position fault, error = .grammar position fault

def argumentsOutline (arguments : Arguments) : Arguments :=
  renumberArguments (fun _ => 0) arguments

@[simp] theorem argumentsOutline_cons (name : String) (value : Argument) (rest : Arguments) :
    argumentsOutline ((name, value) :: rest) = (name, value.outline) :: argumentsOutline rest :=
  rfl

private theorem Grammar.Gathers.outline {given arguments : Arguments}
    (gathers : Gathers given arguments) :
    Gathers (argumentsOutline given) (argumentsOutline arguments) := by
  have names : ∀ arguments : Arguments,
      (argumentsOutline arguments).map Prod.fst = arguments.map Prod.fst := by
    intro arguments
    simp [argumentsOutline, renumberArguments_eq, Function.comp_def]
  refine ⟨?_, gathers.ordered.of_names (names _), ?_⟩
  · rw [names]
    exact gathers.distinct
  · unfold argumentsOutline
    rw [renumberArguments_eq, renumberArguments_eq]
    exact gathers.same.map _

theorem Argument.outline_block (children : List Expression) :
    (Argument.block children).outline = .block (children.map Expression.outline) := by
  rw [Argument.outline, Argument.renumber, renumberBlock_eq]
  rfl

theorem Argument.outline_list (items : List Argument) :
    (Argument.list items).outline = .list (items.map Argument.outline) := by
  rw [Argument.outline, Argument.renumber, renumberItems_eq]
  rfl

private theorem IsGap.of_lineEnds (ends : LineEnds (gap.map Token.lexeme)) : IsGap gap :=
  fun _ member => .inl (ends _ (List.mem_map_of_mem member))

namespace Reading

/-! ### Moving over tokens -/

/-- From the one cursor to the other there are the tokens and the identifiers. -/
structure Moves (cursor cursor' : Cursor) (text : List Token) (ids : List ExpressionId) : Prop where
  tokens : cursor.tokens = text ++ cursor'.tokens
  next : cursor'.ids.next = cursor.ids.next + ids.length
  ids : ids = (List.range' cursor.ids.next ids.length).map Nat.toUInt32

theorem Moves.refl (cursor : Cursor) : Moves cursor cursor [] [] :=
  ⟨rfl, rfl, rfl⟩

theorem Moves.trans {first second third : Cursor} {text more : List Token}
    {ids others : List ExpressionId} (start : Moves first second text ids)
    (rest : Moves second third more others) : Moves first third (text ++ more) (ids ++ others) where
  tokens := by rw [start.tokens, rest.tokens, List.append_assoc]
  next := by rw [rest.next, start.next, List.length_append, Nat.add_assoc]
  ids := by
    rw [List.length_append, ← List.range'_append_1, List.map_append, ← start.ids, ← start.next,
      ← rest.ids]

/-- If the step succeeds here, its result has the property, together with the tokens and the
identifiers that it takes. If it fails, then with an error of the grammar. -/
structure Takes {α : Type} (cursor : Cursor) (step : Reading α)
    (property : α → List Token → List ExpressionId → Prop) : Prop where
  ok : ∀ a cursor', step cursor = .ok a cursor' →
    ∃ text ids, Moves cursor cursor' text ids ∧ property a text ids
  error : ∀ error cursor', step cursor = .error error cursor' →
    error.IsGrammar ∧ cursor.ids.next ≤ cursor'.ids.next

variable {α β : Type} {cursor : Cursor} {property : α → List Token → List ExpressionId → Prop}
  {last : Position}

namespace Takes

private theorem pure {a : α} (holds : property a [] []) :
    Takes cursor (pure a : Reading α) property where
  ok b cursor' run := by
    obtain ⟨rfl, rfl⟩ := pure_ok.mp run
    exact ⟨[], [], .refl cursor, holds⟩
  error error cursor' run := (pure_error.mp run).elim

private theorem throw :
    Takes cursor (throw (.grammar position fault) : Reading α) property where
  ok a cursor' run := (throw_ok.mp run).elim
  error error cursor' run := by
    obtain ⟨rfl, rfl⟩ := throw_error.mp run
    exact ⟨⟨position, fault, rfl⟩, le_rfl⟩

/-- What comes behind a step starts where the step has moved to. -/
theorem follow {step : Reading β} {next : β → Reading α}
    {first : β → List Token → List ExpressionId → Prop} (takes : Takes cursor step first)
    (later : ∀ b text ids cursor', Moves cursor cursor' text ids → first b text ids →
      Takes cursor' (next b) fun a more others => property a (text ++ more) (ids ++ others)) :
    Takes cursor (step >>= next) property where
  ok a cursor' run := by
    obtain ⟨b, middle, ran, rest⟩ := bind_ok.mp run
    obtain ⟨text, ids, moves, holds⟩ := takes.ok b middle ran
    obtain ⟨more, others, onward, whole⟩ := (later b text ids middle moves holds).ok a cursor' rest
    exact ⟨text ++ more, ids ++ others, moves.trans onward, whole⟩
  error error cursor' run := by
    rcases bind_error.mp run with failed | ⟨b, middle, ran, rest⟩
    · exact takes.error error cursor' failed
    · obtain ⟨text, ids, moves, holds⟩ := takes.ok b middle ran
      obtain ⟨grammar, onward⟩ := (later b text ids middle moves holds).error error cursor' rest
      refine ⟨grammar, le_trans ?_ onward⟩
      rw [moves.next]
      exact Nat.le_add_right _ _

private theorem bind {step : Reading β} {next : β → Reading α}
    {first : β → List Token → List ExpressionId → Prop} (takes : Takes cursor step first)
    (later : ∀ b text ids cursor', first b text ids → Takes cursor' (next b)
      fun a more others => property a (text ++ more) (ids ++ others)) :
    Takes cursor (step >>= next) property :=
  takes.follow fun b text ids cursor' _ => later b text ids cursor'

/-- Nothing comes after a step that always fails. -/
theorem stop {step : Reading β} {next : β → Reading α}
    (fails : Takes cursor step fun _ _ _ => False) : Takes cursor (step >>= next) property :=
  fails.bind fun _ _ _ _ impossible => impossible.elim

theorem imp {step : Reading α} {weaker : α → List Token → List ExpressionId → Prop}
    (takes : Takes cursor step property)
    (implies : ∀ a text ids cursor', Moves cursor cursor' text ids → property a text ids →
      weaker a text ids) :
    Takes cursor step weaker where
  ok a cursor' run := by
    obtain ⟨text, ids, moves, holds⟩ := takes.ok a cursor' run
    exact ⟨text, ids, moves, implies a text ids cursor' moves holds⟩
  error := takes.error

private theorem get {next : Cursor → Reading α} (later : Takes cursor (next cursor) property) :
    Takes cursor (get >>= next) property :=
  ⟨later.ok, later.error⟩

/-- What follows a check that may fail. -/
theorem check {condition : Prop} [Decidable condition] {step : Reading α}
    (rest : ¬condition → Takes cursor step property) :
    Takes cursor
      (if condition then
        (MonadExcept.throw (.grammar position fault) : Reading Unit) >>= fun _ => step
      else step) property := by
  split
  · exact .stop .throw
  · exact rest ‹_›

end Takes

/-! ### Steps over tokens -/

private theorem passing_takes (text : List Token) {rest : List Token}
    (same : cursor.tokens = text ++ rest) :
    Takes cursor (modify fun cursor => { cursor with tokens := rest } : Reading PUnit)
      fun _ passed ids => passed = text ∧ ids = [] where
  ok _ cursor' run := by
    obtain rfl := modify_ok.mp run
    exact ⟨text, [], ⟨same, rfl, rfl⟩, rfl, rfl⟩
  error _ _ run := (modify_error.mp run).elim

private theorem failHere_takes : Takes cursor (failHere last fault : Reading α) property := by
  apply Takes.get
  cases cursor.tokens with
  | nil | cons => exact .throw

private theorem skipLines_takes :
    Takes cursor skipLines fun _ gap ids => LineEnds (gap.map Token.lexeme) ∧ ids = [] where
  ok _ cursor' run := by
    obtain rfl := modify_ok.mp run
    refine ⟨cursor.tokens.takeWhile fun token => token.lexeme == .endOfLine, [],
      ⟨List.takeWhile_append_dropWhile.symm, rfl, rfl⟩, ?_, rfl⟩
    intro lexeme member
    obtain ⟨token, among, rfl⟩ := List.mem_map.mp member
    simpa using List.all_eq_true.mp List.all_takeWhile token among
  error _ _ run := (modify_error.mp run).elim

private theorem takeId_takes : Takes cursor takeId fun id text ids => text = [] ∧ ids = [id] where
  ok id cursor' run := by
    obtain ⟨rfl, rfl⟩ := Prod.mk.inj (modifyGet_ok.mp run)
    exact ⟨[], _, ⟨rfl, rfl, rfl⟩, rfl, rfl⟩
  error := nofun

private theorem accept_takes (c : Char) : Takes cursor (accept c) fun found text ids =>
    ids = [] ∧ (found = true ∧ (∃ place, text = [⟨.mark c, place⟩]) ∨ found = false ∧ text = []) := by
  apply Takes.get
  split
  · rename_i token rest same
    obtain ⟨lexeme, place⟩ := token
    split
    · rename_i mark
      apply (passing_takes [⟨lexeme, place⟩] same).bind
      rintro _ _ _ _ ⟨rfl, rfl⟩
      exact .pure ⟨rfl, .inl ⟨rfl, place, by rw [← mark]; rfl⟩⟩
    · exact .pure ⟨rfl, .inr ⟨rfl, rfl⟩⟩
  · exact .pure ⟨rfl, .inr ⟨rfl, rfl⟩⟩

private theorem atEnd_takes : Takes cursor atEnd fun found text ids =>
    found = cursor.tokens.isEmpty ∧ text = [] ∧ ids = [] :=
  Takes.get (.pure ⟨rfl, rfl, rfl⟩)

private theorem atArgument_takes : Takes cursor atArgument fun found text ids =>
    text = [] ∧ ids = [] ∧ (found = true → AtArgument cursor.lexemes) := by
  apply Takes.get
  split
  · rename_i same
    exact .pure ⟨rfl, rfl, fun _ => by simp [Cursor.lexemes, same, AtArgument]⟩
  · exact .pure ⟨rfl, rfl, by simp⟩

private theorem argumentName?_takes : Takes cursor argumentName? fun name? text ids => ids = [] ∧
    ((∃ name place colon, name? = some (name, place) ∧
      text = [⟨.word name, place⟩, ⟨.mark ':', colon⟩]) ∨
      name? = none ∧ text = [] ∧ ¬AtArgument cursor.lexemes) := by
  apply Takes.get
  split
  · rename_i name place colon rest same
    apply (passing_takes [⟨.word name, place⟩, ⟨.mark ':', colon⟩] same).bind
    rintro _ _ _ _ ⟨rfl, rfl⟩
    exact .pure ⟨rfl, .inl ⟨name, place, colon, rfl, rfl⟩⟩
  · rename_i none
    refine .pure ⟨rfl, .inr ⟨rfl, rfl, fun argument => ?_⟩⟩
    obtain ⟨name, position, colon, rest, same⟩ := tokens_at_argument argument
    exact none _ _ _ _ same

private theorem kindName_takes : Takes cursor (kindName last) fun kind text ids =>
    ids = [] ∧ ∃ place, text = [⟨.word kind, place⟩] := by
  apply Takes.get
  split
  · rename_i kind place rest same
    apply (passing_takes [⟨.word kind, place⟩] same).bind
    rintro _ _ _ _ ⟨rfl, rfl⟩
    exact .pure ⟨rfl, place, rfl⟩
  · exact .throw
  · exact .throw

/-! ### Expressions and their parts -/

/-- The expression lies in the tokens, whose lexemes derive its outline, and the identifiers are
those of the expressions in it as they begin. -/
def ExpressionRead (parent : Option ExpressionId) (e : Expression) (text : List Token)
    (ids : List ExpressionId) : Prop :=
  ∃ begins, begins.map Prod.snd = ids ∧ ExpressionLies parent text e begins ∧
    IsExpression (parent.map fun _ => 0) (text.map Token.lexeme) e.outline

/-- Arguments are read behind those given `earlier`, up to the end of their expression; it is said
how their lexemes derive what is given. -/
def ArgumentsRead (derives : List Lexeme → Arguments → Prop) (owner : ExpressionId)
    (enclosed : Bool) (earlier arguments : Arguments) (text : List Token)
    (ids : List ExpressionId) : Prop :=
  ∃ inner stop given begins, text = inner ++ stop ∧ begins.map Prod.snd = ids ∧
    ArgumentsLie owner inner given begins ∧ Closes enclosed stop ∧
    Gathers (earlier ++ given) arguments ∧ derives (text.map Token.lexeme) (argumentsOutline given)

def ValueRead (owner : ExpressionId) (value : Argument) (text : List Token)
    (ids : List ExpressionId) : Prop :=
  ∃ begins, begins.map Prod.snd = ids ∧ ValueLies owner text value begins ∧
    IsValue (text.map Token.lexeme) value.outline

/-- The rest of a block is read behind the expressions that were read before. -/
def BlockRead (owner : ExpressionId) (earlier children : List Expression) (text : List Token)
    (ids : List ExpressionId) : Prop :=
  ∃ inner closed more begins, text = inner ++ [⟨.mark '\x7d', closed⟩] ∧
    begins.map Prod.snd = ids ∧ BlockLies owner inner more begins ∧
    IsBlock (text.map Token.lexeme) (more.map Expression.outline) ∧
    children = earlier.reverse ++ more

def ItemsRead (owner : ExpressionId) (earlier items : List Argument) (text : List Token)
    (ids : List ExpressionId) : Prop :=
  ∃ inner closed more begins, text = inner ++ [⟨.mark ']', closed⟩] ∧
    begins.map Prod.snd = ids ∧ ItemsLie owner inner more begins ∧
    IsItems (text.map Token.lexeme) (more.map Argument.outline) ∧ items = earlier.reverse ++ more

/-- A body on a line is not empty where an argument comes first. -/
def BodyAt (cursor : Cursor) (enclosed : Bool) (text : List Lexeme) (given : Arguments) : Prop :=
  IsBody enclosed text given ∧ (enclosed = false → AtArgument cursor.lexemes → given ≠ [])

/-- What the routines read within a budget. -/
structure ReadsWithin (last : Position) (budget : Nat) : Prop where
  expression : ∀ parent cursor, Takes cursor (expression last budget parent) (ExpressionRead parent)
  arguments : ∀ owner enclosed read earlier cursor, Gathers earlier read →
    Takes cursor (arguments last budget owner enclosed read)
      (ArgumentsRead (BodyAt cursor enclosed) owner enclosed earlier)
  value : ∀ owner cursor, Takes cursor (value last budget owner) (ValueRead owner)
  block : ∀ owner opened read cursor,
    Takes cursor (block last budget owner opened read) (BlockRead owner read)
  items : ∀ owner read cursor, Takes cursor (items last budget owner read) (ItemsRead owner read)

namespace ArgumentsRead

variable {derives : List Lexeme → Arguments → Prop} {owner : ExpressionId} {enclosed : Bool}
  {earlier arguments : Arguments} {text : List Token} {ids : List ExpressionId}

private theorem after {other : List Lexeme → Arguments → Prop} (passed : IsGap gap)
    (read : ArgumentsRead derives owner enclosed earlier arguments text ids)
    (implies : ∀ given, derives (text.map Token.lexeme) given →
      other ((gap ++ text).map Token.lexeme) given) :
    ArgumentsRead other owner enclosed earlier arguments (gap ++ text) ids := by
  obtain ⟨inner, stop, given, begins, rfl, numbered, lie, closes, gathers, derived⟩ := read
  exact ⟨gap ++ inner, stop, given, begins, (List.append_assoc ..).symm, numbered,
    lie.after passed, closes, gathers, implies _ derived⟩

private theorem done {stop : List Token} (passed : IsGap gap) (closes : Closes enclosed stop)
    (gathers : Gathers earlier arguments) (derived : derives ((gap ++ stop).map Token.lexeme) []) :
    ArgumentsRead derives owner enclosed earlier arguments (gap ++ stop) [] :=
  ⟨gap, stop, [], [], rfl, rfl, .nil passed, closes, by simpa using gathers, derived⟩

private theorem cons {name : String} {place colon : Position} {value : Argument} {rest : List Token}
    {others : List ExpressionId}
    (read : ArgumentsRead (FollowsValue enclosed) owner enclosed (earlier ++ [(name, value)])
      arguments rest others) (valued : ValueRead owner value text ids) :
    ArgumentsRead (BodyAt cursor enclosed) owner enclosed earlier arguments
      (⟨.word name, place⟩ :: ⟨.mark ':', colon⟩ :: (text ++ rest)) (ids ++ others) := by
  obtain ⟨begins, rfl, lies, derived⟩ := valued
  obtain ⟨inner, stop, given, more, rfl, rfl, lie, closes, gathers, follows⟩ := read
  have whole : ArgumentsLie owner
      ([] ++ ⟨.word name, place⟩ :: ⟨.mark ':', colon⟩ :: text ++ inner)
      ((name, value) :: given) (begins ++ more) := .cons .nil lies lie
  refine ⟨_, stop, _, _, by simp, List.map_append .., whole, closes, ?_, ?_, fun _ _ => by simp⟩
  · rwa [List.append_assoc] at gathers
  · simpa using IsBody.cons name derived follows

end ArgumentsRead

variable {budget : Nat}

section

variable (within : ReadsWithin last budget)

include within

private theorem expression_takes (parent : Option ExpressionId) (cursor : Cursor) :
    Takes cursor (expression last (budget + 1) parent) (ExpressionRead parent) := by
  simp only [expression]
  apply takeId_takes.bind
  rintro id _ _ start ⟨rfl, rfl⟩
  -- the arguments and the end of the expression, behind its kind
  have rest : ∀ {enclosed : Bool} {kind : String} {place : Position} {head : List Token}
      (behind : Cursor), Heads enclosed place kind head →
      (∀ {text given arguments}, IsBody enclosed text given → Gathers given arguments →
        IsExpression (parent.map fun _ => 0) (head.map Token.lexeme ++ text)
          ⟨0, parent.map fun _ => 0, kind, arguments⟩) →
      Takes behind (arguments last budget id enclosed [] >>= fun arguments =>
        pure ⟨id, parent, kind, arguments⟩) fun e text ids =>
          ExpressionRead parent e (head ++ text) (id :: ids) := by
    intro enclosed kind place head behind heads derives
    apply (within.arguments id enclosed [] [] behind .nil).bind
    rintro arguments _ _ _ ⟨inner, stop, given, begins, rfl, rfl, lie, closes, gathers, body, -⟩
    have lies : ExpressionLies parent (head ++ inner ++ stop) ⟨id, parent, kind, arguments⟩
        ((place, id) :: begins) := .intro heads lie closes gathers
    have derived : IsExpression (parent.map fun _ => 0)
        (head.map Token.lexeme ++ (inner ++ stop).map Token.lexeme)
        (Expression.mk id parent kind arguments).outline := derives body gathers.outline
    exact .pure ⟨(place, id) :: begins, by simp, by simpa using lies, by simpa using derived⟩
  apply (accept_takes '(').bind
  rintro found _ _ opened ⟨rfl, ⟨rfl, place, rfl⟩ | ⟨rfl, rfl⟩⟩
  · apply skipLines_takes.bind
    rintro _ gap _ skipped ⟨passed, rfl⟩
    apply kindName_takes.bind
    rintro kind _ _ behind ⟨rfl, named, rfl⟩
    simpa using rest behind (.enclosed (.of_lineEnds passed)) fun body gathers => by
      simpa using IsExpression.enclosed passed body gathers
  · apply kindName_takes.bind
    rintro kind _ _ behind ⟨rfl, place, rfl⟩
    exact rest behind .line .line

private theorem argumentThen_takes (owner : ExpressionId) (enclosed : Bool) (cursor : Cursor)
    (gathers : Gathers earlier read) :
    Takes cursor (argumentThen last enclosed read (value last budget owner)
      (arguments last budget owner enclosed))
      (ArgumentsRead (BodyAt cursor enclosed) owner enclosed earlier) := by
  unfold argumentThen
  apply argumentName?_takes.bind
  rintro name? _ _ named ⟨rfl, ⟨name, place, colon, rfl, rfl⟩ | ⟨rfl, rfl, none⟩⟩
  · apply (within.value owner named).bind
    intro value text ids behind valued
    apply Takes.check
    intro fresh
    rw [gathers.has_iff] at fresh
    have added := gathers.add fresh value
    -- what follows the value is read behind this argument, too
    have whole : ∀ {arguments : Arguments} {rest : List Token} {others : List ExpressionId},
        ArgumentsRead (FollowsValue enclosed) owner enclosed (earlier ++ [(name, value)]) arguments
          rest others →
        ArgumentsRead (BodyAt cursor enclosed) owner enclosed earlier arguments
          (⟨.word name, place⟩ :: ⟨.mark ':', colon⟩ :: (text ++ rest)) (ids ++ others) :=
      fun more => more.cons valued
    apply (accept_takes ',').bind
    rintro found _ _ after ⟨rfl, ⟨rfl, comma, rfl⟩ | ⟨rfl, rfl⟩⟩
    · apply skipLines_takes.bind
      rintro _ gap _ skipped ⟨passed, rfl⟩
      apply atArgument_takes.follow
      rintro argument _ _ there moved ⟨rfl, rfl, tells⟩
      have separates : IsGap (⟨.mark ',', comma⟩ :: gap) :=
        List.forall_mem_cons.mpr ⟨.inr rfl, IsGap.of_lineEnds passed⟩
      split
      · rename_i found
        apply (within.arguments owner enclosed _ _ there added).imp
        intro arguments rest others left onward more
        -- an argument comes next, so that the body is not empty
        have next : AtArgument there.lexemes := by
          have here := tells found
          rwa [Cursor.lexemes, moved.tokens] at here
        have following : ArgumentsRead (FollowsValue enclosed) owner enclosed
            (earlier ++ [(name, value)]) arguments (⟨.mark ',', comma⟩ :: gap ++ rest) others := by
          refine more.after separates ?_
          rintro given ⟨body, onLine⟩
          have nonempty : given ≠ [] := by
            cases enclosed with
            | false => exact onLine rfl next
            | true =>
              rw [Cursor.lexemes, onward.tokens, List.map_append] at next
              exact body.ne_nil next
          simpa using FollowsValue.comma passed body nonempty
        exact whole following
      · exact failHere_takes
    · cases enclosed with
      | true =>
        apply (within.arguments owner true _ _ after added).imp
        intro arguments rest others left _ more
        exact whole (more.after .nil fun given body => .enclosed body.1)
      | false => exact .pure (whole (.done .nil .line added .done))
  · cases enclosed with
    | true => exact failHere_takes
    | false =>
      exact .pure (.done .nil .line gathers ⟨.empty, fun _ argument => absurd argument none⟩)

private theorem arguments_take (owner : ExpressionId) (enclosed : Bool) (cursor : Cursor)
    (gathers : Gathers earlier read) :
    Takes cursor (arguments last (budget + 1) owner enclosed read)
      (ArgumentsRead (BodyAt cursor enclosed) owner enclosed earlier) := by
  unfold arguments
  cases enclosed with
  | false => exact argumentThen_takes within owner false cursor gathers
  | true =>
    apply skipLines_takes.bind
    rintro _ gap _ skipped ⟨passed, rfl⟩
    apply (accept_takes ')').bind
    rintro found _ _ after ⟨rfl, ⟨rfl, place, rfl⟩ | ⟨rfl, rfl⟩⟩
    · refine .pure (.done (.of_lineEnds passed) .enclosed gathers ⟨?_, by simp⟩)
      simpa using IsBody.closed passed
    · apply atEnd_takes.bind
      rintro ended _ _ there ⟨-, rfl, rfl⟩
      have rest : Takes there (argumentThen last true read (value last budget owner)
          (arguments last budget owner true)) fun arguments text ids =>
            ArgumentsRead (BodyAt cursor true) owner true earlier arguments (gap ++ text) ids := by
        apply (argumentThen_takes within owner true there gathers).imp
        intro arguments text ids left _ more
        refine more.after (.of_lineEnds passed) fun given body => ⟨?_, by simp⟩
        simpa using body.1.after passed
      split
      · exact .stop failHere_takes
      · exact rest

private theorem value_takes (owner : ExpressionId) (cursor : Cursor) :
    Takes cursor (value last (budget + 1) owner) (ValueRead owner) := by
  unfold value
  apply Takes.get
  split
  · exact .throw
  · rename_i lexeme place rest same
    have passes := passing_takes [⟨lexeme, place⟩] same
    split
    · apply passes.bind
      rintro _ _ _ _ ⟨rfl, rfl⟩
      exact .pure ⟨[], rfl, .atom, .atom _⟩
    · apply passes.bind
      rintro _ _ _ _ ⟨rfl, rfl⟩
      exact .pure ⟨[], rfl, .text, .text _⟩
    · apply passes.bind
      rintro _ _ _ _ ⟨rfl, rfl⟩
      exact .pure ⟨[], rfl, .number, .number _⟩
    · apply passes.bind
      rintro _ _ _ opened ⟨rfl, rfl⟩
      apply (within.block owner place [] opened).bind
      rintro _ _ _ _ ⟨inner, closed, children, begins, rfl, rfl, lies, derived, rfl⟩
      refine .pure ⟨begins, by simp, by simpa using ValueLies.block lies, ?_⟩
      rw [Argument.outline_block]
      simpa using IsValue.block derived
    · apply passes.bind
      rintro _ _ _ opened ⟨rfl, rfl⟩
      apply (within.items owner [] opened).bind
      rintro _ _ _ _ ⟨inner, closed, items, begins, rfl, rfl, lie, derived, rfl⟩
      refine .pure ⟨begins, by simp, by simpa using ValueLies.list lie, ?_⟩
      rw [Argument.outline_list]
      simpa using IsValue.list derived
    · exact .throw

private theorem block_takes (owner : ExpressionId) (opened : Position) (read : List Expression)
    (cursor : Cursor) :
    Takes cursor (block last (budget + 1) owner opened read) (BlockRead owner read) := by
  unfold block
  apply skipLines_takes.bind
  rintro _ gap _ skipped ⟨passed, rfl⟩
  apply (accept_takes '\x7d').bind
  rintro found _ _ after ⟨rfl, ⟨rfl, place, rfl⟩ | ⟨rfl, rfl⟩⟩
  · exact .pure ⟨gap, place, [], [], by simp, rfl, .nil (.of_lineEnds passed),
      by simpa using IsBlock.closed passed, by simp⟩
  · apply atEnd_takes.bind
    rintro ended _ _ there ⟨-, rfl, rfl⟩
    apply Takes.check
    intro _
    apply (within.expression (some owner) there).bind
    rintro child first _ behind ⟨begins, rfl, lies, derived⟩
    apply (within.block owner opened (child :: read) behind).imp
    rintro _ _ _ left - ⟨inner, closed, more, others, rfl, rfl, rest, block, rfl⟩
    exact ⟨gap ++ first ++ inner, closed, child :: more, begins ++ others, by simp, by simp,
      .cons (.of_lineEnds passed) lies rest, by simpa using IsBlock.more passed derived block,
      by simp⟩

private theorem items_take (owner : ExpressionId) (read : List Argument) (cursor : Cursor) :
    Takes cursor (items last (budget + 1) owner read) (ItemsRead owner read) := by
  unfold items
  apply skipLines_takes.bind
  rintro _ gap _ skipped ⟨passed, rfl⟩
  apply (within.value owner skipped).bind
  rintro item first _ behind ⟨begins, rfl, lies, derived⟩
  apply skipLines_takes.bind
  rintro _ stop _ stopped ⟨stops, rfl⟩
  apply (accept_takes ',').bind
  rintro found _ _ after ⟨rfl, ⟨rfl, comma, rfl⟩ | ⟨rfl, rfl⟩⟩
  · apply (within.items owner (item :: read) after).imp
    rintro _ _ _ left - ⟨inner, closed, more, others, rfl, rfl, rest, list, rfl⟩
    have separates : IsGap (stop ++ [⟨.mark ',', comma⟩]) :=
      (IsGap.of_lineEnds stops).append (by simp [IsGap])
    exact ⟨gap ++ first ++ (stop ++ [⟨.mark ',', comma⟩] ++ inner), closed, item :: more,
      begins ++ others, by simp, by simp, .cons (.of_lineEnds passed) lies (rest.after separates),
      by simpa using IsItems.more passed derived stops list, by simp⟩
  · apply (accept_takes ']').bind
    rintro found _ _ there ⟨rfl, ⟨rfl, place, rfl⟩ | ⟨rfl, rfl⟩⟩
    · exact .pure ⟨gap ++ first ++ stop, place, [item], begins ++ [], by simp, by simp,
        .cons (.of_lineEnds passed) lies (.nil (.of_lineEnds stops)),
        by simpa using IsItems.last passed derived stops, by simp⟩
    · exact failHere_takes

end

private theorem readsWithin (last : Position) (budget : Nat) : ReadsWithin last budget := by
  induction budget with
  | zero =>
    constructor
    · exact fun parent cursor => failHere_takes
    · exact fun owner enclosed read earlier cursor _ => failHere_takes
    · exact fun owner cursor => failHere_takes
    · exact fun owner opened read cursor => failHere_takes
    · exact fun owner read cursor => failHere_takes
  | succ budget within =>
    exact ⟨expression_takes within, fun owner enclosed read earlier cursor gathers =>
      arguments_take within owner enclosed cursor gathers, value_takes within, block_takes within,
      items_take within⟩

/-- A whole text is passed over; each round takes at least one token, so that the budget does not run
out. -/
theorem program_takes (last : Position) (budget : Nat) (read : List Expression) (cursor : Cursor)
    (enough : cursor.tokens.length < budget) :
    Takes cursor (program last budget read) fun es text ids => text = cursor.tokens ∧
      ∃ more begins, es = read.reverse ++ more ∧ begins.map Prod.snd = ids ∧
        SourceLies text more begins ∧
        IsSource (text.map Token.lexeme) (more.map Expression.outline) := by
  induction budget generalizing read cursor with
  | zero => exact absurd enough (Nat.not_lt_zero _)
  | succ budget ih =>
    unfold program
    apply skipLines_takes.follow
    rintro _ gap _ skipped moved ⟨passed, rfl⟩
    apply atEnd_takes.follow
    rintro _ _ _ there still ⟨rfl, rfl, rfl⟩
    split
    · -- only line ends were left
      rename_i ended
      have same : cursor.tokens = gap := by
        rw [moved.tokens, List.isEmpty_iff.mp ended, List.append_nil]
      exact .pure ⟨by simp [same], [], [], by simp, rfl,
        by simpa using SourceLies.nil (.of_lineEnds passed), by simpa using IsSource.empty passed⟩
    · apply ((readsWithin last budget).expression none there).follow
      rintro e text _ behind onward ⟨begins, rfl, lies, derived⟩
      have whole := ((moved.trans still).trans onward).tokens
      apply Takes.get
      split
      · rename_i ended
        exact .pure ⟨by simp [whole, ended], [e], begins, by simp, by simp,
          by simpa using SourceLies.cons (.of_lineEnds passed) lies (.nil .nil),
          by simpa using IsSource.lines passed (.last derived) .nil⟩
      · rename_i place left line
        have shorter : behind.tokens.length < budget := by
          have progress := lies.length_pos
          rw [whole] at enough
          simp only [List.length_append] at enough
          omega
        apply (ih (e :: read) behind shorter).imp
        rintro _ _ _ _ - ⟨rfl, more, others, rfl, rfl, source, trees⟩
        refine ⟨by simp [whole], e :: more, begins ++ others, by simp, by simp,
          by simpa using SourceLies.cons (.of_lineEnds passed) lies source, ?_⟩
        simpa using IsSource.cons passed derived trees (by rw [line]; rfl)
      · exact .throw

end Reading

/-! ### Sources -/

/-- Whether a text can be read or not, the supply only goes on. -/
theorem parseSource_read (source : String) (ids : Supply) :
    match parseSource source ids with
    | .ok es ids' => ∃ tokens begins, tokenize source = .ok tokens ∧ SourceLies tokens es begins ∧
        IsSource (tokens.map Token.lexeme) (es.map Expression.outline) ∧
        ids'.next = ids.next + begins.length ∧
        begins.map Prod.snd = (List.range' ids.next begins.length).map Nat.toUInt32
    | .error error ids' => ids.next ≤ ids'.next ∧
        ∀ tokens, tokenize source = .ok tokens → error.IsGrammar := by
  unfold parseSource
  cases split : tokenize source with
  | error error => exact ⟨le_rfl, fun tokens same => by simp at same⟩
  | ok tokens =>
    dsimp only
    generalize (tokens.getLast?.map Token.position).getD Position.start = last
    have enough : tokens.length < 2 * tokens.length + 2 := by omega
    have takes := Reading.program_takes last _ [] ⟨tokens, ids⟩ enough
    cases run : Reading.program last (2 * tokens.length + 2) [] ⟨tokens, ids⟩ with
    | error error cursor =>
      obtain ⟨grammar, onward⟩ := takes.error error cursor run
      exact ⟨onward, fun _ _ => grammar⟩
    | ok es cursor =>
      obtain ⟨_, _, moves, rfl, more, begins, rfl, rfl, lies, derived⟩ := takes.ok es cursor run
      have next := moves.next
      have numbers := moves.ids
      rw [List.length_map] at next numbers
      exact ⟨_, begins, rfl, lies, derived, next, numbers⟩

theorem parseSource_lies {es : List Expression} (run : parseSource source ids = .ok es ids') :
    ∃ tokens begins, tokenize source = .ok tokens ∧ SourceLies tokens es begins ∧
      ids'.next = ids.next + begins.length ∧
      begins.map Prod.snd = (List.range' ids.next begins.length).map Nat.toUInt32 := by
  have read := parseSource_read source ids
  rw [run] at read
  obtain ⟨tokens, begins, split, lies, -, numbers⟩ := read
  exact ⟨tokens, begins, split, lies, numbers⟩

/-- Reading a source gives a derivation of its lexemes, or an error of the grammar. -/
theorem parseSource_sound {tokens : List Token} (split : tokenize source = .ok tokens)
    (ids : Supply) :
    match parseSource source ids with
    | .ok es _ => IsSource (tokens.map Token.lexeme) (es.map Expression.outline)
    | .error error _ => error.IsGrammar := by
  have read := parseSource_read source ids
  cases run : parseSource source ids with
  | error error ids' =>
    rw [run] at read
    exact read.2 tokens split
  | ok es ids' =>
    rw [run] at read
    obtain ⟨others, _, same, -, derived, -⟩ := read
    obtain rfl : tokens = others := Except.ok.inj (split.symm.trans same)
    exact derived

/-- The top-level expressions of a source are tidy and stand in no block. -/
theorem parseSource_tidy {added : List Expression}
    (read : parseSource source ids = .ok added ids') :
    ∀ e ∈ added, e.parent = none ∧ e.Throughout Expression.IsTidy := by
  obtain ⟨_, _, -, lies, -⟩ := parseSource_lies read
  exact lies.tidy

/-- Whether a text can be read or not, the supply only goes on. -/
theorem parseSource_next (source : String) (ids : Supply) :
    match parseSource source ids with
    | .ok added ids' => ids.next ≤ ids'.next ∧ blockIds true added ≤ issued ids.next ids'.next
    | .error _ ids' => ids.next ≤ ids'.next := by
  have read := parseSource_read source ids
  cases run : parseSource source ids with
  | error error ids' =>
    rw [run] at read
    exact read.1
  | ok es ids' =>
    rw [run] at read
    obtain ⟨_, begins, -, lies, -, next, numbers⟩ := read
    refine ⟨next ▸ Nat.le_add_right _ _, ?_⟩
    rw [lies.ids, beginningIds, numbers, next, issued_range']

end Pagewright
