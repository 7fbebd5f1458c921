import Pagewright.Proofs.MergeOutline
import Pagewright.Proofs.SourceReading

/-!
# What has a derivation is read

By induction on the budget: each routine reads every text that has a derivation, provided that the
budget exceeds twice the number of its lexemes. An expression on a line ends where nothing follows
that it could go on with; in a block and at the end of a line this is always so.
-/

namespace Pagewright

private theorem argumentsOutline_insert (name : String) (value : Argument) (arguments : Arguments) :
    argumentsOutline (Entries.insert name value arguments) =
      Entries.insert name value.outline (argumentsOutline arguments) :=
  renumberArguments_insert _ name value arguments

private theorem has_argumentsOutline (arguments : Arguments) (name : String) :
    Entries.has (argumentsOutline arguments) name = Entries.has arguments name := by
  simp [Entries.has, argumentsOutline, lookup_renumberArguments]

namespace Reading

open Grammar

variable {last : Position} {budget : Nat}

/-- The routines read whatever has a derivation that is short enough for the budget. -/
structure CompleteWithin (last : Position) (budget : Nat) : Prop where
  expression : ∀ parent {text tree} rest, IsExpression (parent.map fun _ => 0) text tree →
    2 * text.length < budget → Stops rest →
    Reads (text ++ rest) (expression last budget parent) fun left e =>
      left = rest ∧ e.outline = tree
  arguments : ∀ owner {enclosed read earlier given text} rest, IsBody enclosed text given →
    2 * text.length < budget → (enclosed = false → Stops rest) →
    Gathers earlier (argumentsOutline read) → ((earlier ++ given).map Prod.fst).Nodup →
    Reads (text ++ rest) (arguments last budget owner enclosed read) fun left arguments =>
      left = rest ∧ Gathers (earlier ++ given) (argumentsOutline arguments)
  value : ∀ owner {text tree} rest, IsValue text tree → 2 * text.length < budget →
    Reads (text ++ rest) (value last budget owner) fun left value =>
      left = rest ∧ value.outline = tree
  block : ∀ owner opened read {text trees} rest, IsBlock text trees → 2 * text.length < budget →
    Reads (text ++ rest) (block last budget owner opened read) fun left children =>
      left = rest ∧ children.map Expression.outline = (read.map Expression.outline).reverse ++ trees
  items : ∀ owner read {text trees} rest, IsItems text trees → 2 * text.length < budget →
    Reads (text ++ rest) (items last budget owner read) fun left items =>
      left = rest ∧ items.map Argument.outline = (read.map Argument.outline).reverse ++ trees

section

variable (within : CompleteWithin last budget)

include within

private theorem expression_complete (parent : Option ExpressionId) {text : List Lexeme}
    {tree : Expression} (rest : List Lexeme)
    (derived : IsExpression (parent.map fun _ => 0) text tree)
    (enough : 2 * text.length < budget + 1) (stops : Stops rest) :
    Reads (text ++ rest) (expression last (budget + 1) parent) fun left e =>
      left = rest ∧ e.outline = tree := by
  simp only [expression]
  apply takeId_reads
  intro id
  -- behind the name, both forms go on alike
  have finish : ∀ {enclosed : Bool} {kind : String} {body : List Lexeme}
      {given : Arguments} {tree : Arguments}, IsBody enclosed body given →
      Gathers given tree → 2 * body.length < budget → (enclosed = false → Stops rest) →
      Reads (body ++ rest)
        (arguments last budget id enclosed [] >>= fun arguments =>
          (pure ⟨id, parent, kind, arguments⟩ : Reading Expression))
        fun left e => left = rest ∧ e.outline = ⟨0, parent.map fun _ => 0, kind, tree⟩ := by
    intro enclosed kind body given tree derived gathers enough stops
    have none : Gathers [] (argumentsOutline []) := .nil
    apply (within.arguments id rest derived enough stops none gathers.distinct).bind
    rintro left read ⟨rfl, gathered⟩
    refine .pure ⟨rfl, ?_⟩
    rw [← gathered.unique gathers]
    rfl
  cases derived with
  | @line _ kind body given arguments derived gathers =>
    simp only [List.length_cons] at enough
    apply accept_reads_other (by simp)
    exact kindName_reads (finish derived gathers (by omega) fun _ => stops)
  | @enclosed _ kind start body given arguments ends derived gathers =>
    simp only [List.length_cons, List.length_append] at enough
    simp only [List.cons_append, List.append_assoc]
    apply accept_reads
    apply skipLines_reads
    rw [ends.dropWhile_append (by simp)]
    exact kindName_reads (finish derived gathers (by omega) (by simp))

private theorem argumentThen_complete (owner : ExpressionId) {enclosed : Bool} {read : Arguments}
    {earlier more : Arguments} {name : String} {inner after : List Lexeme} {tree : Argument}
    (rest : List Lexeme) (valued : IsValue inner tree)
    (follows : FollowsValue enclosed after more)
    (enough : 2 * (inner.length + after.length) < budget) (stops : enclosed = false → Stops rest)
    (gathers : Gathers earlier (argumentsOutline read))
    (distinct : ((earlier ++ (name, tree) :: more).map Prod.fst).Nodup) :
    Reads (.word name :: .mark ':' :: inner ++ after ++ rest)
      (argumentThen last enclosed read (value last budget owner)
        (arguments last budget owner enclosed)) fun left arguments =>
      left = rest ∧ Gathers (earlier ++ (name, tree) :: more) (argumentsOutline arguments) := by
  have fresh : name ∉ earlier.map Prod.fst := by
    intro repeated
    rw [List.map_append] at distinct
    exact (List.nodup_append.mp distinct).2.2 name repeated name (by simp) rfl
  rw [List.append_cons] at distinct
  unfold argumentThen
  simp only [List.cons_append, List.append_assoc inner]
  apply argumentName?_reads
  intro position
  apply (within.value owner (after ++ rest) valued (by omega)).bind
  rintro left value ⟨rfl, rfl⟩
  refine .check ?_ ?_
  · rw [← has_argumentsOutline, gathers.has_iff]
    exact fresh
  have added := gathers.add fresh value.outline
  rw [← argumentsOutline_insert] at added
  rw [List.append_cons earlier]
  -- what follows the value decides between the three ways to go on
  cases follows with
  | done =>
    apply accept_reads_other (stops rfl).comma
    exact .pure ⟨rfl, by simpa using added⟩
  | @comma _ gap text _ ends body nonempty =>
    obtain ⟨start, next, inner', tree', after', others, starts, -, rfl, rfl, valued', follows'⟩ :=
      body.uncons nonempty
    simp only [List.length_append, List.length_cons] at enough
    have more := within.arguments owner rest (.cons next valued' follows')
      (by simp only [List.length_append, List.length_cons]; omega) stops added distinct
    -- line ends behind the comma and before the next argument are passed over together
    rw [List.cons_append, List.cons_append, ← List.append_assoc, List.append_assoc]
    apply accept_reads
    apply skipLines_reads
    rw [(ends.append starts).dropWhile_append (by simp)]
    exact atArgument_reads more
  | enclosed body =>
    apply accept_reads_other (body.head?_ne_comma rest)
    exact within.arguments owner rest body (by omega) stops added distinct

private theorem arguments_complete (owner : ExpressionId) {enclosed : Bool} {read : Arguments}
    {earlier given : Arguments} {text : List Lexeme} (rest : List Lexeme)
    (body : IsBody enclosed text given) (enough : 2 * text.length < budget + 1)
    (stops : enclosed = false → Stops rest) (gathers : Gathers earlier (argumentsOutline read))
    (distinct : ((earlier ++ given).map Prod.fst).Nodup) :
    Reads (text ++ rest) (arguments last (budget + 1) owner enclosed read)
      fun left arguments =>
        left = rest ∧ Gathers (earlier ++ given) (argumentsOutline arguments) := by
  -- The reader stops where no argument is left; else `argumentThen` takes the first.
  by_cases empty : given = []
  · subst empty
    rw [List.append_nil]
    cases body with
    | line arguments | enclosed _ arguments => exact absurd rfl arguments.ne_nil
    | empty =>
      unfold arguments argumentThen
      apply argumentName?_reads_none (stops rfl).argument
      exact .pure ⟨rfl, gathers⟩
    | closed ends =>
      unfold arguments
      apply skipLines_reads
      rw [List.append_assoc, ends.dropWhile_append (by simp)]
      exact accept_reads (.pure ⟨rfl, gathers⟩)
  · obtain ⟨start, name, inner, tree, after, more, ends, none, rfl, rfl, valued, follows⟩ :=
      body.uncons empty
    simp only [List.length_append, List.length_cons] at enough
    have reads := argumentThen_complete within owner rest valued follows (by omega) stops gathers
      distinct
    unfold arguments
    cases enclosed with
    | false =>
      obtain rfl := none rfl
      exact reads
    | true =>
      apply skipLines_reads
      rw [List.append_assoc, ends.dropWhile_append (by simp)]
      apply accept_reads_other (by simp)
      exact atEnd_reads reads

private theorem value_complete (owner : ExpressionId) {text : List Lexeme} {tree : Argument}
    (rest : List Lexeme) (derived : IsValue text tree) (enough : 2 * text.length < budget + 1) :
    Reads (text ++ rest) (value last (budget + 1) owner) fun left value =>
      left = rest ∧ value.outline = tree := by
  unfold value
  apply Reads.get
  rintro ⟨tokens, ids⟩ same
  cases derived with
  | atom | text | number =>
    obtain ⟨⟨_, position⟩, behind, rfl, rfl, rfl⟩ := List.map_eq_cons_iff.mp same
    exact passing_reads behind (.pure ⟨rfl, rfl⟩)
  | @block inner trees block =>
    obtain ⟨⟨_, position⟩, behind, rfl, rfl, left⟩ := List.map_eq_cons_iff.mp same
    simp only [List.length_cons] at enough
    apply passing_reads behind
    rw [left]
    apply (within.block owner position [] rest block (by omega)).bind
    rintro _ children ⟨rfl, outlines⟩
    refine .pure ⟨rfl, ?_⟩
    rw [Argument.outline_block, outlines]
    rfl
  | @list inner trees list =>
    obtain ⟨⟨_, position⟩, behind, rfl, rfl, left⟩ := List.map_eq_cons_iff.mp same
    simp only [List.length_cons] at enough
    apply passing_reads behind
    rw [left]
    apply (within.items owner [] rest list (by omega)).bind
    rintro _ items ⟨rfl, outlines⟩
    refine .pure ⟨rfl, ?_⟩
    rw [Argument.outline_list, outlines]
    rfl

private theorem block_complete (owner : ExpressionId) (opened : Position) (read : List Expression)
    {text : List Lexeme} {trees : List Expression} (rest : List Lexeme)
    (derived : IsBlock text trees) (enough : 2 * text.length < budget + 1) :
    Reads (text ++ rest) (block last (budget + 1) owner opened read) fun left children =>
      left = rest ∧
        children.map Expression.outline = (read.map Expression.outline).reverse ++ trees := by
  unfold block
  apply skipLines_reads
  cases derived with
  | closed ends =>
    rw [List.append_assoc, ends.dropWhile_append (by simp)]
    exact accept_reads (.pure ⟨rfl, by simp⟩)
  | @more gap first others child children ends derived block =>
    have progress := derived.length_pos
    have ending := block.length_pos
    have head := derived.head? (others ++ rest)
    simp only [List.length_append] at enough
    simp only [List.append_assoc]
    rw [ends.dropWhile_append (derived.head?_ne_endOfLine _)]
    apply accept_reads_other (by rcases head with head | ⟨kind, head⟩ <;> simp [head])
    apply atEnd_reads
    rw [derived.isEmpty]
    -- the rest of the block cannot be taken for more of the expression
    apply (within.expression (some owner) (others ++ rest) derived (by omega) (block.stops rest)).bind
    rintro _ e ⟨rfl, rfl⟩
    apply (within.block owner opened (e :: read) rest block (by omega)).imp
    rintro _ es ⟨rfl, outlines⟩
    exact ⟨rfl, by simpa using outlines⟩

private theorem items_complete (owner : ExpressionId) (read : List Argument) {text : List Lexeme}
    {trees : List Argument} (rest : List Lexeme) (derived : IsItems text trees)
    (enough : 2 * text.length < budget + 1) :
    Reads (text ++ rest) (items last (budget + 1) owner read) fun left items =>
      left = rest ∧ items.map Argument.outline = (read.map Argument.outline).reverse ++ trees := by
  unfold items
  apply skipLines_reads
  cases derived with
  | last ends valued stops =>
    simp only [List.length_append, List.length_cons] at enough
    simp only [List.append_assoc]
    rw [ends.dropWhile_append (valued.head?_ne_endOfLine _)]
    apply (within.value owner _ valued (by omega)).bind
    rintro _ item ⟨rfl, rfl⟩
    apply skipLines_reads
    rw [stops.dropWhile_append (by simp)]
    apply accept_reads_other (by simp)
    exact accept_reads (.pure ⟨rfl, by simp⟩)
  | @more start first stop others item more ends valued stops list =>
    simp only [List.length_append, List.length_cons] at enough
    simp only [List.append_assoc]
    rw [ends.dropWhile_append (valued.head?_ne_endOfLine _)]
    apply (within.value owner _ valued (by omega)).bind
    rintro _ item ⟨rfl, rfl⟩
    apply skipLines_reads
    rw [stops.dropWhile_append (by simp)]
    apply accept_reads
    apply (within.items owner (item :: read) rest list (by omega)).imp
    rintro _ items ⟨rfl, outlines⟩
    exact ⟨rfl, by simpa using outlines⟩

end

private theorem completeWithin (last : Position) (budget : Nat) : CompleteWithin last budget := by
  induction budget with
  | zero => constructor <;> intros <;> omega
  | succ budget within =>
    exact ⟨expression_complete within, arguments_complete within, value_complete within,
      block_complete within, items_complete within⟩

private theorem program_complete (budget : Nat) (read : List Expression) {lexemes : List Lexeme}
    {trees : List Expression} (source : IsSource lexemes trees)
    (enough : 2 * lexemes.length + 1 < budget) :
    Reads lexemes (program last budget read) fun _ es =>
      es.map Expression.outline = (read.map Expression.outline).reverse ++ trees := by
  induction budget generalizing read lexemes trees with
  | zero => omega
  | succ budget ih =>
    unfold program
    apply skipLines_reads
    rcases source.uncons with
      ⟨ends, rfl⟩ | ⟨start, text, rest, tree, others, ends, rfl, rfl, derived, left⟩
    · rw [ends.dropWhile_eq_nil]
      exact atEnd_reads (.pure (by simp))
    · have progress := derived.length_pos
      simp only [List.length_append] at enough
      rw [ends.dropWhile_append (derived.head?_ne_endOfLine rest)]
      -- a line ends behind the expression, or the text does
      have stops : Stops rest := by
        apply stops_of_line
        rintro lexeme first
        rcases left with ⟨rfl, -⟩ | ⟨line, -⟩
        · simp at first
        · simpa using first.symm.trans line
      apply atEnd_reads
      rw [derived.isEmpty]
      apply ((completeWithin last budget).expression none rest derived (by omega) stops).bind
      rintro _ e ⟨rfl, rfl⟩
      apply Reads.get
      rintro ⟨tokens, ids⟩ same
      rcases left with ⟨rfl, rfl⟩ | ⟨line, source⟩
      · obtain rfl : tokens = [] := List.map_eq_nil_iff.mp same
        exact .pure (by simp)
      · obtain ⟨more, rfl⟩ := List.head?_eq_some_iff.mp line
        obtain ⟨⟨_, position⟩, behind, rfl, rfl, -⟩ := List.map_eq_cons_iff.mp same
        apply (ih (e :: read) source (by omega)).imp
        intro _ es outlines
        simpa using outlines

end Reading

/-! ### Sources -/

open Grammar Reading

/-- Whatever the lexemes of a source derive is read. -/
theorem parseSource_complete {source : String} {tokens : List Token}
    (split : tokenize source = .ok tokens) (ids : Supply) {trees : List Expression}
    (derived : IsSource (tokens.map Token.lexeme) trees) :
    ∃ es ids', parseSource source ids = .ok es ids' ∧ es.map Expression.outline = trees := by
  have short : 2 * (tokens.map Token.lexeme).length + 1 < 2 * tokens.length + 2 := by
    rw [List.length_map]
    omega
  obtain ⟨es, cursor, run, outlines⟩ := program_complete _ [] derived short ⟨tokens, ids⟩ rfl
  refine ⟨es, cursor.ids, ?_, outlines⟩
  simp only [parseSource, split]
  rw [run]

/-- No lexemes derive two outlines: both would be what reading gives. -/
theorem Grammar.IsSource.unique {lexemes : List Lexeme} {trees others : List Expression}
    (derived : IsSource lexemes trees) (also : IsSource lexemes others) : trees = others := by
  let cursor : Cursor := ⟨lexemes.map fun lexeme => ⟨lexeme, Position.start⟩, {}⟩
  have same : cursor.lexemes = lexemes := by
    simp [cursor, Cursor.lexemes, Function.comp_def]
  have enough : 2 * lexemes.length + 1 < 2 * lexemes.length + 2 := by
    omega
  have reads : ∀ {trees}, IsSource lexemes trees →
      Reads lexemes (program Position.start (2 * lexemes.length + 2) []) fun _ es =>
        es.map Expression.outline = trees :=
    fun derived => program_complete _ [] derived enough
  obtain ⟨es, left, run, rfl⟩ := reads derived cursor same
  obtain ⟨_, _, again, rfl⟩ := reads also cursor same
  cases run.symm.trans again
  rfl

/-- **The grammar decides.** A source that splits into tokens is read exactly if its lexemes have a
derivation, and what is read is then derived, up to identifiers. No lexemes derive two outlines, and
a source whose lexemes derive none gives an error of the grammar. -/
theorem parseSource_follows_grammar {source : String} {tokens : List Token}
    (split : tokenize source = .ok tokens) (ids : Supply) :
    (∀ trees, (∃ es ids', parseSource source ids = .ok es ids' ∧
        es.map Expression.outline = trees) ↔ IsSource (tokens.map Token.lexeme) trees) ∧
    (∀ lexemes trees others, IsSource lexemes trees → IsSource lexemes others → trees = others) ∧
    ((∀ trees, ¬IsSource (tokens.map Token.lexeme) trees) →
      ∃ position fault ids', parseSource source ids = .error (.grammar position fault) ids') := by
  have sound := parseSource_sound split ids
  refine ⟨?_, ?_, ?_⟩
  · intro trees
    constructor
    · rintro ⟨es, ids', run, rfl⟩
      rwa [run] at sound
    · exact parseSource_complete split ids
  · exact fun lexemes trees others derived also => derived.unique also
  · intro none
    cases run : parseSource source ids with
    | ok es ids' =>
      rw [run] at sound
      exact absurd sound (none _)
    | error error ids' =>
      rw [run] at sound
      obtain ⟨position, fault, rfl⟩ := sound
      exact ⟨position, fault, ids', rfl⟩

/-- An expression between parentheses with a list, a block and a comma less than it could have, and
one on a line of its own. -/
def looseSource : String :=
  "(div\n b: [1,\n \"t\"\n], a: x\n c: \x7b p q: 2 r \x7d\n)\n\nspan\n"

def looseOutline : List Expression :=
  [⟨0, none, "div", [("a", .atom "x"), ("b", .list [.number "1", .text "t"]),
    ("c", .block [⟨0, some 0, "p", [("q", .number "2")]⟩, ⟨0, some 0, "r", []⟩])]⟩,
  ⟨0, none, "span", []⟩]

/-- What a source is read as, without identifiers; nothing if it cannot be read. -/
def readOutlines (source : String) : List Expression :=
  match parseSource source {} with
  | .ok es _ => es.map Expression.outline
  | .error _ _ => []

theorem parseSource_follows_grammar_loose :
    ∃ tokens, tokenize looseSource = .ok tokens ∧
      IsSource (tokens.map Token.lexeme) looseOutline := by
  have splits : (tokenize looseSource).toOption.isSome = true := by decide +kernel
  have reads : readOutlines looseSource = looseOutline := by decide +kernel
  unfold readOutlines at reads
  cases split : tokenize looseSource with
  | error error =>
    rw [split] at splits
    cases splits
  | ok tokens =>
    refine ⟨tokens, rfl, ((parseSource_follows_grammar split {}).1 _).mp ?_⟩
    cases run : parseSource looseSource {} with
    | error error ids =>
      rw [run] at reads
      cases reads
    | ok es ids =>
      rw [run] at reads
      exact ⟨es, ids, rfl, reads⟩

end Pagewright
