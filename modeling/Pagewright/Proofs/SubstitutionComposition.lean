import Pagewright.Instance.Substitution
import Pagewright.Proofs.Entries
import Pagewright.Proofs.Outcome

/-!
# Substituting twice

Two substitutions, one after the other, do what one substitution does that binds
each formal of the first to its actual under the second. Nothing is captured: a
formal of the second that stands in an actual of the first is replaced as well,
and only once.

What an expression says apart from identifiers and parents is its wording
(`substitute_yields`). Substitution of wordings changes no state, so the law is
proved for them.
-/

namespace Pagewright

open Outcome

/-! ### Wordings -/

mutual

/-- What an expression says: its kind and its arguments, without identifier and link. -/
structure Wording where
  kind : String
  arguments : List (String × Phrase)

inductive Phrase where
  | atom (name : String)
  | text (value : String)
  | number (digits : String)
  | block (children : List Wording)
  | list (items : List Phrase)

end

mutual

/-- What an expression says. -/
def Expression.wording : Expression → Wording
  | ⟨_, _, kind, arguments⟩ => ⟨kind, wordArguments arguments⟩

def wordArguments : List (String × Argument) → List (String × Phrase)
  | [] => []
  | (name, value) :: rest => (name, value.wording) :: wordArguments rest

def Argument.wording : Argument → Phrase
  | .atom name => .atom name
  | .text value => .text value
  | .number digits => .number digits
  | .block children => .block (wordBlock children)
  | .list items => .list (wordItems items)

def wordBlock : List Expression → List Wording
  | [] => []
  | child :: rest => child.wording :: wordBlock rest

def wordItems : List Argument → List Phrase
  | [] => []
  | item :: rest => item.wording :: wordItems rest

end

private theorem Expression.wording_kind (e : Expression) : e.wording.kind = e.kind := by
  cases e; rfl

private theorem Expression.wording_arguments (e : Expression) :
    e.wording.arguments = wordArguments e.arguments := by
  cases e; rfl

private theorem Expression.wording_withKind (e : Expression) (kind : String) :
    Expression.wording { e with kind } = { e.wording with kind } := by
  cases e; rfl

private theorem wordArguments_isEmpty (arguments : Arguments) :
    (wordArguments arguments).isEmpty = arguments.isEmpty := by
  cases arguments <;> rfl

private theorem wordBlock_append (children more : List Expression) :
    wordBlock (children ++ more) = wordBlock children ++ wordBlock more := by
  induction children with
  | nil => rfl
  | cons child rest ih => rw [List.cons_append, wordBlock, ih, wordBlock, List.cons_append]

mutual

/-- A copy says what the original says. -/
theorem Expression.wording_copy : ∀ (e : Expression) (parent : Option ExpressionId) (s : Supply),
    (e.copy parent s).1.wording = e.wording
  | ⟨_, _, kind, arguments⟩, parent, s => by
    simp only [Expression.copy, Expression.wording]
    rw [wordArguments_copy arguments]

private theorem wordArguments_copy : ∀ (arguments : Arguments) (owner : ExpressionId)
    (s : Supply), wordArguments (copyArguments arguments owner s).1 = wordArguments arguments
  | [], _, _ => rfl
  | (name, value) :: rest, owner, s => by
    simp only [copyArguments, wordArguments]
    rw [Argument.wording_copy value, wordArguments_copy rest]

theorem Argument.wording_copy : ∀ (value : Argument) (owner : ExpressionId) (s : Supply),
    (value.copy owner s).1.wording = value.wording
  | .atom _, _, _ | .text _, _, _ | .number _, _, _ => rfl
  | .block children, owner, s => by
    simp only [Argument.copy, Argument.wording]
    rw [wordBlock_copy children]
  | .list items, owner, s => by
    simp only [Argument.copy, Argument.wording]
    rw [wordItems_copy items]

theorem wordBlock_copy : ∀ (children : List Expression) (owner : ExpressionId) (s : Supply),
    wordBlock (copyBlock children owner s).1 = wordBlock children
  | [], _, _ => rfl
  | child :: rest, owner, s => by
    simp only [copyBlock, wordBlock]
    rw [Expression.wording_copy child, wordBlock_copy rest]

private theorem wordItems_copy : ∀ (items : List Argument) (owner : ExpressionId) (s : Supply),
    wordItems (copyItems items owner s).1 = wordItems items
  | [], _, _ => rfl
  | item :: rest, owner, s => by
    simp only [copyItems, wordItems]
    rw [Argument.wording_copy item, wordItems_copy rest]

end

/-! ### Substitution of wordings -/

/-- What each formal stands for. -/
abbrev Meaning := String → Option Phrase

/-- What stands in a block for one of its expressions, given what this expression becomes if it
stays: itself, itself under another kind, or the expressions of a block. -/
def Wording.place (meaning : Meaning) (child : Wording) (becomes : Option Wording) :
    Option (List Wording) :=
  match meaning child.kind with
  | none => becomes.map ([·])
  | some (.atom kind) => becomes.map fun result => [{ result with kind }]
  | some (.block replacement) => if child.arguments.isEmpty then some replacement else none
  | some _ => none

mutual

/-- Puts what formals stand for in their place. -/
def Wording.reword (meaning : Meaning) : Wording → Option Wording
  | ⟨kind, arguments⟩ => (rewordArguments meaning arguments).map (⟨kind, ·⟩)

def rewordArguments (meaning : Meaning) : List (String × Phrase) → Option (List (String × Phrase))
  | [] => some []
  | (name, value) :: rest =>
    (value.reword meaning).bind fun result =>
      (rewordArguments meaning rest).map ((name, result) :: ·)

def Phrase.reword (meaning : Meaning) : Phrase → Option Phrase
  | .atom name => some ((meaning name).getD (.atom name))
  | .list items => (rewordItems meaning items).map .list
  | .block children => (rewordBlock meaning children).map .block
  | .text value => some (.text value)
  | .number digits => some (.number digits)

def rewordItems (meaning : Meaning) : List Phrase → Option (List Phrase)
  | [] => some []
  | item :: rest =>
    (item.reword meaning).bind fun result => (rewordItems meaning rest).map (result :: ·)

def rewordBlock (meaning : Meaning) : List Wording → Option (List Wording)
  | [] => some []
  | child :: rest =>
    (child.place meaning (child.reword meaning)).bind fun pieces =>
      (rewordBlock meaning rest).map (pieces ++ ·)

end

def Bindings.meaning (bindings : Bindings) : Meaning :=
  fun formal => (bindings.lookup formal).map Argument.wording

/-! ### What a substitution yields -/

/-- Whatever the state is, the step gives what looks like this, or fails if this is nothing. -/
def Yields {ε σ α β : Type} (step : EStateM ε σ α) (view : α → β) (expected : Option β) : Prop :=
  ∀ s, match step s with
    | .ok a _ => expected = some (view a)
    | .error _ _ => expected = none

private theorem Yields.bind {ε σ α β γ δ : Type} {step : EStateM ε σ α} {next : α → EStateM ε σ γ}
    {view : α → β} {later : γ → δ} {expected : Option β} {then' : β → Option δ}
    (first : Yields step view expected) (second : ∀ a, Yields (next a) later (then' (view a))) :
    Yields (step >>= next) later (expected.bind then') := by
  intro s
  show match EStateM.bind step next s with | .ok _ _ => _ | .error _ _ => _
  have now := first s
  unfold EStateM.bind
  cases ran : step s with
  | ok a t =>
    rw [ran] at now
    have rest := second a t
    simpa only [now, Option.bind_some] using rest
  | error e t =>
    rw [ran] at now
    simp only [now, Option.bind_none]

private theorem Yields.map {ε σ α β γ δ : Type} {step : EStateM ε σ α} {view : α → β}
    {expected : Option β} {f : α → γ} {later : γ → δ} {g : β → δ}
    (first : Yields step view expected) (same : ∀ a, later (f a) = g (view a)) :
    Yields (step >>= fun a => pure (f a)) later (expected.map g) := by
  rw [Option.map_eq_bind]
  exact first.bind fun a s => congrArg some (same a).symm

private theorem Yields.modifyGet {ε σ α β : Type} {f : σ → α × σ} {view : α → β} {expected : β}
    (same : ∀ s, view (f s).1 = expected) :
    Yields (modifyGet f : EStateM ε σ α) view (some expected) :=
  fun s => congrArg some (same s).symm

variable {bindings : Bindings} {w : Wording}

mutual

private theorem substitute_yields : ∀ e : Expression,
    Yields (substitute bindings e) Expression.wording (e.wording.reword bindings.meaning)
  | ⟨id, _, _, arguments⟩ =>
    (substituteArguments_yields id arguments).map fun _ => rfl

private theorem substituteArguments_yields (owner : ExpressionId) : ∀ arguments : Arguments,
    Yields (substituteArguments bindings owner arguments) wordArguments
      (rewordArguments bindings.meaning (wordArguments arguments))
  | [] => fun _ => rfl
  | (_, value) :: rest =>
    (substituteArgument_yields owner value).bind fun _ =>
      (substituteArguments_yields owner rest).map fun _ => rfl

private theorem substituteArgument_yields (owner : ExpressionId) : ∀ value : Argument,
    Yields (substituteArgument bindings owner value) Argument.wording
      (value.wording.reword bindings.meaning)
  | .atom name => by
    simp only [substituteArgument, Argument.wording, Phrase.reword, Bindings.meaning]
    cases bindings.lookup name with
    | none => exact fun _ => rfl
    | some actual => exact .modifyGet fun s => actual.wording_copy owner s
  | .list items => (substituteItems_yields owner items).map fun _ => rfl
  | .block children => (substituteBlock_yields owner children).map fun _ => rfl
  | .text _ | .number _ => fun _ => rfl

private theorem substituteItems_yields (owner : ExpressionId) : ∀ items : List Argument,
    Yields (substituteItems bindings owner items) wordItems
      (rewordItems bindings.meaning (wordItems items))
  | [] => fun _ => rfl
  | item :: rest =>
    (substituteArgument_yields owner item).bind fun _ =>
      (substituteItems_yields owner rest).map fun _ => rfl

private theorem substituteBlock_yields (owner : ExpressionId) : ∀ children : List Expression,
    Yields (substituteBlock bindings owner children) wordBlock
      (rewordBlock bindings.meaning (wordBlock children))
  | [] => fun _ => rfl
  | child :: rest => by
    have kept := substitute_yields child
    have later := substituteBlock_yields owner rest
    simp only [substituteBlock, wordBlock, rewordBlock, Wording.place, Bindings.meaning,
      child.wording_kind, child.wording_arguments, wordArguments_isEmpty]
    cases bindings.lookup child.kind with
    | none =>
      simp only [Option.map_none, Option.bind_map]
      exact kept.bind fun _ => later.map fun _ => rfl
    | some actual =>
      cases actual with
      | atom kind =>
        simp only [Option.map_some, Argument.wording, Option.bind_map]
        exact kept.bind fun result => later.map fun _ => by
          rw [wordBlock, Expression.wording_withKind]; rfl
      | block replacement =>
        simp only [Option.map_some, Argument.wording]
        by_cases bare : child.arguments.isEmpty = true
        · simp only [bare, Bool.not_true, Bool.false_eq_true, if_false, if_true]
          refine Yields.bind (.modifyGet fun s => wordBlock_copy _ owner s) ?_
          exact fun spliced => later.map fun _ => wordBlock_append _ _
        · simp only [bare]
          exact fun _ => rfl
      | text | number | list => exact fun _ => rfl

end

/-! ### Composing meanings -/

/-- A formal of the first stands for what it stood for, with the second put in. Every other name stands
for what it stands for in the second. -/
structure Meaning.Composes (first second composed : Meaning) : Prop where
  bound : ∀ formal actual, first formal = some actual →
    ∃ result, actual.reword second = some result ∧ composed formal = some result
  other : ∀ formal, first formal = none → composed formal = second formal

private theorem rewordBlock_append (meaning : Meaning) (children more : List Wording) :
    rewordBlock meaning (children ++ more) =
      (rewordBlock meaning children).bind fun front =>
        (rewordBlock meaning more).map (front ++ ·) := by
  induction children with
  | nil => simp [rewordBlock]
  | cons child rest ih =>
    rw [List.cons_append, rewordBlock, rewordBlock, ih]
    cases child.place meaning (child.reword meaning) with
    | none => rfl
    | some pieces =>
      cases rewordBlock meaning rest with
      | none => rfl
      | some front => simp [Function.comp_def]

private theorem rewordBlock_singleton (meaning : Meaning) (child : Wording) :
    rewordBlock meaning [child] = child.place meaning (child.reword meaning) := by
  simp only [rewordBlock, Option.map_some, List.append_nil, Option.bind_fun_some]

/-- An expression keeps its kind and has arguments if it had some. -/
theorem Wording.reword_shape {meaning : Meaning} {result : Wording}
    (becomes : w.reword meaning = some result) :
    result.kind = w.kind ∧ result.arguments.isEmpty = w.arguments.isEmpty := by
  obtain ⟨kind, arguments⟩ := w
  obtain ⟨words, reworded, rfl⟩ := Option.map_eq_some_iff.mp becomes
  refine ⟨rfl, ?_⟩
  cases arguments with
  | nil =>
    cases reworded
    rfl
  | cons entry rest =>
    obtain ⟨value, -, more⟩ := Option.bind_eq_some_iff.mp reworded
    obtain ⟨others, -, rfl⟩ := Option.map_eq_some_iff.mp more
    rfl

private theorem Wording.reword_of_bare (bare : w.arguments.isEmpty = true) (meaning : Meaning) :
    w.reword meaning = some w := by
  obtain ⟨kind, arguments⟩ := w
  obtain rfl := List.isEmpty_iff.mp bare
  rfl

private theorem Wording.reword_withKind (meaning : Meaning) (w : Wording) (kind : String) :
    Wording.reword meaning { w with kind } =
      (w.reword meaning).map fun result => { result with kind } := by
  cases w
  simp only [Wording.reword, Option.map_map, Function.comp_def]

variable {first second composed : Meaning}

/-- An expression that the first leaves in its block may still be replaced by the second. -/
theorem Wording.place_kept
    (becomes : w.reword composed = (w.reword first).bind (Wording.reword second)) :
    w.place second (w.reword composed) =
      (w.reword first).bind fun middle => middle.place second (middle.reword second) := by
  by_cases bare : w.arguments.isEmpty = true
  · simp only [Wording.reword_of_bare bare, Option.bind_some]
  · rw [becomes]
    cases middle : w.reword first with
    | none =>
      simp only [Wording.place, bare, Option.bind_none, Option.map_none]
      split <;> rfl
    | some result =>
      obtain ⟨kind, arguments⟩ := Wording.reword_shape middle
      simp only [Wording.place, Option.bind_some, kind, arguments]

/-- An expression whose kind stands for another name is placed as an expression of that kind. -/
theorem Wording.place_renamed {kind : String}
    (bound : composed w.kind = some ((second kind).getD (.atom kind))) :
    w.place composed (w.reword composed) =
      Wording.place second { w with kind } (Wording.reword composed { w with kind }) := by
  simp only [Wording.place, bound, Wording.reword_withKind]
  cases second kind with
  | none => simp only [Option.getD_none, Option.map_map, Function.comp_def]
  | some actual =>
    cases actual with
    | atom other => simp only [Option.getD_some, Option.map_map, Function.comp_def]
    | text | number | block | list => rfl

/-- In a block, what stands for an expression in one step is what the first puts in its place, with the
second put in. -/
theorem Wording.place_composes (composes : first.Composes second composed)
    (becomes : w.reword composed = (w.reword first).bind (Wording.reword second)) :
    w.place composed (w.reword composed) =
      (w.place first (w.reword first)).bind (rewordBlock second) := by
  cases read : first w.kind with
  | none =>
    have same : w.place composed (w.reword composed) = w.place second (w.reword composed) := by
      simp only [Wording.place, composes.other w.kind read]
    rw [same, Wording.place_kept becomes]
    simp only [Wording.place, read, Option.bind_map, Function.comp_def, rewordBlock_singleton]
  | some actual =>
    obtain ⟨result, applied, bound⟩ := composes.bound w.kind actual read
    cases actual with
    | atom kind =>
      obtain rfl := Option.some.inj applied
      -- Once renamed by `first`, the wording is placed as `second` alone places it.
      have renamed : Wording.reword composed { w with kind } =
          (Wording.reword first { w with kind }).bind (Wording.reword second) := by
        simp only [Wording.reword_withKind, becomes, Option.map_bind, Option.bind_map,
          Function.comp_def]
      rw [Wording.place_renamed bound, Wording.place_kept renamed, Wording.reword_withKind]
      simp only [Wording.place, read, Option.bind_map, Function.comp_def, rewordBlock_singleton]
    | block replacement =>
      obtain ⟨spliced, reworded, rfl⟩ := Option.map_eq_some_iff.mp applied
      simp only [Wording.place, read, bound]
      by_cases bare : w.arguments.isEmpty = true
      · simp only [bare, if_true, Option.bind_some, reworded]
      · simp only [bare]
        rfl
    | text | number =>
      cases applied
      simp only [Wording.place, read, bound, Option.bind_none]
    | list =>
      obtain ⟨items, -, rfl⟩ := Option.map_eq_some_iff.mp applied
      simp only [Wording.place, read, bound, Option.bind_none]

/-- What is put together from two results is put through the next step part by part. -/
theorem bind_map_bind {α β γ δ ζ η : Type} {x : Option α} {y : Option β} {f : α → Option γ}
    {g : β → Option δ} {pair : α → β → ζ} {whole : ζ → Option η} {join : γ → δ → η}
    (parts : ∀ a b, whole (pair a b) = (f a).bind fun c => (g b).map (join c)) :
    (x.bind fun a => y.map (pair a)).bind whole =
      (x.bind f).bind fun c => (y.bind g).map (join c) := by
  cases x with
  | none => rfl
  | some a =>
    cases y with
    | none => simp
    | some b => exact parts a b

mutual

private theorem Wording.reword_composes (composes : first.Composes second composed) : ∀ w : Wording,
    w.reword composed = (w.reword first).bind (Wording.reword second)
  | ⟨kind, arguments⟩ => by
    simp only [Wording.reword, rewordArguments_composes composes arguments, Option.bind_map,
      Option.map_bind, Function.comp_def]

private theorem rewordArguments_composes (composes : first.Composes second composed) :
    ∀ arguments : List (String × Phrase),
      rewordArguments composed arguments =
        (rewordArguments first arguments).bind (rewordArguments second)
  | [] => rfl
  | (name, value) :: rest => by
    rw [rewordArguments, Phrase.reword_composes composes value,
      rewordArguments_composes composes rest, rewordArguments]
    refine (bind_map_bind ?_).symm
    exact fun _ _ => rfl

private theorem Phrase.reword_composes (composes : first.Composes second composed) :
    ∀ phrase : Phrase,
    phrase.reword composed = (phrase.reword first).bind (Phrase.reword second)
  | .atom name => by
    cases read : first name with
    | none => simp [Phrase.reword, read, composes.other name read]
    | some actual =>
      obtain ⟨result, applied, bound⟩ := composes.bound name actual read
      simp only [Phrase.reword, read, bound, Option.getD_some, Option.bind_some, applied]
  | .list items => by
    simp only [Phrase.reword, rewordItems_composes composes items, Option.bind_map, Option.map_bind,
      Function.comp_def]
  | .block children => by
    simp only [Phrase.reword, rewordBlock_composes composes children, Option.bind_map,
      Option.map_bind, Function.comp_def]
  | .text _ | .number _ => rfl

private theorem rewordItems_composes (composes : first.Composes second composed) :
    ∀ items : List Phrase,
      rewordItems composed items = (rewordItems first items).bind (rewordItems second)
  | [] => rfl
  | item :: rest => by
    rw [rewordItems, Phrase.reword_composes composes item, rewordItems_composes composes rest,
      rewordItems]
    refine (bind_map_bind ?_).symm
    exact fun _ _ => rfl

private theorem rewordBlock_composes (composes : first.Composes second composed) :
    ∀ children : List Wording,
      rewordBlock composed children = (rewordBlock first children).bind (rewordBlock second)
  | [] => rfl
  | child :: rest => by
    have now := Wording.place_composes composes (Wording.reword_composes composes child)
    rw [rewordBlock, now, rewordBlock_composes composes rest, rewordBlock]
    refine (bind_map_bind ?_).symm
    exact rewordBlock_append second

end

/-! ### Substituting twice -/

/-- Each formal of the first bindings is bound to its actual under the second, and every other formal
as the second bind it. -/
structure Bindings.Composes (first second composed : Bindings) : Prop where
  bound : ∀ formal actual, first.lookup formal = some actual →
    ∃ owner s value s', substituteArgument second owner actual s = .ok value s' ∧
      composed.lookup formal = some value
  other : ∀ formal, first.lookup formal = none → composed.lookup formal = second.lookup formal

/-- Every actual of the first bindings can be put through the second. -/
def Bindings.Applies (first second : Bindings) : Prop :=
  ∀ formal actual, (formal, actual) ∈ first →
    ∃ owner s value s', substituteArgument second owner actual s = .ok value s'

private theorem Yields.ok {ε σ α β : Type} {step : EStateM ε σ α} {view : α → β}
    {expected : Option β} (yields : Yields step view expected) {s s' : σ} {a : α}
    (run : step s = .ok a s') : expected = some (view a) := by
  have now := yields s
  rwa [run] at now

private theorem Yields.succeeds {ε σ α β : Type} {step : EStateM ε σ α} {view : α → β} {b : β}
    (yields : Yields step view (some b)) (s : σ) : ∃ a s', step s = .ok a s' ∧ view a = b := by
  have now := yields s
  cases ran : step s with
  | ok a s' =>
    rw [ran] at now
    exact ⟨a, s', rfl, (Option.some.inj now).symm⟩
  | error e s' =>
    rw [ran] at now
    cases now

private theorem Bindings.Applies.composes {first second : Bindings}
    (applies : first.Applies second) : ∃ composed, first.Composes second composed := by
  induction first with
  | nil => exact ⟨second, nofun, fun _ _ => rfl⟩
  | cons entry rest ih =>
    obtain ⟨name, actual⟩ := entry
    obtain ⟨owner, s, value, s', run⟩ := applies name actual List.mem_cons_self
    obtain ⟨composed, bound, other⟩ :=
      ih fun formal actual member => applies formal actual (List.mem_cons_of_mem _ member)
    refine ⟨Entries.insert name value composed, ?_, ?_⟩
    · intro formal given found
      by_cases same : formal = name
      · subst same
        obtain rfl : actual = given := by simpa using found
        exact ⟨owner, s, value, s', run, Entries.lookup_insert_self _ _ _⟩
      · rw [Entries.lookup_cons_of_ne same] at found
        rw [Entries.lookup_insert_of_ne _ _ same]
        exact bound formal given found
    · intro formal missing
      by_cases same : formal = name
      · subst same
        simp at missing
      · rw [Entries.lookup_cons_of_ne same] at missing
        rw [Entries.lookup_insert_of_ne _ _ same]
        exact other formal missing

private theorem Bindings.Composes.meaning {first second composed : Bindings}
    (composes : first.Composes second composed) :
    first.meaning.Composes second.meaning composed.meaning := by
  constructor
  · intro formal phrase read
    obtain ⟨actual, found, rfl⟩ := Option.map_eq_some_iff.mp read
    obtain ⟨owner, s, value, s', run, bound⟩ := composes.bound formal actual found
    refine ⟨value.wording, (substituteArgument_yields owner actual).ok run, ?_⟩
    rw [Bindings.meaning, bound, Option.map_some]
  · intro formal unread
    have missing := Option.map_eq_none_iff.mp unread
    rw [Bindings.meaning, Bindings.meaning, composes.other formal missing]

/-- **Substitution composes without capture.** If every actual of the first bindings can be put
through the second, there are bindings that compose the two. A substitution of composed bindings
succeeds exactly if the first substitution succeeds and the second succeeds on its result, and what
it gives then says the same, whatever identifiers the copies get. -/
theorem substitute_twice {first second : Bindings} (applies : first.Applies second) :
    (∃ composed, first.Composes second composed) ∧
      ∀ composed, first.Composes second composed → ∀ (e : Expression) (s t u : Supply),
        ((∃ result s', substitute composed e s = .ok result s') ↔
          ∃ middle t' result u', substitute first e t = .ok middle t' ∧
            substitute second middle u = .ok result u') ∧
        ∀ result s' middle t' final u', substitute composed e s = .ok result s' →
          substitute first e t = .ok middle t' → substitute second middle u = .ok final u' →
            result.wording = final.wording := by
  refine ⟨applies.composes, fun composed composes e s t u => ?_⟩
  have law := Wording.reword_composes composes.meaning e.wording
  have once : Yields (substitute composed e) _ (e.wording.reword composed.meaning) :=
    substitute_yields e
  have before : Yields (substitute first e) _ (e.wording.reword first.meaning) :=
    substitute_yields e
  refine ⟨⟨?_, ?_⟩, ?_⟩
  · rintro ⟨result, s', run⟩
    rw [once.ok run] at law
    obtain ⟨words, reworded, rest⟩ := Option.bind_eq_some_iff.mp law.symm
    rw [reworded] at before
    obtain ⟨middle, t', ran, rfl⟩ := before.succeeds t
    have after : Yields (substitute second middle) _ (middle.wording.reword second.meaning) :=
      substitute_yields middle
    rw [rest] at after
    obtain ⟨final, u', finished, -⟩ := after.succeeds u
    exact ⟨middle, t', final, u', ran, finished⟩
  · rintro ⟨middle, t', final, u', ran, finished⟩
    have after := (substitute_yields middle).ok finished
    rw [before.ok ran, Option.bind_some, after] at law
    rw [law] at once
    obtain ⟨result, s', run, -⟩ := once.succeeds s
    exact ⟨result, s', run⟩
  · intro result s' middle t' final u' run ran finished
    have after := (substitute_yields middle).ok finished
    rw [once.ok run, before.ok ran, Option.bind_some, after] at law
    exact Option.some.inj law

/-- A call inside a definition: what it puts in speaks of the parameters of that definition. -/
def innerBindings : Bindings :=
  [("content", .block [⟨7, some 6, "label", []⟩, ⟨8, some 6, "text", [("value", .atom "word")]⟩]),
    ("shape", .atom "label"), ("title", .atom "word")]

def outerBindings : Bindings :=
  [("label", .block [⟨9, some 3, "img", []⟩]), ("title", .text "not this one"), ("word", .text "now")]

def calledBody : Expression :=
  ⟨1, none, "div", [("body", .block [⟨2, some 1, "content", []⟩, ⟨3, some 1, "shape", []⟩]),
    ("title", .atom "title")]⟩

/-- The body after both calls. Its title is the one that the inner call gives. -/
def placedBody : Expression :=
  ⟨1, none, "div", [("body", .block [⟨2, some 1, "img", []⟩,
    ⟨3, some 1, "text", [("value", .text "now")]⟩, ⟨4, some 1, "img", []⟩]), ("title", .text "now")]⟩

theorem substitute_twice_nested :
    innerBindings.Applies outerBindings ∧
      ∃ composed, innerBindings.Composes outerBindings composed ∧
        ∃ result s', substitute composed calledBody ⟨40⟩ = .ok result s' ∧
          result.wording = placedBody.wording := by
  have applies : innerBindings.Applies outerBindings := by
    intro formal actual given
    simp only [innerBindings, List.mem_cons, Prod.mk.injEq, List.not_mem_nil, or_false] at given
    rcases given with ⟨rfl, rfl⟩ | ⟨rfl, rfl⟩ | ⟨rfl, rfl⟩
    all_goals exact ⟨20, ⟨30⟩, _, _, rfl⟩
  obtain ⟨⟨composed, composes⟩, law⟩ := substitute_twice applies
  obtain ⟨succeeds, same⟩ := law composed composes calledBody ⟨40⟩ ⟨50⟩ ⟨60⟩
  obtain ⟨result, s', run⟩ := succeeds.mpr ⟨_, _, _, _, rfl, rfl⟩
  have words := same result s' _ _ _ _ run rfl rfl
  exact ⟨applies, composed, composes, result, s', run, words⟩

end Pagewright
