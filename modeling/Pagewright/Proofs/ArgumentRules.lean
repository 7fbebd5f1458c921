import Pagewright.Proofs.Forms
import Pagewright.Render.Element

/-!
# The arguments of the kinds

A table says which arguments a kind takes, in which form, and which of them it
needs, and some kinds ask for more than forms. What a walk checks about the id and
the arguments of a concrete expression is what the table says, whatever rules the
walk goes by. These matter for the item type of a list only.
-/

namespace Pagewright

open Outcome

variable {name : String}

/-! ### The table of arguments -/

structure ArgumentRule where
  name : String
  form : Form
  required : Bool

/-- The argument has its form if it is there, and it is there if it is required. -/
def ArgumentRule.Met (rule : ArgumentRule) (e : Expression) : Prop :=
  e.Fits rule.form rule.name ∧ (rule.required = true → e.has rule.name = true)

/-- The arguments that are particular to a kind; those of an input go by its type. -/
def Kind.rules (inputType : Option String) : Kind → List ArgumentRule
  | .page =>
    [⟨"title", .text, false⟩, ⟨"icon", .text, false⟩, ⟨"style_sheets", .texts, false⟩,
      ⟨"scripts", .texts, false⟩, ⟨"body", .block, true⟩]
  | .div | .form | .h1 | .p | .span | .button => [⟨"body", .block, false⟩]
  | .list =>
    [⟨"type", .text, true⟩, ⟨"initial", .number, false⟩, ⟨"min", .number, false⟩,
      ⟨"max", .number, false⟩]
  | .select => [⟨"options", .block, true⟩]
  | .option => [⟨"text", .text, true⟩, ⟨"value", .text, false⟩]
  | .label => [⟨"for", .text, false⟩, ⟨"body", .block, false⟩]
  | .input =>
    ⟨"type", .text, true⟩ ::
      if inputType = some "number" then
        [⟨"min", .number, false⟩, ⟨"max", .number, false⟩, ⟨"initial", .number, false⟩]
      else if inputType = some "date" then
        [⟨"min", .text, false⟩, ⟨"max", .text, false⟩, ⟨"initial", .text, false⟩]
      else if inputType = some "checkbox" then
        [⟨"initial", .number, false⟩]
      else
        [⟨"min", .number, false⟩, ⟨"max", .number, false⟩, ⟨"initial", .text, false⟩]
  | .text => [⟨"value", .text, true⟩]

/-- The id is there or not as the kind wants it, and after its sigil it is an identifier. -/
structure Expression.IdFits (kind : Kind) (e : Expression) : Prop where
  forbidden : kind = .page ∨ kind = .text → e.has "id" = false
  required : kind = .list ∨ kind = .input → e.has "id" = true
  valid : ∀ value, e.get? "id" = some value →
    ∃ raw, value = .text raw ∧ isIdentifier (ScopedId.split raw).name = true

/-- Following kinds from a definition leads to a built-in kind. -/
inductive Table.LeadsTo (table : Table) : String → Kind → Prop
  | builtIn {name : String} {definition : Definition} {kind : Kind} :
      table.find? name = some definition →
      Kind.ofName? definition.expression.kind = some kind → LeadsTo table name kind
  | further {name : String} {definition : Definition} {kind : Kind} :
      table.find? name = some definition → Kind.ofName? definition.expression.kind = none →
      LeadsTo table definition.expression.kind kind → LeadsTo table name kind

/-- A definition that a list can have rows of: it takes no parameters and turns out to be no page. -/
def Table.AllowsItem (table : Table) (type : String) : Prop :=
  ∃ definition kind, table.find? type = some definition ∧
    definition.expression.isGeneric = false ∧ table.LeadsTo type kind ∧ kind ≠ .page

/-- What some kinds ask for beyond the forms of their arguments. -/
def Expression.MeetsBounds (table : Table) (limit : Nat) (e : Expression) : Kind → Prop
  | .list =>
    (∀ id, e.scopedId? = some id → id.isTracked = true) ∧
      (∀ type, e.text? "type" = some type → table.AllowsItem type) ∧
      InOrder (e.number? "min") (e.number? "initial") (e.number? "max") ∧
      ∀ count, e.number? "initial" = some count → count ≤ limit
  | .input =>
    ∀ type, e.text? "type" = some type → type ∈ Kind.inputTypes ∧
      (type = "number" → InOrder (e.number? "min") (e.number? "initial") (e.number? "max")) ∧
      (type = "checkbox" → ∀ initial, e.number? "initial" = some initial → initial ≤ 1)
  | .label =>
    ∀ raw, e.text? "for" = some raw → isIdentifier (ScopedId.split raw).name = true
  | _ => True

/-! ### The checks are the rules -/

variable {σ : Type} {rules : Rules σ} {e : Expression} {kind : Kind} {context : Context}
  {ids ids' : IdScope} {s s' : σ}

theorem Kind.mem_argumentNames {inputType : Option String} :
    name ∈ kind.argumentNames inputType ↔ ∃ rule ∈ kind.rules inputType, rule.name = name := by
  cases kind with
  | input =>
    simp only [Kind.argumentNames, Kind.rules]
    split_ifs <;> simp_all <;> tauto
  | page | div | form | list | select | option | label | text | h1 | p | span | button =>
    simp only [Kind.argumentNames, Kind.rules]
    simp [eq_comm]

/-- The kinds take a block only as the argument that is walked. -/
theorem Kind.content?_of_rule (kind : Kind) (inputType : Option String) :
    ∀ rule ∈ kind.rules inputType, rule.form = .block → kind.content? = some rule.name := by
  cases kind with
  | input =>
    simp only [Kind.rules]
    split_ifs <;> simp
  | page | div | form | list | select | option | label | text | h1 | p | span | button =>
    simp [Kind.rules, Kind.content?]

private theorem Expression.idFits_of_none (missing : e.get? "id" = none) :
    e.IdFits kind ↔ ¬(kind = .list ∨ kind = .input) := by
  constructor
  · intro fits needed
    simpa [Expression.has, missing] using fits.required needed
  · intro free
    exact ⟨fun _ => by simp [Expression.has, missing], fun needed => (free needed).elim,
      fun value given => by simp [missing] at given⟩

private theorem Expression.idFits_of_some {value : Argument} (found : e.get? "id" = some value) :
    e.IdFits kind ↔ ¬(kind = .page ∨ kind = .text) ∧
      ∃ raw, value = .text raw ∧ isIdentifier (ScopedId.split raw).name = true := by
  have given : e.has "id" = true := by simp [Expression.has, found]
  constructor
  · intro fits
    refine ⟨fun silent => ?_, fits.valid value found⟩
    simpa [given] using fits.forbidden silent
  · rintro ⟨allowed, valid⟩
    refine ⟨fun silent => (allowed silent).elim, fun _ => given, fun other same => ?_⟩
    rw [found] at same
    cases same
    exact valid

/-- An id passes its check if it fits the kind and can be declared. -/
theorem checkId_ok {result : IdScope × String} :
    checkId (e.subject kind) kind context ids = .ok result ↔
      e.IdFits kind ∧ declareId e context.stem ids = .ok result := by
  unfold checkId declareId
  simp only [Expression.subject, Expression.text?]
  cases found : e.get? "id" with
  | none =>
    rw [Expression.idFits_of_none found]
    by_cases needed : kind = .list ∨ kind = .input
    · simp [needed, Subject.fail]
    · have free : (kind = .list || kind = .input) = false := by simpa using needed
      simp [free, needed]
  | some value =>
    rw [Expression.idFits_of_some found]
    by_cases silent : kind = .page ∨ kind = .text
    · have refused : (kind = .page || kind = .text) = true := by simpa using silent
      simp [refused, silent, Subject.fail]
    have allowed : (kind = .page || kind = .text) = false := by simpa using silent
    simp only [allowed, silent, Bool.false_eq_true, if_false, not_false_eq_true, true_and]
    cases value with
    | text raw =>
      simp only [Argument.text.injEq, exists_eq_left', Option.bind_some, Argument.text?,
        ScopedId.parse?]
      by_cases valid : isIdentifier (ScopedId.split raw).name = true
      · -- an empty text is no identifier, so this one goes on to be split
        have nonempty : raw.isEmpty = false := by
          by_contra empty
          obtain rfl : raw = "" := by simpa using empty
          exact absurd valid (by decide)
        simp [nonempty, valid]
      · simp only [valid, Bool.false_eq_true, if_false, Subject.fail, false_and, iff_false]
        split_ifs <;> simp
    | atom | number | block | list => simp [Subject.isPlaceholder, Subject.fail]

/-- The tracked id that a label is for, if it stands at `stem`. -/
def Expression.target? (e : Expression) (stem : String) : Option LabelTarget :=
  if e.kind = "label" then
    (e.text? "for").bind fun raw =>
      if (ScopedId.split raw).isTracked then some ⟨(ScopedId.split raw).fullId stem, raw⟩ else none
  else none

theorem Expression.target?_of_ne {stem : String} (other : e.kind ≠ "label") :
    e.target? stem = none := by
  simp [Expression.target?, other]

theorem Subject.text_bind_ok {α : Type} {required : Bool} {next : Option String → Except Error α}
    {result : α} :
    ((e.subject kind).text name required >>= next) = .ok result ↔
      e.Fits .text name ∧ (required = true → e.has name = true) ∧
        next (e.text? name) = .ok result := by
  rw [except_bind_ok]
  simp only [Subject.text_ok]
  constructor
  · rintro ⟨_, ⟨fits, given, rfl⟩, rest⟩
    exact ⟨fits, given, rest⟩
  · rintro ⟨fits, given, rest⟩
    exact ⟨_, ⟨fits, given, rfl⟩, rest⟩

theorem checkTarget_ok (table : Table) (limit : Nat) (isLabel : e.kind = "label") :
    checkTarget (e.subject kind) context ids = .ok ids' ↔
      e.Fits .text "for" ∧ e.MeetsBounds table limit .label ∧
        ids' = { ids with targets := (e.target? context.stem).toList ++ ids.targets } := by
  simp only [checkTarget, Subject.text_bind_ok, Bool.false_eq_true, false_imp_iff, true_and,
    Expression.MeetsBounds, Expression.target?, isLabel, if_true]
  apply and_congr_right'
  cases given : e.text? "for" with
  | none =>
    simp only [except_pure_ok, reduceCtorEq, false_imp_iff, implies_true, true_and]
    exact eq_comm
  | some raw =>
    simp only [Option.some.injEq, forall_eq', Option.bind_some, ScopedId.parse?]
    cases isIdentifier (ScopedId.split raw).name with
    | false => simp [Subject.fail]
    | true =>
      simp only [if_true, Expression.subject, Bool.and_true, true_and]
      split_ifs
      · exact except_pure_ok.trans eq_comm
      · exact except_pure_ok.trans eq_comm

theorem Subject.number_bind_ok {α : Type} {next : Option Nat → Except Error α} {result : α} :
    ((e.subject kind).number name >>= next) = .ok result ↔
      e.Fits .number name ∧ next (e.number? name) = .ok result := by
  rw [except_bind_ok]
  simp only [Subject.number_ok]
  constructor
  · rintro ⟨_, ⟨fits, rfl⟩, rest⟩
    exact ⟨fits, rest⟩
  · rintro ⟨fits, rest⟩
    exact ⟨_, ⟨fits, rfl⟩, rest⟩

theorem Expression.exists_text (fits : e.Fits .text name) (given : e.has name = true) :
    ∃ text, e.text? name = some text := by
  obtain ⟨value, found⟩ := Option.isSome_iff_exists.mp given
  obtain ⟨text, rfl⟩ := fits value found
  exact ⟨text, Expression.text?_eq_some.mpr found⟩

theorem Expression.fits_of_text {text : String} (given : e.text? name = some text) :
    e.Fits .text name ∧ e.has name = true := by
  have found := Expression.text?_eq_some.mp given
  exact ⟨(Expression.fits_iff_of_some found).mpr ⟨text, rfl⟩, by simp [Expression.has, found]⟩

theorem checkInput_ok (table : Table) (limit : Nat) :
    checkInput (e.subject kind) = .ok () ↔
      (∀ rule ∈ Kind.rules (e.text? "type") .input, rule.Met e) ∧
        e.MeetsBounds table limit .input := by
  simp only [checkInput, Subject.text_bind_ok, Kind.rules, List.forall_mem_cons, forall_const,
    Expression.MeetsBounds, ArgumentRule.Met, and_assoc]
  refine and_congr_right fun fits => and_congr_right fun given => ?_
  obtain ⟨type, text⟩ := Expression.exists_text fits given
  simp only [text, Option.some.injEq, forall_eq']
  by_cases known : type ∈ Kind.inputTypes
  · have listed : Kind.inputTypes.contains type = true := List.contains_iff_mem.mpr known
    simp only [listed, Bool.not_true, Bool.false_eq_true, if_false, known, true_and]
    by_cases number : type = "number"
    · subst number
      simp [Subject.number_bind_ok, Subject.ordered_ok, and_assoc]
    by_cases date : type = "date"
    · subst date
      simp [except_bind_ok, except_discard_ok, Subject.text_ok]
    by_cases checkbox : type = "checkbox"
    · subst checkbox
      simp only [String.reduceEq, if_false, if_true, Subject.number_bind_ok]
      simp
      exact fun _ => Subject.atMost_ok
    · simp [number, date, checkbox, except_bind_ok, except_discard_ok, Subject.text_ok,
        Subject.number_ok]
  · simp [known, Subject.fail, bind, Except.bind]

theorem checkListId_ok :
    checkListId (e.subject kind) = .ok () ↔ ∀ id, e.scopedId? = some id → id.isTracked = true := by
  unfold checkListId
  simp only [Expression.subject, Expression.scopedId?]
  cases e.text? "id" with
  | none => simp
  | some raw =>
    dsimp only
    split_ifs with tracked <;> simp [tracked, Subject.fail]

/-- The arguments of a list are checked apart from its item type, which the rules are asked for. -/
theorem checkArguments_list_ok :
    checkArguments rules (e.subject .list) .list context ids s = .ok ids' s' ↔
      (∀ id, e.scopedId? = some id → id.isTracked = true) ∧ e.CountsRows rules.rowLimit ∧
        (∃ type, e.text? "type" = some type ∧ checkItemType rules type s = .ok () s') ∧
        ids = ids' := by
  simp only [checkArguments, bind_ok, ofExcept_ok]
  constructor
  · rintro ⟨_, _, ⟨listId, rfl⟩, result, _, ⟨typed, rfl⟩, run⟩
    obtain ⟨fits, given, rfl⟩ := Subject.text_ok.mp typed
    obtain ⟨type, text⟩ := Expression.exists_text fits (given rfl)
    simp only [text, bind_ok, ofExcept_ok, pure_ok] at run
    obtain ⟨_, _, item, _, _, ⟨rows, rfl⟩, rfl, rfl⟩ := run
    exact ⟨checkListId_ok.mp listId, checkRows_ok.mp rows, ⟨type, text, item⟩, rfl⟩
  · rintro ⟨listId, counts, ⟨type, text, item⟩, rfl⟩
    have met := Expression.fits_of_text text
    refine ⟨(), _, ⟨checkListId_ok.mpr listId, rfl⟩, _, _,
      ⟨Subject.text_ok.mpr ⟨met.1, fun _ => met.2, rfl⟩, rfl⟩, ?_⟩
    simp only [text, bind_ok, ofExcept_ok, pure_ok]
    exact ⟨(), _, item, (), _, ⟨checkRows_ok.mpr counts, rfl⟩, trivial, rfl⟩

/-- Only a label changes the scope: it leaves its target behind. -/
theorem checkArguments_other_ok (table : Table) (limit : Nat) (noList : kind ≠ .list)
    (named : Kind.ofName? e.kind = some kind) :
    checkArguments rules (e.subject kind) kind context ids s = .ok ids' s' ↔
      (∀ rule ∈ kind.rules (e.text? "type"), rule.Met e) ∧ e.MeetsBounds table limit kind ∧
        { ids with targets := (e.target? context.stem).toList ++ ids.targets } = ids' ∧ s = s' := by
  by_cases label : kind = .label
  · subst label
    have isLabel : e.kind = "label" := (Kind.name_of_ofName? named).symm
    simp only [checkArguments, ofExcept_ok, except_bind_ok, except_pure_ok,
      checkTarget_ok table limit isLabel, Kind.rules, ArgumentRule.Met, List.forall_mem_cons]
    constructor
    · rintro ⟨⟨_, ⟨fits, valid, rfl⟩, _, body, rfl⟩, rfl⟩
      have block := Subject.block_ok.mp body
      exact ⟨⟨⟨fits, by simp⟩, block, by simp⟩, valid, rfl, rfl⟩
    · rintro ⟨⟨⟨fits, -⟩, block, -⟩, valid, rfl, rfl⟩
      exact ⟨⟨_, ⟨fits, valid, rfl⟩, (), Subject.block_ok.mpr block, rfl⟩, rfl⟩
  rw [Expression.target?_of_ne fun written => label (Kind.eq_of_ofName? named written)]
  show _ ↔ _ ∧ _ ∧ ids = ids' ∧ _
  cases kind with
  | label => exact absurd rfl label
  | list => exact absurd rfl noList
  | input =>
    simp only [checkArguments, ofExcept_ok, except_then_ok, except_pure_ok,
      checkInput_ok table limit, and_assoc]
  | page | div | form | select | option | text | h1 | p | span | button =>
    simp only [checkArguments, ofExcept_ok, except_then_ok, except_discard_ok, except_pure_ok,
      Subject.text_ok, Subject.texts_ok, Subject.block_ok, Kind.rules, ArgumentRule.Met,
      Expression.MeetsBounds, List.forall_mem_cons]
    simp [and_assoc]

/-- What has passed meets the rules of its kind, declares nothing, and leaves a target behind if it is a
label. -/
theorem checkArguments_met (named : Kind.ofName? e.kind = some kind)
    (checked : checkArguments rules (e.subject kind) kind context ids s = .ok ids' s') :
    (∀ rule ∈ kind.rules (e.text? "type"), rule.Met e) ∧
      ids' = { ids with targets := (e.target? context.stem).toList ++ ids.targets } := by
  by_cases list : kind = .list
  · subst list
    obtain ⟨-, counts, ⟨type, text, -⟩, rfl⟩ := checkArguments_list_ok.mp checked
    have written : e.kind = "list" := (Kind.name_of_ofName? named).symm
    rw [Expression.target?_of_ne (by rw [written]; decide)]
    refine ⟨?_, rfl⟩
    simpa [Kind.rules, ArgumentRule.Met, Expression.fits_of_text text] using counts.numbers
  · obtain ⟨met, -, rfl, -⟩ := (checkArguments_other_ok {} 0 list named).mp checked
    exact ⟨met, rfl⟩

end Pagewright
