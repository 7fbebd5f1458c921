import Pagewright.Proofs.Walk

/-!
# Forms of arguments

In a concrete expression nothing stands for a parameter, so asking for an
argument of some form says exactly this: if the argument is there, it has the
form. The lemmas here turn each question into that statement.
-/

namespace Pagewright

open Outcome

inductive Form where
  | text
  | number
  | texts
  | block

/-- The value has the form; a number fits in sixty-four bits, and a list of texts holds nothing
else. -/
def Form.Fits : Form → Argument → Prop
  | .text, value => ∃ content, value = .text content
  | .number, value => ∃ digits amount, value = .number digits ∧ numberValue? digits = some amount
  | .texts, value => ∃ items, value = .list items ∧ ∀ item ∈ items, ∃ content, item = .text content
  | .block, value => ∃ children, value = .block children

def Expression.Fits (e : Expression) (form : Form) (name : String) : Prop :=
  ∀ value, e.get? name = some value → form.Fits value

variable {e other : Expression} {kind : Kind} {name : String} {limit : Nat} {subject : Subject}
  {form : Form} {required : Bool}

private theorem Expression.fits_of_none (missing : e.get? name = none) : e.Fits form name := by
  intro value found
  rw [missing] at found
  cases found

theorem Expression.fits_iff_of_some {value : Argument} (found : e.get? name = some value) :
    e.Fits form name ↔ form.Fits value := by
  simp [Expression.Fits, found]

theorem Expression.fits_number_iff :
    e.Fits .number name ↔ e.get? name = none ∨ ∃ amount, e.number? name = some amount := by
  cases found : e.get? name with
  | none => simp [Expression.fits_of_none found]
  | some value =>
    rw [Expression.fits_iff_of_some found]
    cases value <;> simp [Form.Fits, Expression.number?, Argument.number?, found]

theorem Subject.text_ok {result : Option String} :
    (e.subject kind).text name required = .ok result ↔
      e.Fits .text name ∧ (required = true → e.has name = true) ∧ result = e.text? name := by
  cases found : e.get? name with
  | none =>
    simp only [Expression.fits_of_none found, true_and]
    cases required <;>
      simp [Subject.text, Subject.absent, Subject.fail, Expression.subject, Except.map,
        Expression.has, Expression.text?, found, eq_comm]
  | some value =>
    rw [Expression.fits_iff_of_some found]
    cases value <;>
      simp [Subject.text, Subject.isPlaceholder, Subject.fail, Expression.subject, Form.Fits,
        Expression.has, Expression.text?, Argument.text?, found, eq_comm]

theorem Subject.number_ok {result : Option Nat} :
    (e.subject kind).number name = .ok result ↔
      e.Fits .number name ∧ result = e.number? name := by
  cases found : e.get? name with
  | none =>
    simp [Expression.fits_of_none found, Subject.number, Expression.subject, Expression.number?, found,
      eq_comm]
  | some value =>
    rw [Expression.fits_iff_of_some found]
    cases value with
    | number digits =>
      cases read : numberValue? digits <;>
        simp [Subject.number, Subject.fail, Expression.subject, Form.Fits, Expression.number?,
          Argument.number?, found, read, eq_comm]
    | atom | text | block | list =>
      simp [Subject.number, Subject.isPlaceholder, Subject.fail, Expression.subject, Form.Fits, found]

theorem Subject.texts_ok : (e.subject kind).texts name = .ok () ↔ e.Fits .texts name := by
  cases found : e.get? name with
  | none =>
    simp [Expression.fits_of_none found, Subject.texts, Expression.subject, found]
  | some value =>
    rw [Expression.fits_iff_of_some found]
    cases value with
    | list items =>
      have text : ∀ item, (e.subject kind).isTextItem item = true ↔ ∃ content, item = .text content := by
        intro item
        cases item <;> simp [Subject.isTextItem, Subject.isPlaceholder, Argument.text?,
          Expression.subject]
      simp only [Subject.texts, Expression.subject] at text ⊢
      simp only [found, Form.Fits, Argument.list.injEq, exists_eq_left']
      cases other : items.find? fun item =>
          !({ expression := e, kind := kind.name, concrete := true } : Subject).isTextItem item with
      | none =>
        simp only [List.find?_eq_none, Bool.not_eq_eq_eq_not, Bool.not_true,
          Bool.not_eq_false] at other
        simp only [true_iff]
        exact fun item member => (text item).mp (other item member)
      | some item =>
        have mistyped := List.find?_some other
        simp only [Subject.fail, reduceCtorEq, false_iff]
        intro all
        rw [(text item).mpr (all item (List.mem_of_find?_eq_some other))] at mistyped
        cases mistyped
    | atom | text | block | number =>
      simp [Subject.texts, Subject.isPlaceholder, Subject.fail, Expression.subject, Form.Fits, found]

theorem Subject.block_ok :
    (e.subject kind).block name required = .ok () ↔
      e.Fits .block name ∧ (required = true → e.has name = true) := by
  cases found : e.get? name with
  | none =>
    simp only [Expression.fits_of_none found, true_and]
    cases required <;>
      simp [Subject.block, Subject.absent, Subject.fail, Expression.subject, Expression.has, found]
  | some value =>
    rw [Expression.fits_iff_of_some found]
    cases value <;>
      simp [Subject.block, Subject.isPlaceholder, Subject.fail, Expression.subject, Form.Fits,
        Expression.has, found]

theorem Subject.onlyHas_ok {names : List String} :
    (e.subject kind).onlyHas names = .ok () ↔ ∀ name, e.has name = true → name ∈ names := by
  have entry : ∀ name, e.has name = true ↔ ∃ value, (name, value) ∈ e.arguments := by
    intro name
    simp [Expression.has, Expression.get?, List.lookup_isSome_iff]
  simp only [Subject.onlyHas, Expression.subject]
  cases other : e.arguments.find? fun entry => !names.contains entry.1 with
  | none =>
    simp only [List.find?_eq_none, Bool.not_eq_eq_eq_not, Bool.not_true, Bool.not_eq_false,
      List.contains_iff_mem] at other
    simp only [true_iff]
    intro name given
    obtain ⟨value, member⟩ := (entry name).mp given
    exact other (name, value) member
  | some unused =>
    have unnamed := List.find?_some other
    simp only [Subject.fail, reduceCtorEq, false_iff]
    intro all
    have among := all unused.1 ((entry _).mpr ⟨unused.2, List.mem_of_find?_eq_some other⟩)
    simp [among] at unnamed

/-! ### Counts -/

/-- A number between bounds, as far as they are given. -/
@[mk_iff]
structure InOrder (min number max : Option Nat) : Prop where
  bounds : ∀ low ∈ min, ∀ high ∈ max, low ≤ high
  above : ∀ low ∈ min, ∀ amount ∈ number, low ≤ amount
  below : ∀ amount ∈ number, ∀ high ∈ max, amount ≤ high

theorem Subject.ordered_ok {min number max : Option Nat} :
    subject.ordered min number max = .ok () ↔ InOrder min number max := by
  rw [inOrder_iff]
  unfold Subject.ordered
  cases min <;> cases number <;> cases max <;>
    simp only [Subject.fail, bind, Except.bind, pure, Except.pure, Option.mem_def, Option.some.injEq,
      forall_eq', reduceCtorEq, false_imp_iff, implies_true, and_true, true_and] <;>
    split_ifs <;> simp <;> omega

/-- The row counts of a list are numbers, in order and within the limit. -/
structure Expression.CountsRows (limit : Nat) (e : Expression) : Prop where
  numbers : ∀ name ∈ ["initial", "min", "max"], e.Fits .number name
  ordered : InOrder (e.number? "min") (e.number? "initial") (e.number? "max")
  limited : ∀ count ∈ e.number? "initial", count ≤ limit

/-- Counts are told by the numbers there are. -/
theorem Expression.CountsRows.of_numbers (counts : e.CountsRows limit)
    (missing : ∀ name ∈ ["initial", "min", "max"], e.get? name = none → other.get? name = none)
    (numbers : ∀ name ∈ ["initial", "min", "max"], e.number? name = other.number? name) :
    other.CountsRows limit := by
  refine ⟨fun name member => Expression.fits_number_iff.mpr ?_, ?_, ?_⟩
  · rw [← numbers name member]
    exact (Expression.fits_number_iff.mp (counts.numbers name member)).imp_left (missing name member)
  · rw [← numbers "min" (by simp), ← numbers "initial" (by simp), ← numbers "max" (by simp)]
    exact counts.ordered
  · rw [← numbers "initial" (by simp)]
    exact counts.limited

theorem Expression.CountsRows.of_get? (counts : e.CountsRows limit)
    (same : ∀ name ∈ ["initial", "min", "max"], e.get? name = other.get? name) :
    other.CountsRows limit := by
  refine counts.of_numbers (fun name member missing => same name member ▸ missing) ?_
  intro name member
  rw [Expression.number?, Expression.number?, same name member]

theorem Subject.atMost_ok {fault : Nat → ShapeFault} {amount : Option Nat} :
    (match amount with
      | some count => if count > limit then subject.fail (fault count) else pure ()
      | _ => pure ()) = .ok () ↔ ∀ count ∈ amount, count ≤ limit := by
  cases amount with
  | none => simp [pure, Except.pure]
  | some count =>
    dsimp only
    split_ifs with above
    · simp [Subject.fail, above]
    · simp [pure, Except.pure, Nat.not_lt.mp above]

theorem checkRows_ok : checkRows (e.subject kind) limit = .ok () ↔ e.CountsRows limit := by
  simp only [checkRows, except_bind_ok, Subject.number_ok]
  constructor
  · rintro ⟨_, ⟨initial, rfl⟩, _, ⟨min, rfl⟩, _, ⟨max, rfl⟩, _, order, limited⟩
    exact ⟨by simp [initial, min, max], Subject.ordered_ok.mp order, Subject.atMost_ok.mp limited⟩
  · rintro ⟨numbers, order, limited⟩
    simp only [List.forall_mem_cons, List.not_mem_nil, false_imp_iff, implies_true, and_true] at numbers
    obtain ⟨initial, min, max⟩ := numbers
    exact ⟨_, ⟨initial, rfl⟩, _, ⟨min, rfl⟩, _, ⟨max, rfl⟩, (), Subject.ordered_ok.mpr order,
      Subject.atMost_ok.mpr limited⟩

end Pagewright
