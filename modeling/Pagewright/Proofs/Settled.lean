import Pagewright.Proofs.ArgumentRules

/-!
# Settled values

A value is final if no parameter is left open in it: it is a text, a number that
has a value, a list of texts, or a block where a block may stand. Every argument
of an expression that a walk has admitted is final, the name it defines apart,
and the only block is the one that was walked.
-/

namespace Pagewright

open Outcome

variable {mayHold : Prop} {value : Argument} {name : String}

/-- A value with nothing left open; it is a block only if one may stand here. -/
def Argument.IsFinal (mayHold : Prop) : Argument → Prop
  | .text _ => True
  | .number digits => (numberValue? digits).isSome = true
  | .list items => ∀ item ∈ items, ∃ value, item = .text value
  | .block _ => mayHold
  | .atom _ => False

theorem Argument.IsFinal.imp {other : Prop} (final : value.IsFinal mayHold)
    (weaker : mayHold → other) : value.IsFinal other := by
  cases value with
  | block children => exact weaker final
  | text value => trivial
  | number | list => exact final
  | atom name => exact final.elim

private theorem Form.Fits.isFinal {form : Form} (fits : form.Fits value)
    (allowed : form = .block → mayHold) : value.IsFinal mayHold := by
  cases form with
  | text =>
    obtain ⟨content, rfl⟩ := fits
    trivial
  | number =>
    obtain ⟨digits, amount, rfl, read⟩ := fits
    simp [Argument.IsFinal, read]
  | texts =>
    obtain ⟨items, rfl, texts⟩ := fits
    exact texts
  | block =>
    obtain ⟨children, rfl⟩ := fits
    exact allowed rfl

/-! ### The arguments of a kind -/

variable {σ : Type} {rules : Rules σ} {context : Context} {e : Expression} {kind : Kind}
  {stem : String}

theorem onlyHas_mem {names : List String} (closed : (e.subject kind).onlyHas names = .ok ())
    (member : (name, value) ∈ e.arguments) : name ∈ names := by
  apply Subject.onlyHas_ok.mp closed
  rw [Expression.has, Expression.get?, List.lookup_isSome_iff]
  exact ⟨(name, value), member, by simp⟩

theorem Admitted.idFits (admitted : Admitted rules context e kind stem) : e.IdFits kind := by
  obtain ⟨ids, declared, checked⟩ := admitted.id
  exact (checkId_ok.mp checked).1

theorem Admitted.met (admitted : Admitted rules context e kind stem) :
    ∀ rule ∈ kind.rules (e.text? "type"), rule.Met e := by
  obtain ⟨ids, ids', s, s', checked⟩ := admitted.particular
  exact (checkArguments_met admitted.named checked).1

/-- Every argument of an admitted expression is final, but for the name it defines. -/
theorem Admitted.final (admitted : Admitted rules context e kind stem)
    (ordered : Entries.Ordered e.arguments) (member : (name, value) ∈ e.arguments)
    (unnamed : name ≠ "defines") : value.IsFinal (kind.content? = some name) := by
  have found : e.get? name = some value := ordered.lookup_of_mem member
  obtain ⟨parameters, inherits, -⟩ := Expression.isConcrete_iff.mp admitted.concrete
  rcases List.mem_append.mp (onlyHas_mem admitted.closed member) with common | particular
  · simp only [commonNames, List.mem_cons, List.not_mem_nil, or_false] at common
    rcases common with rfl | rfl | rfl | rfl | rfl | rfl
    · exact absurd rfl unnamed
    · simp [found] at parameters
    · simp [found] at inherits
    · obtain ⟨raw, rfl, -⟩ := admitted.idFits.valid value found
      trivial
    · exact (Subject.texts_ok.mp admitted.styles value found).isFinal nofun
    · exact (Subject.texts_ok.mp admitted.classes value found).isFinal nofun
  · obtain ⟨rule, among, rfl⟩ := Kind.mem_argumentNames.mp particular
    exact ((admitted.met rule among).1 value found).isFinal (kind.content?_of_rule _ rule among)

end Pagewright
