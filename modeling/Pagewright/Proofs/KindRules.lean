import Pagewright.Proofs.DeclaredIds
import Pagewright.Proofs.ReferenceRules

/-!
# The rules of the kinds

What a concrete expression of some kind has to look like, apart from where it
stands: a table says which arguments the kind takes, in which form, and which of
them it needs, and some kinds ask for more than forms. The checks of a walk let
an expression pass exactly if it meets these rules, provided that every
definition has been checked before.
-/

namespace Pagewright

open Outcome

variable {name : String}

/-! ### Item types -/

section

variable {table : Table} {limit : Nat} {type : String} {markers markers' : Markers}

private theorem Table.leadsTo_of_followKind {current : String} {budget : Nat} {kind : Kind}
    (found : table.followKind name budget current = .ok kind) : table.LeadsTo current kind := by
  induction budget generalizing current with
  | zero => cases found
  | succ budget ih =>
    simp only [Table.followKind] at found
    cases defined : table.find? current with
    | none => simp [defined] at found
    | some definition =>
      simp only [defined] at found
      cases named : Kind.ofName? definition.expression.kind with
      | none =>
        simp only [named] at found
        exact .further defined named (ih found)
      | some builtIn =>
        simp only [named] at found
        cases found
        exact .builtIn defined named

private theorem Table.LeadsTo.followKind {kind : Kind} (leads : table.LeadsTo type kind)
    (name : String) : ∃ budget, table.followKind name budget type = .ok kind := by
  induction leads with
  | builtIn found named => exact ⟨1, by simp [Table.followKind, found, named]⟩
  | further found named _ ih =>
    obtain ⟨budget, followed⟩ := ih
    exact ⟨budget + 1, by simpa [Table.followKind, found, named] using followed⟩

theorem Table.resolveKind_ok {kind : Kind} :
    table.resolveKind type = .ok kind ↔ table.LeadsTo type kind := by
  constructor
  · exact Table.leadsTo_of_followKind
  · intro leads
    obtain ⟨budget, followed⟩ := leads.followKind type
    exact Table.resolveKind_of_followKind followed

private theorem checkItemType_done (done : markers.AllDone table) :
    checkItemType (tableRules table limit) type markers = .ok () markers' ↔
      table.AllowsItem type ∧ markers' = markers := by
  unfold checkItemType Table.AllowsItem
  simp only [tableRules]
  cases found : table.find? type with
  | none => simp [throw_ok]
  | some definition =>
    have known := Table.mem_names_of_find? found
    simp only [bind_ok, checkSymbol_done_ok done, known, true_and, Option.some.injEq]
    cases generic : definition.expression.isGeneric with
    | true => simp [generic, bind_ok, throw_ok]
    | false =>
      simp only [Bool.false_eq_true, if_false, bind_ok, ofExcept_ok, Table.resolveKind_ok]
      constructor
      · rintro ⟨_, _, rfl, kind, _, ⟨leads, rfl⟩, last⟩
        split_ifs at last with page
        · exact (throw_ok.mp last).elim
        · exact ⟨⟨definition, kind, rfl, generic, leads, page⟩, (pure_ok.mp last).2.symm⟩
      · rintro ⟨⟨_, kind, rfl, -, leads, noPage⟩, rfl⟩
        refine ⟨(), _, rfl, kind, _, ⟨leads, rfl⟩, ?_⟩
        rw [if_neg noPage]
        rfl

end

/-- An expression of this kind has the arguments that the kind takes, each as it should be, and no
others. -/
structure Expression.MeetsRules (table : Table) (limit : Nat) (kind : Kind) (e : Expression) :
    Prop where
  styles : e.Fits .texts "styles"
  classes : e.Fits .texts "classes"
  id : e.IdFits kind
  rules : ∀ rule ∈ kind.rules (e.text? "type"), rule.Met e
  bounds : e.MeetsBounds table limit kind
  only : ∀ name, e.has name = true → name ∈ ["defines", "id", "styles", "classes"] ∨
    ∃ rule ∈ kind.rules (e.text? "type"), rule.name = name

/-! ### The checks are the rules -/

variable {table : Table} {limit : Nat} {e : Expression} {kind : Kind} {context : Context}
  {ids ids' : IdScope} {markers markers' : Markers}

theorem checkNesting_ok :
    checkNesting e = .ok () ↔ (e.parent.isSome = true → e.has "defines" = false) := by
  unfold checkNesting
  cases e.parent.isSome <;> cases e.has "defines" <;> simp

theorem checkPlace_ok :
    checkPlace e kind context = .ok () ↔ (kind = .page → e.parent = none) ∧
      (kind = .form → context.inForm = false) ∧ (kind = .option → context.inSelect = true) := by
  unfold checkPlace
  cases kind <;> simp

/-- What is checked about the arguments of an expression are the rules of its kind; a label
leaves its target behind. -/
theorem checkArguments_ok (done : markers.AllDone table) (named : Kind.ofName? e.kind = some kind) :
    checkArguments (tableRules table limit) (e.subject kind) kind context ids markers =
        .ok ids' markers' ↔
      (∀ rule ∈ kind.rules (e.text? "type"), rule.Met e) ∧ e.MeetsBounds table limit kind ∧
        { ids with targets := (e.target? context.stem).toList ++ ids.targets } = ids' ∧
        markers = markers' := by
  by_cases list : kind = .list
  · subst list
    have written : e.kind = "list" := (Kind.name_of_ofName? named).symm
    rw [checkArguments_list_ok, Expression.target?_of_ne (by rw [written]; decide)]
    simp only [checkItemType_done done, Kind.rules, ArgumentRule.Met, List.forall_mem_cons,
      Expression.MeetsBounds]
    constructor
    · rintro ⟨listId, ⟨numbers, ordered, limited⟩, ⟨type, text, allowed, rfl⟩, rfl⟩
      obtain ⟨fits, given⟩ := Expression.fits_of_text text
      refine ⟨⟨⟨fits, fun _ => given⟩, by simpa using numbers⟩, ⟨listId, ?_, ordered, limited⟩, rfl,
        rfl⟩
      intro other same
      cases text.symm.trans same
      exact allowed
    · rintro ⟨⟨⟨fits, given⟩, numbers⟩, ⟨listId, allowed, ordered, limited⟩, rfl, rfl⟩
      obtain ⟨type, text⟩ := Expression.exists_text fits (given trivial)
      exact ⟨listId, ⟨by simpa using numbers, ordered, limited⟩,
        ⟨type, text, allowed type text, rfl⟩, rfl⟩
  · exact checkArguments_other_ok table limit list named

end Pagewright
