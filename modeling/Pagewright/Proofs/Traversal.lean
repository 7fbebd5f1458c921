import Pagewright.Instance.Build
import Pagewright.Proofs.Entries
import Pagewright.Proofs.Outcome

/-!
# Walks over expressions, block by block

Copying, substituting, resolving and filling go through the arguments of an
expression and through its blocks in order. Each of these walks is the same step
taken over a list, and a check follows a single block. Proofs about them go by
induction over what an expression holds and use these equations.
-/

namespace Pagewright

open Outcome

section Resolving

variable (refer : Refer)

theorem resolveBlock_eq (children : List Expression) :
    resolveBlock refer children = children.mapM (resolve refer) := by
  induction children with
  | nil => simp [resolveBlock]
  | cons child rest ih => simp [resolveBlock, ih]

theorem resolveArguments_eq (arguments : Arguments) :
    resolveArguments refer arguments =
      arguments.mapM fun entry => do return (entry.1, ← resolveArgument refer entry.2) := by
  induction arguments with
  | nil => simp [resolveArguments]
  | cons entry rest ih => simp [resolveArguments, ih]

end Resolving

section Filling

variable (build : String → Building Expression)

theorem fillBlock_eq (children : List Expression) :
    fillBlock build children = children.mapM (fillLists build) := by
  induction children with
  | nil => simp [fillBlock]
  | cons child rest ih => simp [fillBlock, ih]

theorem fillArguments_eq (arguments : Arguments) :
    fillArguments build arguments =
      arguments.mapM fun entry => do return (entry.1, ← fillArgument build entry.2) := by
  induction arguments with
  | nil => simp [fillArguments]
  | cons entry rest ih => simp [fillArguments, ih]

end Filling

section Substituting

variable (bindings : Bindings) (owner : ExpressionId)

/-- What one child of a block becomes: itself, itself under another kind, or the expressions of a
block. -/
def substituteChild (child : Expression) : EStateM Error Supply (List Expression) :=
  match bindings.lookup child.kind with
  | none => do return [← substitute bindings child]
  | some (.atom kind) => do
    let child ← substitute bindings child
    return [{ child with kind }]
  | some (.block replacement) => do
    if !child.arguments.isEmpty then
      throw (.substitution (.spliceWithArguments child.kind))
    modifyGet (copyBlock replacement owner)
  | some other => throw (.substitution (.notAnExpression child.kind other.typeName))

theorem substituteBlock_eq (children : List Expression) :
    substituteBlock bindings owner children =
      List.flatten <$> children.mapM (substituteChild bindings owner) := by
  induction children with
  | nil => simp [substituteBlock]
  | cons child rest ih =>
    unfold substituteBlock
    simp only [ih, List.mapM_cons, substituteChild]
    cases bindings.lookup child.kind with
    | none => simp
    | some actual =>
      cases actual with
      | atom kind => simp
      | block replacement =>
        dsimp only
        split_ifs
        · rfl
        · simp
      | text | number | list => rfl

theorem substituteArguments_eq (arguments : Arguments) :
    substituteArguments bindings owner arguments =
      arguments.mapM fun entry => do
        return (entry.1, ← substituteArgument bindings owner entry.2) := by
  induction arguments with
  | nil => simp [substituteArguments]
  | cons entry rest ih => simp [substituteArguments, ih]

end Substituting

section Walking

variable {σ : Type} (rules : Rules σ)

theorem walkArgument_eq (name : String) (arguments : Arguments) (context : Context)
    (ids : IdScope) :
    walkArgument rules name arguments context ids =
      match arguments.lookup name with
      | some (.block children) => walkBlock rules children context ids
      | _ => pure ids := by
  induction arguments with
  | nil => simp [walkArgument]
  | cons entry rest ih =>
    obtain ⟨other, value⟩ := entry
    unfold walkArgument
    by_cases same : name = other
    · subst same
      simp only [if_true, List.lookup_cons_self]
      cases value <;> rfl
    · rw [if_neg same, ih, Entries.lookup_cons_of_ne same]

end Walking

end Pagewright
