import Pagewright.Proofs.InstanceRoot

/-!
# The merges that an instance is made of

Instantiating a definition merges instances into references, in the definition
itself, in the definitions it refers to, and so on. The traced functions do the
same work and keep a record of every merge. Forgetting the record gives back the
functions they follow. `mem_tracedResolve` says where the entries of a record come
from: each belongs to an expression that was there before, or to the record of a
reference.
-/

namespace Pagewright

open Outcome Building

/-- A reference whose blocks are resolved, and the instance that is merged into it. -/
structure Merge where
  reference : Expression
  inst : Expression

/-- Instantiates a definition as `Refer` does, with a record of the merges. -/
abbrev TracedRefer :=
  String → Arguments → Building ((Expression × Arguments) × List Merge)

def tracedTake (refer : TracedRefer) (expression : Expression) (target : String) :
    Building (Expression × List Merge) := do
  let ((parent, arguments), merges) ← refer target (Entries.erase expression.arguments "inherits")
  return (merge { expression with arguments } parent, merges ++ [⟨expression, parent⟩])

def tracedJoin (refer : TracedRefer) (expression : Expression) :
    Building (Expression × List Merge) := do
  match expression.get? "inherits" with
  | some (.text target) => tracedTake refer expression target
  | some other =>
    throw (.substitution (.inheritsNotText expression.kind other.typeName))
  | none =>
    if Kind.isBuiltIn expression.kind then return (expression, [])
    else tracedTake refer expression expression.kind

mutual

def tracedResolve (refer : TracedRefer) : Expression → Building (Expression × List Merge)
  | ⟨id, parent, kind, arguments⟩ => do
    let (arguments, inside) ← tracedArguments refer arguments
    let (result, own) ← tracedJoin refer ⟨id, parent, kind, arguments⟩
    return (result, inside ++ own)

def tracedArguments (refer : TracedRefer) :
    List (String × Argument) → Building (List (String × Argument) × List Merge)
  | [] => return ([], [])
  | (name, value) :: rest => do
    let (value, first) ← tracedArgument refer value
    let (rest, later) ← tracedArguments refer rest
    return ((name, value) :: rest, first ++ later)

def tracedArgument (refer : TracedRefer) : Argument → Building (Argument × List Merge)
  | .block children => do
    let (children, merges) ← tracedBlock refer children
    return (.block children, merges)
  | .atom name => return (.atom name, [])
  | .text value => return (.text value, [])
  | .number digits => return (.number digits, [])
  | .list items => return (.list items, [])

def tracedBlock (refer : TracedRefer) : List Expression → Building (List Expression × List Merge)
  | [] => return ([], [])
  | child :: rest => do
    let (child, first) ← tracedResolve refer child
    let (rest, later) ← tracedBlock refer rest
    return (child :: rest, first ++ later)

end

def tracedCopy (plan : Plan) (refer : TracedRefer) (target : String) (site : Arguments) :
    Building ((Expression × Arguments) × List Merge) := do
  let body ← copiedBody plan target site
  let (inst, merges) ← tracedResolve refer body.1
  return ((inst, body.2), merges)

def tracedWithin (plan : Plan) : Nat → TracedRefer
  | 0, target, _ => throw (.cycle target)
  | budget + 1, target, site => do
    if (← get).resolving.contains target then
      throw (.cycle target)
    whileResolving target (tracedCopy plan (tracedWithin plan budget) target site)

/-- Instantiates `target` for a reference, with a record of all merges on the way. -/
def tracedTo (plan : Plan) : TracedRefer :=
  tracedWithin plan (plan.table.size + 1)

/-! ### Forgetting the record -/

variable {traced : TracedRefer} {refer : Refer} {plan : Plan} {e result : Expression}
  {results arguments : Arguments} {target : String}

/-- The traced references do the work of the others. -/
def TracedRefer.Follows (traced : TracedRefer) (refer : Refer) : Prop :=
  ∀ target site, Prod.fst <$> traced target site = refer target site

private theorem tracedJoin_fst (follows : traced.Follows refer) (e : Expression) :
    Prod.fst <$> tracedJoin traced e = join refer e := by
  unfold tracedJoin tracedTake join
  cases e.get? "inherits" with
  | none =>
    cases Kind.isBuiltIn e.kind with
    | false =>
      simp only [Bool.false_eq_true, if_false, ← follows _ _, map_bind, bind_map_left, map_pure]
    | true => simp only [if_true, map_pure]
  | some value =>
    cases value with
    | text target => simp only [← follows _ _, map_bind, bind_map_left, map_pure]
    | atom | number | block | list => rfl

mutual

private theorem tracedResolve_fst (follows : traced.Follows refer) :
    ∀ e : Expression, Prod.fst <$> tracedResolve traced e = resolve refer e
  | ⟨id, parent, kind, arguments⟩ => by
    simp only [tracedResolve, resolve, ← tracedArguments_fst follows arguments,
      ← tracedJoin_fst follows, map_bind, bind_map_left, map_pure]
    rfl

private theorem tracedArguments_fst (follows : traced.Follows refer) :
    ∀ arguments : Arguments,
      Prod.fst <$> tracedArguments traced arguments = resolveArguments refer arguments
  | [] => rfl
  | (name, value) :: rest => by
    simp only [tracedArguments, resolveArguments, ← tracedArgument_fst follows value,
      ← tracedArguments_fst follows rest, map_bind, bind_map_left, map_pure]

private theorem tracedArgument_fst (follows : traced.Follows refer) :
    ∀ value : Argument, Prod.fst <$> tracedArgument traced value = resolveArgument refer value
  | .block children => by
    simp only [tracedArgument, resolveArgument, ← tracedBlock_fst follows children, map_bind,
      bind_map_left, map_pure]
  | .atom _ | .text _ | .number _ | .list _ => rfl

private theorem tracedBlock_fst (follows : traced.Follows refer) :
    ∀ children : List Expression,
      Prod.fst <$> tracedBlock traced children = resolveBlock refer children
  | [] => rfl
  | child :: rest => by
    simp only [tracedBlock, resolveBlock, ← tracedResolve_fst follows child,
      ← tracedBlock_fst follows rest, map_bind, bind_map_left, map_pure]

end

private theorem tracedCopy_fst (follows : traced.Follows refer) (target : String)
    (site : Arguments) :
    Prod.fst <$> tracedCopy plan traced target site = copyDefinition plan refer target site := by
  simp only [tracedCopy, copyDefinition_eq, ← tracedResolve_fst follows, map_bind, bind_map_left,
    map_pure]

private theorem whileResolving_map {α β : Type} (f : α → β) (name : String) (action : Building α) :
    f <$> whileResolving name action = whileResolving name (f <$> action) := by
  funext w
  simp only [whileResolving, within, Functor.map, EStateM.map]
  cases action { w with resolving := name :: w.resolving } <;> rfl

/-- Without its record, a traced reference is the reference. -/
theorem tracedWithin_follows (budget : Nat) :
    TracedRefer.Follows (tracedWithin plan budget) (referWithin plan budget) := by
  intro target site
  induction budget generalizing target site with
  | zero => rfl
  | succ budget ih =>
    simp only [tracedWithin, referWithin, map_bind]
    refine bind_congr fun w => ?_
    split_ifs with again
    · rfl
    · rw [whileResolving_map, tracedCopy_fst ih]

/-- A traced instance is the instance. -/
theorem tracedTo_fst (target : String) (site : Arguments) :
    Prod.fst <$> tracedTo plan target site = referTo plan target site :=
  tracedWithin_follows _ target site

/-! ### What is in the record -/

/-- A merge that was made at an expression: the reference is this expression with its blocks
resolved, and the instance is what the definition it refers to gave. -/
structure Merge.MadeAt (traced : TracedRefer) (node : Expression) (merged : Merge) : Prop where
  same : SameReference node merged.reference
  taken : ∃ target site w rest merges w', merged.reference.refersTo? = some target ∧
    traced target site w = .ok ((merged.inst, rest), merges) w'

/-- A merge that is in the record of some reference. -/
def TracedRefer.Records (traced : TracedRefer) (merged : Merge) : Prop :=
  ∃ target site w result merges w', traced target site w = .ok (result, merges) w' ∧
    merged ∈ merges

variable {merged : Merge} {merges : List Merge} {w w' : Workshop}

theorem tracedJoin_ok (run : tracedJoin traced e w = .ok (result, merges) w') :
    merges = [] ∨ ∃ target, e.refersTo? = some target ∧
      tracedTake traced e target w = .ok (result, merges) w' := by
  unfold tracedJoin at run
  cases inherits : e.get? "inherits" with
  | none =>
    cases builtIn : Kind.isBuiltIn e.kind with
    | false =>
      simp only [inherits, builtIn, Bool.false_eq_true, if_false] at run
      exact .inr ⟨e.kind, Expression.refersTo?_eq_some.mpr (.inr ⟨inherits, builtIn, rfl⟩), run⟩
    | true =>
      simp only [inherits, builtIn, if_true] at run
      obtain ⟨same, -⟩ := pure_ok.mp run
      cases same
      exact .inl rfl
  | some value =>
    cases value with
    | text target =>
      simp only [inherits] at run
      exact .inr ⟨target, Expression.refersTo?_eq_some.mpr (.inl inherits), run⟩
    | atom | number | block | list => simp only [inherits, throw_ok] at run

private theorem mem_tracedTake (run : tracedTake traced e target w = .ok (result, merges) w')
    (member : merged ∈ merges) :
    traced.Records merged ∨ merged.reference = e ∧ ∃ site w rest merges w',
      traced target site w = .ok ((merged.inst, rest), merges) w' := by
  obtain ⟨⟨⟨parent, arguments⟩, inner⟩, u, given, last⟩ := bind_ok.mp run
  obtain ⟨same, rfl⟩ := pure_ok.mp last
  cases same
  rcases List.mem_append.mp member with inside | own
  · exact .inl ⟨target, _, w, _, inner, u, given, inside⟩
  · cases List.mem_singleton.mp own
    exact .inr ⟨rfl, _, w, arguments, inner, u, given⟩

private theorem mem_tracedBlock {children results : List Expression}
    (run : tracedBlock traced children w = .ok (results, merges) w') (member : merged ∈ merges) :
    ∃ child ∈ children, ∃ u result inner u',
      tracedResolve traced child u = .ok (result, inner) u' ∧ merged ∈ inner := by
  induction children generalizing w results merges with
  | nil =>
    obtain ⟨same, -⟩ := pure_ok.mp run
    cases same
    cases member
  | cons child rest ih =>
    obtain ⟨⟨result, first⟩, u, head, run⟩ := bind_ok.mp run
    obtain ⟨⟨others, later⟩, v, tail, last⟩ := bind_ok.mp run
    obtain ⟨same, rfl⟩ := pure_ok.mp last
    cases same
    rcases List.mem_append.mp member with inHead | inTail
    · exact ⟨child, List.mem_cons_self .., w, result, first, u, head, inHead⟩
    · obtain ⟨other, among, found⟩ := ih tail inTail
      exact ⟨other, List.mem_cons_of_mem _ among, found⟩

/-- What is recorded for arguments was recorded for something in one of their blocks. -/
theorem mem_tracedArguments (run : tracedArguments traced arguments w = .ok (results, merges) w')
    (member : merged ∈ merges) :
    ∃ name children, (name, Argument.block children) ∈ arguments ∧ ∃ child ∈ children,
      ∃ u result inner u', tracedResolve traced child u = .ok (result, inner) u' ∧
        merged ∈ inner := by
  induction arguments generalizing w results merges with
  | nil =>
    obtain ⟨same, -⟩ := pure_ok.mp run
    cases same
    cases member
  | cons entry rest ih =>
    obtain ⟨name, value⟩ := entry
    obtain ⟨⟨result, first⟩, u, head, run⟩ := bind_ok.mp run
    obtain ⟨⟨others, later⟩, v, tail, last⟩ := bind_ok.mp run
    obtain ⟨same, rfl⟩ := pure_ok.mp last
    cases same
    rcases List.mem_append.mp member with inHead | inTail
    · cases value with
      | block children =>
        obtain ⟨⟨blocks, inner⟩, t, block, last⟩ := bind_ok.mp head
        obtain ⟨same, rfl⟩ := pure_ok.mp last
        cases same
        exact ⟨name, children, List.mem_cons_self .., mem_tracedBlock block inHead⟩
      | _ =>
        obtain ⟨same, -⟩ := pure_ok.mp head
        cases same
        cases inHead
    · obtain ⟨other, children, among, found⟩ := ih tail inTail
      exact ⟨other, children, List.mem_cons_of_mem _ among, found⟩

theorem tracedArguments_ok (run : tracedArguments traced arguments w = .ok (results, merges) w') :
    resolveArguments (fun target site => Prod.fst <$> traced target site) arguments w =
      .ok results w' := by
  rw [← tracedArguments_fst fun _ _ => rfl]
  exact map_ok.mpr ⟨_, run, rfl⟩

/-- **Where a record comes from.** Every merge was made at something that the resolved expression
contained, or is in the record of a reference. -/
theorem mem_tracedResolve (run : tracedResolve traced e w = .ok (result, merges) w')
    (member : merged ∈ merges) :
    traced.Records merged ∨ ∃ node, e.Contains node ∧ merged.MadeAt traced node := by
  induction e using Expression.inductionOn generalizing w result merges w' with
  | step e ih =>
    obtain ⟨id, parent, kind, arguments⟩ := e
    obtain ⟨⟨after, inside⟩, u, blocks, run⟩ := bind_ok.mp run
    obtain ⟨⟨joined, own⟩, v, join, last⟩ := bind_ok.mp run
    obtain ⟨same, rfl⟩ := pure_ok.mp last
    cases same
    -- the record starts with what happened in the blocks and ends with the expression itself
    rcases List.mem_append.mp member with below | here
    · obtain ⟨name, children, among, child, held, found⟩ := mem_tracedArguments blocks below
      obtain ⟨t, inner, others, t', resolved, recorded⟩ := found
      have holds : Expression.Holds ⟨id, parent, kind, arguments⟩ name child := ⟨_, among, held⟩
      rcases ih name child holds resolved recorded with nested | ⟨node, contained, made⟩
      · exact .inl nested
      · exact .inr ⟨node, holds.contains.trans contained, made⟩
    · obtain rfl | ⟨target, refers, take⟩ := tracedJoin_ok join
      · cases here
      rcases mem_tracedTake take here with nested | ⟨reference, taken⟩
      · exact .inl nested
      obtain ⟨site, t, rest, others, t', given⟩ := taken
      refine .inr ⟨_, Expression.contains_self _, ?_, ?_⟩
      · rw [reference]
        exact resolveArguments_sameReference rfl (tracedArguments_ok blocks)
      · exact ⟨target, site, t, rest, others, t', reference ▸ refers, given⟩

/-- Every merge of an instantiation was made at an expression in a copied definition. -/
theorem mem_tracedWithin {budget : Nat} {site : Arguments} {result : Expression × Arguments}
    (run : tracedWithin plan budget target site w = .ok (result, merges) w')
    (member : merged ∈ merges) :
    ∃ less target site s body rest t node, CopiedFrom plan target site s body rest t ∧
      body.Contains node ∧ merged.MadeAt (tracedWithin plan less) node := by
  induction budget generalizing target site w result merges w' with
  | zero => exact (throw_ok.mp run).elim
  | succ budget ih =>
    simp only [tracedWithin] at run
    obtain ⟨u, v, now, run⟩ := bind_ok.mp run
    split_ifs at run with again
    · obtain ⟨_, _, thrown, -⟩ := bind_ok.mp run
      exact (throw_ok.mp thrown).elim
    obtain ⟨t, copied, -⟩ := whileResolving_ok.mp run
    obtain ⟨⟨body, rest⟩, t, taken, run⟩ := bind_ok.mp copied
    obtain ⟨supply, origin, rfl⟩ := copiedBody_ok taken
    obtain ⟨⟨inst, inside⟩, t, resolved, last⟩ := bind_ok.mp run
    obtain ⟨same, rfl⟩ := pure_ok.mp last
    cases same
    rcases mem_tracedResolve resolved member with nested | ⟨node, contained, here⟩
    · obtain ⟨other, site, t, _, _, _, run, recorded⟩ := nested
      exact ih run recorded
    · exact ⟨budget, target, _, _, body, _, supply, node, origin, contained, here⟩

end Pagewright
