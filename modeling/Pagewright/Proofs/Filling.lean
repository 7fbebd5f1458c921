import Pagewright.Proofs.ResolutionOutline

/-!
# Lists and their rows

Filling goes down to the lists of an expression and leaves everything else in
place. A list without an initial count stays as it is; any other list gets one
row for each of its count, made from the instance of its item type.
-/

namespace Pagewright

open Outcome

variable {build : String → Building Expression} {e second result first e' : Expression}
  {w w' : Workshop} {value value' : Argument}

/-! ### What one step does -/

theorem fillLists_list (list : e.kind = "list") : fillLists build e = fillList build e := by
  obtain ⟨id, parent, kind, arguments⟩ := e
  cases list
  rw [fillLists, if_pos rfl]

theorem fillLists_other (another : e.kind ≠ "list") :
    fillLists build e = do
      let arguments ← fillArguments build e.arguments
      return { e with arguments } := by
  obtain ⟨id, parent, kind, arguments⟩ := e
  rw [fillLists, if_neg another]

/-- A list becomes its rows; any other element has the lists below it filled. -/
theorem fillLists_ok :
    fillLists build e w = .ok result w' ↔
      (e.kind = "list" ∧ fillList build e w = .ok result w') ∨
        (e.kind ≠ "list" ∧ ∃ arguments, fillArguments build e.arguments w = .ok arguments w' ∧
          { e with arguments } = result) := by
  by_cases list : e.kind = "list"
  · simp [fillLists_list list, list]
  · simp only [fillLists_other list, list, bind_ok, pure_ok, false_and, false_or, ne_eq,
      not_false_eq_true, true_and]
    constructor
    · rintro ⟨filled, _, run, rfl, rfl⟩
      exact ⟨filled, run, rfl⟩
    · rintro ⟨filled, run, rfl⟩
      exact ⟨filled, w', run, rfl, rfl⟩

/-- A list stays as it is, or gets its rows. -/
theorem fillList_ok {list : Expression} :
    fillList build list w = .ok result w' ↔
      (list.number? "initial" = none ∧ list = result ∧ w = w') ∨
        ∃ count type item u, list.number? "initial" = some count ∧
          list.text? "type" = some type ∧ build type w = .ok item u ∧
          list.set "body" (.block (makeRows item list.id count 0 u.ids).1) = result ∧
          { u with ids := (makeRows item list.id count 0 u.ids).2 } = w' := by
  unfold fillList
  cases initial : list.number? "initial" with
  | none => simp [pure_ok]
  | some count =>
    cases typed : list.text? "type" with
    | none => simp [throw_ok]
    | some type =>
      simp only [bind_ok, onIds_ok, modifyGet_ok, pure_ok, reduceCtorEq, false_and, false_or,
        Option.some.injEq]
      constructor
      · rintro ⟨item, u, built, rows, _, ⟨ids, made, rfl⟩, rfl, rfl⟩
        refine ⟨count, type, item, u, rfl, rfl, built, ?_⟩
        rw [made]
        exact ⟨rfl, rfl⟩
      · rintro ⟨_, _, item, u, rfl, rfl, built, rfl, rfl⟩
        exact ⟨item, u, built, _, _, ⟨_, rfl, rfl⟩, rfl, rfl⟩

theorem fillArguments_ok {arguments results : Arguments} :
    fillArguments build arguments w = .ok results w' ↔
      Threads (fun entry => do return (entry.1, ← fillArgument build entry.2)) arguments w results
        w' := by
  rw [fillArguments_eq, mapM_ok]

private theorem fillArgument_leaf (build : String → Building Expression)
    (leaf : value.block? = none) : fillArgument build value = pure value := by
  cases value with
  | block children => simp [Argument.block?] at leaf
  | atom | text | number | list => rfl

/-- A filled value is the value itself, or a block of filled expressions. -/
theorem fillArgument_ok {result : Argument} :
    fillArgument build value w = .ok result w' ↔
      (value.block? = none ∧ value = result ∧ w = w') ∨
        ∃ children results, value = .block children ∧ .block results = result ∧
          Threads (fillLists build) children w results w' := by
  cases block : value.block? with
  | none =>
    rw [fillArgument_leaf build block, pure_ok]
    constructor
    · exact fun same => .inl ⟨rfl, same⟩
    · rintro (⟨-, same⟩ | ⟨children, results, rfl, -⟩)
      · exact same
      · cases block
  | some children =>
    obtain rfl := Argument.eq_block block
    simp only [fillArgument, bind_ok, pure_ok, fillBlock_eq, mapM_ok, reduceCtorEq, false_and,
      false_or]
    constructor
    · rintro ⟨results, u, threads, rfl, rfl⟩
      exact ⟨children, results, rfl, rfl, threads⟩
    · rintro ⟨_, results, ⟨⟩, rfl, threads⟩
      exact ⟨results, w', threads, rfl, rfl⟩

/-- Filling changes the workshop only by taking identifiers and by building. -/
theorem fillLists_keeps {invariant : Workshop → Prop}
    (stable : ∀ w ids, invariant w → invariant { w with ids })
    (builds : ∀ type w item w', invariant w → build type w = .ok item w' → invariant w')
    (start : invariant w) (run : fillLists build e w = .ok result w') : invariant w' := by
  induction e using Expression.inductionOn generalizing result w w' with
  | step owner ih =>
    rcases fillLists_ok.mp run with ⟨-, filled⟩ | ⟨-, arguments, filled, -⟩
    · rcases fillList_ok.mp filled with ⟨-, -, rfl⟩ | ⟨count, type, item, u, -, -, built, -, rfl⟩
      · exact start
      · exact stable u _ (builds type w item u start built)
    · apply (fillArguments_ok.mp filled).keeps start
      rintro ⟨name, value⟩ member w result w' start step
      obtain ⟨filledValue, u, inner, last⟩ := bind_ok.mp step
      obtain ⟨-, rfl⟩ := pure_ok.mp last
      rcases fillArgument_ok.mp inner with ⟨-, -, rfl⟩ | ⟨children, results, rfl, -, threads⟩
      · exact start
      · apply threads.keeps start
        intro child inside w result w' start filled
        exact ih name child ⟨children, member, inside⟩ start filled

/-! ### Filling sees no identifiers -/

/-- Rows made from items of one outline have one outline. -/
theorem outline_makeRows {item item' : Expression} (same : item.outline = item'.outline)
    (owner owner' : ExpressionId) (count index : Nat) (supply supply' : Supply) :
    List.Forall₂ SameOutline (makeRows item owner count index supply).1
      (makeRows item' owner' count index supply').1 := by
  induction count generalizing index supply supply' with
  | zero => exact .nil
  | succ count ih =>
    refine .cons ?_ (ih (index + 1) _ _)
    refine Expression.outline_eq_iff.mpr ⟨rfl, rfl, .cons ⟨rfl, ?_⟩ (.cons ⟨rfl, rfl⟩ .nil)⟩
    refine Argument.outline_block_eq_iff.mpr (.cons ?_ .nil)
    have links : (some supply.next.toUInt32).isSome = (some supply'.next.toUInt32).isSome := rfl
    exact Expression.outline_unset (Expression.outline_copy same links _ _) "defines"

section

variable (same : first.outline = second.outline)

include same

theorem Expression.outline_set (name : String) (values : value.outline = value'.outline) :
    (first.set name value).outline = (second.set name value').outline := by
  rw [Expression.outline, Expression.renumber_set, Expression.outline, Expression.renumber_set]
  exact congrArg₂ (Expression.set · name) same values

theorem Expression.text?_of_outline (name : String) : first.text? name = second.text? name := by
  simpa [Expression.outline] using congrArg (Expression.text? · name) same

theorem Expression.texts_of_outline (name : String) : first.texts name = second.texts name := by
  simpa [Expression.outline] using congrArg (Expression.texts · name) same

theorem Expression.number?_of_outline (name : String) :
    first.number? name = second.number? name := by
  simpa [Expression.outline] using congrArg (Expression.number? · name) same

end

/-- A list of this item type is to be given rows. -/
inductive Expression.Wants (type : String) : Expression → Prop
  | list {e : Expression} : e.kind = "list" → (e.number? "initial").isSome = true →
      e.text? "type" = some type → Wants type e
  | inner {e child : Expression} {name : String} : e.kind ≠ "list" → e.Holds name child →
      Wants type child → Wants type e

section

variable {strict : Bool} {other : String → Building Expression} {kept : Workshop → Workshop → Prop}
  (stable : ∀ w v ids ids', kept w v → kept { w with ids } { v with ids := ids' })

include stable

private theorem fillList_parallel (list : e.kind = "list")
    (builds : ∀ type, e.Wants type → Parallel strict SameOutline kept (build type) (other type))
    (same : e.outline = e'.outline) :
    Parallel strict SameOutline kept (fillList build e) (fillList other e') := by
  unfold fillList
  rw [← Expression.number?_of_outline same, ← Expression.text?_of_outline same]
  cases initial : e.number? "initial" with
  | none => exact .pure same
  | some count =>
    cases typed : e.text? "type" with
    | none => exact .throw
    | some type =>
      dsimp only
      refine (builds type (.list list (by simp [initial]) typed)).bind fun item item' items => ?_
      have rows : Parallel strict (List.Forall₂ SameOutline) kept
          (Building.onIds (modifyGet (makeRows item e.id count 0)))
          (Building.onIds (modifyGet (makeRows item' e'.id count 0))) :=
        fun w v start => .ok (outline_makeRows items _ _ _ _ _ _) (stable w v _ _ start)
      refine rows.bind fun rows rows' made => .pure ?_
      exact Expression.outline_set same "body" (Argument.outline_block_eq_iff.mpr made)

omit stable in
/-- A value is filled alike if everything in it is. -/
theorem fillArgument_parallel (same : value.outline = value'.outline)
    (each : ∀ children, value = .block children → ∀ child ∈ children, ∀ child',
      SameOutline child child' →
        Parallel strict SameOutline kept (fillLists build child) (fillLists other child')) :
    Parallel strict (fun a b => a.outline = b.outline) kept (fillArgument build value)
      (fillArgument other value') := by
  cases block : value.block? with
  | none =>
    have block' := Argument.leaf_of_outline same block
    rw [fillArgument_leaf build block, fillArgument_leaf other block']
    exact .pure same
  | some children =>
    obtain rfl := Argument.eq_block block
    obtain ⟨children', rfl, entries⟩ := Argument.outline_eq_block same
    have blocks : Parallel strict (List.Forall₂ SameOutline) kept (children.mapM (fillLists build))
        (children'.mapM (fillLists other)) :=
      .mapM entries (each children rfl)
    simp only [fillArgument, fillBlock_eq]
    exact blocks.bind fun as bs results => .pure (Argument.outline_block_eq_iff.mpr results)

/-- If the items that are wanted are built alike then lists are filled alike. -/
theorem fillLists_parallel
    (builds : ∀ type, e.Wants type → Parallel strict SameOutline kept (build type) (other type))
    (same : e.outline = e'.outline) :
    Parallel strict SameOutline kept (fillLists build e) (fillLists other e') := by
  induction e using Expression.inductionOn generalizing e' with
  | step owner ih =>
    obtain ⟨links, kinds, arguments⟩ := Expression.outline_eq_iff.mp same
    by_cases list : owner.kind = "list"
    · rw [fillLists_list list, fillLists_list (kinds ▸ list)]
      exact fillList_parallel stable list builds same
    · -- The blocks are filled alike, by what holds of everything in them.
      have each : Parallel strict SameArguments kept (fillArguments build owner.arguments)
          (fillArguments other e'.arguments) := by
        rw [fillArguments_eq, fillArguments_eq]
        refine Parallel.mapM arguments fun entry member entry' ⟨names, values⟩ => ?_
        refine (fillArgument_parallel values ?_).bind fun a b result => .pure ⟨names, result⟩
        intro children equal child inside child' outlines
        have held : owner.Holds entry.1 child := ⟨children, equal ▸ member, inside⟩
        exact ih entry.1 child held (fun type wanted => builds type (.inner list held wanted)) outlines
      rw [fillLists_other list, fillLists_other (kinds ▸ list)]
      refine each.bind fun as bs results => .pure ?_
      exact Expression.outline_eq_iff.mpr ⟨links, kinds, results⟩

end

/-- What is wanted has been built wherever lists were filled. -/
theorem fillLists_wants {type : String} (wanted : e.Wants type)
    (run : fillLists build e w = .ok result w') : ∃ u item u', build type u = .ok item u' := by
  induction wanted generalizing result w w' with
  | @list e isList initial typed =>
    rcases fillLists_ok.mp run with ⟨-, filled⟩ | ⟨another, -⟩
    · rcases fillList_ok.mp filled with ⟨none, -⟩ | ⟨count, type', item, u, -, typed', built, -⟩
      · simp [none] at initial
      · rw [typed] at typed'
        cases typed'
        exact ⟨w, item, u, built⟩
    · exact absurd isList another
  | @inner e child name another held wanted ih =>
    rcases fillLists_ok.mp run with ⟨isList, -⟩ | ⟨-, results, filled, rfl⟩
    · exact absurd isList another
    · obtain ⟨children, member, inside⟩ := held
      obtain ⟨_, t, u, step⟩ := (fillArguments_ok.mp filled).step_of_mem member
      obtain ⟨value, _, ran, -⟩ := bind_ok.mp step
      rcases fillArgument_ok.mp ran with ⟨leaf, -⟩ | ⟨_, _, ⟨⟩, -, threads⟩
      · cases leaf
      · obtain ⟨_, _, _, filledChild⟩ := threads.step_of_mem inside
        exact ih filledChild

end Pagewright
