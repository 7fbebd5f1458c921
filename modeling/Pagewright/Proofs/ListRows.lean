import Pagewright.Proofs.ItemTypes
import Pagewright.Proofs.Rearrangement

/-!
# Lists and their rows

A list that starts with some number of rows has exactly these, numbered from
zero, each of them around what its item type is exported as. Rows are copies of a
finished instance, so this holds of the lists in rows as it does of any other.
-/

namespace Pagewright

variable {item second first row other : Expression} {name : String} {index : Nat}

/-! ### Rows of an item -/

/-- Row number `index` of a list: a `div` with this id, around `item` without the name it defines. -/
structure Expression.IsRowAt (row : Expression) (index : Nat) (item : Expression) : Prop where
  kind : row.kind = "div"
  content : ∃ content, row.arguments =
      [("body", .block [content]), ("id", .text (toString index))] ∧
    SameContent content (item.unset "defines")

theorem SameContent.trans {third : Expression} (one : SameContent first second)
    (two : SameContent second third) : SameContent first third := by
  refine ⟨one.kinds.trans two.kinds, renumberArguments_eq_iff.mp ?_⟩
  exact (renumberArguments_eq_iff.mpr one.arguments).trans (renumberArguments_eq_iff.mpr two.arguments)

private theorem SameContent.unset (contents : SameContent first second) (name : String) :
    SameContent (first.unset name) (second.unset name) :=
  ⟨contents.kinds, contents.arguments.erase name⟩

private theorem Expression.IsRowAt.of_item (isRow : row.IsRowAt index item)
    (same : SameOutline item other) : row.IsRowAt index other := by
  obtain ⟨content, arguments, contents⟩ := isRow.content
  exact ⟨isRow.kind, content, arguments, contents.trans (same.content.unset _)⟩

private theorem Expression.IsRowAt.of_row (isRow : row.IsRowAt index item)
    (same : SameOutline row other) : other.IsRowAt index item := by
  obtain ⟨content, arguments, contents⟩ := isRow.content
  obtain ⟨kinds, entries⟩ := same.content
  refine ⟨kinds ▸ isRow.kind, ?_⟩
  rw [arguments] at entries
  -- first the block with its one expression, then the id, and nothing else
  obtain ⟨⟨_, body⟩, _, ⟨rfl, block⟩, later, written⟩ := List.forall₂_cons_left_iff.mp entries
  obtain ⟨⟨_, id⟩, _, ⟨rfl, text⟩, last, rfl⟩ := List.forall₂_cons_left_iff.mp later
  obtain rfl := List.forall₂_nil_left_iff.mp last
  obtain rfl := Argument.outline_eq_text text
  obtain ⟨_, rfl, children⟩ := Argument.outline_eq_block block
  obtain ⟨content', _, outlines, none, rfl⟩ := List.forall₂_cons_left_iff.mp children
  obtain rfl := List.forall₂_nil_left_iff.mp none
  exact ⟨content', written, (SameContent.symm outlines.content).trans contents⟩

private theorem makeRows_rowsAt (resolved : item.Throughout Expression.IsResolved)
    (tidy : item.Throughout Expression.IsTidy) (owner : ExpressionId) (count index : Nat)
    (supply : Supply) :
    List.Forall₂ (fun index row => row.IsRowAt index item) (List.range' index count)
      (makeRows item owner count index supply).1 := by
  induction count generalizing index supply with
  | zero => exact .nil
  | succ count ih =>
    rw [List.range'_succ]
    refine .cons ⟨rfl, _, rfl, ?_⟩ (ih (index + 1) _)
    exact (SameContent.symm (Expression.copy_content resolved tidy _ _)).unset _

/-! ### Exports -/

private theorem exists_lookup_zip {related : String → Expression → Prop} {names : List String}
    {roots : List Expression} (all : List.Forall₂ related names roots) (member : name ∈ names) :
    ∃ root, (names.zip roots).lookup name = some root ∧ related name root := by
  induction all with
  | nil => cases member
  | @cons first root names roots here _ ih =>
    by_cases same : name = first
    · subst same
      exact ⟨root, by simp, here⟩
    · obtain ⟨root, found, holds⟩ := ih ((List.mem_cons.mp member).resolve_left same)
      refine ⟨root, ?_, holds⟩
      rw [List.zip_cons_cons, Entries.lookup_cons_of_ne same, found]

/-- What is known of a list in an export, with `exports` giving the export of a definition. -/
structure Expression.IsExpanded (limit : Nat) (exports : String → Option Expression)
    (list : Expression) : Prop where
  empty : list.get? "initial" = none → list.get? "body" = none
  rows : ∀ value, list.get? "initial" = some value →
    ∃ count type item rows, list.number? "initial" = some count ∧ count ≤ limit ∧
      (∀ low, list.get? "min" = some low → ∃ min, list.number? "min" = some min ∧ min ≤ count) ∧
      (∀ high, list.get? "max" = some high → ∃ max, list.number? "max" = some max ∧ count ≤ max) ∧
      list.text? "type" = some type ∧ exports type = some item ∧
      list.get? "body" = some (.block rows) ∧
      List.Forall₂ (fun index row => row.IsRowAt index item) (List.range count) rows

theorem Expression.CountsRows.number {limit : Nat} {e : Expression} (counts : e.CountsRows limit)
    (counted : name ∈ ["initial", "min", "max"]) {value : Argument}
    (found : e.get? name = some value) : ∃ amount, e.number? name = some amount := by
  refine (Expression.fits_number_iff.mp (counts.numbers name counted)).resolve_left ?_
  simp [found]

private theorem Expression.HasRows.isExpanded {plan : Plan} (checked : plan.Checked)
    {list : Expression} (has : list.HasRows plan plan.HasInstance) (isList : list.kind = "list")
    {exports : String → Option Expression}
    (exported : ∀ type ∈ plan.table.exportNames, ∃ root, exports type = some root ∧
      plan.Exports type root) : list.IsExpanded plan.rowLimit exports := by
  have counts := has.counts isList
  constructor
  · intro missing
    rcases has.rows isList with ⟨-, empty⟩ | ⟨count, _, _, _, initial, -⟩
    · exact empty
    · simp [Expression.number?, missing] at initial
  · intro value given
    obtain ⟨count, initial⟩ := counts.number (by simp) given
    rcases has.rows isList with ⟨none, -⟩ | ⟨_, type, item, rows, initial', typed, instances, noPage,
      block, made⟩
    · rw [initial] at none
      cases none
    · rw [initial] at initial'
      cases initial'
      obtain ⟨_, typed', known⟩ := has.typed isList
      rw [typed] at typed'
      cases typed'
      -- the item is no page, so its export is its instance
      obtain ⟨root, found, inst, instances', rfl⟩ := exported type known
      have same := instances.unique instances'
      have unchanged : plan.exported inst = inst := by
        rw [Plan.exported, if_neg (Expression.kind_of_outline same ▸ noPage)]
      refine ⟨count, type, inst, rows, initial, counts.limited count initial, ?_, ?_, typed,
        unchanged ▸ found, block, ?_⟩
      · intro low given
        obtain ⟨min, bound⟩ := counts.number (by simp) given
        exact ⟨min, bound, counts.ordered.above min bound count initial⟩
      · intro high given
        obtain ⟨max, bound⟩ := counts.number (by simp) given
        exact ⟨max, bound, counts.ordered.below count initial max bound⟩
      · rw [List.range_eq_range']
        have numbered := makeRows_rowsAt (instances.resolved checked) (instances.tidy checked) 0 count
          0 {}
        refine forall₂_of_common ?_ numbered.flip made
        intro made index row isRow outlines
        exact (isRow.of_row outlines).of_item same

/-- **Lists are expanded exactly.** A list at any depth of an export, in generated rows as well, has a
block only if it has an initial count. The count is within the limit and the bounds of the list, and
the block holds as many rows, numbered from zero, each of them around the export of the item type. -/
theorem lists_expanded {session session' : Session} {set : ExportSet}
    (reachable : session.Reachable) (run : Session.analyze session = .ok set session')
    {root list : Expression} (exported : root ∈ set.exports)
    (below : Relation.ReflTransGen Expression.Owns root list) (isList : list.kind = "list") :
    list.IsExpanded session.config.maxListRows (session.exportOf set) := by
  obtain ⟨table, made, checked, exports⟩ := reachable.analyze_sound run
  obtain ⟨name, -, ofName⟩ := exists_of_forall₂_right exports exported
  have contained := (ofName.resolved checked).2.contains_of_owns below
  obtain ⟨inst, instances, rfl⟩ := ofName
  have rows := Plan.exported_hasRows (instances.hasRows checked)
  refine (rows list contained).isExpanded checked isList ?_
  intro type known
  have named := (Table.ofExpressions_holds made).exportNames_eq
  rw [Session.exportOf, ← named]
  exact exists_lookup_zip exports known

private theorem Expression.Holds.owns {owner child : Expression} (held : owner.Holds name child) :
    owner.Owns child := by
  obtain ⟨children, member, inside⟩ := held
  exact ⟨name, _, member, .block inside⟩

theorem lists_expanded_grid :
    ∃ set session', Session.analyze (Session.ofSource grid) =
        .ok set session' ∧ ∃ root ∈ set.exports, ∃ outer row inner, root.Holds "body" outer ∧
      outer.kind = "list" ∧ outer.Holds "body" row ∧ row.Holds "body" inner ∧ inner.kind = "list" ∧
        inner.number? "initial" = some 2 ∧
        inner.IsExpanded (Session.ofSource grid).config.maxListRows
          ((Session.ofSource grid).exportOf set) := by
  have shown : (Session.ofSource grid).exportSet?.any (fun set =>
      set.exports.any fun root => ((root.block? "body").getD []).any fun outer =>
        outer.kind = "list" && ((outer.block? "body").getD []).any fun row =>
          ((row.block? "body").getD []).any fun inner =>
            inner.kind = "list" && inner.number? "initial" = some 2) = true := by
    decide +kernel
  obtain ⟨set, session', run, shown⟩ := Session.analyze_of_any shown
  simp only [List.any_eq_true, Bool.and_eq_true, decide_eq_true_eq] at shown
  obtain ⟨root, exported, outer, inRoot, isList, row, inOuter, inner, inRow, isInner, two⟩ := shown
  have first := Expression.holds_of_block inRoot
  have second := Expression.holds_of_block inOuter
  have third := Expression.holds_of_block inRow
  have below : Relation.ReflTransGen Expression.Owns root inner :=
    ((Relation.ReflTransGen.single first.owns).tail second.owns).tail third.owns
  exact ⟨set, session', run, root, exported, outer, row, inner, first, isList, second, third, isInner,
    two, lists_expanded (.ofSource grid) run exported below isInner⟩

end Pagewright
