import Pagewright.Proofs.Placements
import Pagewright.Proofs.Survey

/-!
# Labels and their targets on a page

Every label of an exported page that names an id of the page is written with the
id of an element of the page, whichever layer it stands in, with one exception: a
definition that is called like the page's own id is checked as if it stood at the
page, so what is labelled in its rows need not be there. The main result is
`label_targets_written`.
-/

namespace Pagewright

open Outcome

variable {base name raw : String} {top inner page row : Expression} {start place : Anchor}
  {label : Placement}

/-! ### Layers where they stand -/

/-- What stands in something of a layer stands in the top of the layer. -/
theorem Expression.InLayer.placements (inside : top.InLayer start inner place) (base : String)
    (item? : Option String) :
    inner.placements (place.stem base) item? ⊆ top.placements (start.stem base) item? := by
  induction inside with
  | top => exact List.Subset.refl _
  | @held top child _ start _ name noList held _ ih =>
    intro placement member
    refine Expression.mem_placements.mpr (.inr ⟨name, child, held, ?_⟩)
    rw [Expression.itemBelow, if_neg noList, innerStem_eq]
    exact ih member

/-- What a label is written for is the id of something placed. -/
def Placement.FindsTarget (label : Placement) (placements : List Placement) : Prop :=
  ∃ full, label.element.target = some full ∧ ∃ target ∈ placements, target.element.id = some full

/-- A label in a layer that hits its targets finds its own. -/
theorem Expression.HitsTargets.findsTarget {label : Expression} {anchor : Anchor}
    (hits : top.HitsTargets base) (inside : top.InLayer {} label anchor)
    (isLabel : label.kind = "label") (aims : label.text? "for" = some raw)
    (tracked : (ScopedId.split raw).isTracked = true) (item? : Option String) :
    Placement.FindsTarget ⟨label, anchor.stem base, item?⟩ (top.placements base item?) := by
  have aim : label.aim? = some (ScopedId.split raw) := by
    simp [Expression.aim?, isLabel, aims, Option.filter, tracked]
  obtain ⟨target, place, own, there, found, equal⟩ := hits label anchor _ inside aim
  obtain ⟨given, isTracked⟩ := Expression.trackedId?_eq_some.mp found
  rw [Anchor.reach_stem isTracked, Anchor.reach_stem tracked] at equal
  refine ⟨(ScopedId.split raw).fullId (anchor.stem base), ?_, ⟨target, place.stem base, item?⟩,
    there.placements base item? (Expression.mem_placements.mpr (.inl rfl)), ?_⟩
  · simp [Placement.element, Expression.ownElement, isLabel, aims]
  · rw [← equal]
    simp [Placement.element, Expression.ownElement, given]

theorem Placement.FindsTarget.mono {placements others : List Placement}
    (finds : label.FindsTarget placements) (more : placements ⊆ others) :
    label.FindsTarget others := by
  obtain ⟨full, written, target, member, named⟩ := finds
  exact ⟨full, written, target, more member, named⟩

/-! ### Rows -/

variable {plan : Plan}

/-- What stands in a row: it is no label itself, and holds what has the layer of the item. -/
structure Expression.IsRowOf (row item : Expression) : Prop where
  kind : row.kind = "div"
  content : ∀ name child, row.Holds name child → item.LayerWithin child ∧ child.LayerWithin item

private theorem makeRows_isRowOf {item made : Expression}
    (resolved : item.Throughout Expression.IsResolved) (tidy : item.Throughout Expression.IsTidy)
    {owner : ExpressionId} {count index : Nat} {supply : Supply}
    (member : made ∈ (makeRows item owner count index supply).1) (same : SameOutline made row) :
    row.IsRowOf item := by
  obtain ⟨id, index, later, rfl⟩ := mem_makeRows member
  refine ⟨(Expression.kind_of_outline same).symm, ?_⟩
  intro name child held
  obtain ⟨origin, there, outlines⟩ := held.same (SameOutline.content same).arguments
  obtain ⟨-, rfl⟩ := rowWith_holds.mp there
  have outer := SameOutline.content outlines
  have copied := Expression.copy_content resolved tidy (some id) later
  have final := (Expression.IsResolved.same copied resolved.here).final
  -- blocks stand under other names than the one that is dropped
  have shows : (item.copy (some id) later).1.ShowsSame
      ((item.copy (some id) later).1.unset "defines") := by
    refine ⟨rfl, ?_, ?_⟩
    · simp only [Expression.text?, Expression.get?_unset_of_ne _ (show "id" ≠ "defines" by decide)]
    · simp only [Expression.text?, Expression.get?_unset_of_ne _ (show "for" ≠ "defines" by decide)]
  have forth : (item.copy (some id) later).1.LayerWithin
      ((item.copy (some id) later).1.unset "defines") := by
    refine .of_held shows fun _ place inner held => ⟨inner, ?_, .refl inner⟩
    obtain ⟨children, among, inside⟩ := held
    refine ⟨children, Entries.mem_erase.mpr ⟨among, ?_⟩, inside⟩
    rintro (rfl : place = "defines")
    have block : _ = _ ∨ _ = _ := final "defines" _ among
    simp at block
  have back := Expression.LayerWithin.of_held shows.symm fun _ place inner held =>
    ⟨inner, held.of_unset, .refl inner⟩
  exact ⟨copied.layerWithin.trans (forth.trans outer.layerWithin),
    outer.symm.layerWithin.trans (back.trans copied.symm.layerWithin)⟩

/-- What a list holds is a row of its item type. -/
theorem Expression.HasRows.isRow (checked : plan.Checked) {list : Expression}
    (has : list.HasRows plan plan.HasInstance) (tidy : list.IsTidy) (isList : list.kind = "list")
    (held : list.Holds name row) :
    ∃ type item, list.text? "type" = some type ∧ plan.HasInstance type item ∧
      item.kind ≠ "page" ∧ row.IsRowOf item := by
  obtain ⟨count, type, item, made, -, typed, instances, noPage, among, same⟩ :=
    has.held tidy isList held
  exact ⟨type, item, typed, instances, noPage,
    makeRows_isRowOf (instances.resolved checked) (instances.tidy checked) among same⟩

/-! ### Labels -/

/-- A label that names a tracked id, not in a row of what is called like the page's id. -/
structure Placement.IsProperLabel (label : Placement) (raw : String) : Prop where
  kind : label.expression.kind = "label"
  aims : label.expression.text? "for" = some raw
  tracked : (ScopedId.split raw).isTracked = true
  proper : label.item? ≠ some pageStem

/-- Labels in and below an expression find their targets, if the layer it belongs to hits its own. -/
def Expression.LabelsFind (e : Expression) : Prop :=
  ∀ (item? : Option String) (top : Expression) (base : String) (anchor : Anchor),
    top.InLayer {} e anchor → (item? ≠ some pageStem → top.HitsTargets base) →
    ∀ label ∈ e.placements (anchor.stem base) item?, ∀ raw, label.IsProperLabel raw →
      label.FindsTarget (top.placements base item?)

private theorem Expression.labelsFind (checked : plan.Checked)
    (identifiers : ∀ name ∈ plan.table.names, isIdentifier name = true) {e : Expression}
    (rows : e.Throughout (Expression.HasRows plan plan.HasInstance))
    (tidy : e.Throughout Expression.IsTidy) : e.Throughout Expression.LabelsFind := by
  induction e using Expression.inductionOn with
  | step owner ih =>
    have below : ∀ name child, owner.Holds name child → child.Throughout Expression.LabelsFind :=
      fun name child held => ih name child held (rows.child held) (tidy.child held)
    refine Expression.throughout_iff.mpr ⟨?_, below⟩
    -- a label here belongs to the layer of `top`; deeper ones to it or to that of a row
    intro item? top base anchor inside hits label member raw isLabel
    rcases Expression.mem_placements.mp member with rfl | ⟨name, child, held, deeper⟩
    · exact (hits isLabel.proper).findsTarget inside isLabel.kind isLabel.aims isLabel.tracked item?
    by_cases list : owner.kind = "list"
    · -- the child is a row, and a layer of its own starts in it
      obtain ⟨type, item, typed, instances, noPage, row⟩ :=
        rows.here.isRow checked tidy.here list held
      have itemBelow : owner.itemBelow item? = some type := by
        rw [Expression.itemBelow, if_pos list, typed]
      have rowBelow : child.itemBelow (some type) = some type := by
        rw [Expression.itemBelow, if_neg (by rw [row.kind]; decide)]
      rw [itemBelow] at deeper
      rcases Expression.mem_placements.mp deeper with rfl | ⟨place, content, inRow, further⟩
      · exact absurd (row.kind.symm.trans isLabel.kind) (by decide)
      rw [rowBelow] at further
      obtain ⟨_, typed', known⟩ := rows.here.typed list
      rw [typed] at typed'
      cases typed'
      have identifier := identifiers type (plan.table.exportNames_sublist.mem known)
      obtain ⟨forth, back⟩ := row.content _ _ inRow
      have found := ((below name child held).child inRow).here _ content _ {} (.top _ _)
        (fun apart => (instances.hits checked identifier
          (.inr ⟨noPage, fun same => apart (congrArg some same)⟩)).of_layer forth back)
        label further raw isLabel
      refine found.mono fun placement placed => inside.placements base item? ?_
      refine Expression.mem_placements.mpr (.inr ⟨name, child, held, ?_⟩)
      rw [itemBelow]
      refine Expression.mem_placements.mpr (.inr ⟨place, content, inRow, ?_⟩)
      rwa [rowBelow]
    · rw [Expression.itemBelow, if_neg list, innerStem_eq] at deeper
      exact (below name child held).here item? top base _ (inside.snoc list held) hits label deeper
        raw isLabel

/-! ### Pages -/

/-- Pages differ from their instances in their scripts only. -/
theorem Plan.exported_body (inst : Expression) :
    (plan.exported inst).block? "body" = inst.block? "body" := by
  unfold Plan.exported
  split_ifs
  · have kept : (plan.withScripts inst).get? "body" = inst.get? "body" :=
      Entries.lookup_insert_of_ne _ _ (by decide)
    rw [Expression.block?, kept, Expression.block?]
  · rfl

/-- The elements of a page are those of everything in its body. -/
theorem Plan.HasInstance.draws_body (checked : plan.Checked)
    (instances : plan.HasInstance name page) :
    DrawsAll ((page.block? "body").getD []) pageStem (elementsAt page.bodyPlacements) := by
  apply drawsAll_placements
  intro child among
  have held := Expression.holds_of_block among
  have resolved := instances.resolved checked
  exact Expression.draws_placements (resolved.child held) ((instances.tidy checked).child held)
    ((instances.written checked).child held) (resolved.here.pages _ _ held) pageStem none

private theorem Plan.HasInstance.labels_find (checked : plan.Checked)
    (identifiers : ∀ name ∈ plan.table.names, isIdentifier name = true)
    (known : name ∈ plan.table.names) (instances : plan.HasInstance name page)
    (isPage : page.kind = "page") (member : label ∈ page.bodyPlacements)
    (isLabel : label.IsProperLabel raw) :
    ∃ full, label.element.target = some full ∧
      ∃ element ∈ elementsAt page.bodyPlacements, element.id = some full := by
  have tidy := instances.tidy checked
  have written := instances.written checked
  have placements : ∀ placement, placement ∈ page.placements pageStem none ↔
      placement = ⟨page, pageStem, none⟩ ∨ placement ∈ page.bodyPlacements := by
    intro placement
    rw [Expression.placements_page isPage tidy.here written.here, List.mem_cons]
  have hits : page.HitsTargets pageStem :=
    instances.hits checked (identifiers name known) (.inl ⟨isPage, rfl⟩)
  have find := (Expression.labelsFind checked identifiers (instances.hasRows checked) tidy).here
  obtain ⟨full, target, other, among, id⟩ :=
    find none page pageStem {} (.top _ _) (fun _ => hits) label
      ((placements label).mpr (.inr member)) raw isLabel
  -- neither the page nor a text has an id
  have named : other.expression.get? "id" ≠ none := by
    intro missing
    simp [Placement.element, Expression.ownElement, Expression.scopedId?, Expression.text?,
      missing] at id
  have silent := mt (written.placed among).noId named
  have inBody : other ∈ page.bodyPlacements := by
    rcases (placements other).mp among with rfl | inBody
    · exact absurd (.inl isPage) silent
    · exact inBody
  refine ⟨full, target, other.element, ?_, id⟩
  apply List.mem_map_of_mem
  exact List.mem_filter.mpr ⟨inBody, by simpa using fun text => silent (.inr text)⟩

/-- **Labels find their targets.** The markup of an exported page has the elements of everything in
its body. Every label there that names a tracked id is written for the id of one of them, in rows as
well, unless it stands in a row of what is called like the page's id. -/
theorem label_targets_written {session session' : Session} {set : ExportSet}
    (reachable : session.Reachable) (run : Session.analyze session = .ok set session')
    {page : Expression} (exported : page ∈ set.exports) (isPage : page.kind = "page") :
    DrawsAll ((page.block? "body").getD []) pageStem (elementsAt page.bodyPlacements) ∧
      ∀ label ∈ page.bodyPlacements, ∀ raw, label.IsProperLabel raw →
        ∃ full, label.element.target = some full ∧
          ∃ element ∈ elementsAt page.bodyPlacements, element.id = some full := by
  obtain ⟨table, made, checked, exports⟩ := reachable.analyze_sound run
  obtain ⟨name, known, inst, instances, rfl⟩ := exists_of_forall₂_right exports exported
  have identifiers := (Table.ofExpressions_holds made).identifiers
  have among := table.exportNames_sublist.mem known
  rw [Plan.exported_kind] at isPage
  rw [Expression.bodyPlacements, Plan.exported_body]
  refine ⟨instances.draws_body checked, ?_⟩
  intro label member raw isLabel
  exact instances.labels_find checked identifiers among isPage member isLabel

/-- A page with one row of an item in which a label and an input share an id. -/
def labelledPage : String :=
  "div defines: \"item\", body: \x7b label for: \"x\" input id: \"x\", type: \"text\" \x7d\n" ++
  "page defines: \"top\", body: \x7b list id: \"l\", type: \"item\", initial: 1 \x7d\n"

theorem label_targets_written_row :
    ∃ set session', Session.analyze (Session.ofSource labelledPage) =
        .ok set session' ∧ ∃ page ∈ set.exports, page.kind = "page" ∧
      ∃ label ∈ page.bodyPlacements, label.stem = "page-l-0" ∧ label.IsProperLabel "x" ∧
        ∃ full, label.element.target = some full ∧
          ∃ element ∈ elementsAt page.bodyPlacements, element.id = some full := by
  have shown : (Session.ofSource labelledPage).exportSet?.any (fun set =>
      set.exports.any fun page => page.kind = "page" && page.bodyPlacements.any fun label =>
        label.stem = "page-l-0" && label.expression.kind = "label" &&
          label.expression.text? "for" = some "x" && label.item? = some "item") = true := by
    decide +kernel
  obtain ⟨set, session', run, shown⟩ := Session.analyze_of_any shown
  obtain ⟨page, exported, shown⟩ := List.any_eq_true.mp shown
  simp only [Bool.and_eq_true, decide_eq_true_eq, List.any_eq_true] at shown
  obtain ⟨isPage, label, member, ⟨⟨stem, kind⟩, aims⟩, item⟩ := shown
  have proper : label.IsProperLabel "x" := ⟨kind, aims, rfl, by rw [item]; decide⟩
  have reachable := Session.Reachable.ofSource labelledPage
  exact ⟨set, session', run, page, exported, isPage, label, member, stem, proper,
    (label_targets_written reachable run exported isPage).2 label member "x" proper⟩

/-- The item of a list is called like the page's id. Its label and its input share an id while it is
checked as if it stood at the page, and no longer in a row. -/
def strayLabel : String :=
  "div defines: \"page\", body: \x7b label for: \"x\" input id: \"#x\", type: \"text\" \x7d\n" ++
  "page defines: \"home\", body: \x7b list id: \"l\", type: \"page\", initial: 1 \x7d\n"

theorem strayLabel_misses_target :
    ∃ set session', Session.analyze (Session.ofSource strayLabel) =
        .ok set session' ∧ ∃ page ∈ set.exports, page.kind = "page" ∧
      ∃ label ∈ page.bodyPlacements, label.expression.kind = "label" ∧
        label.expression.text? "for" = some "x" ∧ (ScopedId.split "x").isTracked = true ∧
        label.element.target = some "page-l-0-x" ∧
        ∀ element ∈ elementsAt page.bodyPlacements, element.id ≠ some "page-l-0-x" := by
  have missed : (Session.ofSource strayLabel).exportSet?.any (fun set =>
      set.exports.any fun page => page.kind = "page" && page.bodyPlacements.any fun label =>
        label.expression.kind = "label" && label.expression.text? "for" = some "x" &&
          label.element.target = some "page-l-0-x" &&
          (elementsAt page.bodyPlacements).all fun element => element.id ≠ some "page-l-0-x") =
        true := by
    decide +kernel
  obtain ⟨set, session', run, missed⟩ := Session.analyze_of_any missed
  obtain ⟨page, exported, missed⟩ := List.any_eq_true.mp missed
  simp only [Bool.and_eq_true, decide_eq_true_eq, List.any_eq_true, List.all_eq_true] at missed
  obtain ⟨isPage, label, member, ⟨⟨kind, aims⟩, target⟩, none⟩ := missed
  exact ⟨set, session', run, page, exported, isPage, label, member, kind, aims, rfl, target, none⟩

end Pagewright
