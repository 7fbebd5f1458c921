import Pagewright.Proofs.ResolvedExports

/-!
# The rows of an instance

In an instance every list with an initial count holds that many rows, each with
a copy of an instance of the item type. A copy of an instance differs from it in
identifiers only, so this says the same about lists in rows.
-/

namespace Pagewright

open Outcome

variable {name stem : String} {inst e second first item child : Expression} {owner : ExpressionId}
  {depth index count : Nat} {context : Context} {property : Expression → Prop}
  {items : String → Expression → Prop} {children : List Expression}

/-! ### Instances are tidy -/

private theorem Expression.Throughout.tidy_unset (tidy : e.Throughout Expression.IsTidy)
    (name : String) : (e.unset name).Throughout Expression.IsTidy :=
  Expression.throughout_tidy_iff.mpr ((Expression.throughout_tidy_iff.mp tidy).erase name)

private theorem rowWith_tidy {id : ExpressionId} {content : Expression}
    (linked : content.parent.isSome = true) (tidy : content.Throughout Expression.IsTidy) :
    (rowWith id owner index content).Throughout Expression.IsTidy := by
  refine Expression.throughout_iff.mpr ⟨⟨?_, ?_⟩, ?_⟩
  · show Entries.Ordered [("body", Argument.block [content]), ("id", .text (toString index))]
    simp only [Entries.Ordered, List.pairwise_cons, List.mem_singleton, forall_eq,
      List.not_mem_nil, false_imp_iff, implies_true, List.Pairwise.nil, and_true]
    decide
  · intro name child held
    obtain ⟨rfl, rfl⟩ := rowWith_holds.mp held
    exact linked
  · intro name child held
    obtain ⟨rfl, rfl⟩ := rowWith_holds.mp held
    exact tidy

/-- Filling keeps the link to a parent and makes everything tidy. -/
def TidiedBy (e result : Expression) : Prop :=
  result.parent = e.parent ∧ result.Throughout Expression.IsTidy

section

variable {σ : Type} {rules : Rules σ} {context : Context} {e : Expression} {kind : Kind}
  {stem : String}

private theorem Settled.tidy_rows (settled : Settled rules context e .list stem)
    (tidy : item.Throughout Expression.IsTidy) (count : Nat) (supply : Supply) :
    TidiedBy e (e.set "body" (.block (makeRows item e.id count 0 supply).1)) := by
  refine ⟨rfl, Expression.throughout_iff.mpr ⟨⟨settled.plain.tidy.ordered.insert _ _, ?_⟩, ?_⟩⟩
  all_goals
    intro name child held
    obtain ⟨id, index, later, rfl⟩ := mem_makeRows (settled.held_row held).2
  · rfl
  · exact rowWith_tidy (by simp [Expression.unset])
      ((Expression.copy_tidy tidy _ _).tidy_unset _)

private theorem Settled.tidy_other (settled : Settled rules context e kind stem) {after : Arguments}
    (become : ArgumentsBecome (FilledBelow rules (fun _ => TidiedBy) (context.below kind stem) kind)
      e.arguments after) : TidiedBy e { e with arguments := after } := by
  refine ⟨rfl, Expression.throughout_iff.mpr ⟨⟨?_, ?_⟩, ?_⟩⟩
  · exact settled.plain.tidy.ordered.of_names (Entries.names_of_forall₂ become fun _ _ => And.left)
  · intro name child held
    obtain ⟨origin, -, below⟩ := become.held held
    rw [below.filled.1]
    exact below.linked
  · intro name child held
    obtain ⟨origin, -, below⟩ := become.held held
    exact below.filled.2

end

variable {plan : Plan}

theorem standalone_tidy (checked : plan.Checked) (found : standalone plan depth name = some inst) :
    inst.Throughout Expression.IsTidy := by
  induction depth generalizing name inst with
  | zero => cases found
  | succ depth ih =>
    obtain ⟨root, w, w', isRoot, -, filled⟩ := standalone_root checked found
    have tidied : TidiedBy root inst := by
      refine isRoot.walked.fill_induction (motive := fun _ => TidiedBy) ?_ ?_ ?_ isRoot.plain
        isRoot.textName filled
      · intro context e stem settled none
        refine ⟨rfl, Expression.throughout_iff.mpr ⟨settled.plain.tidy, fun name child held => ?_⟩⟩
        exact (settled.holds_nothing held).elim
      · intro context e stem count type item supply settled _ _ known
        exact settled.tidy_rows (ih known) count supply
      · exact fun context e kind stem after settled _ become => settled.tidy_other become
    exact tidied.2

/-! ### Copies of instances -/

private theorem copyArguments_same {arguments : Arguments}
    (each : ∀ name value, (name, value) ∈ arguments → ∀ supply,
      value.outline = (value.copy owner supply).1.outline) (supply : Supply) :
    SameArguments arguments (copyArguments arguments owner supply).1 := by
  induction arguments generalizing supply with
  | nil => exact .nil
  | cons entry rest ih =>
    refine .cons ⟨rfl, each entry.1 entry.2 (by simp) supply⟩ (ih ?_ _)
    exact fun name value member => each name value (List.mem_cons_of_mem _ member)

private theorem copyBlock_same
    (each : ∀ child ∈ children, ∀ supply, SameOutline child (child.copy (some owner) supply).1)
    (supply : Supply) : List.Forall₂ SameOutline children (copyBlock children owner supply).1 := by
  induction children generalizing supply with
  | nil => exact .nil
  | cons child rest ih =>
    refine .cons (each child (by simp) supply) (ih ?_ _)
    exact (List.forall_mem_cons.mp each).2

/-- A copy of something resolved and tidy has the same content. -/
theorem Expression.copy_content (resolved : e.Throughout Expression.IsResolved)
    (tidy : e.Throughout Expression.IsTidy) (parent : Option ExpressionId) (supply : Supply) :
    SameContent e (e.copy parent supply).1 := by
  induction e using Expression.inductionOn generalizing parent supply with
  | step owner ih =>
    refine ⟨by simp, ?_⟩
    rw [Expression.copy_arguments]
    refine copyArguments_same (fun name value member later => ?_) _
    have final := resolved.here.final name value member
    cases value with
    | block children =>
      refine Argument.outline_block_eq_iff.mpr (copyBlock_same (fun child inside later => ?_) _)
      have held : owner.Holds name child := ⟨children, member, inside⟩
      have same := ih name child held (resolved.child held) (tidy.child held)
        (some supply.next.toUInt32) later
      have linked := tidy.here.linked name child held
      exact Expression.outline_eq_iff.mpr ⟨by simpa using linked, same.kinds, same.arguments⟩
    | list items => rw [Argument.IsFinal.blockless final |>.copy]
    | text | number | atom => rfl

/-! ### Lists and their rows -/

theorem Expression.holds_of_block (member : child ∈ (e.block? name).getD []) :
    e.Holds name child := by
  cases found : e.get? name with
  | none => simp [Expression.block?, found] at member
  | some value =>
    cases block : value.block? with
    | none => simp [Expression.block?, found, block] at member
    | some children =>
      obtain rfl := Argument.eq_block block
      simp only [Expression.block?, found, Option.bind_some, block, Option.getD_some] at member
      exact ⟨children, Entries.mem_of_lookup found, member⟩

/-- A list without an initial count is empty. Any other list holds its rows, made from an item of
the item type, and nothing else; their count is as it should be. -/
structure Expression.HasRows (plan : Plan) (items : String → Expression → Prop) (e : Expression) :
    Prop where
  only : e.kind = "list" → ∀ name child, e.Holds name child → name = "body"
  typed : e.kind = "list" →
    ∃ type, e.text? "type" = some type ∧ type ∈ plan.table.exportNames
  rows : e.kind = "list" →
    (e.number? "initial" = none ∧ e.get? "body" = none) ∨
      ∃ count type item rows, e.number? "initial" = some count ∧ e.text? "type" = some type ∧
        items type item ∧ item.kind ≠ "page" ∧ e.get? "body" = some (.block rows) ∧
        List.Forall₂ SameOutline (makeRows item 0 count 0 {}).1 rows
  counts : e.kind = "list" → e.CountsRows plan.rowLimit

/-- What a list holds is one of the rows made for it. -/
theorem Expression.HasRows.held {plan : Plan} {row : Expression} (has : e.HasRows plan items)
    (tidy : e.IsTidy) (isList : e.kind = "list") (held : e.Holds name row) :
    ∃ count type item made, e.number? "initial" = some count ∧ e.text? "type" = some type ∧
      items type item ∧ item.kind ≠ "page" ∧ made ∈ (makeRows item 0 count 0 {}).1 ∧
      SameOutline made row := by
  obtain rfl := has.only isList name row held
  obtain ⟨children, member, inside⟩ := held
  have found : e.get? "body" = some (.block children) := tidy.ordered.lookup_of_mem member
  rcases has.rows isList with ⟨-, missing⟩ | ⟨count, type, item, rows, initial, typed, known, noPage,
    block, made⟩
  · rw [found] at missing
    cases missing
  · rw [found] at block
    cases block
    obtain ⟨origin, among, same⟩ := exists_of_forall₂_right made inside
    exact ⟨count, type, item, origin, initial, typed, known, noPage, among, same⟩

section

variable (contents : SameContent first second)

include contents

theorem SameContent.symm : SameContent second first :=
  ⟨contents.kinds.symm, contents.arguments.symm⟩

theorem SameContent.get?_block (block : first.get? name = some (.block children)) :
    ∃ others, second.get? name = some (.block others) ∧ List.Forall₂ SameOutline children others := by
  have same := contents.arguments.lookup name
  rw [show first.arguments.lookup name = some (.block children) from block, Option.map_some] at same
  obtain ⟨value, found, outlines⟩ := Option.map_eq_some_iff.mp same.symm
  obtain ⟨others, rfl, each⟩ := Argument.outline_eq_block outlines.symm
  exact ⟨others, found, each⟩

theorem SameContent.relinked :
    ({ first with parent := none } : Expression).outline =
      ({ second with parent := none } : Expression).outline :=
  Expression.outline_eq_iff.mpr ⟨rfl, contents.kinds, contents.arguments⟩

theorem SameContent.text? (name : String) : first.text? name = second.text? name :=
  Expression.text?_of_outline contents.relinked name

theorem SameContent.number? (name : String) : first.number? name = second.number? name :=
  Expression.number?_of_outline contents.relinked name

end

section

variable {items : String → Expression → Prop}

private theorem Expression.hasRows_of_ne (other : e.kind ≠ "list") : e.HasRows plan items :=
  ⟨fun list => absurd list other, fun list => absurd list other, fun list => absurd list other,
    fun list => absurd list other⟩

theorem Expression.HasRows.imp {others : String → Expression → Prop} (has : e.HasRows plan items)
    (weaker : ∀ type item, items type item → others type item) : e.HasRows plan others := by
  refine ⟨has.only, has.typed, fun list => (has.rows list).imp_right ?_, has.counts⟩
  rintro ⟨count, type, item, rows, initial, typed, instances, rest⟩
  exact ⟨count, type, item, rows, initial, typed, weaker type item instances, rest⟩

private theorem Expression.HasRows.same (contents : SameContent first second)
    (has : first.HasRows plan items) : second.HasRows plan items := by
  constructor
  · intro list name child held
    obtain ⟨other, there, -⟩ := held.same contents.arguments
    exact has.only (contents.kinds ▸ list) name other there
  · intro list
    obtain ⟨type, typed, known⟩ := has.typed (contents.kinds ▸ list)
    exact ⟨type, contents.text? _ ▸ typed, known⟩
  · intro list
    rcases has.rows (contents.kinds ▸ list) with ⟨initial, missing⟩ | ⟨count, type, item, rows,
      initial, typed, instances, noPage, block, made⟩
    · exact .inl ⟨contents.number? _ ▸ initial, contents.get?_none missing⟩
    · obtain ⟨others, found, same⟩ := contents.get?_block block
      refine .inr ⟨count, type, item, others, contents.number? _ ▸ initial, contents.text? _ ▸ typed,
        instances, noPage, found, ?_⟩
      have outlines := (map_eq_map_iff_forall₂.mpr made).trans (map_eq_map_iff_forall₂.mpr same)
      exact map_eq_map_iff_forall₂.mp outlines
  · intro list
    exact (has.counts (contents.kinds ▸ list)).of_numbers (fun _ _ => contents.get?_none)
      fun name _ => contents.number? name

theorem Expression.Holds.of_unset {place : String} (held : (e.unset name).Holds place child) :
    e.Holds place child := by
  obtain ⟨children, member, inside⟩ := held
  exact ⟨children, (Entries.mem_erase.mp member).1, inside⟩

private theorem Expression.HasRows.unset (has : e.HasRows plan items) :
    (e.unset "defines").HasRows plan items := by
  have kept : ∀ name, name ≠ "defines" → (e.unset "defines").get? name = e.get? name :=
    fun name => e.get?_unset_of_ne
  refine ⟨fun list name child held => has.only list name child held.of_unset, fun list => ?_,
    fun list => ?_, fun list => (has.counts list).of_get? fun name counted => (kept name ?_).symm⟩
  · simpa only [Expression.text?, kept "type" (by decide)] using has.typed list
  · simpa only [Expression.number?, Expression.text?, kept "initial" (by decide),
      kept "type" (by decide), kept "body" (by decide)] using has.rows list
  · rintro rfl
    simp at counted

end

/-- What does not look at identifiers or at the name that is defined, and is true of rows, holds
throughout the rows that are made from an item of which it holds throughout. -/
theorem makeRows_throughout
    (stable : ∀ first second, SameContent first second → property first → property second)
    (unset : ∀ e, property e → property (e.unset "defines"))
    (row : ∀ id owner index content, property (rowWith id owner index content))
    (resolved : item.Throughout Expression.IsResolved) (tidy : item.Throughout Expression.IsTidy)
    (all : item.Throughout property) {supply : Supply} {made : Expression}
    (member : made ∈ (makeRows item owner count index supply).1) : made.Throughout property := by
  obtain ⟨id, index, later, rfl⟩ := mem_makeRows member
  refine Expression.throughout_iff.mpr ⟨row _ _ _ _, fun name child held => ?_⟩
  obtain ⟨rfl, rfl⟩ := rowWith_holds.mp held
  have copied := all.same stable (Expression.copy_content resolved tidy (some id) later)
  refine Expression.throughout_iff.mpr ⟨unset _ copied.here, ?_⟩
  exact fun name child held => copied.child held.of_unset

/-- A list has no block before it is filled. -/
theorem Settled.no_body {σ : Type} {rules : Rules σ}
    (settled : Settled rules context e .list stem) : e.get? "body" = none := by
  cases found : e.get? "body" with
  | none => rfl
  | some value =>
    have named := onlyHas_mem settled.closed (Entries.mem_of_lookup found)
    simp [commonNames, Kind.argumentNames] at named

private theorem Settled.counts {σ : Type} {rules : Rules σ}
    (settled : Settled rules context e .list stem) : e.CountsRows rules.rowLimit := by
  obtain ⟨_, _, s, s', particular⟩ := settled.particular
  exact (checkArguments_list_ok.mp particular).2.1

private theorem Settled.hasRows {type : String} (supply : Supply)
    (settled : Settled (recording plan.table plan.rowLimit) context e .list stem)
    (initial : e.number? "initial" = some count) (typed : e.text? "type" = some type)
    (instances : items type item) (noPage : item.kind ≠ "page") :
    (e.set "body" (.block (makeRows item e.id count 0 supply).1)).HasRows plan items := by
  have kept : ∀ name, name ≠ "body" →
      (e.set "body" (.block (makeRows item e.id count 0 supply).1)).get? name = e.get? name :=
    fun name other => Entries.lookup_insert_of_ne _ _ other
  have type' : (e.set "body" (.block (makeRows item e.id count 0 supply).1)).text? "type" =
      some type := by
    simpa only [Expression.text?, kept "type" (by decide)] using typed
  refine ⟨fun _ name child held => (settled.held_row held).1, fun _ => ⟨type, type', ?_⟩,
    fun _ => .inr ⟨count, type, item, (makeRows item e.id count 0 supply).1, ?_, type', instances,
      noPage, ?_, ?_⟩, fun _ => settled.counts.of_get? fun name counted => (kept name ?_).symm⟩
  · obtain ⟨_, _, typed', known, -⟩ := settled.item_exported
    rw [typed] at typed'
    cases typed'
    exact known
  · simpa only [Expression.number?, kept "initial" (by decide)] using initial
  · exact Entries.lookup_insert_self _ _ _
  · exact outline_makeRows rfl _ _ _ _ _ _
  · rintro rfl
    simp at counted

private theorem standalone_hasRows_step (checked : plan.Checked)
    (below : ∀ type item, standalone plan depth type = some item →
      item.Throughout (Expression.HasRows plan (plan.HasInstanceWithin depth)))
    (found : standalone plan (depth + 1) name = some inst) :
    inst.Throughout (Expression.HasRows plan (plan.HasInstanceWithin depth)) := by
  obtain ⟨root, w, w', isRoot, -, filled⟩ := standalone_root checked found
  refine isRoot.walked.fill_induction (motive := fun _ _ result =>
    result.Throughout (Expression.HasRows plan (plan.HasInstanceWithin depth))) ?_ ?_ ?_ isRoot.plain
    isRoot.textName filled
  · intro context e stem settled none
    refine Expression.throughout_iff.mpr ⟨⟨fun _ name child held => ?_, fun _ => ?_, fun _ => ?_,
      fun _ => settled.counts⟩, ?_⟩
    · exact (settled.holds_nothing held).elim
    · obtain ⟨type, _, typed, known, -⟩ := settled.item_exported
      exact ⟨type, typed, known⟩
    · exact .inl ⟨none, settled.no_body⟩
    · exact fun name child held => (settled.holds_nothing held).elim
  · intro context e stem count type item supply settled initial typed known
    have isItem := standalone_resolved checked known
    refine Expression.throughout_iff.mpr ⟨?_, fun name child held => ?_⟩
    · exact settled.hasRows supply initial typed ⟨item, known, rfl⟩ (isItem.noPage settled typed)
    · exact makeRows_throughout (fun _ _ => Expression.HasRows.same)
        (fun _ => Expression.HasRows.unset)
        (fun _ _ _ _ => Expression.hasRows_of_ne (by simp [rowWith])) isItem.resolved
        (standalone_tidy checked known) (below type item known) (settled.held_row held).2
  · intro context e kind stem after settled another become
    refine Expression.throughout_iff.mpr ⟨?_, fun name child held => ?_⟩
    · exact Expression.hasRows_of_ne fun list => another (settled.kind_of .list list)
    · obtain ⟨origin, -, below⟩ := become.held held
      exact below.filled

/-- All lists of an instance have rows of instances that are less deep. -/
theorem standalone_hasRows (checked : plan.Checked)
    (found : standalone plan (depth + 1) name = some inst) :
    inst.Throughout (Expression.HasRows plan (plan.HasInstanceWithin depth)) := by
  induction depth generalizing name inst with
  | zero => exact standalone_hasRows_step checked (fun _ _ known => by cases known) found
  | succ depth ih =>
    refine standalone_hasRows_step checked (fun type item known => ?_) found
    exact (ih known).imp fun _ has => has.imp fun _ _ => Plan.HasInstanceWithin.deeper (Nat.le_succ _)

/-! ### Instances and exports -/

/-- The instances of one name differ at most in their identifiers. -/
theorem Plan.HasInstance.unique (one : plan.HasInstance name first)
    (two : plan.HasInstance name second) : SameOutline first second := by
  obtain ⟨depth, inst, found, same⟩ := one
  obtain ⟨depth', inst', found', same'⟩ := two
  exact Eq.trans same ((standalone_unique found found').trans same'.symm)

theorem Plan.HasInstance.throughout
    (stable : ∀ first second, SameContent first second → property first → property second)
    (all : ∀ depth inst, standalone plan depth name = some inst → inst.Throughout property)
    (instances : plan.HasInstance name inst) : inst.Throughout property := by
  obtain ⟨depth, inst', found, same⟩ := instances
  exact (all depth inst' found).same stable (SameOutline.content (Eq.symm same))

private theorem Expression.IsTidy.same (contents : SameContent first second) (tidy : first.IsTidy) :
    second.IsTidy := by
  constructor
  · refine tidy.ordered.of_names ?_
    have names := congrArg (List.map Prod.fst) (renumberArguments_eq_iff.mpr contents.arguments)
    simpa [renumberArguments_eq, Function.comp_def] using names.symm
  · intro name child held
    obtain ⟨origin, there, same⟩ := held.same contents.arguments
    rw [← (Expression.outline_eq_iff.mp same).1]
    exact tidy.linked name origin there

theorem Plan.HasInstance.tidy (checked : plan.Checked) (instances : plan.HasInstance name inst) :
    inst.Throughout Expression.IsTidy :=
  instances.throughout (fun _ _ => Expression.IsTidy.same) fun _ _ => standalone_tidy checked

/-- No reference survives in an instance. -/
theorem Plan.HasInstance.resolved (checked : plan.Checked)
    (instances : plan.HasInstance name inst) : inst.Throughout Expression.IsResolved :=
  instances.throughout (fun _ _ => Expression.IsResolved.same) fun _ _ found =>
    (standalone_resolved checked found).resolved

theorem Plan.HasInstanceWithin.hasRows (checked : plan.Checked)
    (instances : plan.HasInstanceWithin (depth + 1) name inst) :
    inst.Throughout (Expression.HasRows plan (plan.HasInstanceWithin depth)) := by
  obtain ⟨inst', found, same⟩ := instances
  exact (standalone_hasRows checked found).same (fun _ _ => Expression.HasRows.same)
    (SameOutline.content (Eq.symm same))

/-- Every list of an instance holds the rows it asks for. -/
theorem Plan.HasInstance.hasRows (checked : plan.Checked) (instances : plan.HasInstance name inst) :
    inst.Throughout (Expression.HasRows plan plan.HasInstance) := by
  obtain ⟨depth, instances⟩ := instances
  have rows := (instances.deeper (Nat.le_succ depth)).hasRows checked
  exact rows.imp fun _ has => has.imp fun _ _ within => ⟨depth, within⟩

/-- What a page has anyway, an export has throughout if its instance does. -/
theorem Plan.exported_throughout (pages : ∀ e : Expression, e.kind = "page" → property e)
    (all : inst.Throughout property) : (plan.exported inst).Throughout property := by
  refine Expression.throughout_iff.mpr ⟨?_, fun place child held => all.child held.of_exported⟩
  unfold Plan.exported
  split_ifs with page
  · exact pages _ page
  · exact all.here

theorem Plan.exported_hasRows (rows : inst.Throughout (Expression.HasRows plan items)) :
    (plan.exported inst).Throughout (Expression.HasRows plan items) := by
  refine Plan.exported_throughout (fun e page => Expression.hasRows_of_ne ?_) rows
  exact fun list => absurd (page.symm.trans list) (by decide)

theorem Plan.exported_holds (plan : Plan) (resolved : inst.IsResolved) (tidy : inst.IsTidy) :
    (plan.exported inst).Holds name child ↔ inst.Holds name child := by
  refine ⟨Expression.Holds.of_exported, fun held => ?_⟩
  unfold Plan.exported
  split_ifs with page
  · obtain ⟨children, member, inside⟩ := held
    have place : name = "body" ∨ name = "options" := resolved.final name _ member
    have apart : name ≠ "scripts" := by rcases place with rfl | rfl <;> decide
    have found := tidy.ordered.lookup_of_mem member
    rw [← Entries.lookup_insert_of_ne inst.arguments _ apart] at found
    exact ⟨children, Entries.mem_of_lookup found, inside⟩
  · exact held

theorem Plan.exported_tidy (tidy : inst.Throughout Expression.IsTidy) :
    (plan.exported inst).Throughout Expression.IsTidy := by
  unfold Plan.exported
  split_ifs with page
  · have before := Expression.throughout_tidy_iff.mp tidy
    refine Expression.throughout_tidy_iff.mpr ⟨before.ordered.insert _ _, ?_⟩
    intro name value member
    rcases Entries.mem_insert member with scripts | old
    · cases scripts
      exact fun children block => by cases block
    · exact before.each name value old
  · exact tidy

end Pagewright
