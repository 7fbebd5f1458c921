import Pagewright.Proofs.Exports

/-!
# Exports are fully resolved

Whatever an export contains, generated rows included, is of a built-in kind and
has final arguments only: no reference, no parameter and no placeholder is left.
Names are defined at the root only, and pages and options stand where they may.

The walk over an instance admits everything in its blocks, which gives all of this
before lists are filled. Rows are made from instances of their own, so they have
it by induction on how deep lists of lists go.
-/

namespace Pagewright

open Outcome

variable {e item result : Expression} {context : Context} {name type stem : String}
  {value : Argument} {mayHold : Prop} {count : Nat} {plan : Plan}

/-- Nothing is left to be resolved in an expression, and what it holds may stand there. -/
structure Expression.IsResolved (e : Expression) : Prop where
  builtIn : Kind.isBuiltIn e.kind = true
  inherits : e.get? "inherits" = none
  parameters : e.get? "parameters" = none
  final : ∀ name value, (name, value) ∈ e.arguments →
    value.IsFinal (name = "body" ∨ name = "options")
  /-- Nothing in a block defines a name. -/
  unnamed : ∀ name child, e.Holds name child → child.get? "defines" = none
  /-- No page stands in a block. -/
  pages : ∀ name child, e.Holds name child → child.kind ≠ "page"
  /-- An option stands only among the options of a select. -/
  options : ∀ name child, e.Holds name child → child.kind = "option" →
    e.kind = "select" ∧ name = "options"

/-! ### Copies and outlines -/

theorem Argument.IsFinal.blockless {items : List Argument}
    (final : (Argument.list items).IsFinal mayHold) : (Argument.list items).Blockless :=
  .list fun item member => by
    obtain ⟨text, rfl⟩ := final item member
    exact .text text

private theorem Argument.IsFinal.copy (final : value.IsFinal mayHold) (owner : ExpressionId)
    (supply : Supply) : (value.copy owner supply).1.IsFinal mayHold := by
  cases value with
  | list items => rwa [final.blockless.copy]
  | block | text | number | atom => exact final

private theorem Expression.IsResolved.copy (resolved : e.IsResolved) (parent : Option ExpressionId)
    (supply : Supply) : (e.copy parent supply).1.IsResolved := by
  have keeps := e.copy_keepsBlockless parent supply
  -- What a copy holds are copies, of the same kinds and with the same names of arguments.
  have children : ∀ name copied, (e.copy parent supply).1.Holds name copied →
      ∃ child, e.Holds name child ∧ copied.kind = child.kind ∧
        (child.get? "defines" = none → copied.get? "defines" = none) := by
    intro name copied held
    obtain ⟨child, later, original, rfl⟩ := held.of_copy
    exact ⟨child, original, by simp, (child.copy_keepsBlockless _ later).absent⟩
  refine ⟨by simpa using resolved.builtIn, keeps.absent resolved.inherits,
    keeps.absent resolved.parameters, ?_, ?_, ?_, ?_⟩
  · intro name value member
    rw [Expression.copy_arguments] at member
    obtain ⟨original, later, among, rfl⟩ := mem_copyArguments member
    exact (resolved.final name original among).copy _ _
  · intro name copied held
    obtain ⟨child, original, -, missing⟩ := children name copied held
    exact missing (resolved.unnamed name child original)
  · intro name copied held
    obtain ⟨child, original, kind, -⟩ := children name copied held
    rw [kind]
    exact resolved.pages name child original
  · intro name copied held option
    obtain ⟨child, original, kind, -⟩ := children name copied held
    rw [kind] at option
    simpa using resolved.options name child original option

/-- Arguments may be dropped. -/
theorem Expression.IsResolved.fewer (resolved : e.IsResolved) {arguments : Arguments}
    (fewer : arguments.Sublist e.arguments) : ({ e with arguments } : Expression).IsResolved := by
  have absent : ∀ name, e.get? name = none → arguments.lookup name = none := by
    intro name missing
    rw [List.lookup_eq_none_iff]
    intro entry member
    exact List.lookup_eq_none_iff.mp missing entry (fewer.mem member)
  have held : ∀ name child, ({ e with arguments } : Expression).Holds name child →
      e.Holds name child :=
    fun name child ⟨children, member, inside⟩ => ⟨children, fewer.mem member, inside⟩
  exact ⟨resolved.builtIn, absent _ resolved.inherits, absent _ resolved.parameters,
    fun name value member => resolved.final name value (fewer.mem member),
    fun name child stands => resolved.unnamed name child (held name child stands),
    fun name child stands => resolved.pages name child (held name child stands),
    fun name child stands => resolved.options name child (held name child stands)⟩

private theorem Expression.Throughout.resolved_unset (resolved : e.Throughout Expression.IsResolved)
    (name : String) : (e.unset name).Throughout Expression.IsResolved := by
  refine Expression.throughout_iff.mpr ⟨resolved.here.fewer List.filter_sublist, ?_⟩
  rintro other child ⟨children, member, inside⟩
  exact resolved.child ⟨children, (Entries.mem_erase.mp member).1, inside⟩

/-! ### Filled expressions -/

section

variable {σ : Type} {rules : Rules σ} {context : Context} {e : Expression} {kind : Kind}
  {stem : String}

theorem Kind.content?_cases (content : kind.content? = some name) :
    name = "body" ∨ name = "options" := by
  cases kind <;> simp_all [Kind.content?]

/-- A settled expression is resolved, also after it got other arguments of the same names or rows. -/
theorem Settled.isResolved (settled : Settled rules context e kind stem)
    (kinds : result.kind = e.kind)
    (absent : ∀ name, name ≠ "body" → e.get? name = none → result.get? name = none)
    (final : ∀ name value, (name, value) ∈ result.arguments →
      value.IsFinal (name = "body" ∨ name = "options"))
    (below : ∀ name child, result.Holds name child →
      child.get? "defines" = none ∧ child.kind ≠ "page" ∧
        (child.kind = "option" → e.kind = "select" ∧ name = "options")) :
    result.IsResolved where
  builtIn := kinds ▸ settled.plain.builtIn
  inherits := absent "inherits" (by decide) settled.plain.own
  parameters := absent "parameters" (by decide) (Expression.isConcrete_iff.mp settled.concrete).1
  final := final
  unnamed name child held := (below name child held).1
  pages name child held := (below name child held).2.1
  options name child held := kinds ▸ (below name child held).2.2

/-- Filling keeps the kind of an expression, gives it no name, and resolves all of it. -/
def ResolvedBy (e result : Expression) : Prop :=
  result.kind = e.kind ∧ (e.get? "defines" = none → result.get? "defines" = none) ∧
    result.Throughout Expression.IsResolved

private theorem Settled.resolved_empty (settled : Settled rules context e .list stem) :
    ResolvedBy e e := by
  refine ⟨rfl, id, Expression.throughout_iff.mpr ⟨?_, fun name child held => ?_⟩⟩
  · refine settled.isResolved rfl (fun _ _ => id) (fun name value member => ?_) fun name child held => ?_
    · exact (settled.final name value member).imp Kind.content?_cases
    · exact (settled.holds_nothing held).elim
  · exact (settled.holds_nothing held).elim

end

/-- What the item of a list is, which stands in a row. -/
structure IsItem (table : Table) (type : String) (item : Expression) : Prop where
  resolved : item.Throughout Expression.IsResolved
  noOption : item.kind ≠ "option"
  kind : ∀ kind, table.resolveKind type = .ok kind → Kind.ofName? item.kind = some kind

/-- The item of a list is no page. -/
theorem IsItem.noPage {σ : Type} {rules : Rules σ} (isItem : IsItem rules.table type item)
    (settled : Settled rules context e .list stem) (typed : e.text? "type" = some type) :
    item.kind ≠ "page" := by
  obtain ⟨_, kind, typed', -, resolved, noPage⟩ := settled.item_exported
  rw [typed] at typed'
  cases typed'
  exact fun page => noPage (Kind.eq_of_ofName? (isItem.kind kind resolved) page)

private theorem IsItem.row {table : Table} (isItem : IsItem table type item)
    (noPage : item.kind ≠ "page") {owner : ExpressionId} {index : Nat} {supply : Supply}
    {row : Expression} (member : row ∈ (makeRows item owner count index supply).1) :
    row.kind = "div" ∧ row.get? "defines" = none ∧ row.Throughout Expression.IsResolved := by
  obtain ⟨id, index, later, rfl⟩ := mem_makeRows member
  refine ⟨rfl, rfl, Expression.throughout_iff.mpr ⟨⟨rfl, rfl, rfl, ?_, ?_, ?_, ?_⟩, ?_⟩⟩
  · intro name value argument
    simp only [rowWith, List.mem_cons, Prod.mk.injEq, List.not_mem_nil, or_false] at argument
    rcases argument with ⟨rfl, rfl⟩ | ⟨rfl, rfl⟩
    · exact .inl rfl
    · trivial
  all_goals
    intro name child held
    obtain ⟨rfl, rfl⟩ := rowWith_holds.mp held
  · exact Entries.lookup_erase_self _ _
  · simpa [Expression.unset] using noPage
  · intro option
    exact absurd (by simpa [Expression.unset] using option) isItem.noOption
  · have copied := isItem.resolved.copy (fun _ parent supply here => here.copy parent supply)
    exact (copied _ _).resolved_unset _

section

variable {table : Table} {rowLimit : Nat} {items : String → Option Expression}
  (isItem : ∀ type item, items type = some item → IsItem table type item)

include isItem

private theorem Settled.resolved_rows (supply : Supply)
    (settled : Settled (recording table rowLimit) context e .list stem)
    (typed : e.text? "type" = some type) (found : items type = some item) :
    ResolvedBy e (e.set "body" (.block (makeRows item e.id count 0 supply).1)) := by
  have good := isItem type item found
  have noPage := good.noPage settled typed
  have absent : ∀ name, name ≠ "body" → e.get? name = none →
      (e.set "body" (.block (makeRows item e.id count 0 supply).1)).get? name = none := by
    intro name other missing
    exact (Entries.lookup_insert_of_ne _ _ other).trans missing
  refine ⟨rfl, absent "defines" (by decide), Expression.throughout_iff.mpr ⟨?_, ?_⟩⟩
  · refine settled.isResolved rfl absent ?_ ?_
    · intro name value member
      rcases Entries.mem_insert member with same | old
      · cases same
        exact .inl rfl
      · exact (settled.final name value old).imp Kind.content?_cases
    · intro name child held
      obtain ⟨kind, unnamed, -⟩ := good.row noPage (settled.held_row held).2
      exact ⟨unnamed, by simp [kind], by simp [kind]⟩
  · intro name child held
    exact (good.row noPage (settled.held_row held).2).2.2

omit isItem in
private theorem Settled.resolved_other {σ : Type} {rules : Rules σ} {kind : Kind}
    {after : Arguments} (settled : Settled rules context e kind stem)
    (become : ArgumentsBecome (FilledBelow rules (fun _ => ResolvedBy) (context.below kind stem) kind)
      e.arguments after) : ResolvedBy e { e with arguments := after } := by
  have final : ∀ name value, (name, value) ∈ after → value.IsFinal (kind.content? = some name) := by
    intro name value member
    obtain ⟨origin, there, becomes⟩ := become.of_mem member
    have before := settled.final name origin there
    rcases becomes with ⟨-, rfl⟩ | ⟨_, _, rfl, rfl, -⟩
    · exact before
    · exact before
  refine ⟨rfl, become.get?_none, Expression.throughout_iff.mpr ⟨?_, fun name child held => ?_⟩⟩
  · refine settled.isResolved rfl (fun name _ => become.get?_none) ?_ ?_
    · exact fun name value member => (final name value member).imp Kind.content?_cases
    · intro name child held
      obtain ⟨origin, ⟨children, there, -⟩, below⟩ := become.held held
      obtain ⟨kinds, names, -⟩ := below.filled
      obtain ⟨unnamed, noPage⟩ := below.walked.nested below.linked
      refine ⟨names unnamed, kinds ▸ noPage, fun option => ?_⟩
      -- Options stand below a select only, and its block is its options.
      have select : kind = .select := of_decide_eq_true (below.walked.option (kinds ▸ option))
      have content : kind.content? = some name := settled.final name _ there
      subst select
      exact ⟨(Kind.name_of_ofName? settled.named).symm, (Option.some.inj content).symm⟩
  · obtain ⟨origin, -, below⟩ := become.held held
    exact below.filled.2.2

private theorem Walked.resolved {w w' : Workshop}
    (walked : Walked (recording table rowLimit) context e)
    (plain : e.Throughout Expression.IsPlain) (textName : e.TextName)
    (run : fillLists (supplied items) e w = .ok result w') : ResolvedBy e result := by
  refine walked.fill_induction (motive := fun _ => ResolvedBy) ?_ ?_ ?_ plain textName run
  · exact fun context e stem settled _ => settled.resolved_empty
  · exact fun context e stem count type item supply settled _ typed found =>
      settled.resolved_rows isItem supply typed found
  · exact fun context e kind stem after settled _ become => settled.resolved_other become

end

/-- Every instance is resolved throughout, and has the kind of its definition. -/
theorem standalone_resolved (checked : plan.Checked) {depth : Nat} {inst : Expression}
    (found : standalone plan depth name = some inst) : IsItem plan.table name inst := by
  induction depth generalizing name inst with
  | zero => cases found
  | succ depth ih =>
    obtain ⟨root, w, w', isRoot, -, filled⟩ := standalone_root checked found
    obtain ⟨kinds, -, resolved⟩ :=
      isRoot.walked.resolved (fun type item => ih) isRoot.plain isRoot.textName filled
    refine ⟨resolved, fun option => ?_, fun kind => kinds ▸ isRoot.kind kind⟩
    -- A root stands in no select.
    exact Bool.false_ne_true (isRoot.walked.option (kinds ▸ option))

/-! ### Exports -/

theorem Argument.outline_eq_text {content : String}
    (outlines : (Argument.text content).outline = value.outline) : value = .text content := by
  cases value <;> simp_all [Argument.outline, Argument.renumber]

private theorem Argument.IsFinal.same {other : Argument} (outlines : value.outline = other.outline)
    (final : value.IsFinal mayHold) : other.IsFinal mayHold := by
  cases value with
  | block children =>
    obtain ⟨others, rfl, -⟩ := Argument.outline_eq_block outlines
    exact final
  | list items =>
    cases other with
    | list others =>
      simp only [Argument.outline, Argument.renumber, Argument.list.injEq, renumberItems_eq] at outlines
      intro item member
      obtain ⟨origin, there, same⟩ :=
        exists_of_forall₂_right (map_eq_map_iff_forall₂.mp outlines) member
      obtain ⟨content, rfl⟩ := final origin there
      exact ⟨content, Argument.outline_eq_text same⟩
    | block children => simp [Argument.outline, Argument.renumber] at outlines
    | text content => trivial
    | number | atom => simp [Argument.outline, Argument.renumber] at outlines
  | text content => exact Argument.outline_eq_text outlines ▸ trivial
  | number digits =>
    cases other <;> simp_all [Argument.outline, Argument.renumber, Argument.IsFinal]
  | atom name => exact final.elim

theorem Expression.IsResolved.same {first second : Expression} (contents : SameContent first second)
    (resolved : first.IsResolved) : second.IsResolved := by
  refine ⟨contents.kinds ▸ resolved.builtIn, contents.get?_none resolved.inherits,
    contents.get?_none resolved.parameters, ?_, ?_, ?_, ?_⟩
  · intro name value member
    obtain ⟨other, there, same⟩ := contents.arguments.of_mem member
    exact (resolved.final name other there).same same
  all_goals
    intro name child held
    obtain ⟨other, there, same⟩ := held.same contents.arguments
  · exact same.content.get?_none (resolved.unnamed name other there)
  · rw [← same.content.kinds]
    exact resolved.pages name other there
  · rw [← same.content.kinds, ← contents.kinds]
    exact resolved.options name other there

private theorem Expression.IsResolved.set_texts (resolved : e.IsResolved)
    (other : name ≠ "inherits" ∧ name ≠ "parameters") (texts : List String) :
    (e.set name (.list (texts.map Argument.text))).IsResolved := by
  have held : ∀ place child, (e.set name (.list (texts.map Argument.text))).Holds place child →
      e.Holds place child := by
    rintro place child ⟨children, member, inside⟩
    rcases Entries.mem_insert member with same | old
    · cases same
    · exact ⟨children, old, inside⟩
  refine ⟨resolved.builtIn, ?_, ?_, ?_, ?_, ?_, ?_⟩
  · exact (Entries.lookup_insert_of_ne _ _ other.1.symm).trans resolved.inherits
  · exact (Entries.lookup_insert_of_ne _ _ other.2.symm).trans resolved.parameters
  · intro place value member
    rcases Entries.mem_insert member with same | old
    · cases same
      intro item among
      obtain ⟨content, -, rfl⟩ := List.mem_map.mp among
      exact ⟨content, rfl⟩
    · exact resolved.final place value old
  · exact fun place child stands => resolved.unnamed place child (held place child stands)
  · exact fun place child stands => resolved.pages place child (held place child stands)
  · exact fun place child stands => resolved.options place child (held place child stands)

/-- The scripts that an export gets are no block. -/
theorem Expression.Holds.of_exported {inst child : Expression}
    (held : (plan.exported inst).Holds name child) : inst.Holds name child := by
  unfold Plan.exported at held
  split_ifs at held
  · obtain ⟨children, member, inside⟩ := held
    rcases Entries.mem_insert member with scripts | old
    · cases scripts
    · exact ⟨children, old, inside⟩
  · exact held

/-- An export is no option, and no reference survives in it. -/
theorem Plan.Exports.resolved (checked : plan.Checked) {root : Expression}
    (exported : plan.Exports name root) :
    root.kind ≠ "option" ∧ root.Throughout Expression.IsResolved := by
  obtain ⟨inst, ⟨depth, inst', found, same⟩, rfl⟩ := exported
  have item := standalone_resolved checked found
  have resolved : inst.Throughout Expression.IsResolved :=
    Expression.Throughout.same (fun _ _ => Expression.IsResolved.same)
      (SameOutline.content (Eq.symm same)) item.resolved
  have noOption : inst.kind ≠ "option" := Expression.kind_of_outline same ▸ item.noOption
  refine ⟨Plan.exported_kind inst ▸ noOption, Expression.throughout_iff.mpr ⟨?_, ?_⟩⟩
  · unfold Plan.exported
    split_ifs
    · exact resolved.here.set_texts (by decide) _
    · exact resolved.here
  · exact fun place child held => resolved.child held.of_exported

/-- **Exports are fully resolved.** Whatever has been read, everything that an export of a
successful analysis contains is of a built-in kind, has final arguments only, and stands where it
may; and no export is an option. -/
theorem exports_resolved {session session' : Session} {set : ExportSet}
    (reachable : session.Reachable) (run : Session.analyze session = .ok set session') :
    ∀ root ∈ set.exports, root.kind ≠ "option" ∧ root.Throughout Expression.IsResolved := by
  intro root member
  obtain ⟨table, -, checked, exports⟩ := reachable.analyze_sound run
  obtain ⟨name, -, exported⟩ := exists_of_forall₂_right exports member
  exact exported.resolved checked

/-- A page whose rows are instances of a definition that fills in another one. -/
def listing : String :=
  "div defines: \"shell\", parameters: [content], body: content\n" ++
  "shell defines: \"item\", content: \x7b text value: \"one\" \x7d\n" ++
  "div defines: \"rows\", body: \x7b list id: \"all\", type: \"item\", initial: 2 \x7d\n" ++
  "page defines: \"start\", body: \x7b rows \x7d\n"

theorem exports_resolved_listing :
    ∃ set session', Session.analyze (Session.ofSource listing) =
        .ok set session' ∧ set.names = ["item", "rows", "start"] ∧
      ∀ root ∈ set.exports, root.kind ≠ "option" ∧ root.Throughout Expression.IsResolved := by
  have analyzed : (Session.ofSource listing).exportSet?.map ExportSet.names =
      some ["item", "rows", "start"] := by
    decide +kernel
  obtain ⟨set, session', run, names⟩ := Session.analyze_of_names analyzed
  exact ⟨set, session', run, names, exports_resolved (.ofSource listing) run⟩

end Pagewright
