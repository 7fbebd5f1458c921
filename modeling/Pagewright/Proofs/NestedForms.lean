import Pagewright.Proofs.Rows

/-!
# Forms in forms

The walk over an instance lets no form stand in a form. Rows come afterwards and
are walked only on their own, as instances of the item type. So a form stands in
a form exactly if some form has a list with rows below it whose item type has a
form in its instance.
-/

namespace Pagewright

variable {e second first inst list : Expression}

def Expression.NestsForms (root : Expression) : Prop :=
  ∃ outer inner, root.Contains outer ∧ outer.kind = "form" ∧ outer.Encloses inner ∧
    inner.kind = "form"

/-- No form can be reached without going through a list. -/
inductive Expression.Formless : Expression → Prop
  | list {e : Expression} (list : e.kind = "list") : Formless e
  | other {e : Expression} (noForm : e.kind ≠ "form")
      (below : ∀ name child, e.Holds name child → Formless child) : Formless e

/-- Nothing that a form holds leads to a form without going through a list. -/
def Expression.FormsApart (e : Expression) : Prop :=
  e.kind = "form" → ∀ name child, e.Holds name child → child.Formless

private theorem Expression.Formless.same (formless : first.Formless)
    (contents : SameContent first second) : second.Formless := by
  induction formless generalizing second with
  | list list => exact .list (contents.kinds ▸ list)
  | other noForm _ ih =>
    refine .other (contents.kinds ▸ noForm) fun name child held => ?_
    obtain ⟨origin, there, same⟩ := held.same contents.arguments
    exact ih name origin there same.content

private theorem Expression.FormsApart.same (contents : SameContent first second)
    (apart : first.FormsApart) : second.FormsApart := by
  intro form name child held
  obtain ⟨origin, there, same⟩ := held.same contents.arguments
  exact (apart (contents.kinds ▸ form) name origin there).same same.content

/-! ### Instances -/

/-- Below a form nothing is a form until rows are reached, and forms are apart everywhere. -/
def ApartIn (context : Context) (result : Expression) : Prop :=
  (context.inForm = true → result.Formless) ∧ result.Throughout Expression.FormsApart

private theorem Settled.apart_other {σ : Type} {rules : Rules σ} {context : Context} {kind : Kind}
    {stem : String} {after : Arguments} (settled : Settled rules context e kind stem)
    (become : ArgumentsBecome (FilledBelow rules (fun context _ => ApartIn context)
      (context.below kind stem) kind) e.arguments after) :
    ApartIn context { e with arguments := after } := by
  have below : ∀ name child, ({ e with arguments := after } : Expression).Holds name child →
      ApartIn (context.below kind stem) child := by
    intro name child held
    obtain ⟨origin, -, below⟩ := become.held held
    exact below.filled
  refine ⟨fun inForm => .other ?_ fun name child held => ?_, ?_⟩
  · intro form
    have place := settled.place
    obtain rfl := settled.kind_of .form form
    simp [checkPlace, inForm] at place
  · exact (below name child held).1 (by simp [Context.below, inForm])
  · refine Expression.throughout_iff.mpr ⟨fun form name child held => ?_, ?_⟩
    · obtain rfl := settled.kind_of .form form
      exact (below name child held).1 (by simp [Context.below])
    · exact fun name child held => (below name child held).2

variable {plan : Plan}

private theorem standalone_formsApart (checked : plan.Checked) {depth : Nat} {name : String}
    (found : standalone plan depth name = some inst) : inst.Throughout Expression.FormsApart := by
  induction depth generalizing name inst with
  | zero => cases found
  | succ depth ih =>
    obtain ⟨root, w, w', isRoot, -, filled⟩ := standalone_root checked found
    refine And.right (isRoot.walked.fill_induction (motive := fun context _ => ApartIn context)
      ?_ ?_ ?_ isRoot.plain isRoot.textName filled)
    · intro context e stem settled _
      have list : e.kind = "list" := (Kind.name_of_ofName? settled.named).symm
      refine ⟨fun _ => .list list, Expression.throughout_iff.mpr ⟨fun form => ?_, ?_⟩⟩
      · simp [list] at form
      · exact fun name child held => (settled.holds_nothing held).elim
    · intro context e stem count type item supply settled _ _ known
      have list : e.kind = "list" := (Kind.name_of_ofName? settled.named).symm
      refine ⟨fun _ => .list list, Expression.throughout_iff.mpr ⟨fun form => ?_, ?_⟩⟩
      · exact absurd (list.symm.trans form) (by decide)
      · intro name child held
        refine makeRows_throughout (fun _ _ => Expression.FormsApart.same) ?_ ?_
          (standalone_resolved checked known).resolved (standalone_tidy checked known) (ih known)
          (settled.held_row held).2
        · exact fun e apart form name child held => apart form name child held.of_unset
        · exact fun _ _ _ _ form => absurd form (by simp [rowWith])
    · exact fun context e kind stem after settled _ become => settled.apart_other become

/-! ### Forms in lists -/

def Expression.HasForm (e : Expression) : Prop :=
  ∃ inner, e.Contains inner ∧ inner.kind = "form"

theorem Expression.hasForm_iff :
    e.HasForm ↔ e.kind = "form" ∨ ∃ name child, e.Holds name child ∧ child.HasForm := by
  constructor
  · rintro ⟨inner, contained, form⟩
    rcases Expression.contains_iff.mp contained with rfl | ⟨name, child, held, below⟩
    · exact .inl form
    · exact .inr ⟨name, child, held, inner, below, form⟩
  · rintro (form | ⟨name, child, held, inner, below, form⟩)
    · exact ⟨e, e.contains_self, form⟩
    · exact ⟨inner, held.contains.trans below, form⟩

private theorem Expression.HasForm.same (contents : SameContent first second)
    (has : second.HasForm) : first.HasForm := by
  induction second using Expression.inductionOn generalizing first with
  | step second ih =>
    rcases Expression.hasForm_iff.mp has with form | ⟨name, child, held, below⟩
    · exact Expression.hasForm_iff.mpr (.inl (contents.kinds.trans form))
    · obtain ⟨origin, there, same⟩ := held.same contents.arguments
      exact Expression.hasForm_iff.mpr (.inr ⟨name, origin, there, ih name child held same.content below⟩)

/-- A row has a form if the item has one. -/
theorem makeRows_hasForm {item row : Expression} (resolved : item.Throughout Expression.IsResolved)
    (tidy : item.Throughout Expression.IsTidy) {owner : ExpressionId} {count index : Nat}
    {supply : Supply} (member : row ∈ (makeRows item owner count index supply).1) :
    row.HasForm ↔ item.HasForm := by
  obtain ⟨id, index, later, rfl⟩ := mem_makeRows member
  have copied := Expression.copy_content resolved tidy (some id) later
  constructor
  · intro has
    rcases Expression.hasForm_iff.mp has with form | ⟨name, child, held, below⟩
    · simp [rowWith] at form
    · obtain ⟨rfl, rfl⟩ := rowWith_holds.mp held
      refine Expression.HasForm.same copied ?_
      rcases Expression.hasForm_iff.mp below with form | ⟨name, child, held, deeper⟩
      · exact Expression.hasForm_iff.mpr (.inl form)
      · exact Expression.hasForm_iff.mpr (.inr ⟨name, child, held.of_unset, deeper⟩)
  · intro has
    refine Expression.hasForm_iff.mpr (.inr ⟨"body", _, rowWith_holds.mpr ⟨rfl, rfl⟩, ?_⟩)
    rcases Expression.hasForm_iff.mp (has.same copied.symm) with form | ⟨name, child, held, below⟩
    · exact Expression.hasForm_iff.mpr (.inl form)
    · refine Expression.hasForm_iff.mpr (.inr ⟨name, child, ?_, below⟩)
      -- Blocks stand under other names than the one that is dropped.
      obtain ⟨origin, ⟨children, there, -⟩, -⟩ := held.same copied.arguments
      have place : name = "body" ∨ name = "options" := resolved.here.final name _ there
      have apart : name ≠ "defines" := by rcases place with rfl | rfl <;> decide
      obtain ⟨children, member, inside⟩ := held
      exact ⟨children, Entries.mem_erase.mpr ⟨member, apart⟩, inside⟩

private theorem makeRows_length (item : Expression) (owner : ExpressionId) (count index : Nat)
    (supply : Supply) : (makeRows item owner count index supply).1.length = count := by
  induction count generalizing index supply with
  | zero => rfl
  | succ count ih => simp [makeRows, ih]

/-- `list` starts with rows, and their item type has an instance with a form. -/
def Expression.HasFormRows (plan : Plan) (list : Expression) : Prop :=
  ∃ count type item, list.number? "initial" = some count ∧ 0 < count ∧
    list.text? "type" = some type ∧ type ∈ plan.table.exportNames ∧
    plan.HasInstance type item ∧ item.HasForm

theorem Expression.HasRows.hasForm_iff (checked : plan.Checked)
    (has : list.HasRows plan plan.HasInstance) (isList : list.kind = "list") (tidy : list.IsTidy) :
    list.HasForm ↔ list.HasFormRows plan := by
  constructor
  · intro form
    rcases Expression.hasForm_iff.mp form with form | ⟨name, row, held, below⟩
    · exact absurd (isList.symm.trans form) (by decide)
    obtain ⟨count, type, item, made, initial, typed, instances, -, among, same⟩ :=
      has.held tidy isList held
    have positive : 0 < count := by
      rw [← makeRows_length item 0 count 0 {}]
      exact List.length_pos_of_mem among
    obtain ⟨_, typed', known⟩ := has.typed isList
    rw [typed] at typed'
    cases typed'
    refine ⟨count, type, item, initial, positive, typed, known, instances, ?_⟩
    exact (makeRows_hasForm (instances.resolved checked) (instances.tidy checked) among).mp
      (below.same same.content)
  · rintro ⟨count, type, item, initial, positive, typed, -, instances, form⟩
    rcases has.rows isList with ⟨none, -⟩ | ⟨count', type', item', rows, initial', typed',
      instances', -, block, made⟩
    · rw [none] at initial
      cases initial
    · rw [initial] at initial'
      cases initial'
      rw [typed] at typed'
      cases typed'
      have again := form.same (instances'.unique instances).content
      -- There is a first row, and it has the form of the item.
      obtain ⟨row', among⟩ := List.exists_mem_of_length_pos
        (positive.trans_eq (makeRows_length item' 0 count 0 {}).symm)
      obtain ⟨row, inside, same⟩ := exists_of_forall₂_right (List.Forall₂.flip made) among
      have rowForm := (makeRows_hasForm (instances'.resolved checked) (instances'.tidy checked)
        among).mpr again
      refine Expression.hasForm_iff.mpr (.inr ⟨"body", row, ?_, ?_⟩)
      · exact ⟨rows, Entries.mem_of_lookup block, inside⟩
      · exact rowForm.same (SameOutline.content (Eq.symm same))

/-- A form below something without forms of its own stands in a list. -/
theorem Expression.Formless.list_above {inner : Expression} (formless : e.Formless)
    (contained : e.Contains inner) (form : inner.kind = "form") :
    ∃ list, e.Contains list ∧ list.kind = "list" ∧ list.HasForm := by
  induction formless with
  | @list e list => exact ⟨e, e.contains_self, list, inner, contained, form⟩
  | other noForm _ ih =>
    rcases Expression.contains_iff.mp contained with rfl | ⟨name, child, held, below⟩
    · exact absurd form noForm
    · obtain ⟨list, there, isList, has⟩ := ih name child held below
      exact ⟨list, held.contains.trans there, isList, has⟩

/-- In a tree whose forms are apart and whose lists have their rows, a form stands in a form exactly
if a list with forms in its rows does. -/
theorem nestsForms_iff (checked : plan.Checked) {root : Expression}
    (apart : root.Throughout Expression.FormsApart)
    (rows : root.Throughout (Expression.HasRows plan plan.HasInstance))
    (tidy : root.Throughout Expression.IsTidy) :
    root.NestsForms ↔ ∃ outer list, root.Contains outer ∧ outer.kind = "form" ∧
      outer.Encloses list ∧ list.kind = "list" ∧ list.HasFormRows plan := by
  constructor
  · rintro ⟨outer, inner, contained, isForm, encloses, form⟩
    obtain ⟨name, child, held, below⟩ := Expression.encloses_iff.mp encloses
    obtain ⟨list, there, isList, has⟩ :=
      (apart outer contained isForm name child held).list_above below form
    have inside : root.Contains list := contained.trans (held.contains.trans there)
    exact ⟨outer, list, contained, isForm, Expression.encloses_iff.mpr ⟨name, child, held, there⟩,
      isList, ((rows list inside).hasForm_iff checked isList (tidy list inside)).mp has⟩
  · rintro ⟨outer, list, contained, isForm, encloses, isList, has⟩
    have inside : root.Contains list := contained.trans encloses.to_reflTransGen
    obtain ⟨inner, there, form⟩ :=
      ((rows list inside).hasForm_iff checked isList (tidy list inside)).mpr has
    exact ⟨outer, inner, contained, isForm, encloses.trans_left there, form⟩

/-! ### Exports -/

private theorem Plan.exported_hasForm (plan : Plan) (resolved : inst.IsResolved)
    (tidy : inst.IsTidy) : (plan.exported inst).HasForm ↔ inst.HasForm := by
  rw [Expression.hasForm_iff, Expression.hasForm_iff, Plan.exported_kind]
  simp only [plan.exported_holds resolved tidy]

/-- The instances of item types are what is exported under their names. -/
theorem hasFormRows_iff (checked : plan.Checked) {roots : List Expression}
    (exports : List.Forall₂ plan.Exports plan.table.exportNames roots) :
    list.HasFormRows plan ↔ ∃ count type item, list.number? "initial" = some count ∧ 0 < count ∧
      list.text? "type" = some type ∧ (type, item) ∈ plan.table.exportNames.zip roots ∧
      item.HasForm := by
  have formed : ∀ type item inst, (type, item) ∈ plan.table.exportNames.zip roots →
      plan.HasInstance type inst → (item.HasForm ↔ inst.HasForm) := by
    intro type item inst member instances
    obtain ⟨inst', instances', rfl⟩ := List.forall₂_zip exports member
    rw [plan.exported_hasForm (instances'.resolved checked).here (instances'.tidy checked).here]
    have same := instances.unique instances'
    exact ⟨Expression.HasForm.same same.content,
      Expression.HasForm.same (SameOutline.content (Eq.symm same))⟩
  constructor
  · rintro ⟨count, type, inst, initial, positive, typed, known, instances, form⟩
    obtain ⟨item, member⟩ := exists_zip_of_mem exports known
    exact ⟨count, type, item, initial, positive, typed, member,
      (formed type item inst member instances).mpr form⟩
  · rintro ⟨count, type, item, initial, positive, typed, member, form⟩
    obtain ⟨inst, instances, -⟩ := List.forall₂_zip exports member
    exact ⟨count, type, inst, initial, positive, typed, (List.of_mem_zip member).1, instances,
      (formed type item inst member instances).mp form⟩

/-- **When forms nest.** In an export of a successful analysis a form stands in a form exactly if
below some form stands a list that starts with rows and whose item type is exported with a form. -/
theorem exports_nest_forms_iff {session session' : Session} {set : ExportSet}
    (reachable : session.Reachable) (run : Session.analyze session = .ok set session') :
    ∃ table, Table.ofExpressions session.expressions = .ok table ∧ ∀ root ∈ set.exports,
      (root.NestsForms ↔ ∃ outer list, root.Contains outer ∧ outer.kind = "form" ∧
        outer.Encloses list ∧ list.kind = "list" ∧ ∃ count type item,
          list.number? "initial" = some count ∧ 0 < count ∧ list.text? "type" = some type ∧
          (type, item) ∈ table.exportNames.zip set.exports ∧ item.HasForm) := by
  obtain ⟨table, made, checked, exports⟩ := reachable.analyze_sound run
  refine ⟨table, made, fun root member => ?_⟩
  obtain ⟨name, -, inst, instances, rfl⟩ := exists_of_forall₂_right exports member
  have apart : inst.Throughout Expression.FormsApart :=
    instances.throughout (fun _ _ => Expression.FormsApart.same) fun _ _ =>
      standalone_formsApart checked
  rw [nestsForms_iff checked]
  · simp only [hasFormRows_iff checked exports]
    rfl
  · exact Plan.exported_throughout (fun e page form => absurd (page.symm.trans form) (by decide)) apart
  · exact Plan.exported_hasRows (instances.hasRows checked)
  · exact Plan.exported_tidy (instances.tidy checked)

def formList : String :=
  "form defines: \"outer\", body: \x7b list id: \"l\", type: \"inner\", initial: 1 \x7d\n" ++
  "form defines: \"inner\"\n"

theorem exports_nest_forms_iff_formList :
    ∃ table set session', Session.analyze (Session.ofSource formList) =
        .ok set session' ∧ set.names = ["outer", "inner"] ∧
      Table.ofExpressions (Session.ofSource formList).expressions = .ok table ∧
      ∀ root ∈ set.exports, (root.NestsForms ↔ ∃ outer list, root.Contains outer ∧ outer.kind = "form" ∧
        outer.Encloses list ∧ list.kind = "list" ∧ ∃ count type item,
          list.number? "initial" = some count ∧ 0 < count ∧ list.text? "type" = some type ∧
          (type, item) ∈ table.exportNames.zip set.exports ∧ item.HasForm) := by
  have analyzed : (Session.ofSource formList).exportSet?.map ExportSet.names =
      some ["outer", "inner"] := by
    decide +kernel
  obtain ⟨set, session', run, names⟩ := Session.analyze_of_names analyzed
  obtain ⟨table, made, condition⟩ := exports_nest_forms_iff (.ofSource formList) run
  exact ⟨table, set, session', run, names, made, condition⟩

/-- The form in the row of a list stands in the form around the list. -/
theorem formList_nests_forms :
    ∃ set session', Session.analyze (Session.ofSource formList) =
        .ok set session' ∧ ∃ root ∈ set.exports, root.NestsForms := by
  have nested : (Session.ofSource formList).exportSet?.any (fun set =>
      set.exports.any fun root => root.kind = "form" &&
        ((root.block? "body").getD []).any fun list => ((list.block? "body").getD []).any fun row =>
          ((row.block? "body").getD []).any fun inner => inner.kind = "form") = true := by
    decide +kernel
  obtain ⟨set, session', run, nested⟩ := Session.analyze_of_any nested
  simp only [List.any_eq_true, Bool.and_eq_true, decide_eq_true_eq] at nested
  obtain ⟨root, member, form, list, inRoot, row, inList, inner, inRow, isForm⟩ := nested
  have path : list.Contains inner :=
    (Expression.holds_of_block inList).contains.trans (Expression.holds_of_block inRow).contains
  exact ⟨set, session', run, root, member, root, inner, root.contains_self, form,
    Expression.encloses_iff.mpr ⟨"body", list, Expression.holds_of_block inRoot, path⟩, isForm⟩

end Pagewright
