import Pagewright.Proofs.RequestGraph
import Pagewright.Proofs.Rows

/-!
# Item types and cycles

A list names the definition that its items are made from. The check of a table
requests the item types of the lists that it meets, and building a list with an
initial count builds its item type; neither leaves a cycle among the item types
that it sees. A list without an initial count whose item type is only there
after references have been resolved is seen by neither, so a cycle of item types
has such lists in it.
-/

namespace Pagewright

open Outcome

/-- The export of `name` contains a list of items `type`, at any depth and in rows as well. -/
def ListsItem (exports : List (String × Expression)) (name type : String) : Prop :=
  ∃ root list, (name, root) ∈ exports ∧ root.Contains list ∧ list.kind = "list" ∧
    list.text? "type" = some type

/-- The same for lists that have an initial count. -/
def FillsItem (exports : List (String × Expression)) (name type : String) : Prop :=
  ∃ root list, (name, root) ∈ exports ∧ root.Contains list ∧ list.kind = "list" ∧
    (list.number? "initial").isSome = true ∧ list.text? "type" = some type

/-- The same for lists that have been chosen by their definition and themselves. -/
def ListsAmong (exports : List (String × Expression)) (chosen : String → Expression → Prop)
    (name type : String) : Prop :=
  ∃ root list, (name, root) ∈ exports ∧ root.Contains list ∧ list.kind = "list" ∧
    chosen name list ∧ list.text? "type" = some type

variable {plan : Plan} {name : String} {e inst list : Expression} {table : Table}
  {definition : Definition} {rowLimit depth : Nat} {property : Expression → Prop} {w : Workshop}
  {asked : List String} {refer : Refer} {context : Context} {roots : List Expression}

/-! ### Lists with an initial count -/

/-- A list with an initial count in an export has an item type that takes less depth to build. -/
theorem Plan.Exports.fills_less (checked : plan.Checked) {type : String} {root : Expression}
    (exported : plan.Exports name root) (within : plan.HasInstanceWithin (depth + 1) name inst)
    (contained : root.Contains list) (isList : list.kind = "list")
    (initial : (list.number? "initial").isSome = true) (typed : list.text? "type" = some type) :
    ∃ item, plan.HasInstanceWithin depth type item := by
  obtain ⟨own, instances, rfl⟩ := exported
  have rows : own.Throughout (Expression.HasRows plan (plan.HasInstanceWithin depth)) :=
    (within.same (instances.unique ⟨_, within⟩)).hasRows checked
  rcases (Plan.exported_hasRows rows list contained).rows isList with ⟨none, -⟩ | ⟨_, _, item, _, -, typed', has, -⟩
  · simp [none] at initial
  · rw [typed] at typed'
    cases typed'
    exact ⟨item, has⟩

private theorem fillsItem_acyclic_within (checked : plan.Checked)
    (exports : List.Forall₂ plan.Exports plan.table.exportNames roots)
    (within : plan.HasInstanceWithin depth name inst) :
    ¬ Relation.TransGen (FillsItem (plan.table.exportNames.zip roots)) name name := by
  induction depth generalizing name inst with
  | zero =>
    obtain ⟨_, found, -⟩ := within
    cases found
  | succ depth ih =>
    intro cycle
    -- What comes next on the cycle is on a cycle too, and takes less depth.
    obtain ⟨type, first, back⟩ := Relation.TransGen.head'_iff.mp cycle
    obtain ⟨root, list, member, contained, isList, initial, typed⟩ := id first
    obtain ⟨item, less⟩ := (List.forall₂_zip exports member).fills_less checked within contained
      isList initial typed
    exact ih less (Relation.TransGen.tail' back first)

/-- No definition comes back to itself through lists that have an initial count. -/
theorem fillsItem_acyclic (checked : plan.Checked)
    (exports : List.Forall₂ plan.Exports plan.table.exportNames roots) (name : String) :
    ¬ Relation.TransGen (FillsItem (plan.table.exportNames.zip roots)) name name := by
  intro cycle
  obtain ⟨_, ⟨root, _, member, -⟩, -⟩ := Relation.TransGen.head'_iff.mp cycle
  obtain ⟨inst, ⟨depth, within⟩, -⟩ := List.forall₂_zip exports member
  exact fillsItem_acyclic_within checked exports within cycle

/-! ### Lists that the check meets -/

/-- Rules that grant the requests for certain names. -/
def answering (table : Table) (rowLimit : Nat) (asked : List String) : Rules Unit :=
  { table, rowLimit
    request := fun name =>
      if asked.contains name then pure () else throw (.reference (.unknownDefinition name)) }

theorem answering_ok :
    (answering table rowLimit asked).request name () = .ok () () ↔ name ∈ asked := by
  simp only [answering, List.contains_iff_mem]
  split_ifs with known
  · simp [known, pure_ok]
  · simp [known, throw_ok]

private theorem answering_runs {names : List String} (all : ∀ name ∈ names, name ∈ asked) :
    Runs (answering table rowLimit asked).request names () () := by
  induction names with
  | nil => exact .nil ()
  | cons name rest ih =>
    obtain ⟨first, later⟩ := List.forall_mem_cons.mp all
    exact .cons (answering_ok.mpr first) (ih later)

/-- A walk gets through if its own requests are granted. -/
theorem walkDefinition_answering (demanded : demands table rowLimit definition = some asked) :
    ∃ ids, walkDefinition (answering table rowLimit asked) definition.expression definition.name ()
      = .ok ids () :=
  (walkDefinition_ok_iff (answering table rowLimit asked) definition).mpr
    ⟨asked, demanded, answering_runs fun _ member => member⟩

/-- Everything in a walked expression has been walked, in some context. -/
theorem Walked.throughout {σ : Type} {rules : Rules σ} (walked : Walked rules context e)
    (plain : e.Throughout Expression.IsPlain) (textName : e.TextName) :
    e.Throughout fun inner => ∃ context kind stem, Settled rules context inner kind stem := by
  induction e using Expression.inductionOn generalizing context with
  | step owner ih =>
    cases walked with
    | @intro _ _ kind stem admitted _ content =>
      have settled := admitted.settled plain.here textName
      refine Expression.throughout_iff.mpr ⟨⟨context, kind, stem, settled⟩, ?_⟩
      intro name child held
      -- a settled expression holds nothing but the block that is walked
      obtain ⟨there, children, found, inside⟩ := settled.held held
      have walked := content name children there found child inside
      exact ih name child held walked (plain.child held)
        (walked.textName (plain.here.tidy.linked name child held))

/-- A list asks for its item type when it is walked. -/
theorem Settled.item_requested {σ : Type} {rules : Rules σ} {stem : String}
    (settled : Settled rules context e .list stem) :
    ∃ type s s', e.text? "type" = some type ∧ rules.request type s = .ok () s' := by
  obtain ⟨_, _, _, _, particular⟩ := settled.particular
  obtain ⟨-, -, ⟨type, given, checked⟩, -⟩ := checkArguments_list_ok.mp particular
  obtain ⟨_, _, -, -, -, -, t, asked⟩ := checkItemType_ok checked
  exact ⟨type, _, t, given, asked⟩

/-- An expression that refers to nothing and takes no parameters, like everything in it. -/
def Expression.IsWrittenOut (e : Expression) : Prop :=
  e.Throughout fun inner => inner.isConcrete = true

private theorem Expression.IsWrittenOut.plain {e : Expression} (writtenOut : e.IsWrittenOut)
    (tidy : e.Throughout Expression.IsTidy) : e.Throughout Expression.IsPlain := by
  intro inner contained
  obtain ⟨-, own, builtIn⟩ := Expression.isConcrete_iff.mp (writtenOut inner contained)
  exact ⟨tidy inner contained, builtIn, own⟩

/-- The definition `name` requests the item type of a list. -/
def Expression.ItemRequested (table : Table) (rowLimit : Nat) (name : String) (list : Expression) :
    Prop :=
  ∃ type, list.text? "type" = some type ∧ Requests table rowLimit name type

/-- The check meets every list of a definition that is written out. -/
theorem Plan.Checked.items_requested (checked : plan.Checked)
    (found : plan.table.find? name = some definition)
    (writtenOut : definition.expression.IsWrittenOut) :
    definition.expression.Throughout fun inner => inner.kind = "list" →
      inner.ItemRequested plan.table plan.rowLimit name := by
  intro list contained isList
  obtain ⟨depth, clears⟩ := checked.clear name (Table.mem_names_of_find? found)
  cases depth with
  | zero => exact clears.elim
  | succ depth =>
    obtain ⟨definition', asked, found', demanded, -⟩ := clears
    rw [found] at found'
    cases found'
    -- the walk is run again with rules under which a request that gets through was demanded
    obtain ⟨result, run⟩ := walkDefinition_answering demanded
    simp only [walkDefinition, writtenOut.here, if_true] at run
    obtain ⟨ids, t, run, -⟩ := bind_ok.mp run
    have plain := writtenOut.plain (checked.tidy name definition found)
    have walked := walk_walked rfl plain (.inl writtenOut.here) run
    have textName : definition.expression.TextName := fun value named =>
      ⟨name, Option.some.inj (named.symm.trans (checked.named name definition found))⟩
    obtain ⟨context, kind, stem, settled⟩ := walked.throughout plain textName list contained
    obtain rfl := settled.kind_of .list isList
    obtain ⟨type, _, _, typed, granted⟩ := settled.item_requested
    refine ⟨type, typed, definition, found, ?_⟩
    rw [requested_of_demands demanded]
    exact answering_ok.mp granted

/-! ### Instances of what is written out -/

private theorem resolveArgument_writtenOut {value : Argument}
    (each : ∀ children, value = .block children → ∀ child ∈ children,
      resolve refer child w = .ok child w) : resolveArgument refer value w = .ok value w := by
  cases value with
  | block children =>
    simp only [resolveArgument, resolveBlock_eq, bind_ok, pure_ok]
    exact ⟨children, w, mapM_ok.mpr (Threads.refl (each children rfl)), rfl, rfl⟩
  | atom | text | number | list => rfl

/-- There is nothing to resolve in what is written out. -/
theorem resolve_writtenOut (writtenOut : e.IsWrittenOut) (w : Workshop) :
    resolve refer e w = .ok e w := by
  induction e using Expression.inductionOn with
  | step owner ih =>
    obtain ⟨-, own, builtIn⟩ := Expression.isConcrete_iff.mp writtenOut.here
    refine resolve_ok.mpr ⟨owner.arguments, w, ?_, ?_⟩
    · rw [resolveArguments_eq]
      refine mapM_ok.mpr (Threads.refl fun entry member => ?_)
      refine bind_ok.mpr ⟨entry.2, w,
        resolveArgument_writtenOut fun children block child inside => ?_,
        rfl⟩
      have held : owner.Holds entry.1 child := ⟨children, block ▸ member, inside⟩
      exact ih entry.1 child held (writtenOut.child held)
    · obtain ⟨id, parent, kind, arguments⟩ := owner
      simp only [join, own, builtIn, if_true]
      rfl

/-- Referring to a definition that is written out gives a copy of it. -/
theorem referTo_writtenOut (found : plan.table.find? name = some definition)
    (writtenOut : definition.expression.IsWrittenOut) (idle : w.resolving = []) :
    referTo plan name [] w = .ok ((definition.expression.copy none w.ids).1, [])
      { w with ids := (definition.expression.copy none w.ids).2 } := by
  have copies : (definition.expression.copy none w.ids).1.IsWrittenOut :=
    writtenOut.copy (fun e parent supply => by simp) none _
  have closed : (definition.expression.copy none w.ids).1.isGeneric = false := by
    simp [Expression.isGeneric, Expression.has, (Expression.isConcrete_iff.mp copies.here).1]
  have copied : copiedBody plan name [] { w with resolving := [name] } =
      .ok ((definition.expression.copy none w.ids).1, [])
        { w with resolving := [name], ids := (definition.expression.copy none w.ids).2 } := by
    unfold copiedBody
    simp only [found]
    refine bind_ok.mpr ⟨_, _, onIds_ok.mpr ⟨_, modifyGet_ok.mpr rfl, rfl⟩, ?_⟩
    rw [if_neg (by simp [closed])]
    rfl
  unfold referTo
  rw [referWithin]
  refine bind_ok.mpr ⟨w, w, get_ok.mpr ⟨rfl, rfl⟩, ?_⟩
  rw [if_neg (by simp [idle])]
  refine whileResolving_ok.mpr ⟨{ w with
    resolving := [name]
    ids := (definition.expression.copy none w.ids).2 }, ?_, by simp [idle]⟩
  rw [copyDefinition_eq, idle]
  exact bind_ok.mpr ⟨_, _, copied, bind_ok.mpr ⟨_, _, resolve_writtenOut copies _, rfl⟩⟩

/-- Every list that is reached without going through another one has the property. -/
inductive Expression.OuterLists (property : Expression → Prop) : Expression → Prop
  | list {e : Expression} (list : e.kind = "list") (holds : property e) : OuterLists property e
  | other {e : Expression} (noList : e.kind ≠ "list")
      (below : ∀ name child, e.Holds name child → OuterLists property child) :
      OuterLists property e

/-- A list has the property or stands in another list. -/
theorem Expression.OuterLists.cases_list (outer : e.OuterLists property)
    (contained : e.Contains list) (isList : list.kind = "list") :
    property list ∨ ∃ above, e.Contains above ∧ above.kind = "list" ∧ above.Encloses list := by
  induction outer with
  | @list e isOuter holds =>
    rcases Expression.contains_iff.mp contained with rfl | below
    · exact .inl holds
    · exact .inr ⟨e, e.contains_self, isOuter, Expression.encloses_iff.mpr below⟩
  | other noList _ ih =>
    rcases Expression.contains_iff.mp contained with rfl | ⟨name, child, held, below⟩
    · exact absurd isList noList
    · exact (ih name child held below).imp_right fun ⟨above, there, rest⟩ =>
        ⟨above, held.contains.trans there, rest⟩

private theorem Expression.OuterLists.same
    (stable : ∀ first second, SameContent first second → property first → property second)
    {first second : Expression} (outer : first.OuterLists property)
    (contents : SameContent first second) : second.OuterLists property := by
  induction outer generalizing second with
  | list list holds => exact .list (contents.kinds ▸ list) (stable _ _ contents holds)
  | other noList _ ih =>
    refine .other (contents.kinds ▸ noList) fun name child held => ?_
    obtain ⟨origin, there, same⟩ := held.same contents.arguments
    exact ih name origin there same.content

/-- Filling leaves lists where they are, and their item types as they are. -/
theorem fillLists_outerLists {build : String → Building Expression}
    (filled : ∀ list rows, property list → property (list.set "body" (.block rows)))
    {result : Expression} {w' : Workshop}
    (all : e.Throughout fun inner => inner.kind = "list" → property inner)
    (run : fillLists build e w = .ok result w') : result.OuterLists property := by
  induction e using Expression.inductionOn generalizing result w w' with
  | step owner ih =>
    rcases fillLists_ok.mp run with ⟨isList, ran⟩ | ⟨noList, after, ran, rfl⟩
    · rcases fillList_ok.mp ran with ⟨-, rfl, -⟩ | ⟨_, _, _, _, -, -, -, rfl, -⟩
      · exact .list isList (all.here isList)
      · exact .list isList (filled _ _ (all.here isList))
    · refine .other noList fun name child held => ?_
      obtain ⟨origin, there, u, u', step⟩ := (fillArguments_become ran).held held
      exact ih name origin there (all.child there) step

private theorem Plan.exported_outerLists (outer : inst.OuterLists property) :
    (plan.exported inst).OuterLists property := by
  cases outer with
  | list list holds =>
    have noPage : inst.kind ≠ "page" := fun page => absurd (page.symm.trans list) (by decide)
    rw [Plan.exported, if_neg noPage]
    exact .list list holds
  | other noList below =>
    refine .other ((Plan.exported_kind inst).symm ▸ noList) fun place child held => ?_
    exact below place child held.of_exported

private theorem Expression.ItemRequested.set (requested : list.ItemRequested table rowLimit name)
    (rows : List Expression) :
    (list.set "body" (.block rows)).ItemRequested table rowLimit name := by
  obtain ⟨type, typed, asks⟩ := requested
  refine ⟨type, ?_, asks⟩
  simpa only [Expression.text?, Expression.get?, Expression.set,
    Entries.lookup_insert_of_ne _ _ (show "type" ≠ "body" by decide)] using typed

/-- In the instance of a definition that is written out, the item type of every list has been
requested, unless the list stands in another one. -/
theorem Plan.HasInstance.outerLists (checked : plan.Checked)
    (instances : plan.HasInstance name inst) (found : plan.table.find? name = some definition)
    (writtenOut : definition.expression.IsWrittenOut) :
    inst.OuterLists (Expression.ItemRequested plan.table plan.rowLimit name) := by
  obtain ⟨build, root, rest, filled, ids, w, _, referred, -, run, -, same⟩ := instances.assembled
  -- The copy is the whole instance up to its rows, since there is nothing to resolve in it.
  rw [referTo_writtenOut found writtenOut plan.workshop_atRest.resolving] at referred
  cases referred
  have all : (definition.expression.copy none plan.workshop.ids).1.Throughout fun inner =>
      inner.kind = "list" → inner.ItemRequested plan.table plan.rowLimit name := by
    refine (checked.items_requested found writtenOut).copy ?_ _ _
    intro e parent supply asked isList
    obtain ⟨type, typed, asks⟩ := asked (by simpa using isList)
    refine ⟨type, Expression.text?_eq_some.mpr ?_, asks⟩
    exact (e.copy_keepsBlockless parent supply).keepsTexts.texts _ _ (Expression.text?_eq_some.mp typed)
  refine (fillLists_outerLists (fun _ _ requested => requested.set _) all run).same ?_
    (SameOutline.content (Eq.symm same))
  rintro first second contents ⟨type, typed, asks⟩
  exact ⟨type, (contents.text? "type").symm.trans typed, asks⟩

/-! ### Exports -/

/-- **Item types form no cycle that an analysis looks at.** No definition comes back to itself
through lists that have an initial count, in rows as well. Where one comes back to itself through
certain lists, one of these has an item type that its definition does not request, neither itself nor
through others. This one stands in a definition that is not written out, or in a row: of all other
lists the item types are requested when the definitions are checked. -/
theorem item_types_acyclic {session session' : Session} {set : ExportSet}
    (reachable : session.Reachable) (run : Session.analyze session = .ok set session') :
    ∃ table, Table.ofExpressions session.expressions = .ok table ∧
      (∀ name, ¬ Relation.TransGen (FillsItem (table.exportNames.zip set.exports)) name name) ∧
      (∀ chosen name,
        Relation.TransGen (ListsAmong (table.exportNames.zip set.exports) chosen) name name →
        ∃ owner root list type, (owner, root) ∈ table.exportNames.zip set.exports ∧
          root.Contains list ∧ list.kind = "list" ∧ chosen owner list ∧
          list.text? "type" = some type ∧
          ¬ Relation.TransGen (Requests table session.config.maxListRows) owner type ∧
          ∀ definition, table.find? owner = some definition →
            definition.expression.IsWrittenOut →
            ∃ above, root.Contains above ∧ above.kind = "list" ∧ above.Encloses list) ∧
      ∀ name root definition list, (name, root) ∈ table.exportNames.zip set.exports →
        table.find? name = some definition → definition.expression.IsWrittenOut →
        root.Contains list → list.kind = "list" →
        list.ItemRequested table session.config.maxListRows name ∨
          ∃ above, root.Contains above ∧ above.kind = "list" ∧ above.Encloses list := by
  obtain ⟨table, made, checked, exports⟩ := reachable.analyze_sound run
  have met : ∀ name root definition list, (name, root) ∈ table.exportNames.zip set.exports →
      table.find? name = some definition → definition.expression.IsWrittenOut →
      root.Contains list → list.kind = "list" →
      list.ItemRequested table session.config.maxListRows name ∨
        ∃ above, root.Contains above ∧ above.kind = "list" ∧ above.Encloses list := by
    intro name root definition list member found writtenOut contained isList
    obtain ⟨inst, instances, rfl⟩ := List.forall₂_zip exports member
    exact (Plan.exported_outerLists (instances.outerLists checked found writtenOut)).cases_list
      contained isList
  refine ⟨table, made, fillsItem_acyclic checked exports, fun chosen name cycle => ?_, met⟩
  -- Not every step of the cycle is a request, since requests form no cycle.
  obtain ⟨owner, type, ⟨root, list, member, contained, isList, among, typed⟩, unasked⟩ :
      ∃ owner type, ListsAmong (table.exportNames.zip set.exports) chosen owner type ∧
        ¬ Relation.TransGen (Requests table session.config.maxListRows) owner type := by
    by_contra! requested
    exact checked.clear.acyclic name (Relation.TransGen.closed requested _ _ cycle)
  refine ⟨owner, root, list, type, member, contained, isList, among, typed, unasked, ?_⟩
  intro definition found writtenOut
  refine (met owner root definition list member found writtenOut contained isList).resolve_left ?_
  rintro ⟨other, typed', asks⟩
  obtain rfl : type = other := Option.some.inj (typed.symm.trans typed')
  exact unasked (.single asks)

def grid : String :=
  "div defines: \"cell\"\n" ++
  "list defines: \"line\", id: \"c\", type: \"cell\", initial: 2\n" ++
  "div defines: \"grid\", body: \x7b list id: \"r\", type: \"line\", initial: 1\n" ++
  "  list id: \"more\", type: \"line\" \x7d\n"

theorem item_types_acyclic_grid :
    ∃ set session', Session.analyze (Session.ofSource grid) =
        .ok set session' ∧ set.names = ["cell", "line", "grid"] ∧
      ∃ table, Table.ofExpressions (Session.ofSource grid).expressions = .ok table ∧
        (∀ name, ¬ Relation.TransGen (FillsItem (table.exportNames.zip set.exports)) name name) ∧
        (∀ chosen name,
          Relation.TransGen (ListsAmong (table.exportNames.zip set.exports) chosen) name name →
          ∃ owner root list type, (owner, root) ∈ table.exportNames.zip set.exports ∧
            root.Contains list ∧ list.kind = "list" ∧ chosen owner list ∧
            list.text? "type" = some type ∧
            ¬ Relation.TransGen (Requests table
              (Session.ofSource grid).config.maxListRows) owner type ∧
            ∀ definition, table.find? owner = some definition →
              definition.expression.IsWrittenOut →
              ∃ above, root.Contains above ∧ above.kind = "list" ∧ above.Encloses list) ∧
        ∀ name root definition list, (name, root) ∈ table.exportNames.zip set.exports →
          table.find? name = some definition → definition.expression.IsWrittenOut →
          root.Contains list → list.kind = "list" →
          list.ItemRequested table (Session.ofSource grid).config.maxListRows
              name ∨
            ∃ above, root.Contains above ∧ above.kind = "list" ∧ above.Encloses list := by
  have analyzed : (Session.ofSource grid).exportSet?.map ExportSet.names =
      some ["cell", "line", "grid"] := by
    decide +kernel
  obtain ⟨set, session', run, names⟩ := Session.analyze_of_names analyzed
  exact ⟨set, session', run, names, item_types_acyclic (.ofSource grid) run⟩

/-- A definition with a list of itself, which stands below a reference and starts without rows. -/
def selfListing : String :=
  "div defines: \"base\"\n" ++
  "div defines: \"tree\", inherits: \"base\", body: \x7b list id: \"l\", type: \"tree\" \x7d\n"

/-- Nothing looks at the item type of such a list in time, so the analysis succeeds. -/
theorem selfListing_cycles :
    ∃ set session' table, Session.analyze (Session.ofSource selfListing) = .ok set session' ∧
      Table.ofExpressions (Session.ofSource selfListing).expressions = .ok table ∧
      ListsItem (table.exportNames.zip set.exports) "tree" "tree" := by
  have listed : (Session.ofSource selfListing).exportSet?.any (fun set =>
      match Table.ofExpressions
        (Session.ofSource selfListing).expressions with
      | .ok table => (table.exportNames.zip set.exports).any fun entry => entry.1 = "tree" &&
          ((entry.2.block? "body").getD []).any fun list =>
            list.kind = "list" && list.text? "type" = some "tree"
      | .error _ => false) = true := by
    decide +kernel
  obtain ⟨set, session', run, tests⟩ := Session.analyze_of_any listed
  cases made : Table.ofExpressions
      (Session.ofSource selfListing).expressions with
  | error fault => simp [made] at tests
  | ok table =>
    simp only [made, List.any_eq_true, Bool.and_eq_true, decide_eq_true_eq] at tests
    obtain ⟨⟨name, root⟩, member, named, list, inside, isList, typed⟩ := tests
    refine ⟨set, session', table, run, rfl, root, list, ?_,
      (Expression.holds_of_block inside).contains, isList, typed⟩
    exact named ▸ member

end Pagewright
