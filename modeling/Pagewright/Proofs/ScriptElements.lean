import Pagewright.Proofs.ScriptRun

/-!
# Scripts and markup make the same elements

An export is drawn as markup below an id, and it is built by a function of the
construction script below an element of this id. Both give the same elements, in
the same order, with the same ids and targets. Where the markup has all rows of
a list, the script calls the function of the item type in a loop; so the proof
is by induction on how deep lists of lists go, and then on the expression.
-/

namespace Pagewright

variable {e root : Expression} {kind : Kind} {name : String} {elements : String → List Element}
  {roots children : List Expression} {second first : Draft} {names : List String}
  {instruction : BuildInstruction} {depth : Nat}

/-! ### One step of construction -/

def Expression.builtInner (e : Expression) : List Expression :=
  if e.kind = "list" then [] else e.inner

private theorem constructIn_eq (e : Expression) :
    constructIn (builtContent? e) e.arguments = constructAll e.builtInner := by
  have found : ∀ content, constructIn content e.arguments =
      constructAll (((content.bind e.get?).bind Argument.block?).getD []) := by
    intro content
    refine search_eq content (constructIn content) constructAll rfl ?_ e.arguments
    intro name value rest
    cases value <;> rfl
  rw [found]
  unfold builtContent? Expression.builtInner
  split_ifs <;> rfl

/-- The instructions of an expression in terms of what is read off it. -/
theorem construct_eq (named : Kind.ofName? e.kind = some kind) (noText : kind ≠ .text)
    (noPage : kind ≠ .page) :
    construct e = Draft.andThen ⟨createElement e ++ fitOut e kind, none⟩
      (Draft.andThen (constructAll e.builtInner) ⟨[.leave], none⟩) := by
  rw [← constructIn_eq]
  obtain ⟨id, parent, name, arguments⟩ := e
  have known : Kind.ofName? name = some kind := named
  rw [construct, known]
  cases kind with
  | text => exact absurd rfl noText
  | page => exact absurd rfl noPage
  | _ => rfl

theorem construct_text (named : Kind.ofName? e.kind = some .text) :
    construct e = ⟨[.text ((e.text? "value").getD "")], none⟩ := by
  obtain ⟨id, parent, name, arguments⟩ := e
  have known : Kind.ofName? name = some .text := named
  rw [construct, known]

theorem construct_page (named : Kind.ofName? e.kind = some .page) :
    construct e = ⟨createElement e, some (.internal (.unbuildable e.kind))⟩ := by
  obtain ⟨id, parent, name, arguments⟩ := e
  have known : Kind.ofName? name = some .page := named
  rw [construct, known]

theorem Expression.holds_of_builtInner {child : Expression} (member : child ∈ e.builtInner) :
    ∃ name, e.Holds name child := by
  unfold Expression.builtInner at member
  split_ifs at member
  · cases member
  · obtain ⟨name, -, held⟩ := Expression.holds_of_inner member
    exact ⟨name, held⟩

/-! ### Drafts -/

section

variable {make : String → String → Option (List Element)}

/-- The draft is whole, its lines can be read, and below any node they make these elements. -/
structure Draft.Makes (make : String → String → Option (List Element)) (draft : Draft)
    (elements : String → List Element) : Prop where
  whole : draft.failure = none
  plain : ∀ instruction ∈ draft.instructions, instruction.Plain
  builds : ∀ node,
    Machine.Builds make (draft.instructions.flatMap BuildInstruction.actions) node (elements node)

private theorem Draft.andThen_of_whole (whole : first.failure = none) :
    first.andThen second = ⟨first.instructions ++ second.instructions, second.failure⟩ := by
  rw [Draft.andThen, whole]

private theorem Draft.makes_nil : Draft.Makes make ⟨[], none⟩ fun _ => [] :=
  ⟨rfl, by simp, Machine.builds_nil⟩

private theorem Draft.Makes.andThen {more : String → List Element} (one : first.Makes make elements)
    (two : second.Makes make more) :
    (first.andThen second).Makes make fun node => elements node ++ more node := by
  rw [Draft.andThen_of_whole one.whole]
  refine ⟨two.whole, fun instruction member => ?_, fun node => ?_⟩
  · rcases List.mem_append.mp member with early | late
    · exact one.plain instruction early
    · exact two.plain instruction late
  · rw [List.flatMap_append]
    exact (one.builds node).append (two.builds node)

private theorem makes_text (named : Kind.ofName? e.kind = some .text) :
    (construct e).Makes make fun _ => [] := by
  rw [construct_text named]
  exact ⟨rfl, by simp [BuildInstruction.Plain], Machine.builds_block⟩

private theorem escapeScript_tag (named : Kind.ofName? e.kind = some kind) :
    escapeScript e.tag = e.tag := by
  have written := Kind.name_of_ofName? named
  unfold Expression.tag
  rw [← written]
  cases kind <;> decide

/-- Whatever is written into the instruction's lines stands in a literal or is a number. -/
def BuildInstruction.IsQuoted : BuildInstruction → Prop
  | .create _ | .setAttribute _ | .listify _ _ _ => False
  | _ => True

theorem mem_createElement (member : instruction ∈ createElement e) :
    instruction = .create e.tag ∨ instruction.IsQuoted := by
  simp only [createElement, List.mem_append, List.mem_cons, List.not_mem_nil, or_false,
    Option.mem_toList, Option.map_eq_some_iff, List.mem_map] at member
  rcases member with (((rfl | rfl) | ⟨_, -, rfl⟩) | ⟨_, -, rfl⟩) | ⟨_, -, rfl⟩
  · exact .inr trivial
  · exact .inl rfl
  all_goals exact .inr trivial

private theorem createNode_quoted (e : Expression) : (createNode e).IsQuoted := by
  unfold createNode
  split
  · split_ifs <;> trivial
  · trivial

theorem mem_fitOut (member : instruction ∈ fitOut e kind) :
    kind = .list ∧ instruction = .listify e.itemType e.leastRows e.mostRows ∨
      (∃ attr ∈ e.inputAttributes, instruction = .setAttribute attr) ∨ instruction.IsQuoted := by
  have node := createNode_quoted e
  cases kind with
  | list =>
    simp only [fitOut, List.mem_append, List.mem_cons, List.not_mem_nil, or_false,
      Option.mem_toList, Option.map_eq_some_iff] at member
    rcases member with (rfl | rfl) | ⟨_, -, rfl⟩
    · exact .inr (.inr node)
    · exact .inl ⟨rfl, rfl⟩
    · exact .inr (.inr trivial)
  | option =>
    simp only [fitOut, List.mem_append, List.mem_cons, List.not_mem_nil, or_false,
      Option.mem_toList, Option.map_eq_some_iff] at member
    rcases member with ⟨_, -, rfl⟩ | rfl | rfl
    · exact .inr (.inr trivial)
    · exact .inr (.inr trivial)
    · exact .inr (.inr node)
  | label =>
    simp only [fitOut, List.mem_append, List.mem_singleton, Option.mem_toList,
      Option.map_eq_some_iff] at member
    rcases member with ⟨_, -, rfl⟩ | rfl
    · exact .inr (.inr trivial)
    · exact .inr (.inr node)
  | input =>
    simp only [fitOut, List.mem_append, List.mem_singleton, List.mem_map] at member
    rcases member with ⟨attr, among, rfl⟩ | rfl
    · exact .inr (.inl ⟨attr, among, rfl⟩)
    · exact .inr (.inr node)
  | _ =>
    cases List.mem_singleton.mp member
    exact .inr (.inr node)

private theorem BuildInstruction.IsQuoted.plain {instruction : BuildInstruction}
    (quoted : instruction.IsQuoted) : instruction.Plain := by
  cases instruction <;> trivial

private theorem createElement_plain (named : Kind.ofName? e.kind = some kind) :
    ∀ instruction ∈ createElement e, instruction.Plain := by
  intro instruction member
  rcases mem_createElement member with rfl | quoted
  · exact escapeScript_tag named
  · exact quoted.plain

private theorem fitOut_plain (typed : kind = .list → ',' ∉ e.itemType.toList) :
    ∀ instruction ∈ fitOut e kind, instruction.Plain := by
  intro instruction member
  rcases mem_fitOut member with ⟨list, rfl⟩ | ⟨attr, -, rfl⟩ | quoted
  · exact typed list
  · trivial
  · exact quoted.plain

/-- The instructions of an element, around those for what stands in it. -/
theorem makes_around (named : Kind.ofName? e.kind = some kind) (noText : kind ≠ .text)
    (noPage : kind ≠ .page) (typed : kind = .list → ',' ∉ e.itemType.toList)
    {inner : List BuildInstruction} (written : constructAll e.builtInner = ⟨inner, none⟩)
    (plain : ∀ instruction ∈ inner, instruction.Plain)
    (builds : ∀ node, Machine.Builds make
      ((createElement e ++ fitOut e kind).flatMap BuildInstruction.actions ++
        inner.flatMap BuildInstruction.actions ++ [.closeBlock]) node (elements node)) :
    (construct e).Makes make elements := by
  rw [construct_eq named noText noPage, written]
  refine ⟨rfl, fun instruction member => ?_, fun node => ?_⟩
  · simp only [Draft.andThen, List.mem_append, List.mem_singleton] at member
    rcases member with (made | fitted) | inside | rfl
    · exact createElement_plain named instruction made
    · exact fitOut_plain typed instruction fitted
    · exact plain instruction inside
    · trivial
  · have same := builds node
    simpa [Draft.andThen, BuildInstruction.actions] using same

/-! ### Agreement -/

/-- Below any id an expression is drawn and built with the same elements. -/
def Expression.Agrees (make : String → String → Option (List Element)) (e : Expression) : Prop :=
  ∃ elements : String → List Element,
    (∀ stem, Draws e stem (elements stem)) ∧ (construct e).Makes make elements

private theorem agreesAll (each : ∀ child ∈ children, child.Agrees make) :
    ∃ elements : String → List Element, (∀ stem, DrawsAll children stem (elements stem)) ∧
      (constructAll children).Makes make elements := by
  induction children with
  | nil => exact ⟨fun _ => [], drawsAll_nil, Draft.makes_nil⟩
  | cons child rest ih =>
    obtain ⟨elements, drawn, makes⟩ := each child (by simp)
    obtain ⟨more, drawnAll, makesAll⟩ := ih (List.forall_mem_cons.mp each).2
    refine ⟨fun stem => elements stem ++ more stem, ?_, ?_⟩
    · exact fun stem => DrawsAll.cons (drawn stem) (drawnAll stem)
    · rw [constructAll]
      exact makes.andThen makesAll

private theorem agrees_element (named : Kind.ofName? e.kind = some kind) (noText : kind ≠ .text)
    (noPage : kind ≠ .page) (noList : kind ≠ .list)
    (inside : ∀ child ∈ e.inner, child.Agrees make) : e.Agrees make := by
  have inner : e.builtInner = e.inner :=
    if_neg fun list => noList (Kind.eq_of_ofName? named list)
  obtain ⟨elements, drawn, makes⟩ := agreesAll inside
  refine ⟨fun stem => e.ownElement stem :: elements (innerStem e stem), fun stem => ?_, ?_⟩
  · exact draws_element named noText noPage (drawn (innerStem e stem))
  · refine makes_around named noText noPage (fun list => absurd list noList) ?_ makes.plain
      (builds_element e named noList makes.builds)
    rw [inner, ← makes.whole]

private theorem Expression.content?_list (e : Expression) (list : e.kind = "list") :
    e.content? = some "body" := by
  unfold Expression.content?
  rw [list]
  rfl

/-- The instruction that fills a list, if the list starts with rows. -/
def fillRows (e : Expression) : List BuildInstruction :=
  ((e.number? "initial").map BuildInstruction.insertRows).toList

section

variable (list : e.kind = "list") (typed : ',' ∉ e.itemType.toList)

include list typed

/-- A list agrees with itself if the rows that stand in it are those that are put in. -/
theorem agrees_list {rows : String → List Element}
    (drawn : ∀ stem, DrawsAll e.inner stem (rows stem))
    (filled : ∀ machine frame outer, machine.frames = frame :: outer →
      frame.itemType = e.itemType →
      Machine.run make machine ((fillRows e).flatMap BuildInstruction.actions) =
        some { machine with elements := machine.elements ++ rows frame.node }) : e.Agrees make := by
  have named : Kind.ofName? e.kind = some .list := by
    rw [list]
    rfl
  have nothing : constructAll e.builtInner = ⟨[], none⟩ := by
    rw [Expression.builtInner, if_pos list, constructAll]
  refine ⟨fun stem => e.ownElement stem :: rows (innerStem e stem), fun stem => ?_, ?_⟩
  · exact draws_element named (by decide) (by decide) (drawn _)
  · refine makes_around named (by decide) (by decide) (fun _ => typed) nothing (by simp) ?_
    intro node
    simpa [fitOut, fillRows] using builds_list e list filled node

private theorem agrees_emptyList (initial : e.number? "initial" = none)
    (missing : e.get? "body" = none) : e.Agrees make := by
  have inner : e.inner = [] := by simp [Expression.inner, e.content?_list list, missing]
  have rows : ∀ stem, DrawsAll e.inner stem [] := by
    rw [inner]
    exact drawsAll_nil
  refine agrees_list list typed rows fun machine frame outer _ _ => ?_
  simp [fillRows, initial, Machine.run]

/-- The rows of a list are put in by the function of the item type. -/
theorem agrees_filledList {item : Expression} {count : Nat}
    (initial : e.number? "initial" = some count) (block : e.get? "body" = some (.block children))
    (made : List.Forall₂ SameOutline (makeRows item 0 count 0 {}).1 children)
    (resolved : item.Throughout Expression.IsResolved) (tidy : item.Throughout Expression.IsTidy)
    (drawn : ∀ stem, Draws item stem (elements stem))
    (makes : ∀ stem, make e.itemType stem = some (elements stem)) : e.Agrees make := by
  have inner : e.inner = children := by
    simp [Expression.inner, e.content?_list list, block, Argument.block?]
  have rows : ∀ stem, DrawsAll e.inner stem (rowElements elements stem count) := by
    intro stem
    rw [inner, rowElements, List.range_eq_range']
    exact (draws_rows resolved tidy drawn stem 0 count 0 {}).same made
  refine agrees_list list typed rows fun machine frame outer frames same => ?_
  have filled := run_insertRows count frames fun node => same ▸ makes node
  simpa [fillRows, initial] using filled

end

/-- Where the functions of item types make the elements of their items, an expression is built with
the elements it is drawn with. -/
theorem Expression.agrees {plan : Plan} {items : String → Expression → Prop}
    (names : ∀ name ∈ plan.table.exportNames, ',' ∉ name.toList)
    (sound : ∀ type item, items type item →
      item.Throughout Expression.IsResolved ∧ item.Throughout Expression.IsTidy)
    (given : ∀ type item, type ∈ plan.table.exportNames → items type item → item.kind ≠ "page" →
      ∃ elements : String → List Element, (∀ stem, Draws item stem (elements stem)) ∧
        ∀ stem, make type stem = some (elements stem))
    (resolved : e.Throughout Expression.IsResolved)
    (rows : e.Throughout (Expression.HasRows plan items)) (noPage : e.kind ≠ "page") :
    e.Agrees make := by
  induction e using Expression.inductionOn with
  | step e ih =>
    obtain ⟨kind, named⟩ := Option.isSome_iff_exists.mp resolved.here.builtIn
    have written := Kind.name_of_ofName? named
    by_cases list : e.kind = "list"
    · obtain ⟨type, typed, known⟩ := rows.here.typed list
      have itemType : e.itemType = type := by simp [Expression.itemType, typed]
      have plain : ',' ∉ e.itemType.toList := itemType ▸ names type known
      rcases rows.here.rows list with ⟨initial, missing⟩ | ⟨count, type', item, children, initial,
        typed', instances, itemNoPage, block, made⟩
      · exact agrees_emptyList list plain initial missing
      · rw [typed] at typed'
        cases typed'
        obtain ⟨elements, drawn, makes⟩ := given type item known instances itemNoPage
        exact agrees_filledList list plain initial block made (sound type item instances).1
          (sound type item instances).2 drawn (itemType ▸ makes)
    · by_cases text : kind = .text
      · exact ⟨fun _ => [], draws_text (text ▸ named), makes_text (text ▸ named)⟩
      · refine agrees_element named text ?_ ?_ fun child member => ?_
        · rintro rfl
          exact noPage written.symm
        · rintro rfl
          exact list written.symm
        · obtain ⟨name, -, held⟩ := Expression.holds_of_inner member
          exact ih name child held (resolved.child held) (rows.child held)
            (resolved.here.pages name child held)

end

/-! ### Functions -/

def functionLines (name : String) (root : Expression) : List Line :=
  functionHead name ++ BuildInstruction.lines 1 (construct root).instructions ++
    [⟨0, "\x7d"⟩, Line.blank]

/-- The functions of a script: one for every export that is no page, by the name of its definition. -/
def scriptFunctions (exports : List (String × Expression)) : List (String × List Line) :=
  (exports.filter fun entry => entry.2.kind ≠ "page").map fun entry =>
    (entry.1, functionLines entry.1 entry.2)

/-- The elements that the function of a definition makes below an element of some id, as its lines
say. No more than `depth` functions are running at a time. -/
def callFunction (functions : List (String × List Line)) :
    Nat → String → String → Option (List Element)
  | 0, _, _ => none
  | depth + 1, name, parent => do
    let lines ← functions.lookup name
    let finished ← Machine.run (callFunction functions depth) { frames := [{ node := parent }] }
      (readActions lines)
    return finished.elements

theorem renderFunction_eq (name : String) (whole : (construct root).failure = none) :
    renderFunction name root = (renderLines (functionLines name root), .ok ()) := by
  simp only [renderFunction, whole, functionLines]
  rw [renderLines_append _ [_, _]]

private theorem readActions_functionLines (name : String)
    (plain : ∀ instruction ∈ (construct root).instructions, instruction.Plain) :
    readActions (functionLines name root) =
      (construct root).instructions.flatMap BuildInstruction.actions ++ [.closeBlock] := by
  have head : readActions (functionHead name) = [] := by
    simp (disch := decide) only [functionHead, Line.blank, readActions_cons, String.append_assoc,
      readAction_silent]
    rfl
  have tail : readActions [⟨0, "\x7d"⟩, Line.blank] = [.closeBlock] := by decide
  have append (first second : List Line) :
      readActions (first ++ second) = readActions first ++ readActions second :=
    List.filterMap_append
  rw [functionLines, append, append, head, tail, readActions_lines plain, List.nil_append]

/-- A function makes what its draft makes. -/
theorem callFunction_eq {functions : List (String × List Line)}
    (found : functions.lookup name = some (functionLines name root))
    (makes : (construct root).Makes (callFunction functions depth) elements) (parent : String) :
    callFunction functions (depth + 1) name parent = some (elements parent) := by
  obtain ⟨scope, ran⟩ := makes.builds parent { frames := [{ node := parent }] } _ [] rfl rfl
  simp only [callFunction, found, readActions_functionLines name makes.plain, Option.bind_eq_bind,
    Option.bind_some, Machine.run_append, ran]
  simp [Machine.run, Machine.step]

/-! ### Exports -/

private theorem scriptFunctions_lookup (distinct : names.Nodup)
    (aligned : names.length = roots.length) (member : (name, root) ∈ names.zip roots)
    (noPage : root.kind ≠ "page") :
    (scriptFunctions (names.zip roots)).lookup name = some (functionLines name root) := by
  refine Entries.lookup_of_distinct ?_ ?_
  · have named : (scriptFunctions (names.zip roots)).map Prod.fst =
        ((names.zip roots).filter fun entry => entry.2.kind ≠ "page").map Prod.fst := by
      simp [scriptFunctions, Function.comp_def]
    rw [named]
    refine List.Nodup.sublist (List.filter_sublist.map Prod.fst) ?_
    rwa [List.map_fst_zip aligned.le]
  · refine List.mem_map.mpr ⟨(name, root), List.mem_filter.mpr ⟨member, ?_⟩, rfl⟩
    simpa using noPage

variable {plan : Plan}

/-- Only the exports of pages differ from instances. -/
theorem Plan.Exports.hasInstance (exported : plan.Exports name root) (noPage : root.kind ≠ "page") :
    plan.HasInstance name root := by
  obtain ⟨inst, instances, rfl⟩ := exported
  unfold Plan.exported at noPage ⊢
  split_ifs at noPage ⊢ with page
  · exact absurd page noPage
  · exact instances

/-- The instance of a definition that is no page is what is exported under its name. -/
theorem Plan.Exports.same {inst : Expression} (exported : plan.Exports name root)
    (instances : plan.HasInstance name inst) (noPage : inst.kind ≠ "page") :
    SameOutline root inst := by
  obtain ⟨inst', instances', rfl⟩ := exported
  have same := instances'.unique instances
  rw [Plan.exported, if_neg fun page => noPage (same.content.kinds ▸ page)]
  exact same

/-- The functions of a script make the elements that their exports are drawn with. -/
theorem callFunction_draws (checked : plan.Checked) (distinct : plan.table.exportNames.Nodup)
    (names : ∀ name ∈ plan.table.exportNames, ',' ∉ name.toList)
    (exports : List.Forall₂ plan.Exports plan.table.exportNames roots) {more : Nat}
    (enough : depth ≤ more) (member : (name, root) ∈ plan.table.exportNames.zip roots)
    (instances : plan.HasInstanceWithin depth name root) (noPage : root.kind ≠ "page") :
    (construct root).failure = none ∧ ∃ elements : String → List Element,
      (∀ stem, Draws root stem (elements stem)) ∧ ∀ stem,
        callFunction (scriptFunctions (plan.table.exportNames.zip roots)) more name stem =
          some (elements stem) := by
  induction depth generalizing more name root with
  | zero =>
    obtain ⟨_, found, -⟩ := instances
    cases found
  | succ depth ih =>
    obtain ⟨more, rfl⟩ : ∃ less, more = less + 1 := ⟨more - 1, by omega⟩
    have agrees : root.Agrees
        (callFunction (scriptFunctions (plan.table.exportNames.zip roots)) more) := by
      refine Expression.agrees names ?_ ?_
        (Plan.HasInstance.resolved checked ⟨_, instances⟩) (instances.hasRows checked) noPage
      · exact fun type item within =>
          ⟨Plan.HasInstance.resolved checked ⟨_, within⟩, Plan.HasInstance.tidy checked ⟨_, within⟩⟩
      · intro type item known within itemNoPage
        obtain ⟨other, there⟩ := exists_zip_of_mem exports known
        have same := (List.forall₂_zip exports there).same ⟨_, within⟩ itemNoPage
        obtain ⟨-, elements, drawn, calls⟩ := ih (Nat.le_of_succ_le_succ enough) there
          (within.same same) (same.content.kinds ▸ itemNoPage)
        exact ⟨elements, fun stem => (drawn stem).same same.content, calls⟩
    obtain ⟨elements, drawn, makes⟩ := agrees
    refine ⟨makes.whole, elements, drawn, callFunction_eq ?_ makes⟩
    exact scriptFunctions_lookup distinct exports.length_eq member noPage

/-- The text of a script is that of its functions, one after the other. -/
theorem renderScript_ok
    (each : List.Forall₂ (fun name root => root.kind ≠ "page" →
      (root.defines? = none ∨ root.defines? = some name) ∧ (construct root).failure = none) names roots)
    {text : String} (run : renderScript roots = .ok text) :
    text = String.join ((scriptFunctions (names.zip roots)).map fun function =>
      renderLines function.2) := by
  induction each generalizing text with
  | nil =>
    cases run
    rfl
  | @cons name root names roots first _ ih =>
    rw [renderScript] at run
    by_cases page : root.kind = "page"
    · rw [if_pos page] at run
      simpa [scriptFunctions, page] using ih run
    · rw [if_neg page] at run
      obtain ⟨missing | named, whole⟩ := first page
      · simp [missing] at run
      · simp only [named, renderFunction_eq name whole] at run
        obtain ⟨rest, later, last⟩ := Outcome.except_bind_ok.mp run
        cases last
        simp [scriptFunctions, page, ih later]

/-- **Scripts and markup make the same elements.** For every export that is no page a script has a
whole function. Below an element of any id the function makes, in order, the elements that are read
off the lines of the export's markup below this id. -/
theorem script_makes_drawn_elements {session session' : Session} {set : ExportSet}
    (reachable : session.Reachable) (run : Session.analyze session = .ok set session') :
    ∃ table, Table.ofExpressions session.expressions = .ok table ∧
      (∀ text, renderScript set.exports = .ok text →
        text = String.join ((scriptFunctions (table.exportNames.zip set.exports)).map fun function =>
          renderLines function.2)) ∧
      List.Forall₂ (fun name root => root.kind ≠ "page" →
        renderFunction name root = (renderLines (functionLines name root), .ok ()) ∧
        ∃ enough, ∀ depth ≥ enough, ∀ parent indent, ∃ drawn, markup root parent = .ok drawn ∧
          callFunction (scriptFunctions (table.exportNames.zip set.exports)) depth name parent =
            some (readElements (drawn.lines indent))) table.exportNames set.exports := by
  obtain ⟨table, made, checked, exports⟩ := reachable.analyze_sound run
  have holds := Table.ofExpressions_holds made
  have among := table.exportNames_sublist
  have distinct : table.exportNames.Nodup := holds.distinct.sublist among
  have names : ∀ name ∈ table.exportNames, ',' ∉ name.toList := fun name member =>
    isIdentifier_avoids (holds.identifiers name (among.mem member)) (by decide)
  obtain ⟨aligned, each⟩ := List.forall₂_iff_zip.mp exports
  refine ⟨table, made, fun text => renderScript_ok ?_, List.forall₂_iff_zip.mpr ⟨aligned, ?_⟩⟩
  · refine List.forall₂_iff_zip.mpr ⟨aligned, fun {name root} member noPage => ?_⟩
    obtain ⟨depth, instances⟩ := (each member).hasInstance noPage
    exact ⟨Plan.HasInstance.defines checked ⟨depth, instances⟩,
      (callFunction_draws checked distinct names exports le_rfl member instances noPage).1⟩
  · intro name root member noPage
    obtain ⟨depth, instances⟩ := (each member).hasInstance noPage
    have makes {more : Nat} (enough : depth ≤ more) :=
      callFunction_draws checked distinct names exports enough member instances noPage
    refine ⟨renderFunction_eq name (makes le_rfl).1, depth, fun more enough parent indent => ?_⟩
    obtain ⟨-, elements, drawn, calls⟩ := makes enough
    obtain ⟨written, markedUp, plain, read⟩ := drawn parent
    refine ⟨written, markedUp, (calls parent).trans ?_⟩
    rw [Markup.readElements_lines indent plain, read]

/-- Lists of lists, whose items have a field with a label. -/
def fields : String :=
  "div defines: \"field\", id: \"f\", body: \x7b\n" ++
  "  label for: \"x\", body: \x7b text value: \"X\" \x7d\n" ++
  "  input id: \"x\", type: \"text\" \x7d\n" ++
  "list defines: \"column\", id: \"#c\", type: \"field\", initial: 2\n" ++
  "div defines: \"table\", id: \"$t\", body: \x7b list id: \"l\", type: \"column\", initial: 1 \x7d\n"

theorem script_makes_drawn_elements_fields :
    ∃ set session', Session.analyze (Session.ofSource fields) =
        .ok set session' ∧ set.names = ["field", "column", "table"] ∧
      ∃ table, Table.ofExpressions (Session.ofSource fields).expressions = .ok table ∧
        (∀ text, renderScript set.exports = .ok text →
          text = String.join ((scriptFunctions (table.exportNames.zip set.exports)).map
            fun function => renderLines function.2)) ∧
        List.Forall₂ (fun name root => root.kind ≠ "page" →
          renderFunction name root = (renderLines (functionLines name root), .ok ()) ∧
          ∃ enough, ∀ depth ≥ enough, ∀ parent indent, ∃ drawn, markup root parent = .ok drawn ∧
            callFunction (scriptFunctions (table.exportNames.zip set.exports)) depth name parent =
              some (readElements (drawn.lines indent))) table.exportNames set.exports := by
  have analyzed : (Session.ofSource fields).exportSet?.map ExportSet.names =
      some ["field", "column", "table"] := by
    decide +kernel
  obtain ⟨set, session', run, names⟩ := Session.analyze_of_names analyzed
  exact ⟨set, session', run, names, script_makes_drawn_elements (.ofSource fields) run⟩

end Pagewright
