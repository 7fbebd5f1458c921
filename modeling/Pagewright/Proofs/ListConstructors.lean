import Pagewright.Proofs.Outputs
import Pagewright.Proofs.PageStructure
import Pagewright.Proofs.ReferenceRules

/-!
# The constructors of lists

A script makes a node a list by giving it the function that makes a row, which
comes from the type that the list names. The main result is
`list_constructors_defined`: this is one definition without parameters whose
export is no page, so the function is defined once.

That a type names no page is checked by following kinds. What is exported has
the kind that this search finds, although it is put together along its bases as
well.
-/

namespace Pagewright

open Outcome

variable {name start script text : String} {inst page : Expression}
  {instructions : List TreeInstruction}

/-! ### Types in scripts -/

/-- What makes a node a list, up to the type. -/
def listingMark : String :=
  "me.tn_listify(tn_make_"

/-- The type whose function a line gives to a list. -/
def listedType? (line : List Char) : Option String :=
  (readAfter listingMark.toList (line.dropWhile (· = ' '))).map fun rest =>
    String.ofList (rest.takeWhile (· ≠ ','))

def listedTypes (script : List Char) : List String :=
  (splitLines script).filterMap listedType?

section

variable {good : String → Prop}

def Line.Lists (good : String → Prop) (line : Line) : Prop :=
  ∀ type, listedType? line.chars = some type → good type

private theorem Line.dropWhile_chars (line : Line) (solid : line.text.toList.head? ≠ some ' ') :
    line.chars.dropWhile (· = ' ') = line.text.toList := by
  rw [Line.chars, List.dropWhile_append_of_pos (by simp)]
  cases text : line.text.toList with
  | nil => rfl
  | cons c rest =>
    rw [text] at solid
    exact List.dropWhile_cons_of_neg (by simpa using solid)

/-- A line that starts like something else gives no function to a list. -/
theorem lists_of_clash (solid : start.toList.head? ≠ some ' ')
    (apart : clash listingMark.toList start.toList = true) (depth : Nat) (rest : String) :
    Line.Lists good ⟨depth, start ++ rest⟩ := by
  have begins : (start ++ rest).toList.head? ≠ some ' ' := by
    rw [String.toList_append]
    cases letters : start.toList with
    | nil => simp [letters, clash] at apart
    | cons c more => simpa [letters] using solid
  intro type read
  have text : (start ++ rest).toList = start.toList ++ rest.toList := String.toList_append
  rw [listedType?, Line.dropWhile_chars ⟨depth, start ++ rest⟩ begins, text,
    readAfter_of_clash apart] at read
  cases read

private theorem lists_listify {type : String} (plain : ',' ∉ type.toList) (known : good type)
    (depth : Nat) (rest : String) :
    Line.Lists good ⟨depth, listingMark ++ (type ++ (", " ++ rest))⟩ := by
  have begins : (listingMark ++ (type ++ (", " ++ rest))).toList.head? ≠ some ' ' := by
    simp [listingMark]
  intro found read
  have text : (listingMark ++ (type ++ (", " ++ rest))).toList =
      listingMark.toList ++ (type ++ (", " ++ rest)).toList := String.toList_append
  rw [listedType?, Line.dropWhile_chars ⟨depth, _⟩ begins, text, readAfter_append, Option.map_some,
    takeWhile_comma plain, String.ofList_toList] at read
  exact Option.some.inj read ▸ known

example : listedTypes "\n    me.tn_listify(tn_make_cell, 0, 3);\n".toList = ["cell"] := by
  decide +kernel

private theorem lists_blank : Line.Lists good Line.blank := by
  intro type read
  cases read

/-- What the other lines of scripts start with. -/
def otherStarts : List String :=
  BuildInstruction.starts.erase listingMark ++
    ["let me = new Tree_Node(my_tree_parent, document.getElementById(\"", "function tn_make_",
      "console.assert(parent.tn_dom.id != \"\");", "let dom = parent.tn_dom;", "let me  = parent;"]

private theorem lists_start (listed : start ∈ otherStarts) (depth : Nat) (rest : String) :
    Line.Lists good ⟨depth, start ++ rest⟩ := by
  have apart : ∀ start ∈ otherStarts, start.toList.head? ≠ some ' ' ∧
      clash listingMark.toList start.toList = true := by
    decide +kernel
  exact lists_of_clash (apart start listed).1 (apart start listed).2 depth rest

private theorem lists_text (listed : text ∈ otherStarts) (depth : Nat) :
    Line.Lists good ⟨depth, text⟩ := by
  simpa using lists_start listed depth ""

/-- If a list is made, its type is one of these and can be read. -/
def TreeInstruction.Lists (good : String → Prop) : TreeInstruction → Prop
  | .listify type _ _ => ',' ∉ type.toList ∧ good type
  | _ => True

def BuildInstruction.Lists (good : String → Prop) : BuildInstruction → Prop
  | .listify type _ _ => ',' ∉ type.toList ∧ good type
  | _ => True

private theorem TreeInstruction.lists_lines
    (each : ∀ instruction ∈ instructions, instruction.Lists good) (depth : Nat) :
    ∀ line ∈ lines depth instructions, line.Lists good := by
  induction instructions generalizing depth with
  | nil => simp [lines]
  | cons instruction rest ih =>
    obtain ⟨here, later⟩ := List.forall_mem_cons.mp each
    cases instruction with
    | enter parent fullId name =>
      simp (disch := decide) only [lines, List.forall_mem_cons, String.append_assoc, lists_start,
        lists_text, true_and]
      exact ih later _
    | listify type least most =>
      simp only [lines, List.forall_mem_cons, String.append_assoc]
      exact ⟨lists_listify here.1 here.2 depth _, ih later _⟩
    | leave =>
      simp (disch := decide) only [lines, List.forall_mem_cons, lists_text, true_and]
      exact ih later _

private theorem BuildInstruction.lists_lines {instructions : List BuildInstruction}
    (each : ∀ instruction ∈ instructions, instruction.Lists good) (depth : Nat) :
    ∀ line ∈ lines depth instructions, line.Lists good := by
  intro line member
  obtain ⟨instruction, among, depth, found⟩ := mem_lines member
  have lists := each instruction among
  suffices all : ∀ line ∈ lines depth [instruction], line.Lists good from all line found
  cases instruction with
  | listify type least most =>
    simp only [lines, List.forall_mem_cons, String.append_assoc]
    exact ⟨lists_listify lists.1 lists.2 depth _, by simp⟩
  | _ =>
    simp (disch := decide) only [lines, List.forall_mem_cons, String.append_assoc, lists_start,
      lists_text, lists_blank, true_and, List.not_mem_nil, false_implies, implies_true]

/-- The types in the script of a page are those of its instructions. -/
theorem listedTypes_scriptText (whole : ∀ instruction ∈ instructions, instruction.Avoids '\n')
    (each : ∀ instruction ∈ instructions, instruction.Lists good) :
    ∀ type ∈ listedTypes (scriptText (pageScript instructions)), good type := by
  have frame : ∀ line ∈ pageScript [], line.Lists good := by
    have silent : ∀ line ∈ pageScript [], listedType? line.chars = none := by decide +kernel
    intro line member type read
    rw [silent line member] at read
    cases read
  have lines : ∀ line ∈ pageScript instructions, line.Lists good := by
    intro line member
    rw [pageScript, List.mem_append, List.mem_append] at member
    rcases member with (opening | inside) | closing
    · exact frame line (List.mem_append_left _ (List.mem_append_left _ opening))
    · exact TreeInstruction.lists_lines each 3 line inside
    · exact frame line (List.mem_append_right _ closing)
  have split : splitLines (scriptText (pageScript instructions)) =
      [] :: ((pageScript instructions).map Line.chars ++ ["    ".toList]) := by
    have ends := splitLines_renderLines (pageScript_avoids (by simp) whole) "    ".toList
    rw [scriptText, splitLines, if_pos rfl, ends]
    rfl
  intro type member
  rw [listedTypes, split, List.mem_filterMap] at member
  obtain ⟨chars, among, read⟩ := member
  rw [List.mem_cons, List.mem_append, List.mem_map, List.mem_singleton] at among
  rcases among with rfl | ⟨line, inside, rfl⟩ | rfl
  · cases read
  · exact lines line inside type read
  · cases read

/-- The types in the lines of functions are those of their instructions. -/
theorem functionLines_lists {root : Expression}
    (each : ∀ instruction ∈ (construct root).instructions, instruction.Lists good) (name : String) :
    ∀ line ∈ functionLines name root, line.Lists good := by
  have head : ∀ line ∈ functionHead name, line.Lists good := by
    simp (disch := decide) only [functionHead, List.forall_mem_cons, String.append_assoc,
      lists_start, lists_text, lists_blank, true_and, List.not_mem_nil, false_implies, implies_true]
  have tail : ∀ line ∈ [⟨0, "\x7d"⟩, Line.blank], line.Lists good := by
    simp (disch := decide) only [List.forall_mem_cons, lists_text, lists_blank, true_and,
      List.not_mem_nil, false_implies, implies_true]
  intro line member
  rw [functionLines, List.mem_append, List.mem_append] at member
  rcases member with (opening | inside) | closing
  · exact head line opening
  · exact BuildInstruction.lists_lines each 1 line inside
  · exact tail line closing

end

/-! ### Types of lists -/

/-- The kind at the end of the chain of kinds is that of what has been made. -/
theorem Plan.HasInstance.kind_resolved {plan : Plan} (checked : plan.Checked)
    (known : name ∈ plan.table.names) (instances : plan.HasInstance name inst) :
    ∃ kind, plan.table.resolveKind name = .ok kind ∧ Kind.ofName? inst.kind = some kind := by
  obtain ⟨definition, found⟩ := Table.mem_names_iff.mp known
  obtain ⟨kind, resolved⟩ := checked.clear.resolveKind found
  obtain ⟨build, root, filled, w, w', isRoot, -, run, same⟩ := instances.root checked
  refine ⟨kind, resolved, ?_⟩
  rw [Expression.kind_of_outline same, ← (fillLists_showsSame run).kind]
  exact isRoot.kind kind resolved

/-- A list names an exported definition that is no page. -/
def Expression.HasItemType (table : Table) (e : Expression) : Prop :=
  e.kind = "list" → ∃ type kind, e.text? "type" = some type ∧ type ∈ table.exportNames ∧
    table.resolveKind type = .ok kind ∧ kind ≠ .page

section

variable {plan : Plan} {name : String} {inst : Expression}

private theorem Plan.HasInstance.hasItemType (checked : plan.Checked)
    (instances : plan.HasInstance name inst) :
    inst.Throughout (Expression.HasItemType plan.table) := by
  refine instances.of_settled checked ?_ ?_ ?_
  · intro first second kinds texts has isList
    rw [← texts "type" (by decide)]
    exact has (kinds.trans isList)
  · intro context e kind stem settled isList
    obtain rfl := settled.kind_of .list isList
    exact settled.item_exported
  · intro id owner index content isList
    simp [rowWith] at isList

end

/-- A type that lists can have: it names one definition, which has no parameters, and what is
exported for it is no page. -/
structure IsRowType (table : Table) (exports : List Expression) (type : String) : Prop where
  once : table.names.count type = 1
  concrete : ∃ definition, table.find? type = some definition ∧
    definition.expression.isGeneric = false
  exported : ∃ root, (type, root) ∈ table.exportNames.zip exports ∧ root.kind ≠ "page"

section

variable {plan : Plan} {roots : List Expression} {type : String}

section

variable (checked : plan.Checked) (distinct : plan.table.names.Nodup)
  (exports : List.Forall₂ plan.Exports plan.table.exportNames roots)

include checked distinct exports

private theorem Plan.Checked.isRowType {kind : Kind} (known : type ∈ plan.table.exportNames)
    (resolved : plan.table.resolveKind type = .ok kind) (noPage : kind ≠ .page) :
    IsRowType plan.table roots type := by
  constructor
  · exact List.count_eq_one_of_mem distinct (plan.table.exportNames_sublist.mem known)
  · exact (Table.mem_exportNames distinct).mp known
  · obtain ⟨root, member⟩ := exists_zip_of_mem exports known
    obtain ⟨inst, instances, rfl⟩ := (List.forall₂_iff_zip.mp exports).2 member
    obtain ⟨found, resolved', named⟩ := instances.kind_resolved checked
      (plan.table.exportNames_sublist.mem known)
    refine ⟨_, member, fun page => noPage ?_⟩
    rw [resolved] at resolved'
    cases resolved'
    rw [Plan.exported_kind] at page
    exact Kind.eq_of_ofName? named page

/-- The type of a list in an export is one that lists can have. -/
theorem Plan.HasInstance.rowTypes (instances : plan.HasInstance name inst) :
    inst.Throughout fun e => e.kind = "list" →
      ∃ type, e.text? "type" = some type ∧ IsRowType plan.table roots type := by
  refine (instances.hasItemType checked).imp fun e has isList => ?_
  obtain ⟨type, kind, typed, known, resolved, noPage⟩ := has isList
  exact ⟨type, typed, checked.isRowType distinct exports known resolved noPage⟩

end

/-- Types of lists are identifiers, so they can be read where they stand in a script. -/
theorem readable_of_rowType (identifiers : ∀ name ∈ plan.table.names, isIdentifier name = true)
    (rowType : IsRowType plan.table roots type) : ',' ∉ type.toList := by
  obtain ⟨definition, found, -⟩ := rowType.concrete
  exact isIdentifier_avoids (identifiers type (Table.mem_names_of_find? found)) (by decide)

end

section

variable {plan : Plan} {roots : List Expression} {type : String} (checked : plan.Checked)
  (distinct : plan.table.names.Nodup)
  (identifiers : ∀ name ∈ plan.table.names, isIdentifier name = true)
  (exports : List.Forall₂ plan.Exports plan.table.exportNames roots)

include checked distinct identifiers exports

private theorem Plan.HasInstance.treeScript_lists (instances : plan.HasInstance name page) :
    ∀ instruction ∈ treeScriptAll ((page.block? "body").getD []) pageStem,
      instruction.Lists (IsRowType plan.table roots) := by
  intro instruction member
  obtain ⟨child, among, found⟩ := mem_treeScriptAll member
  have types :=
    (instances.rowTypes checked distinct exports).child (Expression.holds_of_block among)
  refine treeScript_forall (fun _ _ _ => trivial) trivial (types.imp ?_) pageStem instruction found
  intro inner typed instruction listing
  -- only a list makes an instruction for a list
  unfold Expression.listing at listing
  split_ifs at listing with isList
  · obtain rfl := List.mem_singleton.mp listing
    obtain ⟨type, given, rowType⟩ := typed isList
    rw [TreeInstruction.Lists, Expression.itemType, given, Option.getD_some]
    exact ⟨readable_of_rowType identifiers rowType, rowType⟩
  · cases listing

private theorem Plan.HasInstance.construct_lists (instances : plan.HasInstance name inst) :
    ∀ instruction ∈ (construct inst).instructions,
      instruction.Lists (IsRowType plan.table roots) := by
  have quoted {instruction : BuildInstruction} (isQuoted : instruction.IsQuoted) :
      instruction.Lists (IsRowType plan.table roots) := by
    cases instruction <;> trivial
  refine construct_forall trivial (fun _ => trivial) fun inner inside => ?_
  refine ⟨(instances.resolved checked inner inside).builtIn,
    fun kind named instruction member => ?_⟩
  rcases List.mem_append.mp member with made | fitted
  · rcases mem_createElement made with rfl | isQuoted
    · trivial
    · exact quoted isQuoted
  · rcases mem_fitOut fitted with ⟨list, rfl⟩ | ⟨_, -, rfl⟩ | isQuoted
    · have isList : inner.kind = "list" := by rw [← Kind.name_of_ofName? named, list]; rfl
      obtain ⟨type, given, rowType⟩ :=
        instances.rowTypes checked distinct exports inner inside isList
      rw [BuildInstruction.Lists, Expression.itemType, given, Option.getD_some]
      exact ⟨readable_of_rowType identifiers rowType, rowType⟩
    · trivial
    · exact quoted isQuoted

/-- Lists in the functions of exports have types that lists can have. -/
theorem Plan.Checked.script_lists (text : renderScript roots = .ok script) :
    ∀ type ∈ listedTypes script.toList, IsRowType plan.table roots type := by
  have lines := checked.scriptLines (distinct.sublist plan.table.exportNames_sublist) identifiers
    exports text
  intro type member
  rw [listedTypes, lines, List.mem_filterMap] at member
  obtain ⟨chars, among, read⟩ := member
  obtain ⟨line, inside, rfl⟩ := List.mem_map.mp among
  -- the line belongs to the function of an export that is no page
  obtain ⟨function, functions, inside⟩ := List.mem_flatMap.mp inside
  obtain ⟨⟨name, root⟩, exported, rfl⟩ := List.mem_map.mp functions
  obtain ⟨exported, noPage⟩ := List.mem_filter.mp exported
  have instances :=
    ((List.forall₂_iff_zip.mp exports).2 exported).hasInstance (by simpa using noPage)
  exact functionLines_lists (instances.construct_lists checked distinct identifiers exports) name
    line inside type read

/-- Lists in the script of a page have types that lists can have. -/
theorem Plan.Checked.page_lists (exported : page ∈ roots) (isPage : page.kind = "page")
    {lang : String} (rendered : renderPage lang page = .ok text) :
    ∃ script, inlineScriptText text = some script ∧
      ∀ type ∈ listedTypes script, IsRowType plan.table roots type := by
  obtain ⟨name, -, inst, instances, rfl⟩ := exists_of_forall₂_right exports exported
  obtain ⟨text', rendered', -, script, -⟩ :=
    instances.scanned checked identifiers ((Plan.exported_kind inst).symm.trans isPage) lang
  rw [rendered] at rendered'
  cases rendered'
  exact ⟨_, script, listedTypes_scriptText (instances.script_avoids checked identifiers (by simp))
    (instances.treeScript_lists checked distinct identifiers exports)⟩

/-- A type that lists can have is that of one function of the script. -/
theorem Plan.Checked.count_functionNames (text : renderScript roots = .ok script)
    (rowType : IsRowType plan.table roots type) :
    (Pagewright.functionNames script).count type = 1 := by
  have exportsDistinct := distinct.sublist plan.table.exportNames_sublist
  have names := (List.map_fst_zip exports.length_eq.le).symm ▸ exportsDistinct
  obtain ⟨root, member, noPage⟩ := rowType.exported
  -- the functions are named after the exports that are no pages, each once
  rw [checked.functionNames exportsDistinct identifiers exports text]
  refine List.count_eq_one_of_mem (names.sublist (List.filter_sublist.map Prod.fst)) ?_
  exact List.mem_map.mpr ⟨_, List.mem_filter.mpr ⟨member, by simpa using noPage⟩, rfl⟩

end

/-- **Constructors of lists.** Every export has the kind that following kinds from its name gives.
Every list in an export, in its rows too, has a type that names one definition, without parameters,
whose export is no page. When outputs are rendered, each function that a script gives to a list, be
it the script of a page or the one with the functions, is defined once. -/
theorem list_constructors_defined {session session' : Session} {set : ExportSet}
    (reachable : session.Reachable) (run : Session.analyze session = .ok set session') :
    ∃ table, Table.ofExpressions session.expressions = .ok table ∧
      List.Forall₂ (fun name root => ∃ kind, table.resolveKind name = .ok kind ∧
        root.kind = kind.name) table.exportNames set.exports ∧
      (∀ root ∈ set.exports, root.Throughout fun list => list.kind = "list" →
        ∃ type, list.text? "type" = some type ∧ IsRowType table set.exports type) ∧
      ∀ config outputs, renderOutputs config set.exports = .ok outputs →
        ∃ documents script,
          outputs = documents ++ [{ path := config.instantiateScript, contents := script }] ∧
          (∀ type ∈ listedTypes script.toList, (functionNames script).count type = 1) ∧
          ∀ document ∈ documents, ∃ inline, inlineScriptText document.contents = some inline ∧
            ∀ type ∈ listedTypes inline, (functionNames script).count type = 1 := by
  obtain ⟨table, made, checked, exports⟩ := reachable.analyze_sound run
  have holds := Table.ofExpressions_holds made
  refine ⟨table, made, ?_, ?_, ?_⟩
  · obtain ⟨aligned, each⟩ := List.forall₂_iff_zip.mp exports
    refine List.forall₂_iff_zip.mpr ⟨aligned, fun {name root} member => ?_⟩
    obtain ⟨inst, instances, rfl⟩ := each member
    obtain ⟨kind, resolved, named⟩ := instances.kind_resolved checked
      (table.exportNames_sublist.mem (List.of_mem_zip member).1)
    exact ⟨kind, resolved, (Plan.exported_kind inst).trans (Kind.name_of_ofName? named).symm⟩
  · intro root member
    obtain ⟨name, -, inst, instances, rfl⟩ := exists_of_forall₂_right exports member
    refine Plan.exported_throughout (fun page isPage isList => ?_)
      (instances.rowTypes checked holds.distinct exports)
    exact absurd (isPage.symm.trans isList) (by decide)
  · intro config outputs rendered
    obtain ⟨documents, script, written, text, rfl⟩ := renderOutputs_ok.mp rendered
    have once {type : String} (rowType : IsRowType table set.exports type) :
        (functionNames script).count type = 1 :=
      checked.count_functionNames holds.distinct holds.identifiers exports text rowType
    refine ⟨documents, script, rfl, fun type member => once ?_, fun document member => ?_⟩
    · exact checked.script_lists holds.distinct holds.identifiers exports text type member
    · obtain ⟨page, among, output⟩ := exists_of_forall₂_right written member
      obtain ⟨exported, isPage⟩ := List.mem_filter.mp among
      obtain ⟨_, contents, -, document, rfl⟩ := pageOutput_ok.mp output
      obtain ⟨inline, found, types⟩ := checked.page_lists holds.distinct holds.identifiers exports
        exported (by simpa using isPage) document
      exact ⟨inline, found, fun type listed => once (types type listed)⟩

/-- A page with a list whose type is given where the list is made. -/
def boundType : String :=
  "list defines: \"rows\", parameters: [what], id: \"r\", type: what\n" ++
  "span defines: \"cell\"\n" ++
  "page defines: \"home\", body: \x7b rows what: \"cell\" \x7d\n"

theorem list_constructors_defined_bound :
    ∃ set session' table outputs,
      Session.analyze (Session.ofSource boundType) = .ok set session' ∧
      renderOutputs {} set.exports = .ok outputs ∧
      (∃ page ∈ set.exports, ∃ list, page.Holds "body" list ∧ list.kind = "list" ∧
        list.text? "type" = some "cell" ∧ IsRowType table set.exports "cell") ∧
      List.Forall₂ (fun name root => ∃ kind, table.resolveKind name = .ok kind ∧
        root.kind = kind.name) table.exportNames set.exports ∧
      ∃ documents script,
        outputs = documents ++ [{ path := "instantiate.js", contents := script }] ∧
        (∀ type ∈ listedTypes script.toList, (functionNames script).count type = 1) ∧
        ∀ document ∈ documents, ∃ inline, inlineScriptText document.contents = some inline ∧
          ∀ type ∈ listedTypes inline, (functionNames script).count type = 1 := by
  have analyzed : (Session.ofSource boundType).exportSet?.any (fun set =>
      (match renderOutputs {} set.exports with
        | .ok _ => true
        | .error _ => false) &&
      set.exports.any fun page => ((page.block? "body").getD []).any fun list =>
        list.kind = "list" && list.text? "type" = some "cell") = true := by
    decide +kernel
  obtain ⟨set, session', run, tests⟩ := Session.analyze_of_any analyzed
  obtain ⟨rendered, tests⟩ := Bool.and_eq_true_iff.mp tests
  obtain ⟨page, exported, tests⟩ := List.any_eq_true.mp tests
  obtain ⟨list, inside, tests⟩ := List.any_eq_true.mp tests
  obtain ⟨isList, typed⟩ : list.kind = "list" ∧ list.text? "type" = some "cell" := by
    simpa using tests
  have held := Expression.holds_of_block inside
  obtain ⟨table, -, kinds, types, functions⟩ :=
    list_constructors_defined (.ofSource boundType) run
  cases written : renderOutputs {} set.exports with
  | error fault => simp [written] at rendered
  | ok outputs =>
    obtain ⟨type, given, rowType⟩ := ((types page exported).child held).here isList
    obtain rfl : "cell" = type := Option.some.inj (typed.symm.trans given)
    exact ⟨set, session', table, outputs, run, written,
      ⟨page, exported, list, held, isList, typed, rowType⟩, kinds, functions {} outputs written⟩

end Pagewright
