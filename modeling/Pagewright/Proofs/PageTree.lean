import Pagewright.Proofs.DeclaredIds
import Pagewright.Proofs.LabelTargets

/-!
# The tree of a page

The script at the end of a page's document is run on the document itself. It makes
the node of the page and then one node for every tracked id of the body. The main
result is `page_tree_built`: the nodes are those of the placements, their ids are
all different and each is the id of one element of the document. The id of the page
is repeated by an id that is used as it is and reads the same.
-/

namespace Pagewright

open Outcome

variable {tag : String} {attributes : List Attribute} {events : List TreeEvent}
  {known : List TreeNode} {instructions : List TreeInstruction} {actions : List TreeAction}
  {placement : Placement} {lines : List Line} {placements : List Placement}

/-! ### The lines of a document -/

def pageLines (lang : String) (page : Expression) : Except Error (List Line) := do
  let children := (page.block? "body").getD []
  let body ← markupAll children pageStem
  return documentLines lang (pageHead page) body (treeScriptAll children pageStem)

private theorem renderPage_eq {page : Expression} (isPage : page.kind = "page") (lang : String) :
    renderPage lang page = (pageLines lang page).map renderLines := by
  unfold renderPage pageLines
  rw [if_neg (not_not.mpr isPage)]
  dsimp only
  cases markupAll ((page.block? "body").getD []) pageStem <;> rfl

def inlineScript (lines : List Line) : List Line :=
  (lines.dropWhile (·.text ≠ "<script>")).tail.takeWhile (·.text ≠ "</script>")

def elementIds (lines : List Line) : List String :=
  (readElements lines).filterMap Element.id

private theorem elementIds_append (first second : List Line) :
    elementIds (first ++ second) = elementIds first ++ elementIds second := by
  simp [elementIds, Markup.readElements_append]

/-- The start of a script without attributes is an element that has neither id nor target. -/
theorem mem_readElements_of_script {line : Line} (member : line ∈ lines)
    (script : line.text = "<script>") : ⟨"script", none, none⟩ ∈ readElements lines :=
  List.mem_filterMap.mpr ⟨line, member, by rw [script]; rfl⟩

/-! ### Heads -/

/-- An element of a head: on one line, without id, and with attributes if it is a script. -/
def IsHeadElement (markup : Markup) : Prop :=
  ∃ tag attributes rest, PlainName tag ∧
    (∀ attr ∈ attributes, PlainName attr.name ∧ attr.name ≠ "id") ∧
    (tag = "script" → attributes ≠ []) ∧
    ∀ depth, markup.lines depth = [⟨depth, startTag tag attributes ++ rest⟩]

/-- The head of a page has plain tags and attributes, no ids, and only scripts with attributes. -/
theorem mem_pageHead {page : Expression} {markup : Markup} (member : markup ∈ pageHead page) :
    ∃ tag attributes, PlainName tag ∧
      (∀ attr ∈ attributes, PlainName attr.name ∧ attr.name ≠ "id") ∧
      (tag = "script" → attributes ≠ []) ∧
      (markup = .void tag attributes ∨ ∃ content, markup = .inline tag attributes content) := by
  simp only [pageHead, List.mem_append, List.mem_cons, List.not_mem_nil, or_false,
    Option.mem_toList, Option.map_eq_some_iff, List.mem_map] at member
  rcases member with ((((rfl | rfl) | ⟨_, -, rfl⟩) | ⟨_, -, rfl⟩) | ⟨_, -, rfl⟩) | ⟨_, -, rfl⟩
  · exact ⟨_, _, by decide, by simp; decide, by simp, .inl rfl⟩
  · exact ⟨_, _, by decide, by simp; decide, by simp, .inl rfl⟩
  · exact ⟨_, _, by decide, by simp, by simp, .inr ⟨_, rfl⟩⟩
  · exact ⟨_, _, by decide, by simp; decide, by simp, .inl rfl⟩
  · exact ⟨_, _, by decide, by simp; decide, by simp, .inl rfl⟩
  · exact ⟨_, _, by decide, by simp; decide, by simp, .inr ⟨_, rfl⟩⟩

private theorem pageHead_elements (page : Expression) :
    ∀ markup ∈ pageHead page, IsHeadElement markup := by
  intro markup member
  obtain ⟨tag, attributes, plain, plains, other, rfl | ⟨content, rfl⟩⟩ := mem_pageHead member
  · exact ⟨tag, attributes, "", plain, plains, other,
      fun _ => by rw [Markup.lines, String.append_empty]⟩
  · exact ⟨tag, attributes, escapeMarkup content ++ endTag tag, plain, plains, other,
      fun _ => by rw [Markup.lines, String.append_assoc]⟩

private theorem startTag_ne_script (other : tag = "script" → attributes ≠ [])
    (plain : PlainName tag) (plains : ∀ attr ∈ attributes, PlainName attr.name) (rest : String) :
    startTag tag attributes ++ rest ≠ "<script>" := by
  intro same
  have read := readElement_startTag plain plains rest
  rw [same] at read
  have isScript : tag = "script" := (congrArg Element.tag (Option.some.inj read)).symm
  subst isScript
  -- the tag goes on with a blank where that of a bare script ends
  obtain ⟨attr, later, rfl⟩ := List.exists_cons_of_ne_nil (other rfl)
  obtain ⟨chars, start⟩ := attr.render_start
  have text := congrArg String.toList same
  rw [String.toList_append, startTag_toList, List.flatMap_cons, start] at text
  simp at text

private theorem linesOf_head {head : List Markup} (elements : ∀ markup ∈ head, IsHeadElement markup)
    (depth : Nat) : elementIds (Markup.linesOf depth head) = [] ∧
      ∀ line ∈ Markup.linesOf depth head, line.text ≠ "<script>" := by
  induction head with
  | nil => exact ⟨rfl, by simp [Markup.linesOf]⟩
  | cons first rest ih =>
    obtain ⟨noIds, noScript⟩ := ih (List.forall_mem_cons.mp elements).2
    obtain ⟨tag, attributes, text, plain, plains, other, lines⟩ := elements first (by simp)
    have names := fun attr member => (plains attr member).1
    have id : elementIds [⟨depth, startTag tag attributes ++ text⟩] = [] := by
      simp [elementIds, readElements, readElement_startTag plain names, elementOf,
        lookup_attributeValues_of_absent fun attr member => (plains attr member).2]
    rw [Markup.linesOf, lines, elementIds_append, id, noIds]
    refine ⟨rfl, ?_⟩
    intro line member
    rcases List.mem_append.mp member with first | later
    · obtain rfl := List.mem_singleton.mp first
      exact startTag_ne_script other plain names text
    · exact noScript line later

/-! ### Scripts -/

/-- A line that can be read does not start with a tag. -/
theorem readTreeAction_start {text : String} {action : TreeAction}
    (read : readTreeAction text = some action) : ∃ c chars, text.toList = c :: chars ∧ c ≠ '<' := by
  obtain ⟨form, -, found⟩ := List.exists_of_findSome?_eq_some (Option.join_eq_some_iff.mp read)
  obtain ⟨rest, after, -⟩ := Option.map_eq_some_iff.mp found
  rw [eq_append_of_readAfter after]
  cases form <;> exact ⟨_, _, rfl, by decide⟩

/-- The lines of a script that can be read start no element, and none of them ends the script. -/
theorem readTreeActions_silent (read : readTreeActions lines = some actions) :
    readElements lines = [] ∧ ∀ line ∈ lines, line.text ≠ "</script>" := by
  have starts : ∀ line ∈ lines, ∃ c chars, line.text.toList = c :: chars ∧ c ≠ '<' := by
    induction lines generalizing actions with
    | nil => simp
    | cons first rest ih =>
      rw [readTreeActions_cons] at read
      obtain ⟨action, here, more⟩ := Option.bind_eq_some_iff.mp read
      obtain ⟨_, later, -⟩ := Option.map_eq_some_iff.mp more
      intro line member
      rcases List.mem_cons.mp member with rfl | among
      · exact readTreeAction_start here
      · exact ih later line among
  constructor
  · refine List.filterMap_eq_nil_iff.mpr fun line member => ?_
    obtain ⟨c, chars, text, other⟩ := starts line member
    unfold readElement
    simp [text, other]
  · intro line member same
    obtain ⟨c, chars, text, other⟩ := starts line member
    rw [same] at text
    exact other (List.cons.inj text).1.symm

section

variable {lang : String} {head body : List Markup} {instructions : List TreeInstruction}

def linesBeforeScript (lang : String) (head body : List Markup) : List Line :=
  [⟨0, "<!DOCTYPE html>"⟩, ⟨0, startTag "html" [⟨"lang", some lang⟩]⟩, Line.blank, ⟨0, "<head>"⟩]
  ++ Markup.linesOf 1 head
  ++ [⟨0, "</head>"⟩, Line.blank, ⟨0, "<body>"⟩]
  ++ Markup.lines 1 (.element "div" [⟨"id", some pageStem⟩] body)

theorem documentLines_eq (lang : String) (head body : List Markup)
    (instructions : List TreeInstruction) :
    documentLines lang head body instructions =
      linesBeforeScript lang head body ++ (⟨1, "<script>"⟩ :: (pageScript instructions ++
        [⟨1, "</script>"⟩, ⟨0, "</body>"⟩, Line.blank, ⟨0, "</html>"⟩])) := by
  simp [documentLines, linesBeforeScript]

private theorem readElements_body (plain : Markup.PlainAll body) (depth : Nat) :
    readElements (Markup.lines depth (.element "div" [⟨"id", some pageStem⟩] body)) =
      ⟨"div", some pageStem, none⟩ :: Markup.elementsOf body := by
  have plains : (Markup.element "div" [⟨"id", some pageStem⟩] body).Plain :=
    ⟨by decide, by simp; decide, plain⟩
  rw [Markup.readElements_lines depth plains, Markup.elements]
  rfl

private theorem elementIds_before (heads : ∀ markup ∈ head, IsHeadElement markup)
    (plain : Markup.PlainAll body) :
    elementIds (linesBeforeScript lang head body) =
      pageStem :: (Markup.elementsOf body).filterMap Element.id := by
  have html := readElement_startTag (show PlainName "html" by decide)
    (show ∀ attr ∈ [(⟨"lang", some lang⟩ : Attribute)], PlainName attr.name by simp; decide) ""
  rw [String.append_empty] at html
  have opening : elementIds [⟨0, "<!DOCTYPE html>"⟩, ⟨0, startTag "html" [⟨"lang", some lang⟩]⟩,
      Line.blank, ⟨0, "<head>"⟩] = [] := by
    simp only [elementIds, readElements, List.filterMap_cons, html]
    rfl
  have closing : elementIds [⟨0, "</head>"⟩, Line.blank, ⟨0, "<body>"⟩] = [] := rfl
  rw [linesBeforeScript, elementIds_append, elementIds_append, elementIds_append, opening,
    (linesOf_head heads 1).1, closing, elementIds, readElements_body plain]
  rfl

private theorem not_script_before (heads : ∀ markup ∈ head, IsHeadElement markup)
    (plain : Markup.PlainAll body)
    (tags : ∀ element ∈ Markup.elementsOf body, element.tag ≠ "script") :
    ∀ line ∈ linesBeforeScript lang head body, line.text ≠ "<script>" := by
  have html := startTag_ne_script (show "html" = "script" → _ by simp) (by decide)
    (show ∀ attr ∈ [(⟨"lang", some lang⟩ : Attribute)], PlainName attr.name by simp; decide) ""
  rw [String.append_empty] at html
  intro line member
  simp only [linesBeforeScript, List.mem_append, List.mem_cons, List.not_mem_nil,
    or_false] at member
  rcases member with (((rfl | rfl | rfl | rfl) | inHead) | (rfl | rfl | rfl)) | inBody
  · simp
  · exact html
  · simp [Line.blank]
  · simp
  · exact (linesOf_head heads 1).2 line inHead
  · simp
  · simp [Line.blank]
  · simp
  · -- such a line would start an element that the body does not have
    intro script
    have element := mem_readElements_of_script inBody script
    rw [readElements_body plain] at element
    rcases List.mem_cons.mp element with page | inside
    · simp at page
    · exact tags _ inside rfl

/-- The script is found between its tags, and the ids of a document are those of its body below the
id of the page. -/
theorem inlineScript_document (lang : String) (heads : ∀ markup ∈ head, IsHeadElement markup)
    (plain : Markup.PlainAll body)
    (tags : ∀ element ∈ Markup.elementsOf body, element.tag ≠ "script")
    (read : readTreeActions (pageScript instructions) = some actions) :
    inlineScript (documentLines lang head body instructions) = pageScript instructions ∧
      elementIds (documentLines lang head body instructions) =
        pageStem :: (Markup.elementsOf body).filterMap Element.id := by
  obtain ⟨silent, within⟩ := readTreeActions_silent read
  have before : ∀ line ∈ linesBeforeScript lang head body, line.text ≠ "<script>" :=
    not_script_before heads plain tags
  rw [documentLines_eq]
  constructor
  · rw [inlineScript, List.dropWhile_append_of_pos (by simpa using before),
      List.dropWhile_cons_of_neg (by simp), List.tail_cons,
      List.takeWhile_append_of_pos (by simpa using within), List.takeWhile_cons_of_neg (by simp),
      List.append_nil]
  · have script : elementIds (pageScript instructions) = [] := by rw [elementIds, silent]; rfl
    have opening : elementIds [⟨1, "<script>"⟩] = [] := rfl
    have closing : elementIds [⟨1, "</script>"⟩, ⟨0, "</body>"⟩, Line.blank, ⟨0, "</html>"⟩] = [] :=
      rfl
    rw [← List.singleton_append, elementIds_append, elementIds_append, elementIds_append,
      elementIds_before heads plain, opening, script, closing]
    simp

end

/-! ### The run of a page's script -/

def pageNode : TreeNode :=
  .root pageStem pageStem

private theorem readTreeActions_pageScript
    (plain : ∀ instruction ∈ instructions, instruction.Plain) :
    readTreeActions (pageScript instructions) =
      some ([.openFunction, .makeRoot pageStem pageStem, .keepPage] ++
        instructions.flatMap TreeInstruction.actions ++ [.closeFunction]) := by
  have opening : readTreeActions [⟨2, "(function() \x7b"⟩,
      ⟨3, "let me = new Tree_Node(null, document.getElementById(\"page\"), \"page\");"⟩,
      ⟨3, "window.page = me;"⟩] =
        some [.openFunction, .makeRoot pageStem pageStem, .keepPage] := by
    decide +kernel
  have closing : readTreeActions [⟨2, "\x7d)();"⟩] = some [.closeFunction] := by decide +kernel
  rw [pageScript, readTreeActions_append, readTreeActions_append, readTreeActions_lines plain,
    opening, closing]
  rfl

/-- The script makes the node of the page first, and then does what its instructions do in the block
of this node. -/
theorem treeLog_pageScript (plain : ∀ instruction ∈ instructions, instruction.Plain)
    (grows : Grows (instructions.flatMap TreeInstruction.actions) pageNode pageNode events) :
    treeLog (pageScript instructions) = some (.made pageNode :: events) := by
  let started : TreeMachine :=
    { blocks := [⟨true, some pageNode⟩], page := some pageNode, log := [.made pageNode] }
  have start : TreeMachine.run {} [.openFunction, .makeRoot pageStem pageStem, .keepPage] =
      some started := rfl
  obtain ⟨parent, ran⟩ := grows started _ _ rfl rfl rfl
  simp only [treeLog, readTreeActions_pageScript plain, Option.bind_eq_bind, Option.bind_some,
    TreeMachine.run_append, start, ran]
  rfl

/-! ### Counting ids -/

section

variable {placements : List Placement}

/-- How many ids are used as they are and read `text`. -/
def literalCount (placements : List Placement) (text : String) : Nat :=
  placements.countP fun placement => placement.expression.scopedId? = some ⟨.literal, text⟩

private theorem literalCount_append (first second : List Placement) (text : String) :
    literalCount (first ++ second) text = literalCount first text + literalCount second text :=
  List.countP_append

private theorem elementsAt_ids
    (written : ∀ placement ∈ placements, placement.expression.IsWritten) :
    (elementsAt placements).filterMap Element.id =
      placements.filterMap fun placement => placement.element.id := by
  induction placements with
  | nil => rfl
  | cons first rest ih =>
    have later := ih (List.forall_mem_cons.mp written).2
    rw [← List.singleton_append, elementsAt_append, List.filterMap_append, List.filterMap_append,
      later]
    congr 1
    by_cases text : first.expression.kind = "text"
    · have silent := (written first List.mem_cons_self).noId (.inr text)
      simp [elementsAt, text, Placement.element, Expression.ownElement, Expression.scopedId?,
        Expression.text?, silent]
    · simp [elementsAt, text, List.filterMap_cons]

private theorem ScopedId.dash_mem_fullId {own : ScopedId} (tracked : own.isTracked = true)
    (stem : String) : '-' ∈ (own.fullId stem).toList := by
  obtain ⟨flavor, name⟩ := own
  cases flavor with
  | relative | global => simp [ScopedId.fullId]
  | literal => cases tracked

/-- An id with a dash is that of something tracked, one without is used as it is. -/
theorem Placement.count_id (proper : placement.expression.HasProperId) (id : String) :
    placement.element.id.toList.count id =
      if '-' ∈ id.toList then (trackedIds [placement]).count id
      else literalCount [placement] id := by
  cases given : placement.expression.scopedId? with
  | none =>
    have absent : placement.element.id = none := by
      simp [Placement.element, Expression.ownElement, given]
    have label : placement.label? = none := by
      simp [Placement.label?, Expression.trackedId?, given]
    simp [absent, trackedIds, label, literalCount, given]
  | some own =>
    have written : placement.element.id = some (own.fullId placement.stem) := by
      simp [Placement.element, Expression.ownElement, given]
    cases tracked : own.isTracked with
    | true =>
      have label : placement.label? = some (own.fullId placement.stem, own.name) := by
        simp [Placement.label?, Expression.trackedId?_eq_some.mpr ⟨given, tracked⟩]
      -- whatever is around it, a dash stands before its name
      have dash := own.dash_mem_fullId tracked placement.stem
      split_ifs with dashed
      · simp [written, trackedIds, label]
      · have other : own.fullId placement.stem ≠ id := fun same => dashed (same ▸ dash)
        have literal : own ≠ ⟨.literal, id⟩ := by
          rintro rfl
          cases tracked
        simp [written, other, literalCount, given, literal]
    | false =>
      have label : placement.label? = none := by
        simp [Placement.label?, Expression.trackedId?, given, Option.filter, tracked]
      -- used as it is, it is an identifier
      have dashless := proper.literal own given tracked
      obtain ⟨flavor, name⟩ := own
      obtain rfl : flavor = .literal := by simpa [ScopedId.isTracked] using tracked
      split_ifs with dashed
      · have other : name ≠ id := fun same => dashless (same ▸ dashed)
        simp [written, ScopedId.fullId, other, trackedIds, label]
      · by_cases same : name = id
        · simp [written, ScopedId.fullId, same, literalCount, given]
        · simp [written, ScopedId.fullId, same, literalCount, given]

private theorem count_elementIds
    (proper : ∀ placement ∈ placements, placement.expression.HasProperId) (id : String) :
    (placements.filterMap fun placement => placement.element.id).count id =
      if '-' ∈ id.toList then (trackedIds placements).count id
      else literalCount placements id := by
  induction placements with
  | nil => simp [trackedIds, literalCount]
  | cons first rest ih =>
    have later := ih (List.forall_mem_cons.mp proper).2
    have here := Placement.count_id (proper first List.mem_cons_self) id
    have split : ((first :: rest).filterMap fun placement => placement.element.id) =
        first.element.id.toList ++ rest.filterMap fun placement => placement.element.id := by
      cases written : first.element.id <;> simp [written]
    rw [split, List.count_append, here, later, show first :: rest = [first] ++ rest from rfl,
      trackedIds_append, List.count_append, literalCount_append]
    split_ifs <;> rfl

private theorem dash_mem_trackedIds {id : String} (member : id ∈ trackedIds placements) :
    '-' ∈ id.toList := by
  obtain ⟨_, labels, rfl⟩ := List.mem_map.mp member
  obtain ⟨placement, -, label⟩ := List.mem_filterMap.mp labels
  obtain ⟨own, tracked, rfl⟩ := Option.map_eq_some_iff.mp label
  exact own.dash_mem_fullId (Expression.trackedId?_eq_some.mp tracked).2 placement.stem

end

/-! ### Pages -/

section

variable {plan : Plan} {name : String} {page : Expression}

private theorem Expression.Throughout.placed_body {property : Expression → Prop}
    (all : page.Throughout property) (member : placement ∈ page.bodyPlacements) :
    property placement.expression := by
  obtain ⟨child, among, inside⟩ := mem_placementsBlock.mp member
  exact (all.child (Expression.holds_of_block among)).placed inside

private theorem Plan.HasInstance.plants_body (checked : plan.Checked)
    (identifiers : ∀ name ∈ plan.table.names, isIdentifier name = true)
    (instances : plan.HasInstance name page) :
    Plants (treeScriptAll ((page.block? "body").getD []) pageStem) page.bodyPlacements pageNode
      pageNode := by
  have plantable : page.Throughout Expression.IsPlantable :=
    (instances.hasProperId checked identifiers).imp fun _ proper => proper.toIsPlantable
  have resolved := instances.resolved checked
  have home : pageNode.element = pageStem := rfl
  apply plants_all
  intro child among
  have held := Expression.holds_of_block among
  exact Expression.plants (resolved.child held) ((instances.tidy checked).child held)
    ((instances.written checked).child held) (plantable.child held)
    (resolved.here.pages _ _ held) home home none

private theorem Plan.HasInstance.body_ids_nodup (checked : plan.Checked)
    (instances : plan.HasInstance name page) (isPage : page.kind = "page") :
    (trackedIds page.bodyPlacements).Nodup := by
  have written := (instances.written checked).here
  have distinct := instances.trackedIds_nodup none
  have label : Placement.label? ⟨page, pageStem, none⟩ = none := by
    simp [Placement.label?, Expression.trackedId?, Expression.scopedId?, Expression.text?,
      written.noId (.inl isPage)]
  rw [rootStem, if_pos isPage,
    Expression.placements_page isPage (instances.tidy checked).here written] at distinct
  simpa [trackedIds, label] using distinct

/-- No element of a body is a script. -/
theorem Plan.HasInstance.body_tags (checked : plan.Checked)
    (instances : plan.HasInstance name page) :
    ∀ element ∈ elementsAt page.bodyPlacements, element.tag ≠ "script" := by
  intro element member
  obtain ⟨placement, among, rfl⟩ := List.mem_map.mp member
  have builtIn := ((instances.resolved checked).placed_body (List.mem_filter.mp among).1).builtIn
  obtain ⟨kind, named⟩ := Option.isSome_iff_exists.mp builtIn
  show placement.expression.tag ≠ "script"
  rw [Expression.tag, ← Kind.name_of_ofName? named]
  cases kind <;> decide

theorem Accounts.mono {more : List TreeNode} (accounts : Accounts placements known events)
    (subset : known ⊆ more) : Accounts placements more events :=
  { accounts with attached := accounts.attached.mono subset }

private theorem Accounts.elements (accounts : Accounts placements known events) :
    (madeNodes events).map TreeNode.element = trackedIds placements := by
  rw [trackedIds, ← accounts.nodes, List.map_map]
  rfl

/-- What the script of an exported page does, and the ids of its document. -/
theorem Plan.HasInstance.document (checked : plan.Checked)
    (identifiers : ∀ name ∈ plan.table.names, isIdentifier name = true)
    (instances : plan.HasInstance name page) (lang : String) :
    ∃ lines events, pageLines lang (plan.exported page) = .ok lines ∧
      treeLog (inlineScript lines) = some (.made pageNode :: events) ∧
      Accounts page.bodyPlacements [pageNode] events ∧
      elementIds lines =
        pageStem :: page.bodyPlacements.filterMap fun placement => placement.element.id := by
  obtain ⟨markup, drawn, plainMarkup, elements⟩ := instances.draws_body checked
  obtain ⟨plain, events, grows, accounts⟩ := instances.plants_body checked identifiers
  have tags := instances.body_tags checked
  rw [← elements] at tags
  let instructions := treeScriptAll ((page.block? "body").getD []) pageStem
  obtain ⟨script, ids⟩ := inlineScript_document lang (pageHead_elements (plan.exported page))
    plainMarkup tags (readTreeActions_pageScript plain)
  refine ⟨documentLines lang (pageHead (plan.exported page)) markup instructions, events, ?_, ?_,
    accounts.mono (by simp), ?_⟩
  · simp only [pageLines, Plan.exported_body, drawn]
    rfl
  · rw [script, treeLog_pageScript plain grows]
  · rw [ids, elements, elementsAt_ids]
    exact fun placement member => (instances.written checked).placed_body member

end

/-- **The tree of a page.** The document of an exported page is rendered, and its script runs. After
the node of the page it makes a node for every tracked id of the body, in document order, each below
one that was made before and whose id its own one goes on from, and it makes every list a list once
all nodes in it are there. The ids of the nodes are different. Each is the id of one element of the
document, where that of the page is also the id of what is called `$page`. -/
theorem page_tree_built {session session' : Session} {set : ExportSet}
    (reachable : session.Reachable) (run : Session.analyze session = .ok set session')
    {page : Expression} (exported : page ∈ set.exports) (isPage : page.kind = "page")
    (lang : String) :
    ∃ lines events, pageLines lang page = .ok lines ∧
      renderPage lang page = .ok (renderLines lines) ∧
      treeLog (inlineScript lines) = some (.made pageNode :: events) ∧
      Accounts page.bodyPlacements [pageNode] events ∧
      elementIds lines =
        pageStem :: (page.bodyPlacements.filterMap fun placement => placement.element.id) ∧
      ((pageNode :: madeNodes events).map TreeNode.element).Nodup ∧
      (∀ node ∈ madeNodes events, (elementIds lines).count node.element = 1) ∧
      (elementIds lines).count pageNode.element =
        1 + literalCount page.bodyPlacements pageStem := by
  obtain ⟨table, made, checked, exports⟩ := reachable.analyze_sound run
  obtain ⟨name, known, inst, instances, rfl⟩ := exists_of_forall₂_right exports exported
  have identifiers := (Table.ofExpressions_holds made).identifiers
  obtain ⟨lines, events, rendered, log, accounts, ids⟩ :=
    instances.document checked identifiers lang
  have distinct := instances.body_ids_nodup checked ((Plan.exported_kind inst).symm.trans isPage)
  have count := count_elementIds fun placement member =>
    (instances.hasProperId checked identifiers).placed_body member
  -- the id of the page has no dash
  have apart : ∀ id ∈ trackedIds inst.bodyPlacements, pageStem ≠ id := by
    rintro _ member rfl
    exact absurd (dash_mem_trackedIds member) (by decide)
  rw [Expression.bodyPlacements, Plan.exported_body, ← Expression.bodyPlacements]
  refine ⟨lines, events, rendered, ?_, log, accounts, ids, ?_, ?_, ?_⟩
  · rw [renderPage_eq isPage, rendered]
    rfl
  · rw [List.map_cons, accounts.elements]
    exact List.nodup_cons.mpr ⟨fun member => apart _ member rfl, distinct⟩
  · intro node member
    have among : node.element ∈ trackedIds inst.bodyPlacements :=
      accounts.elements ▸ List.mem_map_of_mem member
    rw [ids, List.count_cons_of_ne (apart _ among), count, if_pos (dash_mem_trackedIds among),
      distinct.count, if_pos among]
  · rw [ids, show pageNode.element = pageStem from rfl, List.count_cons_self, count,
      if_neg (by decide), Nat.add_comm]

/-- A page with a list of two rows, an id below that of the page, and one that repeats it. -/
def grownPage : String :=
  "p defines: \"item\", body: \x7b span id: \"x\" \x7d\n" ++
  "page defines: \"home\", body: \x7b\n" ++
  "  list id: \"l\", type: \"item\", initial: 2\n  div id: \"#g\"\n  div id: \"$page\" \x7d\n"

theorem page_tree_built_home :
    ∃ set session', Session.analyze (Session.ofSource grownPage) =
        .ok set session' ∧ ∃ page ∈ set.exports, page.kind = "page" ∧
      trackedIds page.bodyPlacements =
        ["page-l", "page-l-0", "page-l-0-x", "page-l-1", "page-l-1-x", "page-g"] ∧
      ∃ lines events, pageLines "en" page = .ok lines ∧
        renderPage "en" page = .ok (renderLines lines) ∧
        treeLog (inlineScript lines) = some (.made pageNode :: events) ∧
        Accounts page.bodyPlacements [pageNode] events ∧
        elementIds lines =
          pageStem :: (page.bodyPlacements.filterMap fun placement => placement.element.id) ∧
        ((pageNode :: madeNodes events).map TreeNode.element).Nodup ∧
        (∀ node ∈ madeNodes events, (elementIds lines).count node.element = 1) ∧
        (elementIds lines).count pageNode.element =
          1 + literalCount page.bodyPlacements pageStem := by
  have analyzed : (Session.ofSource grownPage).exportSet?.any (fun set =>
      set.exports.any fun page => page.kind = "page" && trackedIds page.bodyPlacements =
        ["page-l", "page-l-0", "page-l-0-x", "page-l-1", "page-l-1-x", "page-g"]) = true := by
    decide +kernel
  obtain ⟨set, session', run, tests⟩ := Session.analyze_of_any analyzed
  obtain ⟨page, exported, tests⟩ := List.any_eq_true.mp tests
  simp only [Bool.and_eq_true, decide_eq_true_eq] at tests
  exact ⟨set, session', run, page, exported, tests.1, tests.2,
    page_tree_built (.ofSource grownPage) run exported tests.1 "en"⟩

/-- An id that is used as it is and reads like that of the page. -/
def literalPage : String :=
  "page defines: \"home\", body: \x7b div id: \"$page\" \x7d\n"

theorem literalPage_repeats_id :
    ∃ set session', Session.analyze (Session.ofSource literalPage) =
        .ok set session' ∧ ∃ page ∈ set.exports, page.kind = "page" ∧
      ∃ lines, pageLines "en" page = .ok lines ∧ renderPage "en" page = .ok (renderLines lines) ∧
        treeLog (inlineScript lines) = some [.made pageNode] ∧
        (elementIds lines).count pageNode.element = 2 := by
  have analyzed : (Session.ofSource literalPage).exportSet?.any (fun set =>
      set.exports.any fun page => page.kind = "page" &&
        match pageLines "en" page with
        | .error _ => false
        | .ok lines => treeLog (inlineScript lines) = some [.made pageNode] &&
          (elementIds lines).count pageNode.element = 2) = true := by
    decide +kernel
  obtain ⟨set, session', run, tests⟩ := Session.analyze_of_any analyzed
  obtain ⟨page, exported, tests⟩ := List.any_eq_true.mp tests
  obtain ⟨isPage, tests⟩ := Bool.and_eq_true_iff.mp tests
  have isPage := of_decide_eq_true isPage
  cases made : pageLines "en" page with
  | error fault => simp [made] at tests
  | ok lines =>
    simp only [made, Bool.and_eq_true, decide_eq_true_eq] at tests
    refine ⟨set, session', run, page, exported, isPage, lines, made, ?_, tests⟩
    rw [renderPage_eq isPage, made]
    rfl

end Pagewright
