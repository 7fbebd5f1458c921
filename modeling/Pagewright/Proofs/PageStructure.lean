import Pagewright.Proofs.ElementTags
import Pagewright.Proofs.PageTree
import Pagewright.Proofs.ScriptFunctions

/-!
# The structure of a page's document

Whatever the texts of a program are, they do not change which tags its pages have.
`documentTags` lists the tags that a page should have, those of its body by the table
of kinds, and `document_tags_scanned` says that a scan of the document finds exactly
these. It also finds the script of the page, in which no other tag can start.
-/

namespace Pagewright

open Outcome

variable {tags : List Tag} {c : Char} {tag : Tag}

/-! ### The tags of documents -/

def headTags (page : Expression) : List Tag :=
  [.opening "meta" [⟨"charset", some "UTF-8"⟩],
    .opening "meta"
      [⟨"name", some "viewport"⟩, ⟨"content", some "width=device-width, initial-scale=1.0"⟩]]
  ++ (if (page.text? "title").isSome then [.opening "title" [], .closing "title"] else [])
  ++ (page.text? "icon").toList.map (fun icon =>
      .opening "link" [⟨"rel", some "icon"⟩, ⟨"href", some icon⟩])
  ++ (page.texts "style_sheets").map (fun sheet =>
      .opening "link" [⟨"rel", some "stylesheet"⟩, ⟨"href", some sheet⟩])
  ++ (page.texts "scripts").flatMap fun script =>
      [.opening "script" [⟨"src", some script⟩], .closing "script"]

/-- The tags of a page's document before its own script. -/
def tagsBeforeScript (lang : String) (page : Expression) : List Tag :=
  [.opening "!DOCTYPE" [⟨"html", none⟩], .opening "html" [⟨"lang", some lang⟩], .opening "head" []]
  ++ headTags page
  ++ [.closing "head", .opening "body" [], .opening "div" [⟨"id", some pageStem⟩]]
  ++ tagsAll ((page.block? "body").getD []) pageStem
  ++ [.closing "div"]

def documentTags (lang : String) (page : Expression) : List Tag :=
  tagsBeforeScript lang page ++
    [.opening "script" [], .closing "script", .closing "body", .closing "html"]

private theorem pageHead_tags (page : Expression) :
    Markup.tagsOf (pageHead page) = headTags page := by
  have links (sheets : List String) :
      Markup.tagsOf (sheets.map fun sheet =>
        .void "link" [⟨"rel", some "stylesheet"⟩, ⟨"href", some sheet⟩]) =
        sheets.map fun sheet =>
          .opening "link" [⟨"rel", some "stylesheet"⟩, ⟨"href", some sheet⟩] := by
    induction sheets with
    | nil => rfl
    | cons sheet rest ih => simp [Markup.tagsOf, Markup.tags, ih]
  have scripts (sources : List String) :
      Markup.tagsOf (sources.map fun source => .inline "script" [⟨"src", some source⟩] "") =
        sources.flatMap fun source =>
          [.opening "script" [⟨"src", some source⟩], .closing "script"] := by
    induction sources with
    | nil => rfl
    | cons source rest ih => simp [Markup.tagsOf, Markup.tags, ih]
  simp only [pageHead, headTags, Markup.tagsOf_append, links, scripts]
  cases page.text? "title" <;> cases page.text? "icon" <;> simp [Markup.tagsOf, Markup.tags]

private theorem pageHead_plain (page : Expression) : Markup.PlainAll (pageHead page) := by
  have all : ∀ {head : List Markup}, (∀ markup ∈ head, markup.Plain) → Markup.PlainAll head := by
    intro head each
    induction head with
    | nil => trivial
    | cons first rest ih =>
      obtain ⟨here, later⟩ := List.forall_mem_cons.mp each
      exact ⟨here, ih later⟩
  refine all fun markup member => ?_
  obtain ⟨tag, attributes, plain, plains, -, rfl | ⟨content, rfl⟩⟩ := mem_pageHead member
  · exact ⟨plain, fun attr among => (plains attr among).1⟩
  · exact ⟨plain, fun attr among => (plains attr among).1⟩

section

variable {page : Expression} {body : List Markup}

/-- A tag that every document has. -/
theorem scansLines_fixed (text : String) {line : String} (whole : '>' ∉ text.toList)
    (read : readTag? text.toList = some tag) (written : line = "<" ++ text ++ ">") (depth : Nat) :
    ScansLines [⟨depth, line⟩] [tag] := by
  have chars : line.toList = '<' :: (text.toList ++ ['>']) := by simp [written]
  exact Scans.line (chars ▸ scans_tag whole read) depth

private theorem scansLines_before (lang : String) (plain : Markup.PlainAll body)
    (drawn : markupAll ((page.block? "body").getD []) pageStem = .ok body) :
    ScansLines (linesBeforeScript lang (pageHead page) body) (tagsBeforeScript lang page) := by
  have doctype : ScansLines [⟨0, "<!DOCTYPE html>"⟩] [.opening "!DOCTYPE" [⟨"html", none⟩]] :=
    scansLines_fixed "!DOCTYPE html" (by decide) (by decide +kernel) (by decide) 0
  have html : ScansLines [⟨0, startTag "html" [⟨"lang", some lang⟩]⟩] _ :=
    (scans_startTag (by decide) (by simp; decide)).line 0
  have headStart : ScansLines [⟨0, "<head>"⟩] [.opening "head" []] :=
    scansLines_fixed "head" (by decide) (by decide +kernel) (by decide) 0
  have headEnd : ScansLines [⟨0, "</head>"⟩] [.closing "head"] :=
    scansLines_fixed "/head" (by decide) (by decide +kernel) (by decide) 0
  have bodyStart : ScansLines [⟨0, "<body>"⟩] [.opening "body" []] :=
    scansLines_fixed "body" (by decide) (by decide +kernel) (by decide) 0
  have blank : ScansLines [Line.blank] [] := (scans_plain (by decide)).line 0
  have head := Markup.scansLines_linesOf 1 (pageHead_plain page)
  have content := Markup.scansLines_lines 1
    (show (Markup.element "div" [⟨"id", some pageStem⟩] body).Plain from
      ⟨by decide, by simp; decide, plain⟩)
  -- lines that were written from markup have its tags, the others one tag or none
  rw [pageHead_tags] at head
  rw [Markup.tags, markupAll_tags (fun _ _ _ => markup_tags) drawn] at content
  have lines := (((doctype.append (html.append (blank.append headStart))).append head).append
    (headEnd.append (blank.append bodyStart))).append content
  simpa [linesBeforeScript, tagsBeforeScript] using lines

end

/-! ### The lines of a tree script -/

/-- What stands in a script as it is does without a character. -/
def TreeInstruction.Avoids (c : Char) : TreeInstruction → Prop
  | .listify itemType least most => c ∉ itemType.toList ∧ c ∉ least.toList ∧ c ∉ most.toList
  | _ => True

section

variable {c : Char} {instructions : List TreeInstruction}

private theorem TreeInstruction.lines_avoid (special : c ∈ ['<', '\n'])
    (avoids : ∀ instruction ∈ instructions, instruction.Avoids c) (depth : Nat) :
    ∀ line ∈ lines depth instructions, c ∉ line.text.toList := by
  have escaped := fun text => not_mem_escapeScript text
    (List.mem_append_left ['\r', '\t', '\u2028', '\u2029'] special)
  simp only [List.mem_cons, List.not_mem_nil, or_false] at special
  induction instructions generalizing depth with
  | nil => simp [lines]
  | cons instruction rest ih =>
    obtain ⟨here, later⟩ := List.forall_mem_cons.mp avoids
    cases instruction with
    | enter parent fullId name =>
      rcases special with rfl | rfl <;> cases parent <;> simpa [lines, escaped] using ih later _
    | listify itemType least most =>
      obtain ⟨type, first, last⟩ := here
      rcases special with rfl | rfl <;> simpa [lines, type, first, last] using ih later _
    | leave => rcases special with rfl | rfl <;> simpa [lines] using ih later _

theorem pageScript_avoids (special : c ∈ ['<', '\n'])
    (avoids : ∀ instruction ∈ instructions, instruction.Avoids c) :
    ∀ line ∈ pageScript instructions, c ∉ line.text.toList := by
  -- the lines around the instructions are fixed
  have frame : ∀ line ∈ pageScript [], c ∉ line.text.toList := by
    simp only [List.mem_cons, List.not_mem_nil, or_false] at special
    rcases special with rfl | rfl <;> decide +kernel
  intro line member
  rw [pageScript, List.mem_append, List.mem_append] at member
  rcases member with (opening | inside) | closing
  · exact frame line (List.mem_append_left _ (List.mem_append_left _ opening))
  · exact TreeInstruction.lines_avoid special avoids 3 line inside
  · exact frame line (List.mem_append_right _ closing)

/-- A property of instructions holds of all for an expression if it holds of what makes its lists
lists. -/
theorem treeScript_forall {property : TreeInstruction → Prop}
    (enter : ∀ parent fullId name, property (.enter parent fullId name)) (leave : property .leave)
    {e : Expression}
    (lists : e.Throughout fun inner => ∀ instruction ∈ inner.listing, property instruction)
    (stem : String) : ∀ instruction ∈ treeScript e stem, property instruction := by
  induction e using Expression.inductionOn generalizing stem with
  | step e ih =>
    have inside : ∀ {children : List Expression}, children ⊆ e.inner → ∀ stem,
        ∀ instruction ∈ treeScriptAll children stem, property instruction := by
      intro children subset stem
      induction children with
      | nil => simp [treeScriptAll]
      | cons child rest ihRest =>
        intro instruction member
        rcases List.mem_append.mp member with first | later
        · obtain ⟨name, -, held⟩ := Expression.holds_of_inner (subset List.mem_cons_self)
          exact ih name child held (lists.child held) stem instruction first
        · exact ihRest (fun _ among => subset (List.mem_cons_of_mem _ among)) instruction later
    have own := lists.here
    intro instruction member
    cases tracked : e.trackedId? with
    | none =>
      rw [treeScript_untracked tracked, List.mem_append] at member
      rcases member with inner | listing
      · exact inside (List.Subset.refl _) _ instruction inner
      · exact own instruction listing
    | some id =>
      rw [treeScript_tracked tracked, List.mem_cons, List.mem_append, List.mem_append,
        List.mem_singleton] at member
      rcases member with rfl | (inner | listing) | rfl
      · exact enter _ _ _
      · exact inside (List.Subset.refl _) _ instruction inner
      · exact own instruction listing
      · exact leave

theorem mem_treeScriptAll {children : List Expression} {stem : String}
    {instruction : TreeInstruction} (member : instruction ∈ treeScriptAll children stem) :
    ∃ child ∈ children, instruction ∈ treeScript child stem := by
  induction children with
  | nil => simp [treeScriptAll] at member
  | cons child rest ih =>
    rcases List.mem_append.mp member with first | later
    · exact ⟨child, List.mem_cons_self, first⟩
    · obtain ⟨other, among, found⟩ := ih later
      exact ⟨other, List.mem_cons_of_mem _ among, found⟩

end

/-! ### The script of a document -/

/-- The text up to the first place where the mark stands. -/
def beforeMark (mark : List Char) : List Char → List Char
  | [] => []
  | c :: rest => if (readAfter mark (c :: rest)).isSome then [] else c :: beforeMark mark rest

/-- The text between the first start tag of a script that has no attributes and the next end tag
of a script. -/
def inlineScriptText (document : String) : Option (List Char) :=
  ((rawTags none document.toList).find? fun tag => readTag? tag.1 = some (.opening "script" [])).map
    fun tag => beforeMark "</script>".toList tag.2

private theorem beforeMark_append {text mark : List Char} (absent : c ∉ text) (rest : List Char) :
    beforeMark (c :: mark) (text ++ (c :: mark ++ rest)) = text := by
  induction text with
  | nil =>
    have here := readAfter_append (c :: mark) rest
    rw [List.nil_append, List.cons_append] at *
    rw [beforeMark, here]
    rfl
  | cons d text ih =>
    obtain ⟨other, later⟩ : c ≠ d ∧ c ∉ text := by simpa using absent
    have here : readAfter (c :: mark) (d :: (text ++ (c :: mark ++ rest))) = none := by
      rw [readAfter, if_neg other]
    rw [List.cons_append, beforeMark, here, ih later]
    rfl

private theorem find?_readTag?_of_absent {found : List (List Char × List Char)}
    (read : found.mapM (fun raw => readTag? raw.1) = some tags) (absent : tag ∉ tags) :
    found.find? (fun raw => readTag? raw.1 = some tag) = none := by
  induction found generalizing tags with
  | nil => rfl
  | cons raw rest ih =>
    simp only [List.mapM_cons, Option.bind_eq_bind, Option.bind_eq_some_iff, Option.pure_def,
      Option.some.injEq] at read
    obtain ⟨first, here, others, later, rfl⟩ := read
    obtain ⟨apart, absent⟩ : tag ≠ first ∧ tag ∉ others := by simpa using absent
    rw [List.find?_cons_of_neg (by simpa [here] using apart.symm), ih later absent]

/-- A script without `<` is found between its tags if no such script stands before it. -/
theorem inlineScriptText_eq {document : String} {before script : List Char}
    (scans : Scans before tags) (absent : .opening "script" [] ∉ tags) (silent : '<' ∉ script)
    (after : List Char)
    (text : document.toList =
      before ++ ("<script>".toList ++ (script ++ ("</script>".toList ++ after)))) :
    inlineScriptText document = some script := by
  obtain ⟨found, read, start⟩ :=
    scans ("<script>".toList ++ (script ++ ("</script>".toList ++ after)))
  have tag : rawTags none ("<script>".toList ++ (script ++ ("</script>".toList ++ after))) =
      ("script".toList, script ++ ("</script>".toList ++ after)) ::
        rawTags none (script ++ ("</script>".toList ++ after)) :=
    rawTags_tag (show '>' ∉ "script".toList by decide) (script ++ ("</script>".toList ++ after))
  have bare : readTag? "script".toList = some (.opening "script" []) := by decide +kernel
  rw [inlineScriptText, text, start, tag, List.find?_append, find?_readTag?_of_absent read absent,
    Option.none_or, List.find?_cons_of_pos (by exact decide_eq_true bare), Option.map_some]
  exact congrArg some (beforeMark_append silent after)

def scriptText (script : List Line) : List Char :=
  '\n' :: ((renderLines script).toList ++ "    ".toList)

private theorem scriptText_silent {script : List Line}
    (plain : ∀ line ∈ script, '<' ∉ line.text.toList) : '<' ∉ scriptText script := by
  have written : ∀ line ∈ script, '<' ∉ line.render.toList := fun line member => by
    simpa [Line.render] using plain line member
  simpa [scriptText, renderLines, String.toList_join] using written

private theorem inlineScriptText_lines {lines script : List Line} (before : ScansLines lines tags)
    (absent : .opening "script" [] ∉ tags) (plain : ∀ line ∈ script, '<' ∉ line.text.toList)
    (more : List Line) :
    inlineScriptText (renderLines (lines ++ (⟨1, "<script>"⟩ :: (script ++
      (⟨1, "</script>"⟩ :: more))))) = some (scriptText script) := by
  have indented : Scans ((renderLines lines).toList ++ "    ".toList) tags := by
    simpa using Scans.append before (scans_plain (show '<' ∉ "    ".toList by decide))
  have opening : renderLines [⟨1, "<script>"⟩] = "    <script>\n" := rfl
  have closing : renderLines [⟨1, "</script>"⟩] = "    </script>\n" := rfl
  refine inlineScriptText_eq indented absent (scriptText_silent plain)
    ('\n' :: (renderLines more).toList) ?_
  rw [← List.singleton_append, ← List.singleton_append (l := more), renderLines_append,
    renderLines_append, renderLines_append, renderLines_append, opening, closing]
  simp [scriptText]

private theorem ScansLines.scanTags {lines : List Line} (scans : ScansLines lines tags) :
    scanTags (renderLines lines) = some tags := by
  obtain ⟨found, read, raw⟩ := scans []
  rw [List.append_nil, rawTags, List.append_nil] at raw
  rw [Pagewright.scanTags, raw, read]

/-! ### Pages -/

section

variable {plan : Plan} {name : String} {page : Expression}

/-- Item types and bounds stand in a script as they are. -/
theorem Plan.HasInstance.script_avoids (checked : plan.Checked)
    (identifiers : ∀ name ∈ plan.table.names, isIdentifier name = true)
    (instances : plan.HasInstance name page) (special : c ∈ ['<', '\n']) :
    ∀ instruction ∈ treeScriptAll ((page.block? "body").getD []) pageStem,
      instruction.Avoids c := by
  intro instruction member
  obtain ⟨child, among, found⟩ := mem_treeScriptAll member
  have rows := (instances.hasRows checked).child (Expression.holds_of_block among)
  refine treeScript_forall (fun _ _ _ => trivial) trivial (rows.imp ?_) pageStem instruction found
  intro inner has instruction listing
  unfold Expression.listing at listing
  split_ifs at listing with isList
  · obtain rfl := List.mem_singleton.mp listing
    obtain ⟨type, typed, known⟩ := has.typed isList
    have identifier := identifiers type (plan.table.exportNames_sublist.mem known)
    have other : isWordPart c = false := by
      simp only [List.mem_cons, List.not_mem_nil, or_false] at special
      rcases special with rfl | rfl <;> decide
    rw [TreeInstruction.Avoids, Expression.itemType, typed, Option.getD_some]
    exact ⟨isIdentifier_avoids identifier other, inner.bounds_avoid special⟩
  · cases listing

/-- Only the script of the page itself has no source. -/
theorem script_not_mem_tagsBefore {body : List Markup} (lang : String)
    (drawn : markupAll ((page.block? "body").getD []) pageStem = .ok body)
    (tags : ∀ element ∈ Markup.elementsOf body, element.tag ≠ "script") :
    Tag.opening "script" [] ∉ tagsBeforeScript lang page := by
  have inside : Tag.opening "script" [] ∉ tagsAll ((page.block? "body").getD []) pageStem := by
    rw [← markupAll_tags (fun _ _ _ => markup_tags) drawn]
    exact fun member => tags _ (Markup.mem_elementsOf_of_tagsOf member) rfl
  have head : Tag.opening "script" [] ∉ headTags page := by
    cases title : page.text? "title" <;> simp [headTags, title]
  simp [tagsBeforeScript, inside, head]

/-- A scan of an exported page finds the tags of the page and its script. -/
theorem Plan.HasInstance.scanned (checked : plan.Checked)
    (identifiers : ∀ name ∈ plan.table.names, isIdentifier name = true)
    (instances : plan.HasInstance name page) (isPage : page.kind = "page") (lang : String) :
    ∃ text, renderPage lang (plan.exported page) = .ok text ∧
      scanTags text = some (documentTags lang (plan.exported page)) ∧
      inlineScriptText text = some (scriptText
        (pageScript (treeScriptAll ((page.block? "body").getD []) pageStem))) ∧
      '<' ∉ scriptText (pageScript (treeScriptAll ((page.block? "body").getD []) pageStem)) := by
  obtain ⟨body, drawn, plain, elements⟩ := instances.draws_body checked
  have tags := instances.body_tags checked
  rw [← elements] at tags
  rw [← plan.exported_body] at drawn
  let instructions := treeScriptAll ((page.block? "body").getD []) pageStem
  have quiet := pageScript_avoids (by simp) (instances.script_avoids checked identifiers
    (show '<' ∈ ['<', '\n'] by simp))
  have before := scansLines_before lang plain drawn
  have absent := script_not_mem_tagsBefore lang drawn tags
  have rendered : renderPage lang (plan.exported page) =
      .ok (renderLines (documentLines lang (pageHead (plan.exported page)) body instructions)) := by
    rw [renderPage, if_neg (by simp [Plan.exported_kind, isPage])]
    simp only [drawn]
    rw [plan.exported_body]
    rfl
  have after : ScansLines [⟨1, "</script>"⟩, ⟨0, "</body>"⟩, Line.blank, ⟨0, "</html>"⟩]
      [.closing "script", .closing "body", .closing "html"] :=
    (scansLines_fixed "/script" (by decide) (by decide +kernel) (by decide) 1).append
      ((scansLines_fixed "/body" (by decide) (by decide +kernel) (by decide) 0).append
        (((scans_plain (by decide)).line 0).append
          (scansLines_fixed "/html" (by decide) (by decide +kernel) (by decide) 0)))
  have script : ScansLines [⟨1, "<script>"⟩] [.opening "script" []] :=
    scansLines_fixed "script" (by decide) (by decide +kernel) (by decide) 1
  refine ⟨_, rendered, ?_, ?_, scriptText_silent quiet⟩
  · rw [documentLines_eq]
    exact (before.append (script.append ((scansLines_plain quiet).append after))).scanTags
  · rw [documentLines_eq]
    exact inlineScriptText_lines before absent quiet _

end

/-- **Texts do not change the structure of a page.** The document of an exported page is rendered.
Scanned for tags it gives those of a document and of the page's head, then those of its body in the
order of a walk over the body, each with its own attributes and their values, and then those around
the page's script. No tag starts in the script. -/
theorem document_tags_scanned {session session' : Session} {set : ExportSet}
    (reachable : session.Reachable) (run : Session.analyze session = .ok set session')
    {page : Expression} (exported : page ∈ set.exports) (isPage : page.kind = "page")
    (lang : String) :
    ∃ text script, renderPage lang page = .ok text ∧
      scanTags text = some (documentTags lang page) ∧
      inlineScriptText text = some script ∧ '<' ∉ script := by
  obtain ⟨table, made, checked, exports⟩ := reachable.analyze_sound run
  obtain ⟨name, known, inst, instances, rfl⟩ := exists_of_forall₂_right exports exported
  have identifiers := (Table.ofExpressions_holds made).identifiers
  obtain ⟨text, rendered, scanned, script, silent⟩ :=
    instances.scanned checked identifiers ((Plan.exported_kind inst).symm.trans isPage) lang
  exact ⟨text, _, rendered, scanned, script, silent⟩

/-- A page whose texts look like tags, ends of values and entities. -/
def hostilePage : String :=
  "page defines: \"home\", title: \"</title><script>\", body: \x7b " ++
  "div classes: [\"\\\">&lt;\"], styles: [\"a\", \"<\"] \x7d"

theorem document_tags_scanned_hostile :
    ∃ set session', Session.analyze (Session.ofSource hostilePage) =
        .ok set session' ∧ ∃ page ∈ set.exports, page.kind = "page" ∧
      page.text? "title" = some "</title><script>" ∧
      Tag.opening "div" [⟨"class", some "\">&lt;"⟩, ⟨"style", some "a; <"⟩] ∈
        documentTags "\"><script>" page ∧
      ∃ text script, renderPage "\"><script>" page = .ok text ∧
        scanTags text = some (documentTags "\"><script>" page) ∧
        inlineScriptText text = some script ∧ '<' ∉ script := by
  have analyzed : (Session.ofSource hostilePage).exportSet?.any (fun set =>
      set.exports.any fun page => page.kind = "page" &&
        page.text? "title" = some "</title><script>" &&
        .opening "div" [⟨"class", some "\">&lt;"⟩, ⟨"style", some "a; <"⟩] ∈
          documentTags "\"><script>" page) = true := by
    decide +kernel
  obtain ⟨set, session', run, tests⟩ := Session.analyze_of_any analyzed
  obtain ⟨page, exported, tests⟩ := List.any_eq_true.mp tests
  simp only [Bool.and_eq_true, decide_eq_true_eq] at tests
  obtain ⟨⟨isPage, title⟩, classes⟩ := tests
  exact ⟨set, session', run, page, exported, isPage, title, classes,
    document_tags_scanned (.ofSource hostilePage) run exported isPage "\"><script>"⟩

end Pagewright
