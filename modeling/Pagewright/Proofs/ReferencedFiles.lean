import Pagewright.Proofs.Rows

/-!
# The files that exports name

Only the export of a page adds to the files of an analysis, and it adds what its
instance names. So the files are those that some exported page names, in
increasing order, and in whatever order the pages were built.
-/

namespace Pagewright

open Outcome

variable {plan : Plan} {inst first second : Expression} {name file : String} {w w' : Workshop}
  {files : List String}

/-! ### Building names no files -/

private theorem assemble_files {build : String → Building Expression}
    (builds : ∀ type w item w', build type w = .ok item w' → w'.files = w.files)
    (run : assemble plan build name w = .ok inst w') : w'.files = w.files := by
  obtain ⟨root, rest, ids, found, markers, scope, -, -, fills, -⟩ := assemble_iff.mp run
  let kept : Workshop → Prop := fun v => v.files = w.files
  have begin : kept { w with ids, markers } := rfl
  apply fillLists_keeps (fun v ids (same : kept v) => same) ?_ begin fills
  intro type v item v' same built
  exact (builds type v item v' built).trans same

theorem buildWithin_files {budget : Nat} (run : buildWithin plan budget name w = .ok inst w') :
    w'.files = w.files := by
  induction budget generalizing name inst w w' with
  | zero => exact (throw_ok.mp run).elim
  | succ budget ih =>
    rcases buildWithin_succ_ok.mp run with ⟨-, rfl⟩ | ⟨-, -, u, assembled, rfl⟩
    · rfl
    · have kept : u.files = _ := assemble_files (fun type w item w' built => ih built) assembled
      exact kept

/-! ### Exports name files -/

theorem Plan.mem_withFiles :
    file ∈ plan.withFiles inst files ↔
      (inst.kind = "page" ∧ file ∈ plan.pageFiles inst) ∨ file ∈ files := by
  unfold Plan.withFiles
  split_ifs with page
  · generalize plan.pageFiles inst = added
    induction added generalizing files with
    | nil => simp
    | cons first rest ih =>
      rw [List.foldl_cons, ih, mem_insertName]
      simp only [page, true_and, List.mem_cons]
      tauto
  · simp [page]

private theorem Plan.withFiles_increasing (increasing : files.Pairwise (· < ·)) :
    (plan.withFiles inst files).Pairwise (· < ·) := by
  unfold Plan.withFiles
  split_ifs with page
  · generalize plan.pageFiles inst = added
    induction added generalizing files with
    | nil => exact increasing
    | cons first rest ih => exact ih (insertName_increasing increasing)
  · exact increasing

section

variable {inst : Expression}

/-- A page loads the scripts of every page first, and then its other ones. -/
theorem Plan.exported_scripts (isPage : inst.kind = "page") :
    (plan.exported inst).get? "scripts" = some (.list
      ((plan.defaultScripts ++ plan.additional (inst.texts "scripts")).map Argument.text)) := by
  rw [Plan.exported, if_pos isPage]
  exact Entries.lookup_insert_self _ _ _

theorem Plan.exported_texts_scripts (isPage : inst.kind = "page") :
    (plan.exported inst).texts "scripts" =
      plan.defaultScripts ++ plan.additional (inst.texts "scripts") := by
  have texts (entries : List String) :
      (entries.map Argument.text).filterMap Argument.text? = entries := by
    induction entries with
    | nil => rfl
    | cons entry rest ih => simp [Argument.text?, ih]
  simp only [Expression.texts, Expression.list?, Plan.exported_scripts isPage, Argument.list?,
    Option.bind_some, Option.getD_some]
  exact texts _

private theorem Plan.exported_texts_of_ne (other : name ≠ "scripts") :
    (plan.exported inst).texts name = inst.texts name := by
  unfold Plan.exported
  split_ifs
  · have kept : (plan.withScripts inst).get? name = inst.get? name :=
      Entries.lookup_insert_of_ne _ _ other
    simp only [Expression.texts, Expression.list?, kept]
  · rfl

theorem Plan.mem_additional {entry : String} {entries : List String} :
    entry ∈ plan.additional entries ↔ entry ∈ entries ∧ entry ∉ plan.defaultScripts := by
  simp [Plan.additional]

def Expression.resources (page : Expression) : List String :=
  page.texts "style_sheets" ++ page.texts "scripts"

/-- The files that a page needs are what its export loads, less the scripts of every page. -/
theorem Plan.mem_pageFiles (isPage : inst.kind = "page") :
    file ∈ plan.pageFiles inst ↔
      file ∈ (plan.exported inst).resources ∧ file ∉ plan.defaultScripts := by
  rw [Plan.pageFiles, Expression.resources, Plan.exported_texts_scripts isPage,
    Plan.exported_texts_of_ne (by decide)]
  simp only [List.mem_append, Plan.mem_additional]
  tauto

end

/-- A file that the definition `name` needs as a page. -/
def Plan.Needs (plan : Plan) (name file : String) : Prop :=
  ∃ inst, plan.HasInstance name inst ∧ inst.kind = "page" ∧ file ∈ plan.pageFiles inst

private theorem Plan.pageFiles_of_outline (same : SameOutline first second) :
    plan.pageFiles first = plan.pageFiles second := by
  unfold Plan.pageFiles
  rw [Expression.texts_of_outline same, Expression.texts_of_outline same]

theorem Expression.resources_of_outline (same : SameOutline first second) :
    first.resources = second.resources := by
  unfold Expression.resources
  rw [Expression.texts_of_outline same, Expression.texts_of_outline same]

/-- Any instance tells what its definition needs. -/
theorem Plan.HasInstance.needs_iff (instances : plan.HasInstance name inst) :
    plan.Needs name file ↔ inst.kind = "page" ∧ file ∈ plan.pageFiles inst := by
  constructor
  · rintro ⟨other, instances', page, named⟩
    have same := instances.unique instances'
    rw [Expression.kind_of_outline same, Plan.pageFiles_of_outline same]
    exact ⟨page, named⟩
  · rintro ⟨page, named⟩
    exact ⟨inst, instances, page, named⟩

private theorem instantiate_files {root : Expression} (faithful : w.Faithful plan)
    (run : instantiate plan name w = .ok root w') :
    w'.Faithful plan ∧ (w.files.Pairwise (· < ·) → w'.files.Pairwise (· < ·)) ∧
      ∀ file, file ∈ w'.files ↔ plan.Needs name file ∨ file ∈ w.files := by
  obtain ⟨definition, -, -, inst, u, built, -, rfl⟩ := instantiate_ok.mp run
  obtain ⟨now, instances⟩ := buildWithin_sound faithful built
  have same := buildWithin_files built
  refine ⟨⟨⟨now.resolving, now.checked⟩, now.finished⟩, ?_, ?_⟩
  · intro increasing
    rw [← same] at increasing
    exact Plan.withFiles_increasing increasing
  · intro file
    rw [instances.needs_iff, ← same]
    exact Plan.mem_withFiles

private theorem instantiateAll_files {roots : List Expression} (faithful : w.Faithful plan)
    (increasing : w.files.Pairwise (· < ·)) (run : instantiateAll plan w = .ok roots w') :
    w'.files.Pairwise (· < ·) ∧ ∀ file, file ∈ w'.files ↔
      (∃ name ∈ plan.table.exportNames, plan.Needs name file) ∨ file ∈ w.files := by
  have threads := mapM_ok.mp run
  clear run
  generalize plan.table.exportNames = names at threads
  induction threads with
  | nil w => exact ⟨increasing, by simp⟩
  | cons first rest ih =>
    obtain ⟨now, ordered, here⟩ := instantiate_files faithful first
    obtain ⟨orderedAll, later⟩ := ih now (ordered increasing)
    refine ⟨orderedAll, ?_⟩
    intro file
    rw [later, here, List.exists_mem_cons_iff, or_assoc]
    exact or_left_comm

/-- Files in increasing order are told by which they are. -/
theorem eq_of_increasing {others : List String} (increasing : files.Pairwise (· < ·))
    (increasing' : others.Pairwise (· < ·)) (same : ∀ file, file ∈ files ↔ file ∈ others) :
    files = others := by
  apply List.Perm.eq_of_pairwise (fun a b _ _ before after => absurd after (lt_asymm before))
    increasing increasing'
  rw [List.perm_ext_iff_of_nodup (increasing.imp ne_of_lt) (increasing'.imp ne_of_lt)]
  exact same

/-- The files of an analysis are those that its exports need, in order. -/
theorem Session.analyze_files {session session' : Session} {set : ExportSet}
    (run : Session.analyze session = .ok set session') :
    ∃ table, Table.ofExpressions session.expressions = .ok table ∧
      set.files.Pairwise (· < ·) ∧ ∀ file, file ∈ set.files ↔
        ∃ name ∈ table.exportNames, (Session.plan session.config table).Needs name file := by
  obtain ⟨table, w, made, built, -⟩ := Session.analyze_ok.mp run
  obtain ⟨markers, roots, u, checked, instances, rfl, -⟩ := Session.buildExports_ok.mp built
  obtain ⟨-, done⟩ := checkAll_sound Markers.fresh_empty checked
  have faithful : Workshop.Faithful { ids := session.ids, markers }
      (Session.plan session.config table) := ⟨⟨rfl, done⟩, by simp⟩
  obtain ⟨increasing, named⟩ := instantiateAll_files faithful .nil instances
  refine ⟨table, made, increasing, ?_⟩
  intro file
  rw [named]
  simp only [List.not_mem_nil, or_false]
  rfl

end Pagewright
