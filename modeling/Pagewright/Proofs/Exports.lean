import Pagewright.Proofs.FilledInstance
import Pagewright.Proofs.SourceReading
import Pagewright.Session

/-!
# What an analysis exports

The exports of a successful analysis are the instances of the definitions
without parameters, in the order of definition, up to identifiers; pages have the
scripts of every page added. The table of a session holds the expressions that
the session has read, each under the name it defines.
-/

namespace Pagewright

open Outcome

variable {table table' : Table} {name : String} {session : Session} {e : Expression}
  {w w' : Workshop} {expressions : List Expression} {c : Char}

/-! ### The table -/

theorem isWordPart_of_isWordStart (start : isWordStart c = true) : isWordPart c = true := by
  simp only [isWordStart, isWordPart, Char.isAlphanum, Bool.or_eq_true] at start ⊢
  exact start.imp_left Or.inl

private theorem isIdentifier_word (identifier : isIdentifier name = true) :
    ∀ c ∈ name.toList, isWordPart c = true := by
  unfold isIdentifier at identifier
  split at identifier
  · cases identifier
  · next first rest written =>
    rw [written]
    obtain ⟨start, parts⟩ := Bool.and_eq_true_iff.mp identifier
    intro c member
    rcases List.mem_cons.mp member with rfl | inRest
    · exact isWordPart_of_isWordStart start
    · exact List.all_eq_true.mp parts c inRest

theorem isIdentifier_avoids (identifier : isIdentifier name = true) (other : isWordPart c = false) :
    c ∉ name.toList := by
  intro member
  rw [isIdentifier_word identifier c member] at other
  cases other

/-- An insertion goes through exactly for a new identifier. -/
theorem Catalog.insert_ok {catalog catalog' : Catalog} :
    Catalog.insert name e catalog = .ok () catalog' ↔
      isIdentifier name = true ∧ catalog.contains name = false ∧
        catalog' = ⟨catalog.definitions ++ [⟨name, e⟩], (name, catalog.size) :: catalog.places⟩ := by
  rw [Catalog.insert_eq]
  cases isIdentifier name <;> cases catalog.contains name <;> simp [eq_comm]

private theorem Table.define_run :
    table.define e = .ok table' ↔ Catalog.define e table.toCatalog = .ok () table'.toCatalog := by
  unfold Table.define
  split
  · next catalog run =>
    constructor
    · rintro ⟨⟩
      exact run
    · intro again
      obtain ⟨rfl, rfl⟩ := EStateM.Result.ok.inj (run.symm.trans again)
      rfl
  · next run => simp [run]

theorem Table.define_ok :
    table.define e = .ok table' ↔ ∃ name, e.get? "defines" = some (.text name) ∧
      isIdentifier name = true ∧ name ∉ table.names ∧ table'.toCatalog =
        ⟨table.definitions ++ [⟨name, e⟩], (name, table.size) :: table.places⟩ := by
  rw [Table.define_run, Catalog.define]
  cases found : e.get? "defines" with
  | none => simp [throw_ok]
  | some value =>
    cases value with
    | text name =>
      simp only [Catalog.insert_ok, ← Table.contains_iff, Bool.not_eq_true, Option.some.injEq,
        Argument.text.injEq, exists_eq_left']
    | atom | number | block | list => simp [throw_ok]

/-- A table that holds given expressions in their order, each under the identifier it defines, and no
name twice. -/
structure Table.Holds (table : Table) (expressions : List Expression) : Prop where
  expressions : table.definitions.map Definition.expression = expressions
  named : ∀ definition ∈ table.definitions,
    definition.expression.get? "defines" = some (.text definition.name)
  distinct : table.names.Nodup
  identifiers : ∀ name ∈ table.names, isIdentifier name = true

private theorem Table.Holds.define (holds : table.Holds expressions)
    (run : table.define e = .ok table') : table'.Holds (expressions ++ [e]) := by
  obtain ⟨name, defines, identifier, fresh, added⟩ := Table.define_ok.mp run
  have names : table'.names = table.names ++ [name] := by simp [Catalog.names, added]
  refine ⟨?_, ?_, ?_, ?_⟩
  · rw [added, List.map_append, holds.expressions]
    rfl
  · intro definition member
    rw [added, List.mem_append, List.mem_singleton] at member
    rcases member with earlier | rfl
    · exact holds.named definition earlier
    · exact defines
  · rw [names, List.nodup_append]
    refine ⟨holds.distinct, by simp, fun other member last => ?_⟩
    rintro (single : last ∈ [name]) rfl
    exact fresh (List.mem_singleton.mp single ▸ member)
  · intro other member
    rcases List.mem_append.mp (names ▸ member) with earlier | last
    · exact holds.identifiers other earlier
    · exact List.mem_singleton.mp last ▸ identifier

/-- A table holds the expressions it is made of, under distinct identifiers. -/
theorem Table.ofExpressions_holds (run : Table.ofExpressions expressions = .ok table) :
    table.Holds expressions := by
  have general : ∀ (rest before : List Expression) (start : Table), start.Holds before →
      rest.foldlM Table.define start = .ok table → table.Holds (before ++ rest) := by
    intro rest
    induction rest with
    | nil =>
      intro before start holds run
      cases run
      simpa using holds
    | cons e rest ih =>
      intro before start holds run
      rw [List.foldlM_cons, except_bind_ok] at run
      obtain ⟨next, first, later⟩ := run
      have more := ih (before ++ [e]) next (holds.define first) later
      simpa using more
  exact general expressions [] {} ⟨rfl, by simp, List.nodup_nil, by simp [Catalog.names]⟩ run

theorem Table.Holds.find?_named (holds : table.Holds expressions) {definition : Definition}
    (found : table.find? name = some definition) :
    definition.expression ∈ expressions ∧
      definition.expression.get? "defines" = some (.text name) := by
  obtain ⟨member, named⟩ := Table.mem_of_find? found
  refine ⟨?_, ?_⟩
  · rw [← holds.expressions]
    exact List.mem_map_of_mem member
  · rw [holds.named definition member, named]

/-- Exports are listed in the order of their definitions. -/
theorem Table.exportNames_sublist (table : Table) : table.exportNames.Sublist table.names :=
  List.filter_sublist.map _

/-! ### Exports -/

variable {plan : Plan}

def Plan.exported (plan : Plan) (inst : Expression) : Expression :=
  if inst.kind = "page" then plan.withScripts inst else inst

theorem Plan.exported_kind (inst : Expression) : (plan.exported inst).kind = inst.kind := by
  unfold Plan.exported
  split_ifs
  · rfl
  · rfl

theorem Plan.exported_defines? (inst : Expression) : (plan.exported inst).defines? = inst.defines? := by
  unfold Plan.exported
  split_ifs with page
  · simp only [Expression.defines?, Expression.text?, Plan.withScripts, Expression.get?,
      Expression.set, Entries.lookup_insert_of_ne _ _ (show "defines" ≠ "scripts" by decide)]
  · rfl

/-- The files that an export names, put in with those that were named before. -/
def Plan.withFiles (plan : Plan) (inst : Expression) (files : List String) : List String :=
  if inst.kind = "page" then
    (plan.pageFiles inst).foldl (fun files file => insertName file files) files
  else files

/-- An export is made out of what building gives; where building fails nothing more is done. -/
theorem instantiate_run (name : String) (w : Workshop) :
    instantiate plan name w =
      match plan.table.find? name with
      | none => .error (.reference (.unknownDefinition name)) w
      | some definition =>
        if definition.expression.isGeneric then .error (.reference (.generic name)) w
        else match build plan name w with
          | .ok inst u => .ok (plan.exported inst) { u with files := plan.withFiles inst u.files }
          | .error e u => .error e u := by
  unfold instantiate
  cases plan.table.find? name with
  | none => rfl
  | some definition =>
    dsimp only
    split_ifs with generic
    · rfl
    · show EStateM.bind (build plan name) _ w = _
      unfold EStateM.bind Plan.exported Plan.withFiles
      cases build plan name w with
      | error e u => rfl
      | ok inst u =>
        dsimp only
        split_ifs <;> rfl

/-- Only a definition without parameters is instantiated. -/
theorem instantiate_ok {root : Expression} :
    instantiate plan name w = .ok root w' ↔
      ∃ definition, plan.table.find? name = some definition ∧
        definition.expression.isGeneric = false ∧ ∃ inst u, build plan name w = .ok inst u ∧
          plan.exported inst = root ∧ { u with files := plan.withFiles inst u.files } = w' := by
  rw [instantiate_run]
  cases found : plan.table.find? name with
  | none => simp
  | some definition =>
    cases generic : definition.expression.isGeneric with
    | true => simp [generic]
    | false => cases built : build plan name w <;> simp [generic]

/-- The export of a definition, up to identifiers of its instance. -/
def Plan.Exports (plan : Plan) (name : String) (root : Expression) : Prop :=
  ∃ inst, plan.HasInstance name inst ∧ plan.exported inst = root

/-- Each name gets the export of its own definition. -/
theorem instantiateEach_sound {names : List String} {roots : List Expression}
    (faithful : w.Faithful plan) (run : names.mapM (instantiate plan) w = .ok roots w') :
    List.Forall₂ plan.Exports names roots := by
  have threads := mapM_ok.mp run
  refine (threads.forall₂ (fun w => w.Faithful plan) faithful ?_).2
  intro name _ w root w' faithful step
  obtain ⟨definition, -, -, inst, u, built, exported, rfl⟩ := instantiate_ok.mp step
  obtain ⟨now, instances⟩ := buildWithin_sound faithful built
  exact ⟨⟨⟨now.resolving, now.checked⟩, now.finished⟩, inst, instances, exported⟩

namespace Session

variable {session session' : Session} {set : ExportSet}

/-- Every definition is checked before the first is instantiated. -/
theorem buildExports_ok {ids : Supply} :
    buildExports plan { ids } = .ok set w ↔
      ∃ markers roots u, checkAll plan.table plan.rowLimit {} = .ok () markers ∧
        instantiateAll plan { ids, markers } = .ok roots u ∧
        { exports := roots, files := u.files } = set ∧ u = w := by
  unfold buildExports
  simp only [bind_ok, onMarkers_ok, get_ok, pure_ok]
  constructor
  · rintro ⟨_, _, ⟨markers, checked, rfl⟩, roots, u, built, _, _, ⟨rfl, rfl⟩, rfl, rfl⟩
    exact ⟨markers, roots, u, checked, built, rfl, rfl⟩
  · rintro ⟨markers, roots, u, checked, built, rfl, rfl⟩
    exact ⟨⟨⟩, _, ⟨markers, checked, rfl⟩, roots, u, built, u, u, ⟨rfl, rfl⟩, rfl, rfl⟩

theorem analyze_ok :
    analyze session = .ok set session' ↔
      ∃ table w, Table.ofExpressions session.expressions = .ok table ∧
        buildExports (Session.plan session.config table) { ids := session.ids } = .ok set w ∧
        { session with ids := w.ids } = session' := by
  unfold analyze
  cases made : Table.ofExpressions session.expressions with
  | error e => simp
  | ok table =>
    simp only [Except.ok.injEq, existsAndEq, true_and]
    cases built : buildExports (Session.plan session.config table) { ids := session.ids } with
    | ok | error => simp

/-- A successful analysis has checked its table, and exports the instances of its definitions. -/
theorem analyze_sound (run : analyze session = .ok set session') :
    ∃ table, Table.ofExpressions session.expressions = .ok table ∧
      table.Clear session.config.maxListRows ∧
      List.Forall₂ (Session.plan session.config table).Exports table.exportNames set.exports := by
  obtain ⟨table, w, made, built, -⟩ := analyze_ok.mp run
  obtain ⟨markers, roots, u, checked, instances, rfl, -⟩ := buildExports_ok.mp built
  obtain ⟨clear, done⟩ := checkAll_sound Markers.fresh_empty checked
  have faithful : Workshop.Faithful { ids := session.ids, markers } (Session.plan session.config table) :=
    ⟨⟨rfl, done⟩, by simp⟩
  exact ⟨table, made, clear, instantiateEach_sound faithful instances⟩

def exportSet? (session : Session) : Option ExportSet :=
  match analyze session with
  | .ok set _ => some set
  | .error _ _ => none

theorem exportSet?_eq_some :
    session.exportSet? = some set ↔ ∃ session', analyze session = .ok set session' := by
  unfold exportSet?
  cases analyze session with
  | ok | error => simp

/-- An analysis succeeds if what it gives passes a test. -/
theorem analyze_of_any {test : ExportSet → Bool} (passed : session.exportSet?.any test = true) :
    ∃ set session', analyze session = .ok set session' ∧ test set = true := by
  cases found : session.exportSet? with
  | none => simp [found] at passed
  | some set =>
    obtain ⟨session', run⟩ := exportSet?_eq_some.mp found
    exact ⟨set, session', run, by simpa [found] using passed⟩

theorem analyze_of_names {names : List String}
    (analyzed : session.exportSet?.map ExportSet.names = some names) :
    ∃ set session', analyze session = .ok set session' ∧ set.names = names := by
  obtain ⟨set, found, named⟩ := Option.map_eq_some_iff.mp analyzed
  obtain ⟨session', run⟩ := exportSet?_eq_some.mp found
  exact ⟨set, session', run, named⟩

/-! ### Sessions -/

/-- The session that a step leaves behind, whether it succeeds or not. -/
def after {α : Type} (session : Session) (step : Compiling α) : Session :=
  match step session with
  | .ok _ later | .error _ later => later

/-- The session that has read one source. -/
def ofSource (source : String) : Session :=
  ({} : Session).after (Session.parse source)

theorem after_parse_config (session : Session) (source : String) :
    (session.after (Session.parse source)).config = session.config := by
  unfold Session.after Session.parse
  cases parseSource source session.ids <;> rfl

/-- Sessions that come about under some configuration, by any steps in any order. -/
inductive Reachable : Session → Prop
  | start (config : Config) : Reachable { config }
  | parse {session : Session} (source : String) :
      Reachable session → Reachable (session.after (Session.parse source))
  | parseFile {session : Session} (tree : FileTree) (name : String) :
      Reachable session → Reachable (session.after (Session.parseFile tree name))
  | analyze {session : Session} : Reachable session → Reachable (session.after Session.analyze)

theorem Reachable.ofSource (source : String) : (Session.ofSource source).Reachable :=
  .parse source (.start {})

def Tidy (session : Session) : Prop :=
  ∀ e ∈ session.expressions, e.parent = none ∧ e.Throughout Expression.IsTidy

private theorem Tidy.parse (tidy : session.Tidy) (source : String) :
    (session.after (Session.parse source)).Tidy := by
  unfold Session.after Session.parse
  cases read : parseSource source session.ids with
  | error e ids => exact tidy
  | ok added ids =>
    intro e member
    rcases List.mem_append.mp member with earlier | new
    · exact tidy e earlier
    · exact parseSource_tidy read e new

/-- Reading a file either fails to find it or adds its text. -/
theorem after_parseFile (session : Session) (tree : FileTree) (name : String) :
    session.after (Session.parseFile tree name) = session ∨
      ∃ source, session.after (Session.parseFile tree name) =
        session.after (Session.parse source) := by
  have step : Session.parseFile tree name session =
      (ofExcept (readSource tree session.config.includeDirs name) >>= fun file =>
        Session.parse file.2 : Compiling Nat) session := rfl
  unfold Session.after
  rw [step]
  cases readSource tree session.config.includeDirs name with
  | error e => exact .inl rfl
  | ok file => exact .inr ⟨file.2, rfl⟩

theorem after_analyze_expressions (session : Session) :
    (session.after Session.analyze).expressions = session.expressions := by
  unfold Session.after Session.analyze
  cases Table.ofExpressions session.expressions with
  | error e => rfl
  | ok table =>
    dsimp only
    generalize buildExports (Session.plan session.config table) { ids := session.ids } = result
    cases result with
    | ok | error => rfl

/-- All that a session has read is tidy. -/
theorem Reachable.tidy (reachable : session.Reachable) : session.Tidy := by
  induction reachable with
  | start config => exact fun e member => absurd member (by simp)
  | parse source _ ih => exact ih.parse source
  | @parseFile session tree name _ ih =>
    rcases session.after_parseFile tree name with same | ⟨source, same⟩
    · rwa [same]
    · rw [same]
      exact ih.parse source
  | @analyze session _ ih =>
    intro e member
    rw [session.after_analyze_expressions] at member
    exact ih e member

/-- A table of expressions that were read is as it should be; it only has to clear. -/
theorem Reachable.checked (reachable : session.Reachable)
    (made : Table.ofExpressions session.expressions = .ok table)
    (clear : table.Clear session.config.maxListRows) :
    (Session.plan session.config table).Checked := by
  have holds := Table.ofExpressions_holds made
  refine ⟨?_, ?_, clear⟩
  · exact fun name definition found => (reachable.tidy _ (holds.find?_named found).1).2
  · exact fun name definition found => (holds.find?_named found).2

/-- What is read and passes its check makes a plan for instances. -/
theorem Reachable.analyze_sound {session' : Session} {set : ExportSet}
    (reachable : session.Reachable) (run : Session.analyze session = .ok set session') :
    ∃ table, Table.ofExpressions session.expressions = .ok table ∧
      (Session.plan session.config table).Checked ∧
      List.Forall₂ (Session.plan session.config table).Exports table.exportNames set.exports := by
  obtain ⟨table, made, clear, exported⟩ := Session.analyze_sound run
  exact ⟨table, made, reachable.checked made clear, exported⟩

end Session

end Pagewright
