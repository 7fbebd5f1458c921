import Pagewright.Proofs.Exports
import Pagewright.Proofs.OrdinaryErrors

/-!
# Internal errors

Building raises an internal error if an instance still takes something from
elsewhere, if the walk over it kept no ids, or if a list that starts with rows
has no item type. None of this is reached from expressions that were read: what
a reference gives is concrete (`referTo_concrete`), and a walk over a concrete
instance keeps its ids and has found the item type of every list that is filled
afterwards.
-/

namespace Pagewright

open Outcome

variable {root : Expression} {name : String}

/-! ### Substitution -/

section

variable {bindings : Bindings}

mutual

private theorem substitute_ordinary : ∀ e : Expression, Ordinary (substitute bindings e)
  | ⟨id, _, _, arguments⟩ =>
    (substituteArguments_ordinary id arguments).andThen fun _ => .pure _

private theorem substituteArguments_ordinary (owner : ExpressionId) :
    ∀ arguments : Arguments, Ordinary (substituteArguments bindings owner arguments)
  | [] => .pure _
  | (_, value) :: rest =>
    (substituteArgument_ordinary owner value).andThen fun _ =>
      (substituteArguments_ordinary owner rest).andThen fun _ => .pure _

private theorem substituteArgument_ordinary (owner : ExpressionId) :
    ∀ value : Argument, Ordinary (substituteArgument bindings owner value)
  | .atom name => by
    unfold substituteArgument
    split
    · exact .modifyGet _
    · exact .pure _
  | .list items => (substituteItems_ordinary owner items).andThen fun _ => .pure _
  | .block children => (substituteBlock_ordinary owner children).andThen fun _ => .pure _
  | .text _ | .number _ => .pure _

private theorem substituteItems_ordinary (owner : ExpressionId) :
    ∀ items : List Argument, Ordinary (substituteItems bindings owner items)
  | [] => .pure _
  | item :: rest =>
    (substituteArgument_ordinary owner item).andThen fun _ =>
      (substituteItems_ordinary owner rest).andThen fun _ => .pure _

private theorem substituteBlock_ordinary (owner : ExpressionId) :
    ∀ children : List Expression, Ordinary (substituteBlock bindings owner children)
  | [] => .pure _
  | child :: rest => by
    have later : ∀ f : List Expression → List Expression,
        Ordinary (substituteBlock bindings owner rest >>= fun rest => pure (f rest)) :=
      fun f => (substituteBlock_ordinary owner rest).andThen fun _ => .pure _
    unfold substituteBlock
    split
    · exact (substitute_ordinary child).andThen fun child => later (child :: ·)
    · exact (substitute_ordinary child).andThen fun child => later _
    · refine .guard rfl fun _ => ?_
      exact (Ordinary.modifyGet _).andThen fun spliced => later (spliced ++ ·)
    · exact .throw rfl

end

private theorem bindFormals_ordinary (target : String) (formals : List String) (site : Arguments) :
    OrdinaryCheck (bindFormals target formals site) := by
  induction formals generalizing site with
  | nil => exact .ok _
  | cons formal rest ih =>
    unfold bindFormals
    split
    · exact .error rfl
    · exact (ih _).bind fun _ => .ok _

end

/-! ### References -/

private theorem within_ordinary {σ α : Type} {enter : Workshop → σ}
    {leave : Workshop → σ → Workshop} {action : EStateM Error σ α} (first : Ordinary action) :
    Ordinary (Building.within enter leave action) := by
  refine first.of_part fun w error w' run => ⟨enter w, ?_⟩
  unfold Building.within at run
  split at run <;> simp_all

section

variable {refer : Refer}

private theorem join_ordinary (refers : ∀ target site, Ordinary (refer target site))
    (e : Expression) : Ordinary (join refer e) := by
  unfold join
  split
  · exact (refers _ _).andThen fun _ => .pure _
  · exact .throw rfl
  · exact .ite (.pure _) ((refers _ _).andThen fun _ => .pure _)

mutual

private theorem resolve_ordinary (refers : ∀ target site, Ordinary (refer target site)) :
    ∀ e : Expression, Ordinary (resolve refer e)
  | ⟨_, _, _, arguments⟩ =>
    (resolveArguments_ordinary refers arguments).andThen fun _ => join_ordinary refers _

private theorem resolveArguments_ordinary (refers : ∀ target site, Ordinary (refer target site)) :
    ∀ arguments : Arguments, Ordinary (resolveArguments refer arguments)
  | [] => .pure _
  | (_, value) :: rest =>
    (resolveArgument_ordinary refers value).andThen fun _ =>
      (resolveArguments_ordinary refers rest).andThen fun _ => .pure _

private theorem resolveArgument_ordinary (refers : ∀ target site, Ordinary (refer target site)) :
    ∀ value : Argument, Ordinary (resolveArgument refer value)
  | .block children => (resolveBlock_ordinary refers children).andThen fun _ => .pure _
  | .atom _ | .text _ | .number _ | .list _ => .pure _

private theorem resolveBlock_ordinary (refers : ∀ target site, Ordinary (refer target site)) :
    ∀ children : List Expression, Ordinary (resolveBlock refer children)
  | [] => .pure _
  | child :: rest =>
    (resolve_ordinary refers child).andThen fun _ =>
      (resolveBlock_ordinary refers rest).andThen fun _ => .pure _

end

variable {plan : Plan}

private theorem copyDefinition_ordinary (refers : ∀ target site, Ordinary (refer target site))
    (target : String) (site : Arguments) : Ordinary (copyDefinition plan refer target site) := by
  unfold copyDefinition
  split
  · exact .throw rfl
  · refine (within_ordinary (.modifyGet _)).andThen fun copy => .ite ?_ ?_
    · refine (Ordinary.ofExcept (bindFormals_ordinary _ _ _)).andThen fun (bindings, site) => ?_
      refine (within_ordinary (substitute_ordinary _)).andThen fun copy => ?_
      exact (resolve_ordinary refers copy).andThen fun _ => .pure _
    · exact (resolve_ordinary refers copy).andThen fun _ => .pure _

private theorem referWithin_ordinary (budget : Nat) (target : String) (site : Arguments) :
    Ordinary (referWithin plan budget target site) := by
  induction budget generalizing target site with
  | zero => exact .throw rfl
  | succ budget ih =>
    refine Ordinary.get.andThen fun w => .guard rfl fun _ => ?_
    exact within_ordinary (copyDefinition_ordinary ih target site)

/-- What a reference without arguments gives takes nothing from elsewhere. -/
theorem referTo_concrete (tidy : plan.table.Tidy) {rest : Arguments} {w w' : Workshop}
    (run : referTo plan name [] w = .ok (root, rest) w') : root.isConcrete = true := by
  have plain := (referWithin_givesPlain tidy _ name [] w root rest w'
    ⟨List.Pairwise.nil, by simp⟩ run).1.here
  have closed := (referWithin_closed tidy List.Pairwise.nil run).2
  exact Expression.isConcrete_iff.mpr ⟨closed, plain.own, plain.builtIn⟩

end

/-! ### Rows -/

section

variable {σ : Type} {rules : Rules σ} {build : String → Building Expression}

/-- Every list of a walked expression knows its item type when it is filled. -/
theorem fillLists_ordinary (builds : ∀ type, Ordinary (build type)) {context : Context}
    {e : Expression} (walked : Walked rules context e) (plain : e.Throughout Expression.IsPlain)
    (textName : e.TextName) : Ordinary (fillLists build e) := by
  induction e using Expression.inductionOn generalizing context with
  | step owner ih =>
    cases walked with
    | @intro _ _ kind stem admitted options content =>
      have settled := admitted.settled plain.here textName
      by_cases list : owner.kind = "list"
      · obtain rfl := admitted.kind_of .list list
        obtain ⟨type, -, typed, -⟩ := settled.item_exported
        rw [fillLists_list list, fillList, typed]
        split
        · exact .pure _
        · refine (builds type).andThen fun item => ?_
          exact (within_ordinary (.modifyGet _)).andThen fun rows => .pure _
      · rw [fillLists_other list, fillArguments_eq]
        refine (Ordinary.mapM ?_).andThen fun _ => .pure _
        rintro ⟨name, value⟩ member
        refine Ordinary.andThen ?_ fun _ => .pure _
        cases value with
        | block children =>
          rw [fillArgument, fillBlock_eq]
          refine (Ordinary.mapM fun child inside => ?_).andThen fun _ => .pure _
          -- a block stands only where the walk has gone
          have there : kind.content? = some name := settled.final name _ member
          have found := plain.here.tidy.ordered.lookup_of_mem member
          have held : owner.Holds name child := ⟨children, member, inside⟩
          have walked := content name children there found child inside
          exact ih name child held walked (plain.child held)
            (walked.textName (plain.here.tidy.linked name child held))
        | atom | text | number | list => exact .pure _

end

/-! ### Instances -/

private theorem declareId_ordinary (e : Expression) (stem : String) (ids : IdScope) :
    OrdinaryCheck (declareId e stem ids) := by
  unfold declareId
  split
  · exact .ok _
  · exact .ite ((ids.declare_ordinary _).bind fun _ => .ok _) (.ok _)

mutual

private theorem collectIds_ordinary : ∀ (e : Expression) (stem : String) (ids : IdScope),
    OrdinaryCheck (collectIds e stem ids)
  | ⟨_, _, _, arguments⟩, stem, ids =>
    (declareId_ordinary _ stem ids).bind fun (ids, stem) =>
      collectArguments_ordinary arguments stem ids

private theorem collectArguments_ordinary : ∀ (arguments : Arguments) (stem : String)
    (ids : IdScope), OrdinaryCheck (collectArguments arguments stem ids)
  | [], _, ids => .ok ids
  | (_, value) :: rest, stem, ids =>
    (collectArgument_ordinary value stem ids).bind fun ids =>
      collectArguments_ordinary rest stem ids

private theorem collectArgument_ordinary : ∀ (value : Argument) (stem : String) (ids : IdScope),
    OrdinaryCheck (collectArgument value stem ids)
  | .block children, stem, ids => collectBlock_ordinary children stem ids
  | .atom _, _, ids | .text _, _, ids | .number _, _, ids | .list _, _, ids => .ok ids

private theorem collectBlock_ordinary :
    ∀ (children : List Expression) (stem : String) (ids : IdScope),
    OrdinaryCheck (collectBlock children stem ids)
  | [], _, ids => .ok ids
  | child :: rest, stem, ids =>
    (collectIds_ordinary child stem ids).bind fun ids => collectBlock_ordinary rest stem ids

end

/-- An instance that has passed its check was walked. -/
theorem checkInstance_walked {table : Table} {rowLimit : Nat} (concrete : root.isConcrete = true)
    (plain : root.Throughout Expression.IsPlain) {ids : IdScope} {s s' : Markers}
    (run : checkInstance table rowLimit root name s = .ok ids s') :
    Walked (tableRules table rowLimit) { stem := rootStem root name, concrete := true } root := by
  simp only [checkInstance, concrete, Bool.not_true, Bool.false_eq_true, if_false, bind_ok,
    adaptExcept_ok] at run
  obtain ⟨result, t, walked, -⟩ := run
  obtain ⟨_, _, -, walk⟩ := walkDefinition_tracked concrete walked
  exact walk_walked rfl plain (.inl concrete) walk

section

variable {plan : Plan} (tidy : plan.table.Tidy) (named : plan.table.Named)

include tidy named

private theorem assemble_ordinary {build : String → Building Expression}
    (builds : ∀ type, Ordinary (build type)) (name : String) :
    Ordinary (assemble plan build name) := by
  refine ((referWithin_ordinary _ name []).inDefinition name).bind
    fun w (root, rest) w' referred => ?_
  have run : referTo plan name [] w = .ok (root, rest) w' := adaptExcept_ok.mp referred
  have concrete := referTo_concrete tidy run
  have plain := (referWithin_givesPlain tidy _ name [] w root rest w'
    ⟨List.Pairwise.nil, by simp⟩ run).1
  have textName : root.TextName := by
    intro value found
    rcases (referTo_root tidy named run).2 with missing | written
    · exact absurd (missing ▸ found) (by simp)
    · exact ⟨name, Option.some.inj (found.symm.trans written)⟩
  refine (within_ordinary (checkInstance_ordinary concrete)).discard.bind
    fun u _ u' checked => ?_
  obtain ⟨ids, passed⟩ := discard_ok.mp checked
  obtain ⟨markers, passed, -⟩ := onMarkers_ok.mp passed
  have walked := checkInstance_walked concrete plain passed
  refine (fillLists_ordinary builds walked plain textName).andThen fun inst => ?_
  split
  next => exact .pure _
  next error repeated =>
    have ordinary := collectIds_ordinary inst (rootStem inst name) {} error repeated
    exact .throw (by rw [Error.isInternal_inDefinition, ordinary])

private theorem buildWithin_ordinary (budget : Nat) (name : String) :
    Ordinary (buildWithin plan budget name) := by
  induction budget generalizing name with
  | zero => exact .throw rfl
  | succ budget ih =>
    refine Ordinary.get.andThen fun w => ?_
    split
    · exact .pure _
    · refine Ordinary.get.andThen fun w => .guard rfl fun _ => ?_
      refine (within_ordinary (assemble_ordinary tidy named ih name)).andThen
        fun inst => ?_
      exact (Ordinary.modify _).andThen fun _ => .pure _

private theorem instantiate_ordinary (name : String) : Ordinary (instantiate plan name) := by
  unfold instantiate
  split
  · exact .throw rfl
  · refine .guard rfl fun _ => ?_
    refine (buildWithin_ordinary tidy named _ name).andThen fun inst => .ite ?_ (.pure _)
    exact (Ordinary.modify _).andThen fun _ => .pure _

private theorem buildExports_ordinary : Ordinary (Session.buildExports plan) := by
  refine (within_ordinary (.forM fun name _ => checkWithin_ordinary _ _ _ name)).andThen fun _ => ?_
  refine (Ordinary.mapM fun name _ => instantiate_ordinary tidy named name).andThen fun exports => ?_
  exact Ordinary.get.andThen fun w => .pure _

end

/-! ### Analysis -/

private theorem Catalog.define_ordinary (e : Expression) : Ordinary (Catalog.define e) := by
  unfold Catalog.define
  split
  · exact .throw rfl
  · unfold Catalog.insert
    refine .guard rfl fun _ => Ordinary.get.andThen fun _ => .guard rfl fun _ => ?_
    exact (Ordinary.modify _).andThen fun _ => .modify _
  · exact .throw rfl

private theorem Table.ofExpressions_ordinary (expressions : List Expression) :
    OrdinaryCheck (Table.ofExpressions expressions) := by
  have defining : ∀ (table : Table) (e : Expression), OrdinaryCheck (table.define e) := by
    intro table e
    unfold Table.define
    split
    · exact .ok _
    · next run => exact .error (Catalog.define_ordinary e _ _ _ run)
  have general : ∀ (rest : List Expression) (start : Table),
      OrdinaryCheck (rest.foldlM Table.define start) := by
    intro rest
    induction rest with
    | nil => exact fun start => .ok start
    | cons e rest ih =>
      intro start
      rw [List.foldlM_cons]
      exact (defining start e).bind ih
  exact general expressions {}

/-- **No analysis ends in an internal error.** Whatever was read and under whatever configuration, the
error at the root of a failed analysis is about the program. -/
theorem Session.analyze_never_internal {session session' : Session} {error : Error}
    (reachable : session.Reachable) (run : Session.analyze session = .error error session') :
    ∀ fault, error.root ≠ .internal fault := by
  apply Error.isInternal_eq_false.mp
  unfold Session.analyze at run
  cases made : Table.ofExpressions session.expressions with
  | error other =>
    rw [made] at run
    cases run
    exact Table.ofExpressions_ordinary session.expressions error made
  | ok table =>
    simp only [made] at run
    have holds := Table.ofExpressions_holds made
    have tidy : table.Tidy := fun name definition found =>
      (reachable.tidy _ (holds.find?_named found).1).2
    have named : table.Named := fun name definition found => (holds.find?_named found).2
    cases built : Session.buildExports (Session.plan session.config table)
        { ids := session.ids } with
    | ok set w =>
      rw [built] at run
      cases run
    | error other w =>
      rw [built] at run
      cases run
      have ordinary : Ordinary (Session.buildExports (Session.plan session.config table)) :=
        buildExports_ordinary tidy named
      exact ordinary _ _ _ built

def Session.fault? (session : Session) : Option Error :=
  match Session.analyze session with
  | .ok _ _ => none
  | .error error _ => some error

theorem Session.fault?_eq_some {session : Session} {error : Error} :
    session.fault? = some error ↔ ∃ session', Session.analyze session = .error error session' := by
  unfold Session.fault?
  cases Session.analyze session with
  | ok | error => simp

/-- A box with a class that is no text once its parameter is bound. -/
def numberedBox : Session :=
  ({} : Session).after
    (Session.parse "div parameters: [x], defines: \"box\", classes: [x]\nbox defines: \"b\", x: 3\n")

/-- Every definition passes its check, and the instance does not. -/
theorem Session.analyze_never_internal_numberedBox :
    ∃ session', numberedBox.Reachable ∧
      Session.analyze numberedBox =
        .error (.definition "b" (.shape "div" (.notOnlyTexts "classes" "number"))) session' ∧
      ∀ fault, (Error.definition "b" (.shape "div" (.notOnlyTexts "classes" "number"))).root ≠
        .internal fault := by
  have reachable : numberedBox.Reachable := .parse _ (.start {})
  have failed : numberedBox.fault? =
      some (.definition "b" (.shape "div" (.notOnlyTexts "classes" "number"))) := by
    decide +kernel
  obtain ⟨session', run⟩ := Session.fault?_eq_some.mp failed
  exact ⟨session', reachable, run, Session.analyze_never_internal reachable run⟩

end Pagewright
