import Pagewright.Proofs.InstanceRoot
import Pagewright.Proofs.Settled
import Pagewright.Proofs.Standalone

/-!
# How an instance comes about

An instance is a root that a walk has admitted, with rows put into its lists.
`Walked.fill_induction` follows both at once: a property holds of what filling
makes of a walked expression if it holds of lists without rows, of lists with
rows, and of any other expression when it holds of everything in its blocks.
-/

namespace Pagewright

open Outcome

/-! ### Filled arguments -/

/-- The same value, or a block of expressions that are related in order. -/
def Argument.Becomes (related : Expression → Expression → Prop) (value result : Argument) : Prop :=
  value.block? = none ∧ value = result ∨
    ∃ children results, value = .block children ∧ result = .block results ∧
      List.Forall₂ related children results

def ArgumentsBecome (related : Expression → Expression → Prop) (before after : Arguments) : Prop :=
  List.Forall₂ (fun entry result => entry.1 = result.1 ∧ entry.2.Becomes related result.2)
    before after

variable {related : Expression → Expression → Prop} {before after : Arguments} {name stem : String}
  {e inst child : Expression} {context : Context} {w w' : Workshop} {kind : Kind}
  {build : String → Building Expression} {index : Nat} {owner : ExpressionId}

theorem ArgumentsBecome.of_mem (become : ArgumentsBecome related before after) {result : Argument}
    (member : (name, result) ∈ after) :
    ∃ value, (name, value) ∈ before ∧ value.Becomes related result := by
  induction become with
  | nil => simp at member
  | @cons entry other _ _ both _ ih =>
    rcases List.mem_cons.mp member with same | inRest
    · obtain ⟨name', value⟩ := entry
      obtain ⟨rfl, becomes⟩ := both
      subst same
      exact ⟨value, by simp, becomes⟩
    · obtain ⟨value, there, becomes⟩ := ih inRest
      exact ⟨value, List.mem_cons_of_mem _ there, becomes⟩

/-- What stands in a filled block has come from something in the block before. -/
theorem ArgumentsBecome.held {e : Expression} (become : ArgumentsBecome related e.arguments after)
    {name : String} {child : Expression} (held : ({ e with arguments := after } : Expression).Holds name child) :
    ∃ origin, e.Holds name origin ∧ related origin child := by
  obtain ⟨results, member, inside⟩ := held
  obtain ⟨value, there, ⟨leaf, rfl⟩ | ⟨children, _, rfl, ⟨⟩, all⟩⟩ := become.of_mem member
  · simp [Argument.block?] at leaf
  · obtain ⟨origin, among, holds⟩ := exists_of_forall₂_right all inside
    exact ⟨origin, ⟨children, there, among⟩, holds⟩

/-- What stands in a block before has become something in the filled block. -/
theorem ArgumentsBecome.holding (become : ArgumentsBecome related e.arguments after)
    (held : e.Holds name child) :
    ∃ result, ({ e with arguments := after } : Expression).Holds name result ∧
      related child result := by
  obtain ⟨children, member, inside⟩ := held
  obtain ⟨⟨_, value⟩, there, rfl, ⟨leaf, -⟩ | ⟨_, results, ⟨⟩, rfl, all⟩⟩ :=
    exists_of_forall₂_right (List.Forall₂.flip become) member
  · simp [Argument.block?] at leaf
  · obtain ⟨result, among, holds⟩ := exists_of_forall₂_right (List.Forall₂.flip all) inside
    exact ⟨result, ⟨results, there, among⟩, holds⟩

theorem ArgumentsBecome.lookup_text (become : ArgumentsBecome related before after)
    (name : String) :
    (after.lookup name).bind Argument.text? = (before.lookup name).bind Argument.text? := by
  rcases Entries.lookup_of_forall₂ become (fun _ _ => And.left) name with
    ⟨missing, missing'⟩ | ⟨_, _, found, found', -, ⟨-, rfl⟩ | ⟨_, _, rfl, rfl, -⟩⟩
  · rw [missing, missing']
  · rw [found, found']
  · simp [found, found', Argument.text?]

theorem ArgumentsBecome.keepsBlockless (become : ArgumentsBecome related before after) :
    KeepsBlockless before after := by
  refine .of_forall₂ (List.Forall₂.imp ?_ become)
  rintro entry result ⟨names, ⟨-, same⟩ | ⟨_, _, written, made, -⟩⟩
  · exact ⟨names, fun value _ => by rw [same]⟩
  · refine ⟨names, fun value blockless => ?_⟩
    rw [written, made]
    constructor <;> (rintro rfl; cases blockless)

theorem ArgumentsBecome.get?_none (become : ArgumentsBecome related e.arguments after)
    (missing : e.get? name = none) :
    ({ e with arguments := after } : Expression).get? name = none :=
  become.keepsBlockless.absent missing

/-- What filling makes of everything in the blocks, it makes of the arguments. -/
theorem fillArguments_related (run : fillArguments build before w = .ok after w')
    (each : ∀ name children, (name, .block children) ∈ before → ∀ child ∈ children,
      ∀ u result u', fillLists build child u = .ok result u' → related child result) :
    ArgumentsBecome related before after := by
  refine ((fillArguments_ok.mp run).forall₂ (fun _ => True) trivial ?_).2
  rintro ⟨name, value⟩ member t ⟨name', result⟩ t' - step
  obtain ⟨filled, _, ran, last⟩ := bind_ok.mp step
  obtain ⟨⟨⟩, rfl⟩ := pure_ok.mp last
  refine ⟨trivial, rfl, ?_⟩
  rcases fillArgument_ok.mp ran with ⟨leaf, rfl, -⟩ | ⟨children, results, rfl, rfl, threads⟩
  · exact .inl ⟨leaf, rfl⟩
  · refine .inr ⟨children, results, rfl, rfl, (threads.forall₂ (fun _ => True) trivial ?_).2⟩
    exact fun child inside u result u' _ step =>
      ⟨trivial, each name children member child inside u result u' step⟩

/-- Filled arguments hold what filling has made of what they held. -/
theorem fillArguments_become (run : fillArguments build before w = .ok after w') :
    ArgumentsBecome (fun child result => ∃ u u', fillLists build child u = .ok result u')
      before after :=
  fillArguments_related run fun _ _ _ _ _ u _ u' step => ⟨u, u', step⟩

/-! ### Rows -/

/-- The row of some index in the list `owner`, with its content. -/
def rowWith (id owner : ExpressionId) (index : Nat) (content : Expression) : Expression :=
  { id
    parent := some owner
    kind := "div"
    arguments := [("body", .block [content]), ("id", .text (toString index))] }

theorem rowWith_holds {id : ExpressionId} {content : Expression} :
    (rowWith id owner index content).Holds name child ↔ name = "body" ∧ child = content := by
  simp only [Expression.Holds, rowWith, List.mem_cons, Prod.mk.injEq, Argument.block.injEq,
    reduceCtorEq, and_false, List.not_mem_nil, or_false]
  constructor
  · rintro ⟨_, ⟨rfl, rfl⟩, inside⟩
    exact ⟨rfl, List.mem_singleton.mp inside⟩
  · rintro ⟨rfl, rfl⟩
    exact ⟨_, ⟨rfl, rfl⟩, List.mem_singleton.mpr rfl⟩

/-- Rows hold copies of the item, without the name it defines. -/
theorem mem_makeRows {item row : Expression} {count : Nat} {supply : Supply}
    (member : row ∈ (makeRows item owner count index supply).1) :
    ∃ id index later, row = rowWith id owner index ((item.copy (some id) later).1.unset "defines") := by
  induction count generalizing index supply with
  | zero => simp [makeRows] at member
  | succ count ih =>
    simp only [makeRows, List.mem_cons] at member
    rcases member with rfl | later
    · exact ⟨_, index, _, rfl⟩
    · exact ih later

/-! ### Walked expressions -/

section

variable {σ : Type} {rules : Rules σ}

/-- The item type of a list that has been checked is a definition without parameters, no page; it
was requested. -/
theorem checkItemType_ok {type : String} {s s' : σ}
    (run : checkItemType rules type s = .ok () s') :
    ∃ definition kind, rules.table.find? type = some definition ∧
      definition.expression.isGeneric = false ∧ rules.table.resolveKind type = .ok kind ∧
      kind ≠ .page ∧ ∃ t, rules.request type s = .ok () t := by
  unfold checkItemType at run
  cases found : rules.table.find? type with
  | none => simp [found, throw_ok] at run
  | some definition =>
    simp only [found, bind_ok] at run
    obtain ⟨_, t, asked, run⟩ := run
    cases generic : definition.expression.isGeneric with
    | true =>
      simp only [generic, if_true, bind_ok] at run
      obtain ⟨_, _, thrown, -⟩ := run
      exact (throw_ok.mp thrown).elim
    | false =>
      simp only [generic, Bool.false_eq_true, if_false, bind_ok, ofExcept_ok] at run
      obtain ⟨kind, _, ⟨resolved, rfl⟩, run⟩ := run
      refine ⟨definition, kind, rfl, generic, resolved, fun page => ?_, t, asked⟩
      simp only [page, if_true, throw_ok] at run

theorem Admitted.kind_of (admitted : Admitted rules context e kind stem) (other : Kind)
    (written : e.kind = other.name) : kind = other :=
  Kind.eq_of_ofName? admitted.named written

theorem Walked.option (walked : Walked rules context e) (option : e.kind = "option") :
    context.inSelect = true := by
  cases walked with
  | intro admitted _ _ =>
    have place := admitted.place
    obtain rfl := admitted.kind_of .option option
    simpa [checkPlace] using place

/-- What has been walked in a block defines nothing and is no page. -/
theorem Walked.nested (walked : Walked rules context e) (linked : e.parent.isSome = true) :
    e.get? "defines" = none ∧ e.kind ≠ "page" := by
  cases walked with
  | intro admitted _ _ =>
    constructor
    · have nesting := admitted.nesting
      simpa [checkNesting, linked, Expression.has] using nesting
    · intro page
      have place := admitted.place
      obtain rfl := admitted.kind_of .page page
      simp [checkPlace, linked] at place

/-- A plain expression that a walk has admitted and whose arguments are all final. -/
structure Settled (rules : Rules σ) (context : Context) (e : Expression) (kind : Kind)
    (stem : String) : Prop extends Admitted rules context e kind stem where
  plain : e.IsPlain
  final : ∀ name value, (name, value) ∈ e.arguments → value.IsFinal (kind.content? = some name)

def Expression.TextName (e : Expression) : Prop :=
  ∀ value, e.get? "defines" = some value → ∃ name, value = .text name

theorem Walked.textName (walked : Walked rules context e) (linked : e.parent.isSome = true) :
    e.TextName := by
  intro value named
  rw [(walked.nested linked).1] at named
  cases named

theorem Admitted.settled (admitted : Admitted rules context e kind stem) (plain : e.IsPlain)
    (textName : e.TextName) : Settled rules context e kind stem := by
  refine ⟨admitted, plain, fun name value member => ?_⟩
  by_cases defines : name = "defines"
  · subst defines
    obtain ⟨text, rfl⟩ := textName value (plain.tidy.ordered.lookup_of_mem member)
    trivial
  · exact admitted.final plain.tidy.ordered member defines

/-- What a settled expression holds stands in the block that is walked. -/
theorem Settled.held {context : Context} {e : Expression} {kind : Kind} {stem : String}
    (settled : Settled rules context e kind stem) {name : String} {child : Expression}
    (held : e.Holds name child) :
    kind.content? = some name ∧ ∃ children, e.get? name = some (.block children) ∧
      child ∈ children := by
  obtain ⟨children, member, inside⟩ := held
  exact ⟨settled.final name _ member, children, settled.plain.tidy.ordered.lookup_of_mem member,
    inside⟩

theorem Settled.mem_contents {context : Context} {e : Expression} {stem : String}
    (settled : Settled rules context e kind stem) {name : String} {child : Expression}
    (held : e.Holds name child) : child ∈ e.contents kind := by
  obtain ⟨there, children, found, member⟩ := settled.held held
  simpa [Expression.contents, there, Expression.block?, found, Argument.block?] using member

/-- No block stands in a list before it is filled. -/
theorem Settled.holds_nothing (settled : Settled rules context e .list stem) :
    ¬e.Holds name child := by
  rintro ⟨children, member, -⟩
  cases settled.final name _ member

/-- A list that has got rows holds these. -/
theorem Settled.held_row (settled : Settled rules context e .list stem) {rows : List Expression}
    (held : (e.set "body" (.block rows)).Holds name child) : name = "body" ∧ child ∈ rows := by
  obtain ⟨children, member, inside⟩ := held
  rcases Entries.mem_insert member with same | old
  · cases same
    exact ⟨rfl, inside⟩
  · exact (settled.holds_nothing ⟨children, old, inside⟩).elim

/-- The item type of a list is exported, and is no page. -/
theorem Settled.item_exported (settled : Settled rules context e .list stem) :
    ∃ type kind, e.text? "type" = some type ∧ type ∈ rules.table.exportNames ∧
      rules.table.resolveKind type = .ok kind ∧ kind ≠ .page := by
  obtain ⟨_, _, s, s', particular⟩ := settled.particular
  obtain ⟨-, -, ⟨type, given, checked⟩, -⟩ := checkArguments_list_ok.mp particular
  obtain ⟨definition, kind, found, generic, resolved, noPage, -⟩ := checkItemType_ok checked
  refine ⟨type, kind, given, ?_, resolved, noPage⟩
  obtain ⟨member, named⟩ := Table.mem_of_find? found
  refine List.mem_map.mpr ⟨definition, List.mem_filter.mpr ⟨member, ?_⟩, named⟩
  simpa using generic

/-- Something in a block of a walked expression, and what filling has made of it. -/
structure FilledBelow (rules : Rules σ) (motive : Context → Expression → Expression → Prop)
    (context : Context) (kind : Kind) (child result : Expression) : Prop where
  linked : child.parent.isSome = true
  walked : Walked rules context child
  options : kind = .select → child.kind = "option"
  filled : motive context child result

section

variable {items : String → Option Expression}

theorem Walked.fill_induction {motive : Context → Expression → Expression → Prop}
    (empty : ∀ context e stem, Settled rules context e .list stem →
      e.number? "initial" = none → motive context e e)
    (rows : ∀ context e stem count type item supply, Settled rules context e .list stem →
      e.number? "initial" = some count → e.text? "type" = some type → items type = some item →
      motive context e (e.set "body" (.block (makeRows item e.id count 0 supply).1)))
    (other : ∀ context e kind stem after, Settled rules context e kind stem → kind ≠ .list →
      ArgumentsBecome (FilledBelow rules motive (context.below kind stem) kind) e.arguments after →
      motive context e { e with arguments := after }) {result : Expression}
    (walked : Walked rules context e) (plain : e.Throughout Expression.IsPlain)
    (textName : e.TextName) (run : fillLists (supplied items) e w = .ok result w') :
    motive context e result := by
  induction e using Expression.inductionOn generalizing context result w w' with
  | step owner ih =>
    cases walked with
    | @intro _ _ kind stem admitted options content =>
      have settled := admitted.settled plain.here textName
      rcases fillLists_ok.mp run with ⟨isList, filled⟩ | ⟨noList, after, filled, rfl⟩
      · obtain rfl := admitted.kind_of .list isList
        rcases fillList_ok.mp filled with ⟨none, rfl, -⟩ | ⟨count, type, item, u, initial, typed,
          built, rfl, -⟩
        · exact empty context owner stem settled none
        · exact rows context owner stem count type item u.ids settled initial typed
            (supplied_ok.mp built).1
      · have another : kind ≠ .list := by
          rintro rfl
          exact noList (Kind.name_of_ofName? admitted.named).symm
        refine other context owner kind stem after settled another ?_
        refine fillArguments_related filled ?_
        intro name children member child inside u result u' step
        -- A block stands only where the walk has gone.
        have there : kind.content? = some name := settled.final name _ member
        have found := plain.here.tidy.ordered.lookup_of_mem member
        have held : owner.Holds name child := ⟨children, member, inside⟩
        have linked := plain.here.tidy.linked name child held
        have walked := content name children there found child inside
        refine ⟨linked, walked, ?_, ?_⟩
        · rintro rfl
          cases there
          exact options children rfl found child inside
        · exact ih name child held walked (plain.child held) (walked.textName linked) step

end

end

/-! ### Roots -/

variable {plan : Plan}

/-- A plan for definitions that were read from sources and have passed their check. -/
structure Plan.Checked (plan : Plan) : Prop where
  tidy : plan.table.Tidy
  named : plan.table.Named
  clear : plan.table.Clear plan.rowLimit

/-- The instance of a definition before its lists are filled. -/
structure Plan.IsRoot (plan : Plan) (name : String) (root : Expression) : Prop where
  plain : root.Throughout Expression.IsPlain
  unlinked : root.parent = none
  defines : root.get? "defines" = none ∨ root.get? "defines" = some (.text name)
  kind : ∀ kind, plan.table.resolveKind name = .ok kind → Kind.ofName? root.kind = some kind
  walked : Walked (recording plan.table plan.rowLimit)
    { stem := rootStem root name, concrete := true } root

theorem Plan.IsRoot.textName {root : Expression} (isRoot : plan.IsRoot name root) :
    root.TextName := by
  intro value found
  rcases isRoot.defines with missing | named
  · rw [missing] at found
    cases found
  · rw [named] at found
    exact ⟨name, (Option.some.inj found).symm⟩

theorem Plan.Checked.isRoot (checked : plan.Checked) {root : Expression} {rest : Arguments}
    (referred : referTo plan name [] w = .ok (root, rest) w') (passes : plan.Passes root name) :
    plan.IsRoot name root := by
  obtain ⟨unlinked, defines⟩ := referTo_root checked.tidy checked.named referred
  have plain := (referWithin_givesPlain checked.tidy _ name [] w root rest w'
    ⟨List.Pairwise.nil, by simp⟩ referred).1
  refine ⟨plain, unlinked, defines, fun kind => referWithin_kind checked.clear referred, ?_⟩
  obtain ⟨concrete, asked, demanded, -⟩ := passes
  obtain ⟨result, walked⟩ := demands_eq_some.mp demanded
  simp only [walkDefinition, concrete, if_true] at walked
  obtain ⟨ids, t, run, -⟩ := bind_ok.mp walked
  exact walk_walked rfl plain (.inl concrete) run

/-- An instance is a root whose lists were filled with rows of smaller instances. -/
theorem standalone_root (checked : plan.Checked) {depth : Nat}
    (found : standalone plan (depth + 1) name = some inst) :
    ∃ root w w', plan.IsRoot name root ∧ plan.Passes root name ∧
      fillLists (supplied (standalone plan depth)) root w = .ok inst w' := by
  obtain ⟨w, run⟩ := standalone_succ.mp found
  obtain ⟨root, rest, ids, scope, referred, passes, filled, -⟩ :=
    (assemble_ok plan.workshop_atRest.checked).mp run
  exact ⟨root, _, w, checked.isRoot referred passes, passes, filled⟩

/-- An instance is what a reference without arguments gives, with its lists filled; it has passed its
check, and its ids are unique. -/
theorem Plan.HasInstance.assembled (instances : plan.HasInstance name inst) :
    ∃ build root rest filled ids w scope,
      referTo plan name [] plan.workshop = .ok (root, rest) { plan.workshop with ids } ∧
        plan.Passes root name ∧ fillLists build root { plan.workshop with ids } = .ok filled w ∧
        uniqueIds filled (rootStem filled name) = .ok scope ∧ SameOutline inst filled := by
  obtain ⟨depth, filled, found, same⟩ := instances
  cases depth with
  | zero => cases found
  | succ depth =>
    obtain ⟨w, run⟩ := standalone_succ.mp found
    obtain ⟨root, rest, ids, scope, referred, passes, run, unique⟩ :=
      (assemble_ok plan.workshop_atRest.checked).mp run
    exact ⟨_, root, rest, filled, ids, w, scope, referred, passes, run, unique, same⟩

/-- An instance is a checked root with its lists filled. -/
theorem Plan.HasInstance.root (checked : plan.Checked) (instances : plan.HasInstance name inst) :
    ∃ build root filled w w', plan.IsRoot name root ∧ plan.Passes root name ∧
      fillLists build root w = .ok filled w' ∧ SameOutline inst filled := by
  obtain ⟨build, root, rest, filled, ids, w, scope, referred, passes, run, -, same⟩ :=
    instances.assembled
  exact ⟨build, root, filled, _, w, checked.isRoot referred passes, passes, run, same⟩

/-- Filling leaves the name that is defined as it is. -/
theorem fillLists_defines {root : Expression}
    (defines : root.get? "defines" = none ∨ root.get? "defines" = some (.text name))
    (run : fillLists build root w = .ok inst w') : inst.get? "defines" = root.get? "defines" := by
  rcases fillLists_ok.mp run with ⟨-, filled⟩ | ⟨-, after, filled, rfl⟩
  · rcases fillList_ok.mp filled with ⟨-, rfl, -⟩ | ⟨_, _, _, _, -, -, -, rfl, -⟩
    · rfl
    · exact Entries.lookup_insert_of_ne _ _ (by decide)
  · have keeps := (fillArguments_become filled).keepsBlockless.keepsTexts
    rcases defines with missing | named
    · exact (keeps.absent missing).trans missing.symm
    · exact (keeps.texts "defines" name named).trans named.symm

/-- An instance defines the name of its definition or nothing. -/
theorem Plan.HasInstance.get?_defines (checked : plan.Checked)
    (instances : plan.HasInstance name inst) :
    inst.get? "defines" = none ∨ inst.get? "defines" = some (.text name) := by
  obtain ⟨build, root, filled, w, w', isRoot, -, run, same⟩ := instances.root checked
  rcases fillLists_defines isRoot.defines run ▸ isRoot.defines with missing | named
  · exact .inl ((SameOutline.content (Eq.symm same)).get?_none missing)
  · refine .inr (Expression.text?_eq_some.mp ?_)
    rw [Expression.text?_of_outline same, Expression.text?_eq_some.mpr named]

/-- An instance defines at most its own name. -/
theorem Plan.HasInstance.defines (checked : plan.Checked) (instances : plan.HasInstance name inst) :
    inst.defines? = none ∨ inst.defines? = some name := by
  rcases instances.get?_defines checked with missing | named
  · exact .inl (by simp [Expression.defines?, Expression.text?, missing])
  · exact .inr (Expression.text?_eq_some.mpr named)

end Pagewright
