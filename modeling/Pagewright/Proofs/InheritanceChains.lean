import Pagewright.Proofs.ListRows

/-!
# Chains of definitions

A definition without parameters may take something from another, that one from a
third, and so on to a concrete one. The export of the first is the whole chain in
one: it has the kind of the last definition, lists that are joined hold what all
of them write, in order, and any other argument is the one of the first definition
that has it. What is generated stands apart: the scripts of every page, and the
rows of a list.
-/

namespace Pagewright

open Outcome

variable {name key : String} {inst e : Expression} {value : Argument}
  {after before site rest : Arguments} {w w' : Workshop} {table : Table} {budget : Nat}
  {taken : String → Option Argument} {owner : ExpressionId} {items : List Argument}

/-! ### Values without blocks -/

/-- A value without blocks has no identifiers to differ in. -/
theorem Argument.Blockless.of_outline {other : Argument} (blockless : value.Blockless)
    (same : other.outline = value.outline) : other = value := by
  induction blockless generalizing other with
  | atom | text | number =>
    cases other <;> simp_all [Argument.outline, Argument.renumber]
  | @list items each ih =>
    clear each
    cases other with
    | list others =>
      simp only [Argument.outline, Argument.renumber, Argument.list.injEq, renumberItems_eq,
        map_eq_map_iff_forall₂] at same
      have equal : others = items := by
        induction same with
        | nil => rfl
        | @cons _ item _ rest first _ more =>
          obtain ⟨here, later⟩ := List.forall_mem_cons.mp ih
          rw [here first, more later]
      rw [equal]
    | atom | text | number | block => simp [Argument.outline, Argument.renumber] at same

private theorem SameArguments.keepsBlockless (same : SameArguments before after) :
    KeepsBlockless before after := by
  refine .of_forall₂ (List.Forall₂.imp ?_ same)
  rintro entry result ⟨names, outlines⟩
  refine ⟨names, fun value blockless => ⟨?_, ?_⟩⟩
  · rintro rfl
    exact blockless.of_outline outlines
  · rintro rfl
    exact blockless.of_outline outlines.symm

/-! ### A flattened chain -/

/-- What the definitions of a chain write in lists under a name, one after the other. -/
def writtenItems (chain : List Expression) (name : String) : List Argument :=
  chain.flatMap fun e => (e.list? name).getD []

/-- The joined lists of a chain under a name, if some definition has one. -/
def writtenList (chain : List Expression) (name : String) : Option Argument :=
  if chain.any (·.has name) then some (.list (writtenItems chain name)) else none

/-- What the first definition of a chain that has an argument gives it. -/
def firstWritten (chain : List Expression) (name : String) : Option Argument :=
  chain.findSome? (·.get? name)

/-- The expression is the chain in one, as far as the names `apart` do not matter: it has the kind of
the last definition, every list that is joined, and under any other name what the first definition
that has it has written. -/
structure Expression.Flattens (root : Expression) (name : String) (chain : List Expression)
    (apart : List String) : Prop where
  kind : ∀ last, chain.getLast? = some last → root.kind = last.kind
  defines : root.get? "defines" = some (.text name)
  inherits : root.get? "inherits" = none
  joined : ∀ key ∈ joinedNames, key ∉ apart → root.get? key = writtenList chain key
  has : ∀ key, key ∉ ownNames → key ∉ apart → root.has key = chain.any (·.has key)
  first : ∀ key, key ∉ ownNames → key ∉ joinedNames → key ∉ apart → ∀ value,
    firstWritten chain key = some value → value.Blockless → root.get? key = some value

private theorem writtenList_of_none {chain : List Expression} (missing : e.get? name = none) :
    writtenList (e :: chain) name = writtenList chain name := by
  simp [writtenList, writtenItems, Expression.has, Expression.list?, missing]

private theorem writtenList_of_some {chain : List Expression}
    (found : e.get? name = some (.list items)) :
    writtenList (e :: chain) name = some (.list (items ++ writtenItems chain name)) := by
  simp [writtenList, writtenItems, Expression.has, Expression.list?, Argument.list?, found]

private theorem writtenItems_of_missing {chain : List Expression}
    (missing : writtenList chain name = none) : writtenItems chain name = [] := by
  have absent : ∀ e ∈ chain, e.get? name = none := by
    simpa [writtenList, Expression.has] using missing
  refine List.flatMap_eq_nil_iff.mpr fun e member => ?_
  simp [Expression.list?, absent e member]

theorem writtenList_eq_some {chain : List Expression}
    (written : writtenList chain name = some value) : value = .list (writtenItems chain name) := by
  unfold writtenList at written
  split at written
  · exact (Option.some.inj written).symm
  · cases written

/-- The lists that a chain joins hold no block if none of the written ones does. -/
theorem writtenList_blockless {chain : List Expression} (joins : name ∈ joinedNames)
    (plain : ∀ e ∈ chain, e.JoinsPlainLists) (written : writtenList chain name = some value) :
    value.Blockless := by
  rw [writtenList_eq_some written]
  refine .list fun item member => ?_
  obtain ⟨e, among, inside⟩ := List.mem_flatMap.mp member
  cases found : e.get? name with
  | none => simp [Expression.list?, found] at inside
  | some value =>
    obtain ⟨blockless, items, rfl⟩ := plain e among name joins value found
    cases blockless with
    | list each => exact each item (by simpa [Expression.list?, found, Argument.list?] using inside)

section

variable {root other : Expression} {name : String} {chain : List Expression} {apart : List String}

/-- Changes to blocks do not matter. -/
theorem Expression.Flattens.of_keeps (flattens : root.Flattens name chain apart)
    (plain : ∀ e ∈ chain, e.JoinsPlainLists) (kind : other.kind = root.kind)
    (keeps : KeepsBlockless root.arguments other.arguments) :
    other.Flattens name chain apart where
  kind last found := kind.trans (flattens.kind last found)
  defines := (keeps.values _ _ (.text name)).mpr flattens.defines
  inherits := keeps.absent flattens.inherits
  joined key joins free := by
    have before := flattens.joined key joins free
    rw [← before]
    cases written : root.get? key with
    | none => exact keeps.absent written
    | some value =>
      have blockless := writtenList_blockless joins plain (before.symm.trans written)
      exact (keeps.values key value blockless).mpr written
  has key taken free := (keeps.isSome key).trans (flattens.has key taken free)
  first key taken single free value written blockless :=
    (keeps.values key value blockless).mpr
      (flattens.first key taken single free value written blockless)

/-- What is set stands apart. -/
theorem Expression.Flattens.set (flattens : root.Flattens name chain apart)
    (taken : key ∉ ownNames) (value : Argument) :
    (root.set key value).Flattens name chain (key :: apart) := by
  have kept : ∀ other, other ≠ key → (root.set key value).get? other = root.get? other :=
    fun other apart => Entries.lookup_insert_of_ne _ _ apart
  have defines : "defines" ≠ key := by rintro rfl; exact taken (by decide)
  have inherits : "inherits" ≠ key := by rintro rfl; exact taken (by decide)
  refine ⟨flattens.kind, ?_, ?_, ?_, ?_, ?_⟩
  · rw [kept _ defines, flattens.defines]
  · rw [kept _ inherits, flattens.inherits]
  · intro other joins free
    obtain ⟨different, free⟩ := not_or.mp (mt List.mem_cons.mpr free)
    rw [kept _ different, flattens.joined other joins free]
  · intro other taken free
    obtain ⟨different, free⟩ := not_or.mp (mt List.mem_cons.mpr free)
    rw [Expression.has, kept _ different]
    exact flattens.has other taken free
  · intro other taken single free value written blockless
    obtain ⟨different, free⟩ := not_or.mp (mt List.mem_cons.mpr free)
    rw [kept _ different]
    exact flattens.first other taken single free value written blockless

end

/-! ### Chains in a table -/

/-- Definitions without parameters, each of which takes something from the next one, up to a concrete
one; the first goes by the name. -/
inductive Table.Chain (table : Table) : String → List Expression → Prop
  | concrete {name : String} {definition : Definition} : table.find? name = some definition →
      definition.expression.isConcrete = true → table.Chain name [definition.expression]
  | refers {name target : String} {definition : Definition} {rest : List Expression} :
      table.find? name = some definition → definition.expression.isGeneric = false →
      definition.expression.refersTo? = some target → table.Chain target rest →
      table.Chain name (definition.expression :: rest)

variable {plan : Plan}

/-- A definition without parameters is copied and resolved, and then joined with what it refers to. It
uses up no arguments of the reference. -/
theorem referWithin_plain {definition : Definition}
    (found : plan.table.find? name = some definition)
    (plain : definition.expression.isGeneric = false)
    (run : referWithin plan budget name site w = .ok (inst, rest) w') :
    rest = site ∧ ∃ own : Expression, own.kind = definition.expression.kind ∧
      KeepsBlockless definition.expression.arguments own.arguments ∧
      (definition.expression.refersTo? = none ∧ inst = own ∨
        ∃ target parent left depth u u', definition.expression.refersTo? = some target ∧
          referWithin plan depth target (Entries.erase own.arguments "inherits") u =
            .ok (parent, left) u' ∧
          inst = merge { own with arguments := left } parent) := by
  cases budget with
  | zero => exact (throw_ok.mp run).elim
  | succ budget =>
    obtain ⟨-, v, copied, -⟩ := referWithin_succ_ok run
    obtain ⟨body, t, origin, resolved⟩ := copyDefinition_ok copied
    cases origin with
    | generic again generic =>
      obtain rfl := Option.some.inj (found.symm.trans again)
      rw [Expression.copy_isGeneric, plain] at generic
      cases generic
    | plain again _ =>
      obtain rfl := Option.some.inj (found.symm.trans again)
      obtain ⟨arguments, u, ran, joined⟩ := resolve_ok.mp resolved
      -- Neither the copy nor the walk over its arguments touches what it refers to.
      have keeps := (definition.expression.copy_keepsBlockless none _).trans
        (resolveArguments_keepsBlockless ran)
      have same : SameReference definition.expression
          { (definition.expression.copy none w.ids).1 with arguments } :=
        (SameReference.copy _ _ _).trans (resolveArguments_sameReference rfl ran)
      refine ⟨rfl, { (definition.expression.copy none w.ids).1 with arguments }, ?_, keeps, ?_⟩
      · exact definition.expression.copy_kind none _
      · cases join_ok joined with
        | alone inherits builtIn =>
          exact .inl ⟨same.refersTo?.trans (Expression.refersTo?_eq_none inherits builtIn), rfl⟩
        | merged refers referred =>
          exact .inr ⟨_, _, _, _, _, _,
            same.refersTo?.trans (Expression.refersTo?_eq_some.mpr refers), referred, rfl⟩

private theorem Expression.isGeneric_of_concrete (concrete : e.isConcrete = true) :
    e.isGeneric = false := by
  simp [Expression.isGeneric, Expression.has, (Expression.isConcrete_iff.mp concrete).1]

private theorem Table.Chain.starts {chain : List Expression} (isChain : table.Chain name chain) :
    ∃ definition, table.find? name = some definition ∧ definition.expression.isGeneric = false ∧
      ∃ rest, chain = definition.expression :: rest := by
  cases isChain with
  | concrete found concrete =>
    exact ⟨_, found, Expression.isGeneric_of_concrete concrete, _, rfl⟩
  | refers found plain _ _ => exact ⟨_, found, plain, _, rfl⟩

/-- The instance of a definition: its own arguments, resolved, merged with what is taken from
elsewhere. -/
structure Expression.TakesOver (e inst own : Expression) (taken : String → Option Argument) :
    Prop where
  keeps : KeepsBlockless e.arguments own.arguments
  defines : inst.get? "defines" = own.get? "defines"
  inherits : inst.get? "inherits" = none
  merged : ∀ key, key ∉ ownNames →
    inst.get? key = mergedValue own.id key (own.get? key) (taken key)

/-- The first definition of a chain takes over nothing if it is the last, and the instance of the next
one if there is one. -/
theorem Table.Chain.step (tidy : plan.table.Tidy) {chain : List Expression}
    (isChain : plan.table.Chain name (e :: chain))
    (run : referWithin plan budget name site w = .ok (inst, rest) w') :
    ∃ own taken, e.TakesOver inst own taken ∧
      (chain = [] ∧ inst.kind = e.kind ∧ taken = (fun _ => none) ∨
        ∃ target parent depth left u u', e.refersTo? = some target ∧
          referWithin plan depth target left u = .ok (parent, left) u' ∧
          inst.kind = parent.kind ∧ taken = parent.get?) := by
  cases isChain with
  | concrete found concrete =>
    obtain ⟨-, inherits, builtIn⟩ := Expression.isConcrete_iff.mp concrete
    obtain ⟨-, own, kind, keeps, ⟨-, rfl⟩ | ⟨_, _, _, _, _, _, refers, -⟩⟩ :=
      referWithin_plain found (Expression.isGeneric_of_concrete concrete) run
    · refine ⟨inst, fun _ => none, ⟨keeps, rfl, keeps.absent inherits, ?_⟩, .inl ⟨rfl, kind, rfl⟩⟩
      exact fun _ _ => (mergedValue_none _).symm
    · rw [Expression.refersTo?_eq_none inherits builtIn] at refers
      cases refers
  | @refers _ target definition _ found plain refers later =>
    obtain ⟨-, own, kind, keeps, ⟨none, -⟩ | ⟨other, parent, left, depth, u, u', refers', referred,
      rfl⟩⟩ := referWithin_plain found plain run
    · rw [refers] at none
      cases none
    · obtain rfl : other = target := Option.some.inj (refers'.symm.trans refers)
      -- the next definition has no parameters either, so no argument is used up
      obtain ⟨next, known, plain', -⟩ := later.starts
      obtain ⟨rfl, -⟩ := referWithin_plain known plain' referred
      have ordered := (tidy name definition found).here.ordered.of_names keeps.names
      have parentOrdered := (referWithin_closed tidy (ordered.erase "inherits") referred).1
      refine ⟨own, parent.get?, ⟨keeps, ?_, ?_, ?_⟩,
        .inr ⟨other, parent, depth, _, u, u', refers, referred, rfl, rfl⟩⟩
      · rw [merge_get?_of_own (by decide), Entries.lookup_erase_of_ne _ (by decide),
          Entries.lookup_erase_of_ne _ (by decide)]
        rfl
      · rw [merge_get?_of_own (by decide), Entries.lookup_erase_self]
      · intro key free
        have different : key ≠ "inherits" := by
          rintro rfl
          exact free (by decide)
        rw [merge_get? parentOrdered, Expression.get?_unset_of_ne _ different]
        exact congrArg (mergedValue own.id key · _) (Entries.lookup_erase_of_ne _ different)

private theorem not_own_of_joined (joins : name ∈ joinedNames) : name ∉ ownNames :=
  (by decide : ∀ name ∈ joinedNames, name ∉ ownNames) name joins

private theorem mergedValue_isSome (free : name ∉ ownNames) (own taken : Option Argument) :
    (mergedValue owner name own taken).isSome = (own.isSome || taken.isSome) := by
  cases own with
  | none => rw [mergedValue_absent free, Option.isSome_map, Option.isSome_none, Bool.false_or]
  | some value => rw [mergedValue_some free, Option.isSome_some, Option.isSome_some, Bool.true_or]

section

variable {e own : Expression} {chain : List Expression}

/-- The lists of a definition come before those of the rest of its chain. -/
theorem mergedValue_writtenList (joins : key ∈ joinedNames) (plain : e.JoinsPlainLists)
    (others : ∀ e ∈ chain, e.JoinsPlainLists) (keeps : KeepsBlockless e.arguments own.arguments) :
    mergedValue owner key (own.get? key) (writtenList chain key) = writtenList (e :: chain) key := by
  have free := not_own_of_joined joins
  cases found : e.get? key with
  | none =>
    have missing : own.get? key = none := keeps.absent found
    rw [missing, mergedValue_absent free, writtenList_of_none found]
    cases written : writtenList chain key with
    | none => rfl
    | some value =>
      rw [Option.map_some, (writtenList_blockless joins others written).adopt]
  | some value =>
    obtain ⟨blockless, items, rfl⟩ := plain key joins value found
    have kept : own.get? key = some (.list items) := (keeps.values key _ blockless).mpr found
    rw [kept, mergedValue_some free, writtenList_of_some found]
    cases written : writtenList chain key with
    | none => rw [Argument.joined_none, writtenItems_of_missing written, List.append_nil]
    | some value => rw [writtenList_eq_some written, Argument.joined_lists joins]

/-- A definition and what it takes over from the rest of its chain are the whole chain in one. -/
theorem Expression.TakesOver.flattens (takes : e.TakesOver inst own taken)
    (named : e.get? "defines" = some (.text name))
    (plain : ∀ other ∈ e :: chain, other.JoinsPlainLists)
    (kind : ∀ last, (e :: chain).getLast? = some last → inst.kind = last.kind)
    (joined : ∀ key ∈ joinedNames, taken key = writtenList chain key)
    (has : ∀ key, key ∉ ownNames → (taken key).isSome = chain.any (·.has key))
    (first : ∀ key, key ∉ ownNames → key ∉ joinedNames → ∀ value,
      firstWritten chain key = some value → value.Blockless → taken key = some value) :
    inst.Flattens name (e :: chain) [] := by
  obtain ⟨here, others⟩ := List.forall_mem_cons.mp plain
  have keeps := takes.keeps
  refine ⟨kind, ?_, takes.inherits, ?_, ?_, ?_⟩
  · exact takes.defines.trans ((keeps.values _ _ (.text name)).mpr named)
  · intro key joins _
    rw [takes.merged key (not_own_of_joined joins), joined key joins,
      mergedValue_writtenList joins here others keeps]
  · intro key free _
    rw [Expression.has, takes.merged key free, mergedValue_isSome free, has key free, List.any_cons]
    exact congrArg (· || _) (keeps.isSome key)
  · intro key free single _ value written blockless
    rw [takes.merged key free]
    rw [firstWritten, List.findSome?_cons] at written
    cases found : e.get? key with
    | some mine =>
      rw [found] at written
      obtain rfl := Option.some.inj written
      have kept : own.get? key = some mine := (keeps.values key _ blockless).mpr found
      rw [kept, mergedValue_some free, Argument.joined_of_not_mem single]
    | none =>
      rw [found] at written
      have missing : own.get? key = none := keeps.absent found
      rw [missing, mergedValue_absent free, first key free single value written blockless,
        Option.map_some, blockless.adopt]

end

/-- The instance of a chain is the chain in one, if the lists that are joined hold no blocks. -/
theorem Table.Chain.flattens (tidy : plan.table.Tidy) (named : plan.table.Named)
    {chain : List Expression} (isChain : plan.table.Chain name chain)
    (plain : ∀ e ∈ chain, e.JoinsPlainLists)
    (run : referWithin plan budget name site w = .ok (inst, rest) w') :
    inst.Flattens name chain [] := by
  induction isChain generalizing budget site rest inst w w' with
  | @concrete name definition found concrete =>
    have start : plan.table.Chain name [definition.expression] := .concrete found concrete
    obtain ⟨-, inherits, builtIn⟩ := Expression.isConcrete_iff.mp concrete
    obtain ⟨own, taken, takes, ⟨-, kind, rfl⟩ | ⟨_, _, _, _, _, _, refers, -⟩⟩ :=
      start.step tidy run
    · refine takes.flattens (named name definition found) plain ?_ ?_ ?_ ?_
      · rintro _ ⟨⟩
        exact kind
      · exact fun _ _ => rfl
      · exact fun _ _ => rfl
      · exact fun _ _ _ _ written => nomatch written
    · rw [Expression.refersTo?_eq_none inherits builtIn] at refers
      cases refers
  | @refers name target definition chain found generic refers later ih =>
    have start : plan.table.Chain name (definition.expression :: chain) :=
      .refers found generic refers later
    obtain ⟨next, -, -, others, rfl⟩ := later.starts
    obtain ⟨own, taken, takes, ⟨⟨⟩, -⟩ | ⟨other, parent, depth, left, u, u', refers', referred, kind,
      rfl⟩⟩ := start.step tidy run
    obtain rfl : other = target := Option.some.inj (refers'.symm.trans refers)
    -- what is taken over is the instance of the rest of the chain
    have below := ih (List.forall_mem_cons.mp plain).2 referred
    refine takes.flattens (named name definition found) plain ?_ ?_ ?_ ?_
    · intro last found
      rw [List.getLast?_cons_cons] at found
      exact kind.trans (below.kind last found)
    · exact fun key joins => below.joined key joins (by simp)
    · exact fun key free => below.has key free (by simp)
    · exact fun key free single => below.first key free single (by simp)

/-! ### Written lists -/

private theorem Form.Fits.isPlainList (fits : Form.texts.Fits value) : value.IsPlainList := by
  obtain ⟨items, rfl, texts⟩ := fits
  refine ⟨.list fun item member => ?_, items, rfl⟩
  obtain ⟨content, rfl⟩ := texts item member
  exact .text content

/-- The kinds take a list that is joined only as a list of texts. -/
theorem Kind.texts_of_rule (kind : Kind) (inputType : Option String) :
    ∀ rule ∈ kind.rules inputType, rule.name ∈ joinedNames → rule.form = .texts := by
  cases kind with
  | input =>
    simp only [Kind.rules]
    split_ifs <;> simp [joinedNames]
  | page | div | form | list | select | option | label | text | h1 | p | span | button =>
    simp [Kind.rules, joinedNames]

/-- A walk finds texts in every list that is joined. -/
theorem Walked.joinsTexts {σ : Type} {rules : Rules σ} {context : Context}
    (walked : Walked rules context e) (joins : name ∈ joinedNames) : e.Fits .texts name := by
  cases walked with
  | @intro _ _ kind stem admitted _ _ =>
    intro value found
    have allowed := Subject.onlyHas_ok.mp admitted.closed name (by simp [Expression.has, found])
    rcases List.mem_append.mp allowed with common | particular
    · have place : name = "styles" ∨ name = "classes" :=
        (by decide : ∀ name ∈ joinedNames, name ∈ commonNames → name = "styles" ∨ name = "classes")
          name joins common
      rcases place with rfl | rfl
      · exact Subject.texts_ok.mp admitted.styles value found
      · exact Subject.texts_ok.mp admitted.classes value found
    · obtain ⟨rule, among, rfl⟩ := Kind.mem_argumentNames.mp particular
      rw [← kind.texts_of_rule _ rule among joins]
      exact (admitted.met rule among).1 value found

/-- A list to which another one has been joined was plain if the result is. -/
theorem Argument.IsPlainList.of_joined {taken : Option Argument}
    (plain : (value.joined name taken).IsPlainList) : value.IsPlainList := by
  unfold Argument.joined at plain
  split at plain
  · split at plain
    · obtain ⟨blockless, -⟩ := plain
      cases blockless with
      | list each =>
        exact ⟨.list fun item member => each item (List.mem_append_left _ member), _, rfl⟩
    · exact plain
  · exact plain

private theorem Expression.TakesOver.joinsPlainLists {own : Expression}
    (takes : e.TakesOver inst own taken) (plain : inst.JoinsPlainLists) : e.JoinsPlainLists := by
  intro name joins value found
  obtain ⟨mine, kept⟩ : ∃ mine, own.get? name = some mine := by
    refine Option.isSome_iff_exists.mp ((takes.keeps.isSome name).trans ?_)
    rw [show e.arguments.lookup name = some value from found, Option.isSome_some]
  have merged := takes.merged name (not_own_of_joined joins)
  rw [kept, mergedValue_some (not_own_of_joined joins)] at merged
  have mine' := (plain name joins _ merged).of_joined
  have same := (takes.keeps.values name mine mine'.1).mp kept
  obtain rfl := Option.some.inj (found.symm.trans same)
  exact mine'

/-- Where every definition without parameters has an instance, the lists that a chain joins hold no
blocks. -/
theorem Table.Chain.joinsPlainLists (checked : plan.Checked) (distinct : plan.table.names.Nodup)
    (possible : plan.CanExport) {chain : List Expression} (isChain : plan.table.Chain name chain) :
    ∀ e ∈ chain, e.JoinsPlainLists := by
  -- every definition of the chain has an instance of its own, and a walk has seen the lists there
  have head : ∀ {name : String} {e : Expression} {rest : List Expression},
      plan.table.Chain name (e :: rest) → e.JoinsPlainLists := by
    intro name e rest isChain
    obtain ⟨definition, found, plain, -⟩ := isChain.starts
    obtain ⟨inst, instances⟩ :=
      possible name ((Table.mem_exportNames distinct).mpr ⟨definition, found, plain⟩)
    obtain ⟨_, root, _, _, _, _, _, referred, passes, -⟩ := instances.assembled
    obtain ⟨own, taken, takes, -⟩ := isChain.step checked.tidy referred
    refine takes.joinsPlainLists fun name joins value found => ?_
    exact ((checked.isRoot referred passes).walked.joinsTexts joins value found).isPlainList
  induction isChain with
  | concrete found concrete => simpa using head (.concrete found concrete)
  | refers found plain refers later ih =>
    exact List.forall_mem_cons.mpr ⟨head (.refers found plain refers later), ih⟩

/-! ### Exports -/

/-- What is generated in an export of some kind: the scripts of every page, and the rows of a list. -/
def generatedNames (kind : String) : List String :=
  if kind = "page" then ["scripts"] else if kind = "list" then ["body"] else []

section

variable {root : Expression} {name : String} {chain : List Expression} {apart : List String}

private theorem Expression.Flattens.weaken (flattens : root.Flattens name chain apart)
    {more : List String} (fewer : apart ⊆ more) : root.Flattens name chain more :=
  ⟨flattens.kind, flattens.defines, flattens.inherits,
    fun key joins free => flattens.joined key joins fun member => free (fewer member),
    fun key taken free => flattens.has key taken fun member => free (fewer member),
    fun key taken single free => flattens.first key taken single fun member => free (fewer member)⟩

/-- Filling adds the rows of a list and changes nothing else but blocks. -/
theorem Expression.Flattens.filled (flattens : root.Flattens name chain [])
    (plain : ∀ e ∈ chain, e.JoinsPlainLists) {build : String → Building Expression}
    {filled : Expression} (run : fillLists build root w = .ok filled w') :
    filled.kind = root.kind ∧
      filled.Flattens name chain (if root.kind = "list" then ["body"] else []) := by
  rcases fillLists_ok.mp run with ⟨isList, filled⟩ | ⟨noList, after, filled, rfl⟩
  · rw [if_pos isList]
    rcases fillList_ok.mp filled with ⟨-, rfl, -⟩ | ⟨_, _, _, _, -, -, -, rfl, -⟩
    · exact ⟨rfl, flattens.weaken (by simp)⟩
    · exact ⟨rfl, flattens.set (by decide) _⟩
  · rw [if_neg noList]
    exact ⟨rfl, flattens.of_keeps plain rfl (fillArguments_become filled).keepsBlockless⟩

/-- On a page only its scripts are generated, and in a list only its rows. -/
theorem Expression.Flattens.exported (plan : Plan)
    (flattens : inst.Flattens name chain (if inst.kind = "list" then ["body"] else [])) :
    (plan.exported inst).Flattens name chain (generatedNames (plan.exported inst).kind) := by
  rw [Plan.exported_kind, generatedNames]
  by_cases page : inst.kind = "page"
  · rw [if_neg (by rw [page]; decide)] at flattens
    rw [Plan.exported, if_pos page, if_pos page]
    exact flattens.set (by decide) _
  · rw [Plan.exported, if_neg page, if_neg page]
    exact flattens

end

/-- The instance of a chain is the chain in one, apart from rows. -/
theorem Plan.HasInstance.flattens (checked : plan.Checked) (distinct : plan.table.names.Nodup)
    (possible : plan.CanExport) {chain : List Expression} (isChain : plan.table.Chain name chain)
    (instances : plan.HasInstance name inst) :
    inst.Flattens name chain (if inst.kind = "list" then ["body"] else []) := by
  have plain := isChain.joinsPlainLists checked distinct possible
  obtain ⟨_, root, _, filled, _, _, _, referred, -, run, -, same⟩ := instances.assembled
  obtain ⟨-, kind, arguments⟩ := Expression.outline_eq_iff.mp same
  obtain ⟨kept, flattens⟩ := (isChain.flattens checked.tidy checked.named plain referred).filled
    plain run
  rw [← kept, ← kind] at flattens
  exact flattens.of_keeps plain kind arguments.symm.keepsBlockless

/-- A list that has rows has an initial count. -/
theorem Expression.HasRows.has_body {items : String → Expression → Prop} {list : Expression}
    (rows : list.HasRows plan items) (isList : list.kind = "list") :
    list.has "body" = list.has "initial" := by
  rcases rows.rows isList with ⟨none, empty⟩ | ⟨count, _, _, _, initial, -, -, -, block, -⟩
  · cases given : list.get? "initial" with
    | none => simp [Expression.has, empty, given]
    | some value =>
      obtain ⟨count, initial⟩ := (rows.counts isList).number (by simp) given
      rw [none] at initial
      cases initial
  · cases given : list.get? "initial" with
    | none => simp [Expression.number?, given] at initial
    | some value => simp [Expression.has, block, given]

/-- All that a chain writes in lists that are joined are texts. -/
theorem Plan.HasInstance.written_texts (checked : plan.Checked)
    (distinct : plan.table.names.Nodup) (possible : plan.CanExport) {chain : List Expression}
    (isChain : plan.table.Chain name chain) (instances : plan.HasInstance name inst)
    (joins : key ∈ joinedNames) :
    ∀ item ∈ writtenItems chain key, ∃ content, item = .text content := by
  have plain := isChain.joinsPlainLists checked distinct possible
  obtain ⟨_, root, _, _, _, _, _, referred, passes, -⟩ := instances.assembled
  have flattens := isChain.flattens checked.tidy checked.named plain referred
  have joined := flattens.joined key joins (by simp)
  cases written : writtenList chain key with
  | none => simp [writtenItems_of_missing written]
  | some value =>
    obtain ⟨items, rfl, texts⟩ :=
      (checked.isRoot referred passes).walked.joinsTexts joins value (joined.trans written)
    obtain rfl := Argument.list.inj (writtenList_eq_some written)
    exact texts

/-- Among items that are all texts, those with a property are the texts with it. -/
theorem map_text_filter (texts : ∀ item ∈ items, ∃ content, item = .text content)
    (keep : String → Bool) :
    ((items.filterMap Argument.text?).filter keep).map Argument.text =
      items.filter fun item => item.text?.all keep := by
  induction items with
  | nil => rfl
  | cons item rest ih =>
    obtain ⟨⟨content, rfl⟩, later⟩ := List.forall_mem_cons.mp texts
    have ih := ih later
    by_cases kept : keep content = true
    · simp [Argument.text?, kept, ih]
    · simp [Argument.text?, kept, ih]

/-- The scripts of a page: those of every page, and the others that its chain writes. -/
theorem Expression.Flattens.scripts {chain : List Expression}
    (flattens : inst.Flattens name chain []) (isPage : inst.kind = "page")
    (texts : ∀ item ∈ writtenItems chain "scripts", ∃ content, item = .text content) :
    (plan.exported inst).get? "scripts" = some (.list (plan.defaultScripts.map Argument.text ++
      (writtenItems chain "scripts").filter fun item =>
        item.text?.all fun entry => !plan.defaultScripts.contains entry)) := by
  have written : inst.texts "scripts" = (writtenItems chain "scripts").filterMap Argument.text? := by
    rw [Expression.texts, Expression.list?, flattens.joined "scripts" (by decide) (by simp)]
    cases found : writtenList chain "scripts" with
    | none => rw [writtenItems_of_missing found]; rfl
    | some value => rw [writtenList_eq_some found]; rfl
  rw [Plan.exported_scripts isPage, List.map_append, Plan.additional, written, map_text_filter texts]

/-! ### Chains in a session -/

/-- Definitions without parameters that a session has read, each of which refers to the next one, up to
a concrete one. -/
structure Session.IsChain (session : Session) (chain : List Expression) : Prop where
  read : ∀ e ∈ chain, e ∈ session.expressions
  plain : ∀ e ∈ chain, e.isGeneric = false
  linked : chain.IsChain fun e next => next.defines? = e.refersTo?
  concrete : chain.getLast?.any Expression.isConcrete = true

private theorem Table.Holds.find?_of_mem {expressions : List Expression}
    (holds : table.Holds expressions) (member : e ∈ expressions) :
    ∃ definition, definition.expression = e ∧ e.defines? = some definition.name ∧
      table.find? definition.name = some definition := by
  rw [← holds.expressions] at member
  obtain ⟨definition, among, rfl⟩ := List.mem_map.mp member
  refine ⟨definition, rfl, Expression.defines?_eq_some.mpr (holds.named definition among), ?_⟩
  exact (Table.find?_eq_some_iff holds.distinct).mpr ⟨among, rfl⟩

/-- A chain in a session is one in its table, under the name of its first definition. -/
theorem Session.IsChain.chain {session : Session} (holds : table.Holds session.expressions)
    {chain : List Expression} (isChain : session.IsChain chain) :
    ∃ first name, chain.head? = some first ∧ first.defines? = some name ∧ table.Chain name chain := by
  obtain ⟨read, plain, linked, concrete⟩ := isChain
  induction chain with
  | nil => cases concrete
  | cons e rest ih =>
    obtain ⟨here, others⟩ := List.forall_mem_cons.mp read
    obtain ⟨simple, plainOthers⟩ := List.forall_mem_cons.mp plain
    obtain ⟨definition, rfl, named, found⟩ := holds.find?_of_mem here
    refine ⟨definition.expression, definition.name, rfl, named, ?_⟩
    cases rest with
    | nil => exact .concrete found concrete
    | cons next more =>
      rw [List.getLast?_cons_cons] at concrete
      obtain ⟨link, linked⟩ := List.isChain_cons_cons.mp linked
      obtain ⟨_, target, ⟨⟩, named, later⟩ := ih others plainOthers linked concrete
      exact .refers found simple (link.symm.trans named) later

/-- An export is found by its name, if none has the name of another definition. -/
theorem ExportSet.get?_of_zip {names : List String} {set : ExportSet}
    (follow : List.Forall₂ (fun name (root : Expression) =>
      root.defines? = none ∨ root.defines? = some name) names set.exports)
    (distinct : names.Nodup) {root : Expression} (member : (name, root) ∈ names.zip set.exports)
    (named : root.defines? = some name) : set.get? name = some root := by
  unfold ExportSet.get?
  generalize set.exports = exports at follow member
  induction follow with
  | nil => cases member
  | @cons other first _ _ own _ ih =>
    obtain ⟨fresh, distinct⟩ := List.nodup_cons.mp distinct
    rcases List.mem_cons.mp member with here | later
    · obtain ⟨rfl, rfl⟩ := Prod.mk.inj here
      exact List.find?_cons_of_pos (by simpa using named)
    · have different : first.defines? ≠ some name := by
        rcases own with none | own
        · simp [none]
        · rw [own]
          rintro ⟨⟩
          exact fresh (List.of_mem_zip later).1
      rw [List.find?_cons_of_neg (by simpa using different)]
      exact ih distinct later

/-- **A chain of definitions is exported in one.** Where an analysis succeeds, the first definition of
a chain has an export of the kind of the last. Lists that are joined hold what the definitions write,
from the first to the last, and any other argument is the one of the first definition that has it. On a
page the scripts of every page come before those of the chain, which leave them out, and a list has
rows if some definition says how many. -/
theorem chains_flatten {session session' : Session} {set : ExportSet} (reachable : session.Reachable)
    (run : Session.analyze session = .ok set session') {chain : List Expression}
    (isChain : session.IsChain chain) :
    ∃ first name root, chain.head? = some first ∧ first.defines? = some name ∧
      set.get? name = some root ∧
      root.Flattens name chain (generatedNames root.kind) ∧
      (root.kind = "page" → root.get? "scripts" = some (.list
        (session.config.defaultScripts.map Argument.text ++
          (writtenItems chain "scripts").filter fun item =>
            item.text?.all fun entry => !session.config.defaultScripts.contains entry))) ∧
      (root.kind = "list" → root.has "body" = chain.any (·.has "initial")) := by
  obtain ⟨table, made, checked, exports⟩ := reachable.analyze_sound run
  obtain ⟨_, made', -, possible⟩ := Session.analyze_succeeds_iff.mp ⟨set, session', run⟩
  obtain rfl := Except.ok.inj (made.symm.trans made')
  have holds := Table.ofExpressions_holds made
  obtain ⟨first, name, head, named, inTable⟩ := isChain.chain holds
  obtain ⟨definition, found, plain, -⟩ := inTable.starts
  have among := (Table.mem_exportNames holds.distinct).mpr ⟨definition, found, plain⟩
  obtain ⟨root, zipped⟩ := exists_zip_of_mem exports among
  obtain ⟨inst, instances, rfl⟩ := List.forall₂_zip exports zipped
  have flattens := instances.flattens checked holds.distinct possible inTable
  have exported := flattens.exported (Session.plan session.config table)
  refine ⟨first, name, _, head, named, ?_, exported, ?_, ?_⟩
  · refine ExportSet.get?_of_zip (exports.imp ?_)
      (holds.distinct.sublist table.exportNames_sublist) zipped
      (Expression.defines?_eq_some.mpr exported.defines)
    rintro other _ ⟨_, instances, rfl⟩
    rw [Plan.exported_defines?]
    exact instances.defines checked
  · rw [Plan.exported_kind]
    intro isPage
    rw [if_neg (by rw [isPage]; decide)] at flattens
    exact flattens.scripts isPage
      (instances.written_texts checked holds.distinct possible inTable (by decide))
  · rw [Plan.exported_kind]
    intro isList
    have noPage : inst.kind ≠ "page" := by rw [isList]; decide
    rw [Plan.exported, if_neg noPage, (instances.hasRows checked).here.has_body isList]
    exact flattens.has "initial" (by decide) (by rw [if_pos isList]; decide)

/-- A page in three layers, the outermost last. A script that every page loads is among those of the
second. -/
def layeredPage : Session :=
  ({} : Session).after (Session.parse
    ("page defines: \"base\", title: \"b\", scripts: [\"s\"], classes: [\"x\"], body: \x7b \x7d\n" ++
      "base defines: \"mid\", scripts: [\"instantiate.js\", \"s\"]\n" ++
      "page defines: \"top\", inherits: \"mid\", title: \"t\", classes: [\"y\"]\n"))

theorem chains_flatten_layeredPage :
    layeredPage.Reachable ∧ layeredPage.IsChain layeredPage.expressions.reverse ∧
      ∃ set session' root, Session.analyze layeredPage = .ok set session' ∧
        set.get? "top" = some root ∧ root.kind = "page" ∧
        root.get? "title" = some (.text "t") ∧
        root.get? "classes" = some (.list [.text "y", .text "x"]) ∧
        root.get? "scripts" = some (.list
          [.text "wsc_runtime.js", .text "instantiate.js", .text "s", .text "s"]) := by
  have evaluated : (∀ e ∈ layeredPage.expressions.reverse, e.isGeneric = false) ∧
      (layeredPage.expressions.reverse.IsChain fun e next => next.defines? = e.refersTo?) ∧
      layeredPage.expressions.reverse.getLast?.any Expression.isConcrete = true ∧
      layeredPage.expressions.reverse.getLast?.map Expression.kind = some "page" ∧
      layeredPage.expressions.reverse.head?.bind Expression.defines? = some "top" ∧
      firstWritten layeredPage.expressions.reverse "title" = some (.text "t") ∧
      writtenList layeredPage.expressions.reverse "classes" =
        some (.list [.text "y", .text "x"]) ∧
      writtenItems layeredPage.expressions.reverse "scripts" =
        [.text "instantiate.js", .text "s", .text "s"] ∧
      layeredPage.exportSet?.any (fun _ => true) = true := by
    decide +kernel
  obtain ⟨plain, linked, concrete, kind, named, title, classes, scripts, analyzed⟩ := evaluated
  have reachable : layeredPage.Reachable := .parse _ (.start {})
  have isChain : layeredPage.IsChain layeredPage.expressions.reverse :=
    ⟨fun _ member => List.mem_reverse.mp member, plain, linked, concrete⟩
  obtain ⟨last, isLast, kind⟩ := Option.map_eq_some_iff.mp kind
  obtain ⟨set, session', run, -⟩ := Session.analyze_of_any analyzed
  obtain ⟨first, name, root, head, defines, found, flattens, loads, -⟩ :=
    chains_flatten reachable run isChain
  rw [head, Option.bind_some, defines] at named
  obtain rfl := Option.some.inj named
  have isPage : root.kind = "page" := (flattens.kind last isLast).trans kind
  rw [isPage] at flattens
  refine ⟨reachable, isChain, set, session', root, run, found, isPage, ?_, ?_, ?_⟩
  · exact flattens.first "title" (by decide) (by decide) (by decide) _ title (.text _)
  · exact (flattens.joined "classes" (by decide) (by decide)).trans classes
  · rw [loads isPage, scripts, layeredPage, Session.after_parse_config]
    rfl

/-- A list that takes its row from another. -/
def inheritedRow : Session :=
  ({} : Session).after (Session.parse
    ("div defines: \"item\"\nlist defines: \"base\", id: \"l\", type: \"item\", initial: 1\n" ++
      "list defines: \"rows\", inherits: \"base\"\n"))

/-- Rows are not written: the export has an argument that no definition of its chain has. -/
theorem inheritedRow_not_written :
    inheritedRow.IsChain (inheritedRow.expressions.reverse.take 2) ∧
      (inheritedRow.expressions.reverse.take 2).any (·.has "body") = false ∧
      ∃ set session' root, Session.analyze inheritedRow = .ok set session' ∧
        set.get? "rows" = some root ∧ root.has "body" = true := by
  have evaluated : (∀ e ∈ inheritedRow.expressions.reverse.take 2, e.isGeneric = false) ∧
      ((inheritedRow.expressions.reverse.take 2).IsChain fun e next =>
        next.defines? = e.refersTo?) ∧
      (inheritedRow.expressions.reverse.take 2).getLast?.any Expression.isConcrete = true ∧
      (inheritedRow.expressions.reverse.take 2).any (·.has "body") = false ∧
      inheritedRow.exportSet?.any (fun set => (set.get? "rows").any (·.has "body")) = true := by
    decide +kernel
  obtain ⟨plain, linked, concrete, written, analyzed⟩ := evaluated
  obtain ⟨set, session', run, tests⟩ := Session.analyze_of_any analyzed
  obtain ⟨root, found, rows⟩ := Option.any_eq_true _ _ |>.mp tests
  refine ⟨⟨?_, plain, linked, concrete⟩, written, set, session', root, run, found, rows⟩
  exact fun e member => List.mem_reverse.mp (List.mem_of_mem_take member)

end Pagewright
