import Pagewright.Proofs.CoherentExports
import Pagewright.Proofs.SubstitutionComposition

/-!
# What a substitution inserts

What was in a substituted expression stays, with its identifiers. What takes the
place of parameters is copied, and each copy takes the next identifiers of the
supply. `ExpressionComes` says which part of a result comes from where. By the
account of a run (`substitute_makes`) what was inserted has used up the
identifiers that were handed out meanwhile, and no parameter is left. So the
identifiers of the result are distinct if those of the definition are, and older
than the supply.
-/

namespace Pagewright

open Outcome

variable {e : Expression} {error : Error} {t s : Supply} {owner : ExpressionId}

/-! ### Where parts come from -/

/-- What a result is made of. -/
structure Parts where
  /-- The identifiers of expressions that come from the definition: there, and in the result. -/
  kept : Multiset (ExpressionId × ExpressionId) := 0
  /-- The identifiers of all expressions in inserted parts. -/
  inserted : Multiset ExpressionId := 0
  /-- The atoms outside inserted parts, and the kinds of children that are neither inserted nor
  renamed. -/
  words : List String := []

instance : Append Parts :=
  ⟨fun first second => ⟨first.kept + second.kept, first.inserted + second.inserted,
    first.words ++ second.words⟩⟩

variable {later first : Parts}

namespace Parts

/-- The identifiers that kept expressions have in the definition. -/
def before (parts : Parts) : Multiset ExpressionId :=
  parts.kept.map Prod.fst

/-- The identifiers that kept expressions have in the result. -/
def after (parts : Parts) : Multiset ExpressionId :=
  parts.kept.map Prod.snd

/-- What is kept has been in `old`, no two of it in one place, and `new` is what is kept or
inserted. -/
structure Divide (parts : Parts) (old new : Multiset ExpressionId) : Prop where
  old : parts.before ≤ old
  new : new = parts.after + parts.inserted

private theorem Divide.add {old new older newer : Multiset ExpressionId}
    (one : first.Divide old new) (two : later.Divide older newer) :
    (first ++ later).Divide (old + older) (new + newer) where
  old := by
    show (first.kept + later.kept).map Prod.fst ≤ _
    rw [Multiset.map_add]
    exact add_le_add one.old two.old
  new := by
    show _ = (first.kept + later.kept).map Prod.snd + (first.inserted + later.inserted)
    rw [one.new, two.new, Multiset.map_add]
    exact add_add_add_comm _ _ _ _

/-- Where nothing is kept, everything is inserted. -/
theorem Divide.all (old new : Multiset ExpressionId) (words : List String) :
    Parts.Divide ⟨0, new, words⟩ old new :=
  ⟨Multiset.zero_le _, (zero_add new).symm⟩

end Parts

mutual

/-- Where the parts of an expression come from. -/
inductive ExpressionComes (bindings : Bindings) : Expression → Expression → Parts → Prop
  | kept {e result : Expression} {parts : Parts} :
      ArgumentsCome bindings e.arguments result.arguments parts →
      ExpressionComes bindings e result (parts ++ { kept := {(e.id, result.id)} })

inductive ArgumentsCome (bindings : Bindings) :
    List (String × Argument) → List (String × Argument) → Parts → Prop
  | nil : ArgumentsCome bindings [] [] {}
  | cons {name : String} {value result : Argument} {rest results : List (String × Argument)}
      {first later : Parts} : ArgumentComes bindings value result first →
      ArgumentsCome bindings rest results later →
      ArgumentsCome bindings ((name, value) :: rest) ((name, result) :: results) (first ++ later)

inductive ArgumentComes (bindings : Bindings) : Argument → Argument → Parts → Prop
  | atom (name : String) : ArgumentComes bindings (.atom name) (.atom name) { words := [name] }
  /-- The actual argument of a parameter, in a copy. -/
  | inserted {name : String} {actual copied : Argument} :
      bindings.lookup name = some actual → copied.wording = actual.wording →
      ArgumentComes bindings (.atom name) copied { inserted := copied.ids true }
  | text (value : String) : ArgumentComes bindings (.text value) (.text value) {}
  | number (digits : String) : ArgumentComes bindings (.number digits) (.number digits) {}
  | block {children results : List Expression} {parts : Parts} :
      BlockComes bindings children results parts →
      ArgumentComes bindings (.block children) (.block results) parts
  | list {items results : List Argument} {parts : Parts} : ItemsCome bindings items results parts →
      ArgumentComes bindings (.list items) (.list results) parts

inductive BlockComes (bindings : Bindings) : List Expression → List Expression → Parts → Prop
  | nil : BlockComes bindings [] [] {}
  | kept {child result : Expression} {rest results : List Expression} {first later : Parts} :
      result.kind = child.kind → ExpressionComes bindings child result first →
      BlockComes bindings rest results later →
      BlockComes bindings (child :: rest) (result :: results)
        (first ++ (later ++ { words := [result.kind] }))
  | renamed {child result : Expression} {rest results : List Expression} {first later : Parts} :
      bindings.lookup child.kind = some (.atom result.kind) →
      ExpressionComes bindings child result first → BlockComes bindings rest results later →
      BlockComes bindings (child :: rest) (result :: results) (first ++ later)
  /-- The expressions that a parameter is bound to, in copies. -/
  | inserted {child : Expression} {actual copied rest results : List Expression} {later : Parts} :
      bindings.lookup child.kind = some (.block actual) → wordBlock copied = wordBlock actual →
      BlockComes bindings rest results later →
      BlockComes bindings (child :: rest) (copied ++ results)
        ({ inserted := blockIds true copied } ++ later)

inductive ItemsCome (bindings : Bindings) : List Argument → List Argument → Parts → Prop
  | nil : ItemsCome bindings [] [] {}
  | cons {item result : Argument} {rest results : List Argument} {first later : Parts} :
      ArgumentComes bindings item result first → ItemsCome bindings rest results later →
      ItemsCome bindings (item :: rest) (result :: results) (first ++ later)

end

variable {bindings : Bindings}

mutual

/-- Everything in a result is kept or inserted. -/
theorem ExpressionComes.divide : {e result : Expression} → {parts : Parts} →
    ExpressionComes bindings e result parts → parts.Divide (e.ids true) (result.ids true)
  | e, result, _, .kept arguments => by
    rw [Expression.ids_eq e, Expression.ids_eq result, add_comm _ (argumentsIds true e.arguments),
      add_comm _ (argumentsIds true result.arguments)]
    exact arguments.divide.add ⟨le_rfl, rfl⟩

private theorem ArgumentsCome.divide : {arguments results : Arguments} → {parts : Parts} →
    ArgumentsCome bindings arguments results parts →
      parts.Divide (argumentsIds true arguments) (argumentsIds true results)
  | _, _, _, .nil => .all _ _ _
  | _, _, _, .cons first later => by
    simp only [argumentsIds]
    exact first.divide.add later.divide

private theorem ArgumentComes.divide : {value result : Argument} → {parts : Parts} →
    ArgumentComes bindings value result parts → parts.Divide (value.ids true) (result.ids true)
  | _, _, _, .atom _ | _, _, _, .inserted _ _ | _, _, _, .text _ | _, _, _, .number _ => .all _ _ _
  | _, _, _, .block block => by
    simp only [Argument.ids]
    exact block.divide
  | _, _, _, .list items => by
    simp only [Argument.ids, if_true]
    exact items.divide

private theorem BlockComes.divide : {children results : List Expression} → {parts : Parts} →
    BlockComes bindings children results parts →
      parts.Divide (blockIds true children) (blockIds true results)
  | _, _, _, .nil => .all _ _ _
  | _, result :: _, _, .kept _ first later => by
    have named := later.divide.add (.all 0 0 [result.kind])
    simp only [blockIds, add_zero] at named ⊢
    exact first.divide.add named
  | _, _, _, .renamed _ first later => by
    simp only [blockIds]
    exact first.divide.add later.divide
  | _, _, _, .inserted _ _ later => by
    rw [blockIds, blockIds_eq (_ ++ _), List.map_append, List.sum_append, ← blockIds_eq,
      ← blockIds_eq]
    exact (Parts.Divide.all _ _ _).add later.divide

private theorem ItemsCome.divide : {items results : List Argument} → {parts : Parts} →
    ItemsCome bindings items results parts →
      parts.Divide (itemsIds true items) (itemsIds true results)
  | _, _, _, .nil => .all _ _ _
  | _, _, _, .cons first later => by
    simp only [itemsIds]
    exact first.divide.add later.divide

end

/-! ### Links -/

/-- Everything below an expression has the owner of its block as its parent. -/
def Expression.IsLinkedBelow (e : Expression) : Prop :=
  ∀ owner, Relation.ReflTransGen Expression.Owns e owner →
    ∀ child, owner.Owns child → child.parent = some owner.id

def Expression.Hangs (owner : ExpressionId) (child : Expression) : Prop :=
  child.parent = some owner ∧ child.IsLinkedBelow

def Argument.HangsBelow (owner : ExpressionId) (value : Argument) : Prop :=
  ∀ child, value.Keeps child → child.Hangs owner

theorem Expression.isLinkedBelow_iff :
    e.IsLinkedBelow ↔ ∀ entry ∈ e.arguments, entry.2.HangsBelow e.id := by
  constructor
  · intro linked entry member child keeps
    have owns : e.Owns child := ⟨entry.1, entry.2, member, keeps⟩
    exact ⟨linked e .refl child owns, fun owner below => linked owner (.head owns below)⟩
  · intro hang owner below child owns
    rcases Relation.ReflTransGen.cases_head below with
      rfl | ⟨next, ⟨name, value, among, kept⟩, deeper⟩
    · obtain ⟨name, value, member, keeps⟩ := owns
      exact (hang (name, value) member child keeps).1
    · exact (hang (name, value) among next kept).2 owner deeper child owns

private theorem Expression.IsLinkedBelow.withKind (linked : e.IsLinkedBelow) (kind : String) :
    Expression.IsLinkedBelow { e with kind } := by
  rw [Expression.isLinkedBelow_iff] at linked ⊢
  exact linked

private theorem Argument.hangsBelow_block {children : List Expression} :
    (Argument.block children).HangsBelow owner ↔
      ∀ child ∈ children, child.Hangs owner := by
  constructor
  · exact fun hangs child member => hangs child (.block member)
  · rintro each child ⟨member⟩
    exact each child member

private theorem Argument.hangsBelow_list {items : List Argument} :
    (Argument.list items).HangsBelow owner ↔ ∀ item ∈ items, item.HangsBelow owner := by
  constructor
  · exact fun hangs item member child keeps => hangs child (.list member keeps)
  · intro each child keeps
    cases keeps with
    | list member keeps => exact each _ member child keeps

mutual

/-- A copy is linked, whatever it is a copy of. -/
theorem Expression.copy_isLinkedBelow : (e : Expression) → (parent : Option ExpressionId) →
    (s : Supply) → (e.copy parent s).1.IsLinkedBelow
  | ⟨_, _, _, arguments⟩, _, s => by
    rw [Expression.isLinkedBelow_iff]
    exact copyArguments_hang arguments _ _

private theorem copyArguments_hang : (arguments : Arguments) → (owner : ExpressionId) →
    (s : Supply) → ∀ entry ∈ (copyArguments arguments owner s).1, entry.2.HangsBelow owner
  | [], _, _ => by simp [copyArguments]
  | (_, value) :: rest, owner, s => by
    simp only [copyArguments, List.forall_mem_cons]
    exact ⟨value.copy_hangsBelow owner s, copyArguments_hang rest owner _⟩

private theorem Argument.copy_hangsBelow :
    (value : Argument) → (owner : ExpressionId) → (s : Supply) →
    (value.copy owner s).1.HangsBelow owner
  | .block children, owner, s => by
    simp only [Argument.copy, Argument.hangsBelow_block]
    exact copyBlock_hang children owner s
  | .list items, owner, s => by
    simp only [Argument.copy, Argument.hangsBelow_list]
    exact copyItems_hang items owner s
  | .atom _, _, _ | .text _, _, _ | .number _, _, _ => by rintro child ⟨⟩

private theorem copyBlock_hang :
    (children : List Expression) → (owner : ExpressionId) → (s : Supply) →
    ∀ child ∈ (copyBlock children owner s).1, child.Hangs owner
  | [], _, _ => by simp [copyBlock]
  | child :: rest, owner, s => by
    simp only [copyBlock, List.forall_mem_cons]
    exact ⟨⟨child.copy_parent _ _, child.copy_isLinkedBelow _ _⟩, copyBlock_hang rest owner _⟩

private theorem copyItems_hang : (items : List Argument) → (owner : ExpressionId) → (s : Supply) →
    ∀ item ∈ (copyItems items owner s).1, item.HangsBelow owner
  | [], _, _ => by simp [copyItems]
  | item :: rest, owner, s => by
    simp only [copyItems, List.forall_mem_cons]
    exact ⟨item.copy_hangsBelow owner s, copyItems_hang rest owner _⟩

end

/-! ### Accounts of runs -/

/-- From `s` to `t`, what is inserted has used up the identifiers handed out; what is kept has kept
its identifier, and no parameter is left. -/
structure AccountsFor (bindings : Bindings) (parts : Parts) (s t : Supply) : Prop where
  inserted : UsesUp parts.inserted s t
  kept : ∀ pair ∈ parts.kept, pair.2 = pair.1
  words : ∀ word ∈ parts.words, bindings.lookup word = none

theorem AccountsFor.trans {u : Supply} (start : AccountsFor bindings first s t)
    (rest : AccountsFor bindings later t u) : AccountsFor bindings (first ++ later) s u :=
  ⟨start.inserted.trans rest.inserted,
    fun pair member => (Multiset.mem_add.mp member).elim (start.kept pair) (rest.kept pair),
    List.forall_mem_append.mpr ⟨start.words, rest.words⟩⟩

/-- What is kept has the same identifiers before and after. -/
theorem AccountsFor.after_eq {parts : Parts} (accounts : AccountsFor bindings parts s t) :
    parts.after = parts.before :=
  Multiset.map_congr rfl accounts.kept

/-- Whatever a successful step makes has parts with an account of the run. -/
def Makes {α : Type} (bindings : Bindings) (step : EStateM Error Supply α)
    (property : α → Parts → Prop) : Prop :=
  ∀ s a t, step s = .ok a t → ∃ parts, AccountsFor bindings parts s t ∧ property a parts

namespace Makes

variable {α β : Type} {step : EStateM Error Supply α} {property : α → Parts → Prop}

private theorem pure {a : α} (kept : Multiset ExpressionId) (words : List String)
    (free : ∀ word ∈ words, bindings.lookup word = none)
    (holds : property a { kept := kept.map fun id => (id, id), words }) :
    Makes bindings (pure a) property := by
  intro s b t run
  obtain ⟨rfl, rfl⟩ := pure_ok.mp run
  exact ⟨_, ⟨.none s, by simp, free⟩, holds⟩

private theorem throw : Makes bindings (throw error) property :=
  fun _ _ _ run => (throw_ok.mp run).elim

private theorem bind {next : α → EStateM Error Supply β} {result : β → Parts → Prop}
    (first : Makes bindings step property)
    (later : ∀ a parts, property a parts →
      Makes bindings (next a) fun b more => result b (parts ++ more)) :
    Makes bindings (step >>= next) result := by
  intro s b u run
  obtain ⟨a, t, ran, rest⟩ := bind_ok.mp run
  obtain ⟨parts, start, holds⟩ := first s a t ran
  obtain ⟨more, onward, whole⟩ := later a parts holds t b u rest
  exact ⟨parts ++ more, start.trans onward, whole⟩

private theorem map {make : α → β} {result : β → Parts → Prop}
    (first : Makes bindings step property)
    (holds : ∀ a parts, property a parts → result (make a) parts) :
    Makes bindings (step >>= fun a => Pure.pure (make a)) result := by
  intro s b u run
  obtain ⟨a, t, ran, rest⟩ := bind_ok.mp run
  obtain ⟨rfl, rfl⟩ := pure_ok.mp rest
  obtain ⟨parts, accounts, made⟩ := first s a t ran
  exact ⟨parts, accounts, holds a parts made⟩

/-- What follows a test that may fail. -/
theorem check {condition : Prop} [Decidable condition] (later : Makes bindings step property) :
    Makes bindings
      (if condition then (MonadExcept.throw error : EStateM Error Supply Unit) >>= fun _ => step
        else step) property := by
  split
  · intro s a t run
    obtain ⟨_, _, thrown, -⟩ := bind_ok.mp run
    exact (throw_ok.mp thrown).elim
  · exact later

/-- Copies are inserted. -/
theorem modifyGet {make : Supply → α × Supply} (ids : α → Multiset ExpressionId)
    (uses : ∀ s, UsesUp (ids (make s).1) s (make s).2)
    (holds : ∀ s, property (make s).1 { inserted := ids (make s).1 }) :
    Makes bindings (modifyGet make) property := by
  intro s a t run
  have made := modifyGet_ok.mp run
  have used := uses s
  have whole := holds s
  rw [made] at used whole
  exact ⟨_, ⟨used, by simp, by simp⟩, whole⟩

end Makes

private theorem ExpressionComes.withKind {result : Expression} {parts : Parts}
    (comes : ExpressionComes bindings e result parts) (kind : String) :
    ExpressionComes bindings e { result with kind } parts := by
  cases comes with
  | kept arguments => exact .kept arguments

mutual

/-- The account of a substitution, which keeps an expression in its place and links what it
inserts. -/
theorem substitute_makes : (e : Expression) → Makes bindings (substitute bindings e)
    fun result parts => (result.kind = e.kind ∧ result.parent = e.parent) ∧
      ExpressionComes bindings e result parts ∧ (e.IsLinkedBelow → result.IsLinkedBelow)
  | ⟨id, parent, kind, arguments⟩ => by
    simp only [substitute]
    apply (substituteArguments_makes id arguments).bind
    rintro results parts ⟨come, hang⟩
    refine .pure {id} [] (by simp) ⟨⟨rfl, rfl⟩, .kept come, ?_⟩
    rw [Expression.isLinkedBelow_iff, Expression.isLinkedBelow_iff]
    exact hang

private theorem substituteArguments_makes (owner : ExpressionId) :
    (arguments : Arguments) →
    Makes bindings (substituteArguments bindings owner arguments) fun results parts =>
      ArgumentsCome bindings arguments results parts ∧
        ((∀ entry ∈ arguments, entry.2.HangsBelow owner) →
          ∀ entry ∈ results, entry.2.HangsBelow owner)
  | [] => by
    simp only [substituteArguments]
    exact .pure 0 [] (by simp) ⟨.nil, id⟩
  | (name, value) :: rest => by
    simp only [substituteArguments]
    apply (substituteArgument_makes owner value).bind
    rintro result first ⟨comes, hangs⟩
    apply (substituteArguments_makes owner rest).map
    rintro results later ⟨come, hang⟩
    simp only [List.forall_mem_cons]
    exact ⟨.cons comes come, And.imp hangs hang⟩

private theorem substituteArgument_makes (owner : ExpressionId) : (value : Argument) →
    Makes bindings (substituteArgument bindings owner value) fun result parts =>
      ArgumentComes bindings value result parts ∧
        (value.HangsBelow owner → result.HangsBelow owner)
  | .atom name => by
    simp only [substituteArgument]
    cases bound : bindings.lookup name with
    | none => exact .pure 0 [name] (by simpa using bound) ⟨.atom name, id⟩
    | some actual =>
      refine .modifyGet (Argument.ids true) (actual.copy_usesUp owner) fun s => ?_
      exact ⟨.inserted bound (actual.wording_copy owner s), fun _ => actual.copy_hangsBelow owner s⟩
  | .list items => by
    simp only [substituteArgument]
    apply (substituteItems_makes owner items).map
    rintro results parts ⟨come, hang⟩
    simp only [Argument.hangsBelow_list]
    exact ⟨.list come, hang⟩
  | .block children => by
    simp only [substituteArgument]
    apply (substituteBlock_makes owner children).map
    rintro results parts ⟨comes, hang⟩
    simp only [Argument.hangsBelow_block]
    exact ⟨.block comes, hang⟩
  | .text value => by
    simp only [substituteArgument]
    exact .pure 0 [] (by simp) ⟨.text value, id⟩
  | .number digits => by
    simp only [substituteArgument]
    exact .pure 0 [] (by simp) ⟨.number digits, id⟩

private theorem substituteItems_makes (owner : ExpressionId) : (items : List Argument) →
    Makes bindings (substituteItems bindings owner items) fun results parts =>
      ItemsCome bindings items results parts ∧
        ((∀ item ∈ items, item.HangsBelow owner) → ∀ item ∈ results, item.HangsBelow owner)
  | [] => by
    simp only [substituteItems]
    exact .pure 0 [] (by simp) ⟨.nil, id⟩
  | item :: rest => by
    simp only [substituteItems]
    apply (substituteArgument_makes owner item).bind
    rintro result first ⟨comes, hangs⟩
    apply (substituteItems_makes owner rest).map
    rintro results later ⟨come, hang⟩
    simp only [List.forall_mem_cons]
    exact ⟨.cons comes come, And.imp hangs hang⟩

private theorem substituteBlock_makes (owner : ExpressionId) : (children : List Expression) →
    Makes bindings (substituteBlock bindings owner children) fun results parts =>
      BlockComes bindings children results parts ∧
        ((∀ child ∈ children, child.Hangs owner) → ∀ child ∈ results, child.Hangs owner)
  | [] => by
    simp only [substituteBlock]
    exact .pure 0 [] (by simp) ⟨.nil, id⟩
  | child :: rest => by
    simp only [substituteBlock]
    cases bound : bindings.lookup child.kind with
    | none =>
      apply (substitute_makes child).bind
      rintro result first ⟨⟨kind, parent⟩, comes, linked⟩
      apply (substituteBlock_makes owner rest).bind
      rintro results later ⟨come, hang⟩
      refine .pure 0 [result.kind] (by simpa [kind] using bound) ⟨.kept kind comes come, ?_⟩
      simp only [List.forall_mem_cons]
      exact And.imp (And.imp parent.trans linked) hang
    | some actual =>
      cases actual with
      | atom kind =>
        apply (substitute_makes child).bind
        rintro result first ⟨⟨-, parent⟩, comes, linked⟩
        apply (substituteBlock_makes owner rest).map
        rintro results later ⟨come, hang⟩
        refine ⟨.renamed bound (comes.withKind kind) come, ?_⟩
        -- the new kind changes neither links nor identifier
        simp only [List.forall_mem_cons]
        exact And.imp (And.imp parent.trans fun below => (linked below).withKind kind) hang
      | block replacement =>
        apply Makes.check
        have copies : Makes bindings (modifyGet (copyBlock replacement owner))
            fun copied parts => (wordBlock copied = wordBlock replacement ∧
              ∀ child ∈ copied, child.Hangs owner) ∧ parts = { inserted := blockIds true copied } :=
          .modifyGet (blockIds true) (copyBlock_usesUp replacement owner) fun s =>
            ⟨⟨wordBlock_copy replacement owner s, copyBlock_hang replacement owner s⟩, rfl⟩
        apply copies.bind
        rintro copied _ ⟨⟨wording, first⟩, rfl⟩
        apply (substituteBlock_makes owner rest).map
        rintro results later ⟨come, hang⟩
        refine ⟨.inserted bound wording come, fun all => List.forall_mem_append.mpr ⟨first, ?_⟩⟩
        exact hang (List.forall_mem_cons.mp all).2
      | text | number | list => exact .throw

end

/-! ### The result -/

private theorem issued_apart {first last : Nat} (fits : last ≤ UInt32.size) {id : ExpressionId}
    (old : id.toNat < first) : id ∉ issued first last := by
  intro member
  obtain ⟨count, among, rfl⟩ := Multiset.mem_map.mp member
  obtain ⟨least, most⟩ := Multiset.mem_Ico.mp among
  rw [Nat.toUInt32_eq, UInt32.toNat_ofNat_of_lt' (lt_of_lt_of_le most fits)] at old
  omega

/-- Substitution hands out exactly what it inserts. Let the identifiers in a definition be distinct
and older than the supply, and let everything in it be linked. If a substitution succeeds before the
supply comes round, the identifiers in the result are distinct and everything in it is linked. What
comes from the definition has kept its identifier, what was inserted has the identifiers that were
handed out meanwhile, each of them once, and nothing else in the result is named like a
parameter. -/
theorem substitute_allocates_inserted {e result : Expression} {s t : Supply}
    (distinct : (e.ids true).Nodup) (older : ∀ id ∈ e.ids true, id.toNat < s.next)
    (linked : e.IsLinkedBelow) (fits : t.next ≤ UInt32.size)
    (run : substitute bindings e s = .ok result t) :
    (result.ids true).Nodup ∧ result.IsLinkedBelow ∧
      ∃ parts, ExpressionComes bindings e result parts ∧
        parts.before ≤ e.ids true ∧ result.ids true = parts.after + parts.inserted ∧
        (∀ pair ∈ parts.kept, pair.2 = pair.1) ∧
        parts.inserted = issued s.next t.next ∧
        ∀ word ∈ parts.words, bindings.lookup word = none := by
  obtain ⟨parts, accounts, -, comes, links⟩ := substitute_makes e s result t run
  have divide := comes.divide
  refine ⟨?_, links linked, parts, comes, divide.old, divide.new, accounts.kept,
    accounts.inserted.exact, accounts.words⟩
  rw [divide.new, accounts.after_eq, accounts.inserted.exact]
  refine Multiset.nodup_add.mpr
    ⟨Multiset.nodup_of_le divide.old distinct, issued_nodup fits, ?_⟩
  refine Multiset.disjoint_left.mpr ?_
  intro id member
  exact issued_apart fits (older id (Multiset.mem_of_le divide.old member))

/-- A parameter that stands for two expressions, one of them with a block, and one for a kind. -/
def framingBindings : Bindings :=
  [("content", .block [⟨7, none, "text", []⟩,
      ⟨8, none, "div", [("body", .block [⟨9, some 8, "p", []⟩])]⟩]),
    ("tag", .atom "form")]

/-- Puts the first parameter into a block, and in place of a block. -/
def framingBody : Expression :=
  ⟨1, none, "div", [("body", .block [⟨2, some 1, "content", []⟩,
    ⟨3, some 1, "tag", [("body", .atom "content")]⟩])]⟩

theorem substitute_allocates_inserted_framing :
    ∃ result, substitute framingBindings framingBody ⟨10⟩ = .ok result ⟨16⟩ ∧
      (result.ids true).Nodup ∧ result.IsLinkedBelow ∧
        ∃ parts, ExpressionComes framingBindings framingBody result parts ∧
          parts.inserted = issued 10 16 := by
  obtain ⟨result, run⟩ : ∃ result, substitute framingBindings framingBody ⟨10⟩ = .ok result ⟨16⟩ :=
    ⟨_, rfl⟩
  have distinct : (framingBody.ids true).Nodup := by decide
  have ids : framingBody.ids true = {1, 2, 3} := by decide
  have older : ∀ id ∈ framingBody.ids true, id.toNat < 10 := by simp [ids]
  have leaf : ∀ id parent kind, Expression.IsLinkedBelow ⟨id, parent, kind, []⟩ := by
    intro id parent kind
    simp [Expression.isLinkedBelow_iff]
  have tagged : Expression.IsLinkedBelow ⟨3, some 1, "tag", [("body", .atom "content")]⟩ := by
    rw [Expression.isLinkedBelow_iff, List.forall_mem_singleton]
    rintro child ⟨⟩
  have linked : framingBody.IsLinkedBelow := by
    rw [Expression.isLinkedBelow_iff, framingBody, List.forall_mem_singleton,
      Argument.hangsBelow_block]
    simp [Expression.Hangs, leaf, tagged]
  obtain ⟨unique, below, parts, comes, -, -, -, inserted, -⟩ :=
    substitute_allocates_inserted distinct older linked (by decide) run
  exact ⟨result, run, unique, below, parts, comes, inserted⟩

end Pagewright
