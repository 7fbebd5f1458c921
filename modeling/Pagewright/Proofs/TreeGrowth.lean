import Pagewright.Proofs.Placements
import Pagewright.Proofs.TreeReading

/-!
# The tree that grows on a page

The tree script of an expression makes a node for every tracked id in it, in
document order, each below a node that was made before. A list is made a list
after everything in it has its nodes. `Accounts` says this of what a script does to
the tree; it is kept when scripts are run one after the other, and when a script
stands in the block of a new node.
-/

namespace Pagewright

variable {e : Expression} {own : ScopedId} {events more : List TreeEvent} {known : List TreeNode}
  {me page : TreeNode} {stem : String} {placements others : List Placement}

/-! ### Ids that have nodes -/

def Expression.trackedId? (e : Expression) : Option ScopedId :=
  e.scopedId?.filter ScopedId.isTracked

theorem Expression.trackedId?_eq_some :
    e.trackedId? = some own ↔ e.scopedId? = some own ∧ own.isTracked = true :=
  Option.filter_eq_some_iff

theorem innerStem_of_tracked (tracked : e.trackedId? = some own) (stem : String) :
    innerStem e stem = own.fullId stem := by
  obtain ⟨given, isTracked⟩ := Expression.trackedId?_eq_some.mp tracked
  simp [innerStem, given, isTracked]

theorem innerStem_of_untracked (untracked : e.trackedId? = none) (stem : String) :
    innerStem e stem = stem := by
  unfold innerStem
  cases given : e.scopedId? with
  | none => rfl
  | some own =>
    have literal : own.isTracked = false := by
      simpa [Expression.trackedId?, given, Option.filter] using untracked
    simp [literal]

/-- The node that a tracked id asks for: the id of its element, and its name. -/
def Placement.label? (placement : Placement) : Option (String × String) :=
  placement.expression.trackedId?.map fun id => (id.fullId placement.stem, id.name)

def Placement.inside (placement : Placement) : List Placement :=
  (placement.expression.placements placement.stem placement.item?).tail

/-! ### One step of the script -/

private theorem treeScriptIn_eq (content : Option String) (arguments : Arguments)
    (stem : String) :
    treeScriptIn content arguments stem = treeScriptAll
      (((content.bind fun place => arguments.lookup place).bind Argument.block?).getD []) stem := by
  refine search_eq content (treeScriptIn content · stem) (treeScriptAll · stem) rfl ?_ arguments
  intro name value rest
  cases value <;> rfl

/-- Where the node of a tracked id is put. -/
def ScopedId.treeParent (id : ScopedId) : TreeParent :=
  if id.flavor = .global then .page else .enclosing

def Expression.listing (e : Expression) : List TreeInstruction :=
  if e.kind = "list" then [.listify e.itemType e.leastRows e.mostRows] else []

theorem treeScript_tracked (tracked : e.trackedId? = some own) (stem : String) :
    treeScript e stem =
      .enter own.treeParent (own.fullId stem) own.name ::
        (treeScriptAll e.inner (own.fullId stem) ++ e.listing ++ [.leave]) := by
  obtain ⟨given, isTracked⟩ := Expression.trackedId?_eq_some.mp tracked
  obtain ⟨id, parent, kind, arguments⟩ := e
  rw [treeScript]
  simp only [treeScriptIn_eq, given, isTracked, if_true]
  rfl

theorem treeScript_untracked (untracked : e.trackedId? = none) (stem : String) :
    treeScript e stem = treeScriptAll e.inner stem ++ e.listing := by
  unfold Expression.trackedId? at untracked
  obtain ⟨id, parent, kind, arguments⟩ := e
  rw [treeScript]
  simp only [treeScriptIn_eq]
  split
  · rfl
  · next own given =>
    have literal : own.isTracked = false := by simpa [given, Option.filter] using untracked
    rw [literal]
    rfl

/-! ### What a script does to the tree -/

def madeNodes (events : List TreeEvent) : List TreeNode :=
  events.filterMap fun
    | .made node => some node
    | .listed _ _ => none

/-- The nodes that are made lists and their item types, in order. -/
def listCalls (events : List TreeEvent) : List (TreeNode × String) :=
  events.filterMap fun
    | .made _ => none
    | .listed node itemType => some (node, itemType)

private theorem madeNodes_append (events more : List TreeEvent) :
    madeNodes (events ++ more) = madeNodes events ++ madeNodes more :=
  List.filterMap_append

private theorem listCalls_append (events more : List TreeEvent) :
    listCalls (events ++ more) = listCalls events ++ listCalls more :=
  List.filterMap_append

def TreeNode.label (node : TreeNode) : String × String :=
  (node.element, node.name)

/-- Every node is put below one that is known or was made before, whose id its own one goes on from;
only such nodes are made lists. -/
def Attached : List TreeNode → List TreeEvent → Prop
  | _, [] => True
  | known, .made node :: rest =>
    (∃ parent ∈ known, node = .child parent (parent.element ++ "-" ++ node.name) node.name) ∧
      Attached (node :: known) rest
  | known, .listed node _ :: rest => node ∈ known ∧ Attached known rest

theorem Attached.mono {more : List TreeNode} (attached : Attached known events)
    (subset : known ⊆ more) : Attached more events := by
  induction events generalizing known more with
  | nil => trivial
  | cons event rest ih =>
    cases event with
    | made node =>
      obtain ⟨⟨parent, among, below⟩, later⟩ := attached
      exact ⟨⟨parent, subset among, below⟩, ih later (List.cons_subset_cons node subset)⟩
    | listed node itemType => exact ⟨subset attached.1, ih attached.2 subset⟩

private theorem Attached.append (one : Attached known events) (two : Attached known more) :
    Attached known (events ++ more) := by
  induction events generalizing known with
  | nil => exact two
  | cons event rest ih =>
    cases event with
    | made node => exact ⟨one.1, ih one.2 (two.mono (List.subset_cons_self _ _))⟩
    | listed node itemType => exact ⟨one.1, ih one.2 two⟩

/-- The node of a list is made, then the nodes of everything in the list, and then the node is made
a list. -/
def Placement.ListedIn (list : Placement) (events : List TreeEvent) : Prop :=
  ∃ before node inside after,
    events = before ++ .made node :: (inside ++ .listed node list.expression.itemType :: after) ∧
      list.label? = some node.label ∧
      (madeNodes inside).map TreeNode.label = list.inside.filterMap Placement.label?

private theorem Placement.ListedIn.within {list : Placement} (listed : list.ListedIn events)
    (start rest : List TreeEvent) : list.ListedIn (start ++ events ++ rest) := by
  obtain ⟨before, node, inside, after, rfl, labelled, nodes⟩ := listed
  exact ⟨start ++ before, node, inside, after ++ rest, by simp, labelled, nodes⟩

/-- The lists that are placed, each with the id of its element and its item type. -/
def listsAt (placements : List Placement) : List (Option String × String) :=
  (placements.filter fun placement => placement.expression.kind = "list").map fun list =>
    (list.element.id, list.expression.itemType)

private theorem listsAt_append (first second : List Placement) :
    listsAt (first ++ second) = listsAt first ++ listsAt second := by
  simp [listsAt]

/-- What happens to the tree, where some nodes are known, is what the placements ask for. -/
structure Accounts (placements : List Placement) (known : List TreeNode)
    (events : List TreeEvent) : Prop where
  nodes : (madeNodes events).map TreeNode.label = placements.filterMap Placement.label?
  attached : Attached known events
  lists : ∀ list ∈ placements, list.expression.kind = "list" → list.ListedIn events
  /-- Nothing else is made a list, and no list twice. -/
  calls : ((listCalls events).map fun call => (some call.1.element, call.2)).Perm
    (listsAt placements)

private theorem accounts_nil (known : List TreeNode) : Accounts [] known [] where
  nodes := rfl
  attached := trivial
  lists := by simp
  calls := .nil

private theorem Accounts.append (one : Accounts placements known events)
    (two : Accounts others known more) :
    Accounts (placements ++ others) known (events ++ more) where
  nodes := by rw [madeNodes_append, List.map_append, List.filterMap_append, one.nodes, two.nodes]
  attached := one.attached.append two.attached
  lists list member isList := by
    rcases List.mem_append.mp member with first | second
    · simpa using (one.lists list first isList).within [] more
    · simpa using (two.lists list second isList).within events []
  calls := by
    rw [listCalls_append, List.map_append, listsAt_append]
    exact one.calls.append two.calls

/-! ### One expression -/

section

variable {e : Expression} {stem : String} {item? : Option String} {placements : List Placement}
  {me page node : TreeNode} {events : List TreeEvent}

/-- What a tree script relies on: a list has a node of its own and an item type that can be read
back. -/
structure Expression.IsPlantable (e : Expression) : Prop where
  node : e.kind = "list" → e.trackedId?.isSome = true
  itemType : e.kind = "list" → ',' ∉ e.itemType.toList

def Expression.listed (e : Expression) (node : TreeNode) : List TreeEvent :=
  if e.kind = "list" then [.listed node e.itemType] else []

private theorem Expression.IsPlantable.plain_listing (plantable : e.IsPlantable) :
    ∀ instruction ∈ e.listing, instruction.Plain := by
  intro instruction member
  unfold Expression.listing at member
  split_ifs at member with isList
  · obtain rfl := List.mem_singleton.mp member
    exact plantable.itemType isList
  · cases member

private theorem Expression.grows_listing (e : Expression) (me page : TreeNode) :
    Grows (e.listing.flatMap TreeInstruction.actions) me page (e.listed me) := by
  unfold Expression.listing Expression.listed
  split_ifs
  · exact grows_listify e.itemType
  · exact grows_nil

/-- A tracked id goes on from the id of the node that its own node is put below. -/
theorem ScopedId.fullId_eq (tracked : own.isTracked = true) (around : me.element = stem)
    (home : page.element = pageStem) :
    own.fullId stem = (own.treeParent.node me page).element ++ "-" ++ own.name := by
  obtain ⟨flavor, name⟩ := own
  cases flavor with
  | relative => simp [ScopedId.fullId, ScopedId.treeParent, TreeParent.node, around]
  | global => simp [ScopedId.fullId, ScopedId.treeParent, TreeParent.node, home]
  | literal => cases tracked

private theorem TreeParent.node_mem (parent : TreeParent) (me page : TreeNode) :
    parent.node me page ∈ [me, page] := by
  cases parent <;> simp [TreeParent.node]

private theorem Accounts.enter (tracked : e.trackedId? = some own)
    (whole : e.placements stem item? = ⟨e, stem, item?⟩ :: placements)
    (label : node.label = (own.fullId stem, own.name))
    (below : ∃ parent ∈ [me, page],
      node = .child parent (parent.element ++ "-" ++ node.name) node.name)
    (accounts : Accounts placements [node, page] events) :
    Accounts (⟨e, stem, item?⟩ :: placements) [me, page]
      (.made node :: (events ++ e.listed node)) := by
  have given := (Expression.trackedId?_eq_some.mp tracked).1
  have labelled : Placement.label? ⟨e, stem, item?⟩ = some node.label := by
    simp [Placement.label?, tracked, label]
  have id : (Placement.element ⟨e, stem, item?⟩).id = some node.element := by
    have same : node.element = own.fullId stem := congrArg Prod.fst label
    simp [Placement.element, Expression.ownElement, given, same]
  -- making a list of a node makes no node
  have silent : madeNodes (e.listed node) = [] := by
    unfold Expression.listed
    split_ifs <;> rfl
  constructor
  · show (madeNodes ([.made node] ++ (events ++ e.listed node))).map TreeNode.label = _
    rw [madeNodes_append, madeNodes_append, silent, List.append_nil, List.filterMap_cons, labelled,
      ← accounts.nodes]
    rfl
  · refine ⟨below, Attached.append (accounts.attached.mono ?_) ?_⟩
    · simp
    · unfold Expression.listed
      split_ifs
      · exact ⟨List.mem_cons_self, trivial⟩
      · trivial
  · intro list member isList
    rcases List.mem_cons.mp member with rfl | deeper
    · -- the list itself: between its node and the call is everything in it, and nothing else
      refine ⟨[], node, events, [], ?_, labelled, ?_⟩
      · simp [Expression.listed, show e.kind = "list" from isList]
      · rw [accounts.nodes, Placement.inside, whole, List.tail_cons]
    · exact (accounts.lists list deeper isList).within [.made node] (e.listed node)
  · show ((listCalls ([.made node] ++ (events ++ e.listed node))).map _).Perm _
    rw [listCalls_append, listCalls_append, List.map_append, List.map_append]
    by_cases isList : e.kind = "list"
    · -- the list stands before the lists in it, but its call comes after theirs
      have first : listsAt (⟨e, stem, item?⟩ :: placements) =
          [(some node.element, e.itemType)] ++ listsAt placements := by
        simp [listsAt, isList, id]
      rw [first]
      refine .trans ?_ List.perm_append_comm
      simpa [Expression.listed, isList, listCalls] using accounts.calls.append_right _
    · simpa [Expression.listed, isList, listCalls, listsAt] using accounts.calls

/-- What has no node of its own changes nothing. -/
theorem Accounts.skip (untracked : e.trackedId? = none) (noList : e.kind ≠ "list")
    (accounts : Accounts placements [me, page] events) :
    Accounts (⟨e, stem, item?⟩ :: placements) [me, page] events where
  nodes := by simp [accounts.nodes, Placement.label?, untracked]
  attached := accounts.attached
  lists list member isList := by
    rcases List.mem_cons.mp member with rfl | deeper
    · exact absurd isList noList
    · exact accounts.lists list deeper isList
  calls := by simpa [listsAt, noList] using accounts.calls

end

/-! ### Scripts of expressions -/

/-- Instructions can be read back, and in the block of `me` they do what the placements ask for. -/
def Plants (instructions : List TreeInstruction) (placements : List Placement)
    (me page : TreeNode) : Prop :=
  (∀ instruction ∈ instructions, instruction.Plain) ∧
    ∃ events, Grows (instructions.flatMap TreeInstruction.actions) me page events ∧
      Accounts placements [me, page] events

private theorem plants_nil (me page : TreeNode) : Plants [] [] me page :=
  ⟨by simp, [], grows_nil, accounts_nil _⟩

private theorem Plants.append {first second : List TreeInstruction}
    (one : Plants first placements me page) (two : Plants second others me page) :
    Plants (first ++ second) (placements ++ others) me page := by
  obtain ⟨plain, events, grows, accounts⟩ := one
  obtain ⟨plain', more, grows', accounts'⟩ := two
  refine ⟨?_, events ++ more, ?_, accounts.append accounts'⟩
  · intro instruction member
    exact (List.mem_append.mp member).elim (plain instruction) (plain' instruction)
  · rw [List.flatMap_append]
    exact grows.append grows'

theorem plants_all {children : List Expression} {item? : Option String}
    (each : ∀ child ∈ children,
      Plants (treeScript child stem) (child.placements stem item?) me page) :
    Plants (treeScriptAll children stem) (placementsBlock children stem item?) me page := by
  induction children with
  | nil => exact plants_nil me page
  | cons child rest ih =>
    rw [treeScriptAll, placementsBlock]
    exact (each child List.mem_cons_self).append
      (ih (List.forall_mem_cons.mp each).2)

/-- **What a script plants.** The script of an expression makes the nodes of everything in it. -/
theorem Expression.plants (resolved : e.Throughout Expression.IsResolved)
    (tidy : e.Throughout Expression.IsTidy) (written : e.Throughout Expression.IsWritten)
    (plantable : e.Throughout Expression.IsPlantable) (noPage : e.kind ≠ "page")
    (around : me.element = stem) (home : page.element = pageStem) (item? : Option String) :
    Plants (treeScript e stem) (e.placements stem item?) me page := by
  induction e using Expression.inductionOn generalizing stem me item? with
  | step owner ih =>
    -- `me` changes with every block that is opened, so the statement about a child is for any node
    -- whose id is what the ids in the child are relative to
    have whole := Expression.placements_eq tidy.here written.here noPage stem item?
    have inside : ∀ node : TreeNode, node.element = innerStem owner stem →
        Plants (treeScriptAll owner.inner (innerStem owner stem)) (placementsBlock owner.inner
          (innerStem owner stem) (owner.itemBelow item?)) node page := by
      intro node same
      apply plants_all
      intro child member
      obtain ⟨name, -, held⟩ := Expression.holds_of_inner member
      exact ih name child held (resolved.child held) (tidy.child held) (written.child held)
        (plantable.child held) (resolved.here.pages name child held) same _
    rw [whole]
    cases tracked : owner.trackedId? with
    | some own =>
      have isTracked := (Expression.trackedId?_eq_some.mp tracked).2
      let node := TreeNode.child (own.treeParent.node me page) (own.fullId stem) own.name
      rw [innerStem_of_tracked tracked] at inside whole ⊢
      obtain ⟨plain, events, grows, accounts⟩ := inside node rfl
      refine ⟨?_, _, ?_, accounts.enter tracked whole rfl ⟨_, own.treeParent.node_mem me page, ?_⟩⟩
      · rw [treeScript_tracked tracked]
        simp only [List.mem_cons, List.mem_append, List.not_mem_nil, or_false]
        rintro instruction (rfl | (among | listing) | rfl)
        · trivial
        · exact plain instruction among
        · exact plantable.here.plain_listing instruction listing
        · trivial
      · have enter := (grows.append (owner.grows_listing node page)).enter
        simpa [treeScript_tracked tracked, TreeInstruction.actions] using enter
      · exact congrArg (TreeNode.child _ · own.name) (ScopedId.fullId_eq isTracked around home)
    | none =>
      -- no block is opened, and a list would have a node
      have noList : owner.kind ≠ "list" := by
        intro isList
        simpa [tracked] using plantable.here.node isList
      have script : treeScript owner stem = treeScriptAll owner.inner stem := by
        simp [treeScript_untracked tracked, Expression.listing, noList]
      rw [innerStem_of_untracked tracked] at inside ⊢
      rw [script]
      obtain ⟨plain, events, grows, accounts⟩ := inside me around
      exact ⟨plain, events, grows, accounts.skip tracked noList⟩

end Pagewright
