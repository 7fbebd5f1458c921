import Pagewright.Proofs.InstanceIdentifiers
import Pagewright.Proofs.ResolvedExports

/-!
# Identifiers and links of a whole session

A session takes all its identifiers from one supply, through any sequence of
reading and analysing, whether these succeed or not. As long as the supply has
not come round, an identifier stands for one expression of the session, and an
export is a tree in which every expression names the owner of its block as its
parent.

`Transcript.next` makes one call. What it keeps is `Transcript.Accounted`: every
identifier seen so far was handed out before. The main result is
`exports_coherent`.
-/

namespace Pagewright

open Outcome

variable {session session' : Session} {set : ExportSet}

/-! ### Everything below an expression -/

inductive Argument.Keeps (child : Expression) : Argument → Prop
  | block {children : List Expression} : child ∈ children → Keeps child (.block children)
  | list {items : List Argument} {item : Argument} : item ∈ items → Keeps child item →
      Keeps child (.list items)

/-- `child` stands in a block that belongs to `owner`. -/
def Expression.Owns (owner child : Expression) : Prop :=
  ∃ name value, (name, value) ∈ owner.arguments ∧ value.Keeps child

private theorem Expression.IsResolved.holds_of_owns {owner child : Expression}
    (resolved : owner.IsResolved) (owns : owner.Owns child) : ∃ name, owner.Holds name child := by
  obtain ⟨name, value, member, keeps⟩ := owns
  cases keeps with
  | @block children inside => exact ⟨name, children, member, inside⟩
  | @list items item inside keeps =>
    obtain ⟨text, rfl⟩ := resolved.final name _ member item inside
    cases keeps

theorem Expression.Throughout.contains_of_owns {root inner : Expression}
    (resolved : root.Throughout Expression.IsResolved)
    (below : Relation.ReflTransGen Expression.Owns root inner) : root.Contains inner := by
  induction below with
  | refl => exact root.contains_self
  | tail _ owns ih =>
    obtain ⟨name, held⟩ := (resolved _ ih).holds_of_owns owns
    exact ih.trans held.contains

/-- Where lists hold texts, blocks in lists do not count. -/
theorem Expression.Throughout.ids_eq {e : Expression}
    (resolved : e.Throughout Expression.IsResolved) : e.ids true = e.ids false := by
  induction e using Expression.inductionOn with
  | step owner ih =>
    rw [Expression.ids_eq, Expression.ids_eq, argumentsIds_eq, argumentsIds_eq]
    congr 2
    apply List.map_congr_left
    rintro ⟨name, value⟩ member
    cases value with
    | block children =>
      simp only [Argument.ids, blockIds_eq]
      congr 1
      apply List.map_congr_left
      intro child inside
      have held : owner.Holds name child := ⟨children, member, inside⟩
      exact ih name child held (resolved.child held)
    | list items =>
      simp only [Argument.ids, if_true, itemsIds_eq]
      apply List.sum_eq_zero
      intro ids among
      obtain ⟨item, inside, rfl⟩ := List.mem_map.mp among
      obtain ⟨text, rfl⟩ := resolved.here.final name _ member item inside
      rfl
    | atom | text | number => rfl

/-! ### One analysis -/

def ExportSet.ids (set : ExportSet) : Multiset ExpressionId :=
  blockIds true set.exports

def Session.readIds (session : Session) : Multiset ExpressionId :=
  blockIds true session.expressions

/-- Lists of what is resolved hold no expressions. -/
theorem blockIds_of_resolved {roots : List Expression}
    (resolved : ∀ root ∈ roots, root.Throughout Expression.IsResolved) :
    blockIds true roots = blockIds false roots := by
  rw [blockIds_eq, blockIds_eq]
  congr 1
  apply List.map_congr_left
  intro root member
  exact (resolved root member).ids_eq

/-- Whatever a session holds, an analysis takes the identifiers of its exports from the supply, and
links everything in a block to its owner. -/
theorem Session.analyze_linked (run : Session.analyze session = .ok set session') :
    session.ids.next ≤ session'.ids.next ∧
      blockIds false set.exports ≤ issued session.ids.next session'.ids.next ∧
      ∀ root ∈ set.exports, root.parent = none ∧ root.Throughout Expression.IsLinked := by
  obtain ⟨table, w, made, built, rfl⟩ := Session.analyze_ok.mp run
  obtain ⟨markers, roots, u, -, instances, rfl, rfl⟩ := Session.buildExports_ok.mp built
  have distinct := (Table.ofExpressions_holds made).distinct
  exact instantiateAll_ids distinct instances

/-- An analysis takes new identifiers only, each of them once. -/
theorem Session.Reachable.analyze_coherent (reachable : session.Reachable)
    (run : Session.analyze session = .ok set session') :
    session.ids.next ≤ session'.ids.next ∧
      set.ids ≤ issued session.ids.next session'.ids.next ∧
      ∀ root ∈ set.exports, root.Throughout Expression.IsResolved ∧ root.parent = none ∧
        root.Throughout Expression.IsLinked := by
  obtain ⟨table, -, checked, exports⟩ := reachable.analyze_sound run
  have resolved : ∀ root ∈ set.exports, root.Throughout Expression.IsResolved := by
    intro root member
    obtain ⟨name, -, exported⟩ := exists_of_forall₂_right exports member
    exact (exported.resolved checked).2
  obtain ⟨grows, fresh, linked⟩ := Session.analyze_linked run
  rw [ExportSet.ids, blockIds_of_resolved resolved]
  exact ⟨grows, fresh, fun root member => ⟨resolved root member, linked root member⟩⟩

/-- An analysis that fails does not take the supply back either. -/
theorem Session.analyze_next (session : Session) :
    session.ids.next ≤ (session.after Session.analyze).ids.next := by
  have balances : ∀ plan, workshopLedger.Balances 0 (fun _ => 0) (Session.buildExports plan) := by
    intro plan
    unfold Session.buildExports
    apply (balances_onMarkers _).andThen
    intro _
    apply instantiateAll_balances.andThen
    intro exports
    apply Ledger.Balances.get.andThen
    intro w
    exact .pure le_rfl
  unfold Session.after Session.analyze
  cases Table.ofExpressions session.expressions with
  | error e => exact le_rfl
  | ok table =>
    dsimp only
    cases run : Session.buildExports (Session.plan session.config table) { ids := session.ids } with
    | error e w => exact ((balances _).error run).next
    | ok set w => exact ((balances _).ok run).next

theorem Session.parse_next (session : Session) (source : String) :
    session.ids.next ≤ (session.after (Session.parse source)).ids.next ∧
      (session.after (Session.parse source)).readIds ≤
        session.readIds +
          issued session.ids.next (session.after (Session.parse source)).ids.next := by
  have read := parseSource_next source session.ids
  unfold Session.after Session.parse
  cases run : parseSource source session.ids with
  | error e ids =>
    rw [run] at read
    exact ⟨read, Multiset.le_add_right _ _⟩
  | ok added ids =>
    rw [run] at read
    refine ⟨read.1, ?_⟩
    show blockIds true (session.expressions ++ added) ≤ blockIds true session.expressions + _
    rw [blockIds_eq, List.map_append, List.sum_append, ← blockIds_eq, ← blockIds_eq]
    exact add_le_add le_rfl read.2

/-! ### Sequences of calls -/

inductive Call where
  | parse (source : String)
  | parseFile (tree : FileTree) (name : String)
  | analyze

/-- A session with the results of its successful analyses, latest first. -/
structure Transcript where
  session : Session
  results : List ExportSet := []

namespace Transcript

/-- Makes one call; a call that fails adds no result. -/
def next (transcript : Transcript) : Call → Transcript
  | .parse source =>
    { transcript with session := transcript.session.after (Session.parse source) }
  | .parseFile tree name =>
    { transcript with session := transcript.session.after (Session.parseFile tree name) }
  | .analyze =>
    match Session.analyze transcript.session with
    | .ok set session => ⟨session, set :: transcript.results⟩
    | .error _ session => { transcript with session }

def run (config : Config) (calls : List Call) : Transcript :=
  calls.foldl next { session := { config } }

/-- Every identifier in what was read or exported has been handed out. -/
structure Accounted (transcript : Transcript) : Prop where
  reachable : transcript.session.Reachable
  started : 1 ≤ transcript.session.ids.next
  read : transcript.session.readIds ⊆ issued 1 transcript.session.ids.next
  exported : ∀ set ∈ transcript.results, set.ids ⊆ issued 1 transcript.session.ids.next

variable {transcript : Transcript}

private theorem Accounted.parse (accounted : transcript.Accounted) (source : String) :
    (transcript.next (.parse source)).Accounted := by
  obtain ⟨grows, read⟩ := transcript.session.parse_next source
  obtain ⟨earlier, later⟩ := issued_subsets accounted.started grows
  refine ⟨.parse source accounted.reachable, accounted.started.trans grows, ?_, ?_⟩
  · intro id member
    rcases Multiset.mem_add.mp (Multiset.mem_of_le read member) with old | new
    · exact earlier (accounted.read old)
    · exact later new
  · intro set member
    exact Multiset.Subset.trans (accounted.exported set member) earlier

private theorem Accounted.analyze {transcript : Transcript} (accounted : transcript.Accounted) :
    (transcript.next .analyze).Accounted := by
  have grows := transcript.session.analyze_next
  have same := transcript.session.after_analyze_expressions
  obtain ⟨earlier, later⟩ := issued_subsets accounted.started grows
  have reachable : (transcript.session.after Session.analyze).Reachable :=
    .analyze accounted.reachable
  have read : (transcript.session.after Session.analyze).readIds ⊆
      issued 1 (transcript.session.after Session.analyze).ids.next := by
    unfold Session.readIds
    rw [same]
    exact Multiset.Subset.trans accounted.read earlier
  have old : ∀ set ∈ transcript.results,
      set.ids ⊆ issued 1 (transcript.session.after Session.analyze).ids.next :=
    fun set member => Multiset.Subset.trans (accounted.exported set member) earlier
  unfold Session.after at grows reachable read old later
  unfold Transcript.next
  cases analyzed : Session.analyze transcript.session with
  | error e session =>
    simp only [analyzed] at grows reachable read old
    exact ⟨reachable, accounted.started.trans grows, read, old⟩
  | ok set session =>
    simp only [analyzed] at grows reachable read old later
    refine ⟨reachable, accounted.started.trans grows, read, ?_⟩
    intro other member
    rcases List.mem_cons.mp member with rfl | earlierSet
    · obtain ⟨-, fresh, -⟩ := accounted.reachable.analyze_coherent analyzed
      exact Multiset.Subset.trans (Multiset.subset_of_le fresh) later
    · exact old other earlierSet

/-- One call keeps the account. -/
theorem Accounted.next (accounted : transcript.Accounted) (call : Call) :
    (transcript.next call).Accounted := by
  cases call with
  | parse source => exact accounted.parse source
  | analyze => exact accounted.analyze
  | parseFile tree name =>
    have reachable : (transcript.session.after (Session.parseFile tree name)).Reachable :=
      .parseFile tree name accounted.reachable
    unfold Transcript.next
    rcases transcript.session.after_parseFile tree name with same | ⟨source, same⟩
    · dsimp only
      rw [same]
      exact accounted
    · dsimp only
      rw [same]
      exact accounted.parse source

/-- So does a whole session. -/
theorem run_accounted (config : Config) (calls : List Call) : (run config calls).Accounted := by
  have start : Accounted { session := { config } } :=
    ⟨.start config, le_rfl, by simp [Session.readIds, blockIds], by simp⟩
  have general : ∀ (calls : List Call) (transcript : Transcript), transcript.Accounted →
      (calls.foldl Transcript.next transcript).Accounted := by
    intro calls
    induction calls with
    | nil => exact fun transcript accounted => accounted
    | cons call rest ih => exact fun transcript accounted => ih _ (accounted.next call)
  exact general calls _ start

end Transcript

/-- **Identifiers and links are coherent.** After any calls on one session, an analysis that succeeds
before the supply comes round exports identifiers that are pairwise distinct, and different from all
those in what was read and in what was exported before; its exports stand in no block, and everything
in a block of theirs has the owner of the block as its parent. -/
theorem exports_coherent (config : Config) (calls : List Call) {set : ExportSet}
    {session' : Session}
    (run : Session.analyze (Transcript.run config calls).session = .ok set session')
    (fits : session'.ids.next ≤ UInt32.size) :
    set.ids.Nodup ∧
      (∀ id ∈ set.ids, id ∉ session'.readIds ∧
        ∀ earlier ∈ (Transcript.run config calls).results, id ∉ earlier.ids) ∧
      ∀ root ∈ set.exports, root.parent = none ∧
        ∀ owner, Relation.ReflTransGen Expression.Owns root owner →
          ∀ child, owner.Owns child → child.parent = some owner.id := by
  have accounted := Transcript.run_accounted config calls
  generalize Transcript.run config calls = transcript at run accounted
  obtain ⟨grows, fresh, roots⟩ := accounted.reachable.analyze_coherent run
  -- what was handed out before and what is new have nothing in common
  have all : (issued 1 transcript.session.ids.next +
      issued transcript.session.ids.next session'.ids.next).Nodup := by
    rw [issued_add accounted.started grows]
    exact issued_nodup fits
  obtain ⟨-, new, disjoint⟩ := Multiset.nodup_add.mp all
  have apart : ∀ id ∈ set.ids, id ∉ issued 1 transcript.session.ids.next := by
    intro id member old
    exact Multiset.disjoint_left.mp disjoint old (Multiset.mem_of_le fresh member)
  refine ⟨Multiset.nodup_of_le fresh new, ?_, ?_⟩
  · intro id member
    constructor
    · intro read
      obtain ⟨table, w, -, -, rfl⟩ := Session.analyze_ok.mp run
      exact apart id member (accounted.read read)
    · intro earlier among exported
      exact apart id member (accounted.exported earlier among exported)
  · intro root member
    obtain ⟨resolved, unlinked, linked⟩ := roots root member
    refine ⟨unlinked, ?_⟩
    intro owner below child owns
    have contained := resolved.contains_of_owns below
    obtain ⟨name, held⟩ := (resolved owner contained).holds_of_owns owns
    exact linked owner contained name child held

/-- Two definitions, one of them with rows of the other, analysed twice with a text in between that
cannot be read. -/
def repeatedCalls : List Call :=
  [.parse ("div defines: \"item\", body: \x7b text value: \"one\" \x7d\n" ++
    "page defines: \"start\", body: \x7b list id: \"all\", type: \"item\", initial: 2 \x7d\n"),
    .analyze, .parse "div body: \x7b p", .analyze]

theorem exports_coherent_repeated :
    (Transcript.run {} repeatedCalls).results.map ExportSet.names =
        [["item", "start"], ["item", "start"]] ∧
      ∃ set session', Session.analyze (Transcript.run {} repeatedCalls).session =
          .ok set session' ∧ session'.ids.next ≤ UInt32.size ∧ set.ids.Nodup ∧
        ∀ id ∈ set.ids, id ∉ session'.readIds ∧
          ∀ earlier ∈ (Transcript.run {} repeatedCalls).results, id ∉ earlier.ids := by
  have analyzed : (Transcript.run {} repeatedCalls).session.exportSet?.isSome = true := by
    decide +kernel
  have bound : ((Transcript.run {} repeatedCalls).session.after Session.analyze).ids.next ≤
      UInt32.size := by
    decide +kernel
  obtain ⟨set, found⟩ := Option.isSome_iff_exists.mp analyzed
  obtain ⟨session', run⟩ := Session.exportSet?_eq_some.mp found
  have fits : session'.ids.next ≤ UInt32.size := by
    unfold Session.after at bound
    rwa [run] at bound
  obtain ⟨distinct, apart, -⟩ := exports_coherent {} repeatedCalls run fits
  exact ⟨by decide +kernel, set, session', run, fits, distinct, apart⟩

end Pagewright
