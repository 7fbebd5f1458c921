import Mathlib.Combinatorics.Pigeonhole
import Pagewright.Proofs.Clearance

/-!
# Chains of kinds

`kindChain` follows the kinds of definitions without any bound. `resolveKind`
looks at no more names than the table has, and one more. This is enough: as long
as it meets neither a built-in kind nor an unknown name it is at a name of the
table, so after so many steps it has met one of them twice, and from there on
the chain repeats itself.
-/

namespace Pagewright

variable {m : Nat} {result : Except Error Kind} {current missing : String}

namespace Table

variable {table : Table} {name : String} {n : Nat}

def writtenKind? (table : Table) (name : String) : Option String :=
  (table.find? name).map fun definition => definition.expression.kind

/-- The names that a chain of kinds comes by: first the name it starts from, then the kind of its
definition, then the kind of that kind's definition, and so on for as long as there are definitions.
-/
def kindChain (table : Table) (name : String) : Nat → Option String
  | 0 => some name
  | n + 1 => (table.kindChain name n).bind table.writtenKind?

/-- After `n` steps the chain has not ended: there are definitions up to here, and no kind on the
way is built in. The name at the start is that of a definition, whatever it looks like. -/
structure KeepsOn (table : Table) (name : String) (n : Nat) : Prop where
  goes : ∃ current, table.kindChain name n = some current
  other : ∀ i kind, 0 < i → i ≤ n → table.kindChain name i = some kind → Kind.isBuiltIn kind = false

/-! ### Steps of a chain -/

private theorem kindChain_succ (here : table.kindChain name n = some current) :
    table.kindChain name (n + 1) = table.writtenKind? current := by
  simp [kindChain, here]

theorem KeepsOn.zero (table : Table) (name : String) : table.KeepsOn name 0 :=
  ⟨⟨name, rfl⟩, fun i kind positive none => by omega⟩

private theorem KeepsOn.succ {kind : String} (keepsOn : table.KeepsOn name n)
    (next : table.kindChain name (n + 1) = some kind) (other : Kind.isBuiltIn kind = false) :
    table.KeepsOn name (n + 1) where
  goes := ⟨kind, next⟩
  other i found positive upTo at_i := by
    rcases Nat.le_succ_iff.mp upTo with earlier | rfl
    · exact keepsOn.other i found positive earlier at_i
    · rw [next] at at_i
      exact Option.some.inj at_i ▸ other

private theorem KeepsOn.pred (keepsOn : table.KeepsOn name (n + 1)) : table.KeepsOn name n where
  goes := by
    obtain ⟨kind, next⟩ := keepsOn.goes
    obtain ⟨current, here, -⟩ := Option.bind_eq_some_iff.mp next
    exact ⟨current, here⟩
  other i kind positive upTo := keepsOn.other i kind positive (Nat.le_succ_of_le upTo)

theorem KeepsOn.mono (keepsOn : table.KeepsOn name n) (fewer : m ≤ n) : table.KeepsOn name m := by
  induction fewer with
  | refl => exact keepsOn
  | step _ ih => exact ih keepsOn.pred

/-- Every name that the chain goes on from is one of the table. -/
theorem KeepsOn.known (keepsOn : table.KeepsOn name (n + 1)) :
    ∃ current ∈ table.names, table.kindChain name n = some current := by
  obtain ⟨kind, next⟩ := keepsOn.goes
  obtain ⟨current, here, written⟩ := Option.bind_eq_some_iff.mp next
  obtain ⟨definition, found, -⟩ := Option.map_eq_some_iff.mp written
  exact ⟨current, mem_names_of_find? found, here⟩

/-! ### Chains that repeat themselves -/

private theorem kindChain_repeats {i j : Nat}
    (same : table.kindChain name i = table.kindChain name j) (more : Nat) :
    table.kindChain name (i + more) = table.kindChain name (j + more) := by
  induction more with
  | zero => exact same
  | succ more ih =>
    show (table.kindChain name (i + more)).bind _ = (table.kindChain name (j + more)).bind _
    rw [ih]

/-- A chain that is longer than the table comes by one name twice. -/
theorem KeepsOn.exists_repeat (keepsOn : table.KeepsOn name (table.size + 1)) :
    ∃ i j, i < j ∧ j ≤ table.size ∧ table.kindChain name i = table.kindChain name j := by
  have known : ∀ i ∈ Finset.range (table.size + 1),
      (table.kindChain name i).getD name ∈ table.names.toFinset := by
    intro i member
    have short : i + 1 ≤ table.size + 1 := Finset.mem_range.mp member
    obtain ⟨current, among, here⟩ := (keepsOn.mono short).known
    simpa [here] using among
  have fewer : table.names.toFinset.card < (Finset.range (table.size + 1)).card := by
    have atMost := table.names.toFinset_card_le
    rw [Catalog.names, List.length_map] at atMost
    rw [Finset.card_range]
    exact Nat.lt_succ_of_le atMost
  obtain ⟨i, isFirst, j, isSecond, apart, same⟩ :=
    Finset.exists_ne_map_eq_of_card_lt_of_maps_to fewer known
  obtain ⟨first, atFirst⟩ := (keepsOn.mono (Finset.mem_range.mp isFirst).le).goes
  obtain ⟨second, atSecond⟩ := (keepsOn.mono (Finset.mem_range.mp isSecond).le).goes
  have equal : table.kindChain name i = table.kindChain name j := by
    rw [atFirst, atSecond] at same ⊢
    exact congrArg some same
  rcases Nat.lt_or_gt_of_ne apart with before | after
  · exact ⟨i, j, before, Nat.le_of_lt_succ (Finset.mem_range.mp isSecond), equal⟩
  · exact ⟨j, i, after, Nat.le_of_lt_succ (Finset.mem_range.mp isFirst), equal.symm⟩

/-- So it never ends. -/
theorem KeepsOn.forever (keepsOn : table.KeepsOn name (table.size + 1)) (n : Nat) :
    table.KeepsOn name n := by
  obtain ⟨i, j, before, inside, same⟩ := keepsOn.exists_repeat
  induction n with
  | zero => exact .zero table name
  | succ n ih =>
    by_cases short : n < table.size + 1
    · exact keepsOn.mono short
    · -- the next name has been met one period earlier, and not as the start of the chain
      have again := kindChain_repeats same (n + 1 - j)
      rw [Nat.add_sub_cancel' (by omega : j ≤ n + 1)] at again
      have earlier : table.KeepsOn name (i + (n + 1 - j)) := ih.mono (by omega)
      obtain ⟨kind, there⟩ := earlier.goes
      exact ih.succ (again ▸ there) (earlier.other _ kind (by omega) le_rfl there)

/-! ### How chains end -/

/-- What the chain of kinds from `name` on says, however long it is. -/
inductive ChainEnds (table : Table) (name : String) : Except Error Kind → Prop
  | builtIn {n : Nat} {kind : Kind} : table.KeepsOn name n →
      table.kindChain name (n + 1) = some kind.name → ChainEnds table name (.ok kind)
  | unknown {n : Nat} {missing : String} : table.KeepsOn name n →
      table.kindChain name n = some missing → missing ∉ table.names →
      ChainEnds table name (.error (.reference (.unknownDefinition missing)))
  | never : (∀ n, table.KeepsOn name n) → ChainEnds table name (.error (.cycle name))

theorem find?_eq_none {name : String} : table.find? name = none ↔ name ∉ table.names := by
  rw [mem_names_iff, not_exists]
  exact Option.eq_none_iff_forall_ne_some

/-- The search says what the chain says, unless the chain is longer than the budget. -/
theorem followKind_ends (budget : Nat) (keepsOn : table.KeepsOn name n)
    (here : table.kindChain name n = some current) :
    table.ChainEnds name (table.followKind name budget current) ∨
      table.followKind name budget current = .error (.cycle name) ∧
        table.KeepsOn name (n + budget) := by
  induction budget generalizing n current with
  | zero => exact .inr ⟨rfl, keepsOn⟩
  | succ budget ih =>
    have next := kindChain_succ here
    unfold followKind
    cases found : table.find? current with
    | none => exact .inl (.unknown keepsOn here (find?_eq_none.mp found))
    | some definition =>
      simp only [writtenKind?, found, Option.map_some] at next
      dsimp only
      cases named : Kind.ofName? definition.expression.kind with
      | some kind =>
        rw [← Kind.name_of_ofName? named] at next
        exact .inl (.builtIn keepsOn next)
      | none =>
        have other : Kind.isBuiltIn definition.expression.kind = false := by
          simp [Kind.isBuiltIn, named]
        rw [Nat.add_comm budget, ← Nat.add_assoc]
        exact ih (keepsOn.succ next other) next

private theorem resolveKind_ends (table : Table) (name : String) :
    table.ChainEnds name (table.resolveKind name) := by
  rcases followKind_ends (table.size + 1) (.zero table name) rfl with ends | ⟨exhausted, keepsOn⟩
  · exact ends
  · rw [resolveKind, exhausted]
    rw [Nat.zero_add] at keepsOn
    exact .never keepsOn.forever

/-- The number of steps after which a chain ends. -/
theorem KeepsOn.eq_of_stop (first : table.KeepsOn name n) (second : table.KeepsOn name m)
    (stop : ¬table.KeepsOn name (n + 1)) (stop' : ¬table.KeepsOn name (m + 1)) : n = m := by
  by_contra apart
  rcases Nat.lt_or_gt_of_ne apart with before | after
  · exact stop (second.mono before)
  · exact stop' (first.mono after)

private theorem not_keepsOn_builtIn {kind : Kind}
    (next : table.kindChain name (n + 1) = some kind.name) : ¬table.KeepsOn name (n + 1) := by
  intro keepsOn
  have other := keepsOn.other (n + 1) kind.name (Nat.succ_pos n) le_rfl next
  simp [Kind.isBuiltIn, Kind.ofName?_name] at other

private theorem kindChain_unknown (here : table.kindChain name n = some missing)
    (absent : missing ∉ table.names) : table.kindChain name (n + 1) = none := by
  rw [kindChain_succ here, writtenKind?, find?_eq_none.mpr absent]
  rfl

private theorem not_keepsOn_unknown (here : table.kindChain name n = some missing)
    (absent : missing ∉ table.names) : ¬table.KeepsOn name (n + 1) := by
  rintro ⟨⟨current, next⟩, -⟩
  rw [kindChain_unknown here absent] at next
  cases next

/-- A chain ends in one way only. -/
theorem ChainEnds.unique {result' : Except Error Kind} (ends : table.ChainEnds name result)
    (ends' : table.ChainEnds name result') : result = result' := by
  cases ends with
  | @builtIn n kind keepsOn next =>
    have stop := not_keepsOn_builtIn next
    cases ends' with
    | @builtIn m kind' keepsOn' next' =>
      obtain rfl := keepsOn.eq_of_stop keepsOn' stop (not_keepsOn_builtIn next')
      have names : kind.name = kind'.name := Option.some.inj (next.symm.trans next')
      rw [Kind.eq_of_ofName? (Kind.ofName?_name kind) names]
    | @unknown m missing keepsOn' here absent =>
      obtain rfl := keepsOn.eq_of_stop keepsOn' stop (not_keepsOn_unknown here absent)
      rw [kindChain_unknown here absent] at next
      cases next
    | never always => exact absurd (always _) stop
  | @unknown n missing keepsOn here absent =>
    have stop := not_keepsOn_unknown here absent
    cases ends' with
    | @builtIn m kind keepsOn' next =>
      obtain rfl := keepsOn.eq_of_stop keepsOn' stop (not_keepsOn_builtIn next)
      rw [kindChain_unknown here absent] at next
      cases next
    | @unknown m missing' keepsOn' here' absent' =>
      obtain rfl := keepsOn.eq_of_stop keepsOn' stop (not_keepsOn_unknown here' absent')
      rw [Option.some.inj (here.symm.trans here')]
    | never always => exact absurd (always _) stop
  | never always =>
    cases ends' with
    | builtIn _ next => exact absurd (always _) (not_keepsOn_builtIn next)
    | unknown _ here absent => exact absurd (always _) (not_keepsOn_unknown here absent)
    | never => rfl

/-- The bounded search finds what the unbounded chain ends in. -/
theorem resolveKind_eq_iff : table.resolveKind name = result ↔ table.ChainEnds name result := by
  constructor
  · rintro rfl
    exact resolveKind_ends table name
  · exact (resolveKind_ends table name).unique

end Table

/-- **Kinds are resolved exactly.** For every table and every name, resolving the name's kind gives
the first built-in kind that the unbounded chain of kinds comes by; it reports a name that is not
defined if the chain comes by this name before any built-in kind; and it reports a cycle if the chain
goes on for ever. It gives each of these answers in no other case, and no other reference or cycle
is reported. -/
theorem resolveKind_follows_chain (table : Table) (name : String) :
    (∀ kind, table.resolveKind name = .ok kind ↔
      ∃ n, table.KeepsOn name n ∧ table.kindChain name (n + 1) = some kind.name) ∧
    (∀ fault, table.resolveKind name = .error (.reference fault) ↔
      ∃ n missing, table.KeepsOn name n ∧ table.kindChain name n = some missing ∧
        missing ∉ table.names ∧ fault = .unknownDefinition missing) ∧
    (∀ symbol, table.resolveKind name = .error (.cycle symbol) ↔
      symbol = name ∧ ∀ n, table.KeepsOn name n) := by
  refine ⟨fun kind => ?_, fun fault => ?_, fun symbol => ?_⟩
  · rw [Table.resolveKind_eq_iff]
    constructor
    · rintro (⟨keepsOn, next⟩ | _ | _)
      exact ⟨_, keepsOn, next⟩
    · rintro ⟨n, keepsOn, next⟩
      exact .builtIn keepsOn next
  · rw [Table.resolveKind_eq_iff]
    constructor
    · rintro (_ | ⟨keepsOn, here, absent⟩ | _)
      exact ⟨_, _, keepsOn, here, absent, rfl⟩
    · rintro ⟨n, missing, keepsOn, here, absent, rfl⟩
      exact .unknown keepsOn here absent
  · rw [Table.resolveKind_eq_iff]
    constructor
    · rintro (_ | _ | always)
      exact ⟨rfl, always⟩
    · rintro ⟨rfl, always⟩
      exact .never always

-- the longest chain that ends: through all definitions of the table, to a name that none of them has
example :
    Table.resolveKind
        { definitions := [⟨"box", ⟨1, none, "frame", []⟩⟩, ⟨"frame", ⟨2, none, "panel", []⟩⟩]
          places := [("box", 0), ("frame", 1)] } "box" =
      .error (.reference (.unknownDefinition "panel")) := by
  decide

end Pagewright
