import Pagewright.Proofs.Exports
import Pagewright.Proofs.KindChains
import Pagewright.Proofs.MergeTrace

/-!
# The rules for references

A reference either inherits from a definition of its own built-in kind, or its
kind is the name of a definition. The walk of a definition applies these rules
to what it comes by, but it does not go below an expression that refers to
something or takes parameters. So an instance may be made from references that
break the rules. All of them name definitions, though, and what is merged in has
the kind at the end of its definition's chain of kinds.
-/

namespace Pagewright

open Outcome

/-! ### Chains of kinds -/

variable {table : Table} {rowLimit budget : Nat} {e node inner : Expression} {context : Context}
  {merged : Merge} {name : String} {definition : Definition} {kind : Kind} {ids : IdScope}

/-- The table's size is enough for every search that ends. -/
theorem Table.resolveKind_of_followKind {current : String}
    (found : table.followKind name budget current = .ok kind) :
    table.resolveKind current = .ok kind := by
  have own : table.followKind current budget current = .ok kind := Table.followKind_more found le_rfl
  rcases Table.followKind_ends budget (.zero table current) rfl with ends | ⟨exhausted, -⟩
  · exact Table.resolveKind_eq_iff.mpr (own ▸ ends)
  · rw [own] at exhausted
    cases exhausted

/-- The kind of an expression that has been entered is built in, or leads to a built-in one. -/
theorem enter_kind {entered : Entered} {s s' : List String}
    (run : enter (recording table rowLimit) e context ids s = .ok entered s')
    (other : Kind.ofName? e.kind = none) : ∃ kind, table.resolveKind e.kind = .ok kind := by
  simp only [enter, bind_ok, ofExcept_ok] at run
  obtain ⟨_, _, -, _, _, -, ⟨kind, byKind⟩, t, kinded, -⟩ := run
  simp only [kindOf, other] at kinded
  split_ifs at kinded with unknown inherits inherits
  iterate 3
    obtain ⟨_, _, thrown, -⟩ := bind_ok.mp kinded
    exact (throw_ok.mp thrown).elim
  obtain ⟨filled, u, -, rest⟩ := bind_ok.mp kinded
  obtain ⟨found, _, resolved, -⟩ := bind_ok.mp rest
  exact ⟨found, (ofExcept_ok.mp resolved).1⟩

/-- Every chain of kinds in a table that clears ends with a built-in kind. -/
theorem Table.Clear.resolveKind (clear : table.Clear rowLimit)
    (found : table.find? name = some definition) : ∃ kind, table.resolveKind name = .ok kind := by
  cases named : Kind.ofName? definition.expression.kind with
  | some kind => exact ⟨kind, by simp only [Table.resolveKind, Table.followKind, found, named]⟩
  | none =>
    obtain ⟨depth, clears⟩ := clear name (Table.mem_names_of_find? found)
    obtain ⟨context, ids, entered, s, s', run⟩ := clears.entered found
    obtain ⟨kind, resolved⟩ := enter_kind run named
    -- one step more than the budget allows, which then is not needed
    have more : table.followKind name (table.size + 2) name = .ok kind := by
      simp only [Table.followKind, found, named]
      exact Table.followKind_more resolved le_rfl
    exact ⟨kind, Table.resolveKind_of_followKind more⟩

/-! ### What a walk comes by -/

/-- `inner` is reached from the expression through concrete expressions only. -/
inductive Expression.Exposes : Expression → Expression → Prop
  | here (e : Expression) : Exposes e e
  | inside {e child inner : Expression} {name : String} (concrete : e.isConcrete = true)
      (held : e.Holds name child) (rest : Exposes child inner) : Exposes e inner

variable {σ : Type} {rules : Rules σ}

private theorem Admitted.textName {stem : String} (admitted : Admitted rules context e kind stem)
    (linked : e.parent.isSome = true) : e.TextName := by
  have nesting := admitted.nesting
  have missing : e.get? "defines" = none := by
    simpa [checkNesting, linked, Expression.has] using nesting
  intro value written
  rw [missing] at written
  cases written

/-- A walk enters everything that is exposed. -/
theorem walk_exposed (exposes : e.Exposes inner) {ids' : IdScope} {s s' : σ}
    (tidy : e.Throughout Expression.IsTidy) (named : e.parent.isSome = true ∨ e.TextName)
    (strict : e.isConcrete = true → context.concrete = true)
    (run : walk rules e context ids s = .ok ids' s') :
    ∃ context ids entered t t', enter rules inner context ids t = .ok entered t' := by
  induction exposes generalizing context ids ids' s s' with
  | here e =>
    obtain ⟨entered, t, entering, -⟩ := walk_ok.mp run
    exact ⟨context, ids, entered, s, t, entering⟩
  | @inside e child inner name concrete held _ ih =>
    -- a concrete expression is walked with everything in the one block it has
    obtain ⟨-, inherits, builtIn⟩ := Expression.isConcrete_iff.mp concrete
    obtain ⟨kind, known⟩ := Option.isSome_iff_exists.mp builtIn
    have plain := Expression.IsPlain.mk tidy.here builtIn inherits
    obtain ⟨_, _, _, _, -, -, admitted, walked⟩ :=
      walk_concrete (strict concrete) concrete known run
    have settled := admitted.settled plain (named.elim admitted.textName id)
    obtain ⟨-, before, after, u, u', child⟩ := mem_walkBlock walked (settled.mem_contents held)
    exact ih (tidy.child held) (.inl (tidy.here.linked _ _ held)) (fun _ => rfl) child

variable {plan : Plan}

private theorem Plan.Checked.exposed (checked : plan.Checked)
    (found : plan.table.find? name = some definition)
    (exposes : definition.expression.Exposes inner) :
    ∃ context ids entered s s',
      enter (recording plan.table plan.rowLimit) inner context ids s = .ok entered s' := by
  obtain ⟨depth, clears⟩ := checked.clear name (Table.mem_names_of_find? found)
  obtain ⟨context, ids, ids', s, s', strict, run⟩ := clears.walked found
  refine walk_exposed exposes (checked.tidy name definition found) (.inr ?_) strict run
  intro value written
  rw [checked.named name definition found] at written
  exact ⟨name, (Option.some.inj written).symm⟩

/-! ### Merges -/

/-- The rules for references, for one that an instance is merged into. -/
structure Merge.Obeys (table : Table) (merged : Merge) : Prop where
  inherits : merged.reference.has "inherits" = true →
    Kind.isBuiltIn merged.reference.kind = true ∧ merged.inst.kind = merged.reference.kind
  named : merged.reference.has "inherits" = false → table.contains merged.reference.kind = true

/-- A reference of the same kind that inherits the same stands where a walk comes by. -/
def Table.Exposes (table : Table) (reference : Expression) : Prop :=
  ∃ name definition written, table.find? name = some definition ∧
    definition.expression.Exposes written ∧ SameReference written reference

/-- A reference of the same kind that inherits the same stands in some definition. -/
def Table.Writes (table : Table) (reference : Expression) : Prop :=
  ∃ name definition written, table.find? name = some definition ∧
    definition.expression.Contains written ∧ SameReference written reference

/-- Every reference names a definition, and what is merged into it has the kind that this definition
leads to. -/
theorem Merge.MadeAt.target (checked : plan.Checked)
    (made : merged.MadeAt (tracedWithin plan budget) node) :
    ∃ target kind, merged.reference.refersTo? = some target ∧
      plan.table.contains target = true ∧ plan.table.resolveKind target = .ok kind ∧
      merged.inst.kind = kind.name := by
  obtain ⟨target, site, w, rest, merges, w', refers, run⟩ := made.taken
  have referred : referWithin plan budget target site w = .ok (merged.inst, rest) w' := by
    rw [← tracedWithin_follows]
    exact map_ok.mpr ⟨_, run, rfl⟩
  obtain ⟨definition, found⟩ := referWithin_found referred
  obtain ⟨kind, resolved⟩ := checked.clear.resolveKind found
  refine ⟨target, kind, refers, by simp [Table.contains_eq, found], resolved, ?_⟩
  exact (Kind.name_of_ofName? (referWithin_kind checked.clear referred resolved)).symm

/-- Without `inherits`, or where a walk comes by, a reference obeys the rules. -/
theorem Merge.MadeAt.obeys (checked : plan.Checked)
    (made : merged.MadeAt (tracedWithin plan budget) node)
    (plainly : merged.reference.has "inherits" = false ∨ plan.table.Exposes merged.reference) :
    merged.Obeys plan.table := by
  obtain ⟨target, kind, refers, known, resolved, kinds⟩ := made.target checked
  refine ⟨fun inherits => ?_, fun own => ?_⟩
  · obtain own | ⟨name, definition, written, found, exposes, same⟩ := plainly
    · rw [inherits] at own
      cases own
    have text : written.get? "inherits" = some (.text target) := by
      rw [← Expression.text?_eq_some, same.text, ← refers, Expression.refersTo?, if_pos inherits]
    -- the check that `inherits` keeps the kind was made where the walk came by
    obtain ⟨context, ids, entered, s, s', run⟩ := checked.exposed found exposes
    obtain ⟨_, writtenKind, target', builtIn, agrees⟩ := enter_inherits run text
    cases target'
    rw [resolved] at agrees
    cases agrees
    rw [← same.kind, kinds, Kind.isBuiltIn, builtIn]
    exact ⟨rfl, Kind.name_of_ofName? builtIn⟩
  · have kind : merged.reference.kind = target := by
      simp only [Expression.refersTo?, own, Bool.false_eq_true, if_false] at refers
      split_ifs at refers
      exact Option.some.inj refers
    rw [kind]
    exact known

/-- If no definition takes parameters, every reference was written in some definition. -/
theorem Merge.MadeAt.written {target : String} {site rest : Arguments} {s t : Supply}
    {body : Expression}
    (plain : ∀ name definition, plan.table.find? name = some definition →
      definition.expression.isGeneric = false)
    (copied : CopiedFrom plan target site s body rest t) (contained : body.Contains node)
    (made : merged.MadeAt (tracedWithin plan budget) node) :
    plan.table.Writes merged.reference := by
  cases copied with
  | @plain definition found _ =>
    have everywhere : definition.expression.Throughout fun inner => ∃ written,
        definition.expression.Contains written ∧ SameReference written inner :=
      fun inner inside => ⟨inner, inside, ⟨rfl, rfl, rfl⟩⟩
    have copies := everywhere.copy (fun e parent supply there =>
      there.imp fun written held => ⟨held.1, held.2.trans (.copy e parent supply)⟩) none s
    obtain ⟨written, inside, same⟩ := copies node contained
    exact ⟨target, definition, written, found, inside, same.trans made.same⟩
  | generic found generic _ _ =>
    rw [Expression.copy_isGeneric, plain _ _ found] at generic
    cases generic

/-! ### Instantiation -/

/-- **References in an instance.** A successful analysis has instantiated every export, and the
record of an instantiation holds a merge for each reference in it. Every reference names a
definition, and what is merged into it has the kind that this definition leads to. A reference
without `inherits` obeys the rules, and so does every reference like one that stands where a walk
comes by. If no definition takes parameters, all references were written in the definitions. -/
theorem references_follow_rules {session session' : Session} {set : ExportSet}
    (reachable : session.Reachable) (run : Session.analyze session = .ok set session') :
    ∃ table, Table.ofExpressions session.expressions = .ok table ∧
      (∀ name ∈ table.exportNames, ∃ result merges w',
        tracedTo (Session.plan session.config table) name []
          (Session.plan session.config table).workshop = .ok (result, merges) w') ∧
      ∀ name site, Prod.fst <$> tracedTo (Session.plan session.config table) name site =
          referTo (Session.plan session.config table) name site ∧
        ∀ w result merges w', tracedTo (Session.plan session.config table) name site w =
            .ok (result, merges) w' →
          ∀ merged ∈ merges,
            (∃ target kind, merged.reference.refersTo? = some target ∧
              table.contains target = true ∧ table.resolveKind target = .ok kind ∧
              merged.inst.kind = kind.name) ∧
            (merged.reference.has "inherits" = false → merged.Obeys table) ∧
            (table.Exposes merged.reference → merged.Obeys table) ∧
            ((∀ name definition, table.find? name = some definition →
                definition.expression.isGeneric = false) →
              table.Writes merged.reference) := by
  obtain ⟨table, made, checked, exported⟩ := reachable.analyze_sound run
  refine ⟨table, made, ?_, fun name site => ⟨tracedTo_fst name site, ?_⟩⟩
  · intro name member
    obtain ⟨root, paired⟩ := exists_zip_of_mem exported member
    obtain ⟨inst, instances, -⟩ := List.forall₂_zip exported paired
    obtain ⟨_, inst, rest, _, ids, _, _, referred, -⟩ := instances.assembled
    rw [← tracedTo_fst] at referred
    obtain ⟨⟨result, merges⟩, traced, -⟩ := map_ok.mp referred
    exact ⟨result, merges, _, traced⟩
  · intro w result merges w' traced merged member
    obtain ⟨budget, target, _, _, body, _, _, node, copied, contained, here⟩ :=
      mem_tracedWithin traced member
    exact ⟨here.target checked, fun own => here.obeys checked (.inl own),
      fun exposes => here.obeys checked (.inr exposes),
      fun plain => here.written plain copied contained⟩

/-- References in a block, in the block of a reference and in a generic definition. -/
def references : String :=
  "p defines: \"note\", classes: [\"n\"]\n" ++
  "div defines: \"frame\", parameters: [inner], body: \x7b p inherits: \"note\" inner \x7d\n" ++
  "div defines: \"home\", body: \x7b note frame inner: \x7b p inherits: \"note\" \x7d \x7d\n"

theorem references_follow_rules_home :
    ∃ set session' table, Session.analyze (Session.ofSource references) = .ok set session' ∧
      Table.ofExpressions (Session.ofSource references).expressions = .ok table ∧
      ∃ result merges w', tracedTo (Session.plan (Session.ofSource references).config table) "home" []
          (Session.plan (Session.ofSource references).config table).workshop =
            .ok (result, merges) w' ∧
        ∀ merged ∈ merges,
          (∃ target kind, merged.reference.refersTo? = some target ∧
            table.contains target = true ∧ table.resolveKind target = .ok kind ∧
            merged.inst.kind = kind.name) ∧
          (merged.reference.has "inherits" = false → merged.Obeys table) ∧
          (table.Exposes merged.reference → merged.Obeys table) := by
  have analyzed : (Session.ofSource references).exportSet?.any (fun _ =>
      match Table.ofExpressions (Session.ofSource references).expressions with
      | .ok table => table.exportNames.contains "home"
      | .error _ => false) = true := by
    decide +kernel
  obtain ⟨set, session', run, exported⟩ := Session.analyze_of_any analyzed
  obtain ⟨table, made, traced, rules⟩ :=
    references_follow_rules (.ofSource references) run
  simp only [made, List.contains_iff_mem] at exported
  obtain ⟨result, merges, w', record⟩ := traced "home" exported
  refine ⟨set, session', table, run, made, result, merges, w', record, ?_⟩
  intro merged member
  obtain ⟨target, own, exposed, -⟩ := (rules "home" []).2 _ _ _ _ record merged member
  exact ⟨target, own, exposed⟩

/-- A span, and what is no kind at all, inherit from a paragraph in the block of a reference. -/
def misfits : String :=
  "p defines: \"para\"\n" ++
  "div defines: \"base\"\n" ++
  "div defines: \"home\", inherits: \"base\",\n" ++
  "  body: \x7b span inherits: \"para\" nonsense inherits: \"para\" \x7d\n"

/-- Both become paragraphs, and the analysis succeeds. -/
theorem misfits_break_rules :
    ∃ set session' table, Session.analyze (Session.ofSource misfits) = .ok set session' ∧
      Table.ofExpressions (Session.ofSource misfits).expressions = .ok table ∧
      ∃ result merges w', tracedTo (Session.plan (Session.ofSource misfits).config table) "home" []
          (Session.plan (Session.ofSource misfits).config table).workshop =
            .ok (result, merges) w' ∧
        ∀ kind ∈ ["span", "nonsense"], ∃ merged ∈ merges, merged.reference.kind = kind ∧
          merged.inst.kind = "p" ∧ ¬merged.Obeys table := by
  have analyzed : (Session.ofSource misfits).exportSet?.any (fun _ =>
      match Table.ofExpressions (Session.ofSource misfits).expressions with
      | .ok table =>
        match tracedTo (Session.plan (Session.ofSource misfits).config table)
            "home" [] (Session.plan (Session.ofSource misfits).config table).workshop with
        | .ok (_, merges) _ => ["span", "nonsense"].all fun kind => merges.any fun merged =>
            merged.reference.kind = kind && merged.reference.has "inherits" &&
              merged.inst.kind = "p"
        | .error _ _ => false
      | .error _ => false) = true := by
    decide +kernel
  obtain ⟨set, session', run, tests⟩ := Session.analyze_of_any analyzed
  cases made : Table.ofExpressions (Session.ofSource misfits).expressions with
  | error fault => simp [made] at tests
  | ok table =>
    simp only [made] at tests
    split at tests
    · rename_i merges w' record
      refine ⟨set, session', table, run, rfl, _, merges, w', record, fun kind among => ?_⟩
      obtain ⟨merged, member, tests⟩ := List.any_eq_true.mp (List.all_eq_true.mp tests kind among)
      simp only [Bool.and_eq_true, decide_eq_true_eq] at tests
      obtain ⟨⟨written, inherits⟩, paragraph⟩ := tests
      refine ⟨merged, member, written, paragraph, fun obeys => ?_⟩
      have same := (obeys.inherits inherits).2
      rw [paragraph, written] at same
      subst same
      simp at among
    · cases tests

end Pagewright
