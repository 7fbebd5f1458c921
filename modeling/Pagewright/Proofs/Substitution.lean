import Pagewright.Proofs.Copy
import Pagewright.Proofs.Traversal

/-!
# What a substituted expression holds

Substitution keeps an expression's identifier, kind and argument names. Whatever
stands in a block of the result is a child that was substituted in turn, such a
child under a new kind, or a copy of an expression from an actual argument.
-/

namespace Pagewright

open Outcome

variable {bindings : Bindings} {e result piece : Expression} {s t : Supply} {name : String}

/-- Where an expression in a block of a substituted expression comes from. -/
inductive SubstitutedFrom (bindings : Bindings) (e : Expression) (name : String) :
    Expression → Prop
  /-- A child of the block before. -/
  | kept {child piece : Expression} {s t : Supply} : e.Holds name child →
      substitute bindings child s = .ok piece t → SubstitutedFrom bindings e name piece
  /-- A child whose kind was a parameter bound to an atom. -/
  | renamed {child piece : Expression} {kind : String} {s t : Supply} : e.Holds name child →
      substitute bindings child s = .ok piece t →
      SubstitutedFrom bindings e name { piece with kind }
  /-- Taken from the block that a parameter is bound to. -/
  | inserted {formal : String} {actual : List Expression} {original : Expression} {s : Supply} :
      bindings.lookup formal = some (.block actual) → original ∈ actual →
      SubstitutedFrom bindings e name (original.copy (some e.id) s).1

/-- Substitution rewrites the arguments and nothing else. -/
theorem substitute_ok :
    substitute bindings e s = .ok result t ↔
      ∃ arguments, substituteArguments bindings e.id e.arguments s = .ok arguments t ∧
        { e with arguments } = result := by
  obtain ⟨id, parent, kind, arguments⟩ := e
  simp only [substitute, bind_ok, pure_ok]
  constructor
  · rintro ⟨substituted, t, run, rfl, rfl⟩
    exact ⟨substituted, run, rfl⟩
  · rintro ⟨substituted, run, rfl⟩
    exact ⟨substituted, t, run, rfl, rfl⟩

theorem substitute_names (run : substitute bindings e s = .ok result t) :
    result.arguments.map Prod.fst = e.arguments.map Prod.fst := by
  obtain ⟨arguments, substituted, rfl⟩ := substitute_ok.mp run
  rw [substituteArguments_eq, mapM_ok] at substituted
  refine substituted.map_eq ?_
  intro entry s result t step
  simp only [bind_ok, pure_ok] at step
  obtain ⟨value, u, -, rfl, -⟩ := step
  rfl

/-- An argument of a substituted expression is an argument that was substituted. -/
theorem mem_substitute {value : Argument} (run : substitute bindings e s = .ok result t)
    (member : (name, value) ∈ result.arguments) :
    ∃ original s t, (name, original) ∈ e.arguments ∧
      substituteArgument bindings e.id original s = .ok value t := by
  obtain ⟨arguments, substituted, rfl⟩ := substitute_ok.mp run
  rw [substituteArguments_eq, mapM_ok] at substituted
  obtain ⟨entry, among, s, t, step⟩ := substituted.exists_of_mem member
  simp only [bind_ok, pure_ok] at step
  obtain ⟨result, u, inner, same, -⟩ := step
  cases same
  exact ⟨entry.2, s, u, among, inner⟩

/-- The pieces that take the place of one child. -/
theorem mem_substituteChild {child : Expression} {pieces : List Expression}
    (held : e.Holds name child) (run : substituteChild bindings e.id child s = .ok pieces t)
    (member : piece ∈ pieces) : SubstitutedFrom bindings e name piece := by
  unfold substituteChild at run
  cases found : bindings.lookup child.kind with
  | none =>
    simp only [found, bind_ok, pure_ok] at run
    obtain ⟨result, u, substituted, rfl, rfl⟩ := run
    rw [List.mem_singleton.mp member]
    exact .kept held substituted
  | some actual =>
    cases actual with
    | atom kind =>
      simp only [found, bind_ok, pure_ok] at run
      obtain ⟨result, u, substituted, rfl, rfl⟩ := run
      rw [List.mem_singleton.mp member]
      exact .renamed held substituted
    | block replacement =>
      simp only [found] at run
      split_ifs at run with bare
      · obtain ⟨_, _, thrown, _⟩ := bind_ok.mp run
        exact (throw_ok.mp thrown).elim
      · have copied := modifyGet_ok.mp run
        have inside : piece ∈ (copyBlock replacement e.id s).1 := by rw [copied]; exact member
        obtain ⟨original, among, later, rfl⟩ := mem_copyBlock inside
        exact .inserted found among
    | text | number | list => simp only [found, throw_ok] at run

theorem Expression.Holds.of_substitute (run : substitute bindings e s = .ok result t)
    (held : result.Holds name piece) : SubstitutedFrom bindings e name piece := by
  obtain ⟨pieces, member, inside⟩ := held
  obtain ⟨value, s, t, among, step⟩ := mem_substitute run member
  cases value with
  | atom formal =>
    cases found : bindings.lookup formal with
    | none =>
      simp only [substituteArgument, found] at step
      cases (pure_ok.mp step).1
    | some actual =>
      simp only [substituteArgument, found, modifyGet_ok] at step
      have copied : (actual.copy e.id s).1 = .block pieces := by rw [step]
      obtain ⟨children, rfl, rfl⟩ := Argument.copy_eq_block copied
      obtain ⟨original, contained, later, rfl⟩ := mem_copyBlock inside
      exact .inserted found contained
  | block children =>
    simp only [substituteArgument, bind_ok, pure_ok, substituteBlock_eq, map_ok] at step
    obtain ⟨block, u, ⟨lists, run, rfl⟩, same, rfl⟩ := step
    cases same
    obtain ⟨list, listed, contained⟩ := List.mem_flatten.mp inside
    obtain ⟨child, ofBlock, s, t, piece⟩ := (mapM_ok.mp run).exists_of_mem listed
    exact mem_substituteChild ⟨children, among, ofBlock⟩ piece contained
  | list items =>
    simp only [substituteArgument, bind_ok, pure_ok] at step
    obtain ⟨_, _, _, same, _⟩ := step
    cases same
  | text | number =>
    simp only [substituteArgument] at step
    cases (pure_ok.mp step).1

end Pagewright
