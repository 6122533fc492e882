import EcmaWriter.Proofs.Identifier.Minting
import EcmaWriter.Proofs.Imports.Agreement

/-!
# EcmaWriter - Names of parameters in function types

The parameters of a function type are given the first names of the supply, whatever else is
in use.  They are visible in the computed names of members inside the function type, so a
reference there is captured if it starts with one of them: an import namespace, a variable or
a built-in value that comes early enough in the supply.

Main results:

- Definition `Layout.parameterNames`: the names of the parameters.
- Definition `Writing.leading?`: the name that a reference starts with.
- Theorem `Module.captured_by_parameter_iff`: which references are captured.
-/

namespace EcmaWriter

open Lexeme (mark space)

/-! ## Names of parameters -/

namespace Layout

/-- The names that the parameters of a function type are given. -/
def parameterNames (count : Nat) : List Identifier :=
  (Candidate.mintMany [] count .first).map Prod.fst

/-- Each parameter is written with its name. -/
theorem functionTypeParameters_eq_zipWith (types : List (List Lexeme)) :
    functionTypeParameters types =
      List.zipWith (fun n text => [name n, mark ":", space] ++ text)
        (parameterNames types.length) types := by
  rw [functionTypeParameters, parameterNames, List.zipWith_map_left]
  exact List.map_zip_eq_zipWith

/-- A parameter has a name if few names come before it in the supply. -/
theorem mem_parameterNames_iff {count : Nat} {n : Identifier} :
    n ∈ parameterNames count ↔
      ∃ k : Candidate, k.text = n.text ∧
        (Candidate.freeSteps [] .first k.position.toNat).length < count := by
  have hends : Candidate.SearchEnds [] .first := Candidate.searchEnds_of_length_lt _ (by decide)
  rw [parameterNames, Candidate.mem_mintMany_iff hends, and_iff_right List.not_mem_nil]

end Layout

/-! ## References -/

namespace Writing

/-- The name that a reference to a value starts with, unless it is qualified. -/
def leading? (table : ImportTable) : Writing → Option Identifier
  | ⟨_, _, .expr (.imported path _)⟩ => table.find? path
  | ⟨_, _, .expr (.reference n)⟩ => some n
  | ⟨p, _, .expr (.global n)⟩ => if p.values.contains n.text then none else some n
  | _ => none

/-- The text of a reference starts with its leading name. -/
theorem exists_text_eq_append {table : ImportTable} {w : Writing} {n : Identifier}
    (h : w.leading? table = some n) {text : String} (hspell : spellAll table w.lexemes = .ok text) :
    ∃ rest, text = n.text ++ rest := by
  rcases w with ⟨p, inHead, node⟩
  cases node with
  | expr e =>
      cases e with
      | reference n' =>
          obtain rfl := Option.some.inj h
          obtain rfl := Except.ok.inj ((spellAll_singleton rfl).symm.trans hspell)
          exact ⟨"", String.append_empty.symm⟩
      | global g =>
          cases hhidden : p.values.contains g.text with
          | true =>
              rw [leading?, if_pos hhidden] at h
              exact absurd h (Option.some_ne_none n).symm
          | false =>
              rw [leading?, if_neg (Bool.eq_false_iff.mp hhidden)] at h
              obtain rfl := Option.some.inj h
              have hbare : Lexeme.spell table (.globalValue (p.values.contains g.text) g) =
                  .ok g.text := by
                rw [hhidden]
                rfl
              obtain rfl := Except.ok.inj ((spellAll_singleton hbare).symm.trans hspell)
              exact ⟨"", String.append_empty.symm⟩
      | imported path key =>
          obtain ⟨first, second, hfirst, -, rfl⟩ := spellAll_append_eq_ok_iff.mp
            (show spellAll table ([.importOf path] ++ Layout.memberAccess key) = .ok text from
              hspell)
          have hnamespace : Lexeme.spell table (.importOf path) = .ok n.text := by
            rw [leading?] at h
            rw [Lexeme.spell, h]
          obtain rfl := Except.ok.inj ((spellAll_singleton hnamespace).symm.trans hfirst)
          exact ⟨second, rfl⟩
      | _ => exact absurd h (Option.some_ne_none n).symm
  | _ => exact absurd h (Option.some_ne_none n).symm

end Writing

namespace Module

/-- The parameters of a function type are written with the first names of the supply that are
no reserved words.  A reference to a value anywhere inside their types or the type of the
result is written with its leading name first, and this is the name of a parameter exactly if
fewer names than there are parameters come before it. -/
theorem captured_by_parameter_iff {policy : UnresolvedPolicy} {m : Module} {c : Census}
    {w : Writing} {typeParameters : List TypeParameter} {parameters : List TypeExpr}
    {result : TypeExpr} (h : m.census policy = .ok c) (hw : w ∈ m.writings .typeScript)
    (hfunction : w.node = .type (.function typeParameters parameters result)) :
    let inner := w.place.bindTypes typeParameters
    (∃ before after, w.lexemes = before
      ++ Lexeme.parenthesized (Lexeme.listed (List.zipWith
        (fun n t => [Layout.name n, mark ":", space] ++ t.layout inner)
        (Layout.parameterNames parameters.length) parameters)) ++ after) ∧
    ∀ t ∈ parameters ++ [result], ∀ q ∈ (Writing.mk inner w.inHead (.type t)).all,
      q ∈ m.writings .typeScript ∧
      ∀ n, q.leading? (.ofCensus c) = some n →
        (∃ rest, spellAll (.ofCensus c) q.lexemes = .ok (n.text ++ rest)) ∧
        (n ∈ Layout.parameterNames parameters.length ↔
          ∃ k : Candidate, k.text = n.text ∧
            (Candidate.freeSteps [] .first k.position.toNat).length < parameters.length) := by
  rcases w with ⟨p, inHead, node⟩
  obtain rfl : node = .type (.function typeParameters parameters result) := hfunction
  intro inner
  constructor
  · refine ⟨Lexeme.angled (TypeParameter.layouts inner typeParameters),
      [space, mark "=>", space] ++ result.layout inner, ?_⟩
    rw [Writing.lexemes, TypeExpr.layout, Layout.functionTypeParameters_eq_zipWith,
      TypeExpr.layouts_eq_map, List.length_map, List.zipWith_map_right]
    simp only [List.append_assoc]
    rfl
  · intro t ht q hq
    have hpart : Writing.mk inner inHead (.type t) ∈
        Writing.parts ⟨p, inHead, .type (.function typeParameters parameters result)⟩ := by
      refine List.mem_map_of_mem (f := fun t => Writing.mk inner inHead (.type t)) ?_
      rw [List.append_assoc]
      exact List.mem_append_right _ ht
    have hmem := all_subset_writings (mem_writings_of_mem_parts hw hpart) hq
    refine ⟨hmem, ?_⟩
    intro n hn
    obtain ⟨text, htext⟩ := exists_spellAll_lexemes h hmem
    obtain ⟨rest, rfl⟩ := q.exists_text_eq_append hn htext
    exact ⟨⟨rest, htext⟩, Layout.mem_parameterNames_iff⟩

/-- A member that is named by a property of a built-in value. -/
theorem captured_by_parameter_iff_symbol :
    let symbol := Identifier.ofString "Symbol"
    let argument := TypeExpr.object
      [⟨.computed (.get (.global symbol) (.string "iterator")), true, false, .number, ""⟩]
    let m : Module :=
      ⟨[.typeAlias ⟨false, .ofString "F", [], "", .function [] [argument] .void⟩], []⟩
    ∃ c, m.census .reject = .ok c ∧
      ∃ q ∈ m.writings .typeScript, q.leading? (.ofCensus c) = some symbol ∧
        (∃ rest, spellAll (.ofCensus c) q.lexemes = .ok (symbol.text ++ rest)) ∧
        (symbol ∈ Layout.parameterNames 1 ↔
          ∃ k : Candidate, k.text = symbol.text ∧
            (Candidate.freeSteps [] .first k.position.toNat).length < 1) := by
  intro symbol argument m
  have hcensus : m.census .reject = .ok _ := rfl
  have hdefinition : _ ∈ m.writings .typeScript := mem_writings_of_mem List.mem_cons_self
  have hfunction := mem_writings_of_mem_parts hdefinition List.mem_cons_self
  obtain ⟨hmem, hcaptured⟩ := (captured_by_parameter_iff hcensus hfunction rfl).2 argument
    List.mem_cons_self _ (Writing.all_subset (Writing.mem_all_of_mem_parts List.mem_cons_self)
      (Writing.mem_all_of_mem_parts List.mem_cons_self))
  exact ⟨_, hcensus, _, hmem, rfl, hcaptured symbol rfl⟩

/-- The only parameter of a function type is given the name of the only import namespace,
which the name of a member of its type starts with. -/
theorem exists_captured_namespace :
    let argument := TypeExpr.object [⟨.computed (.imported "m" "key"), true, false, .number, ""⟩]
    let m : Module :=
      ⟨[.typeAlias ⟨false, .ofString "F", [], "", .function [] [argument] .void⟩], []⟩
    ∃ c, m.census .reject = .ok c ∧
      (ImportTable.ofCensus c).find? "m" = some (.ofString "a") ∧
      .ofString "a" ∈ Layout.parameterNames 1 ∧
      m.generate Options.standard = .ok ("/* eslint-disable */\n"
        ++ "/* generated by gen-js. Do not edit! */\n\nimport * as a from \"m\";\n\n"
        ++ "type F = (a: \x7b [a.key]: number \x7d) => void;\n") :=
  ⟨_, rfl, by decide +kernel, by decide +kernel, by decide +kernel⟩

end Module

end EcmaWriter
