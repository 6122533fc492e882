import EcmaWriter.Proofs.Script.Spacing
import EcmaWriter.Proofs.Script.Unambiguity

/-!
# EcmaWriter - Written expressions read back

Text that is written of an expression is cut into the tokens of its lexemes, and these
tokens derive the tree of the expression and no other.

Main results:

- Definition `Script.Reads`: text that is accepted in full as an expression with a tree.
- Theorem `Expr.reads_back`: what is written of an expression reads back as its tree.
-/

namespace EcmaWriter

/-! ## Reading text -/

namespace Script

/-- Text that is read as an expression, to its end. -/
def Reads (text : String) (t : Tree) : Prop :=
  ∃ ts, scan text.toList = some ts ∧ Derives .assignment ts t

/-- Text is read as at most one tree. -/
theorem Reads.unique {text : String} {t u : Tree} (ht : Reads text t) (hu : Reads text u) :
    t = u := by
  rcases ht with ⟨ts, hts, dt⟩
  rcases hu with ⟨us, hus, du⟩
  obtain rfl : ts = us := Option.some.inj (hts.symm.trans hus)
  exact dt.unique du

end Script

namespace Expr

open Script Lexeme

/-- What is written of an expression is cut into the tokens of its lexemes, and no other tree
than its own is read from them. -/
theorem exists_spelled {e : Expr} {t : Tree} (h : e.tree? = some t) (table : ImportTable)
    (p : Place) (hp : p.dialect = .javaScript) :
    ∃ text, spellAll table (e.layout p) = .ok text ∧
      scan text.toList = some (tokens (e.layout p)) ∧ ∀ u, Reads text u ↔ u = t := by
  have hwhole := whole_layout hp e h
  have hpaths : ∀ path ∈ paths (e.layout p), ∃ n, table.find? path = some n := by
    intro path hpath
    rcases List.mem_filterMap.mp hpath with ⟨l, hl, hpath⟩
    exact absurd hpath (by simp [path?_of_isReadable (hwhole.readable l hl)])
  have hscan : scan (String.join ((e.layout p).map (Lexeme.text table))).toList =
      some (tokens (e.layout p)) := by
    rw [String.toList_join, List.flatMap_map]
    exact scan_spelled table hwhole.readable hwhole.chain
  have hreads : Reads (String.join ((e.layout p).map (Lexeme.text table))) t :=
    ⟨_, hscan, (derives_layout hp e h).lift e.assignment_covers_phrase⟩
  refine ⟨_, spellAll_eq_ok hpaths, hscan, ?_⟩
  intro u
  constructor
  · intro hu
    exact hu.unique hreads
  · rintro rfl
    exact hreads

/-- What is written of an expression reads back as its tree, and as nothing else. -/
theorem reads_back {e : Expr} {t : Tree} (h : e.tree? = some t) (table : ImportTable) (p : Place)
    (hp : p.dialect = .javaScript) :
    ∃ text, spellAll table (e.layout p) = .ok text ∧ ∀ u, Reads text u ↔ u = t := by
  obtain ⟨text, htext, -, hread⟩ := exists_spelled h table p hp
  exact ⟨text, htext, hread⟩

/-- A power of a negative number, with a number as the base of a member access. -/
theorem reads_back_power_of_negative :
    ∃ text, text = "(-2) ** 1..x" ∧ ∀ u, Reads text u ↔
      u = .binary .exponentiation (.unary .minus (.number 2))
        (.get (.number 1) (.string "x")) := by
  have hread := reads_back
    (e := .binary .exponentiation (.number (-2)) (.get (.number 1) (.string "x"))) rfl ⟨[]⟩
    ⟨.javaScript, 0, .root [], .root []⟩ rfl
  rcases hread with ⟨text, htext, hread⟩
  have hspelled : (.ok text : Except Fault String) = .ok "(-2) ** 1..x" := by
    rw [← htext]
    rfl
  exact ⟨text, Except.ok.inj hspelled, hread⟩

end Expr

end EcmaWriter
