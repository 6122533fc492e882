import EcmaWriter.Census
import EcmaWriter.Identifier.Candidate

/-!
# EcmaWriter - Import namespaces

Every module path that is referred to is imported under a name of its own. The
names are minted in the order of the paths, past all names of the census.

Main results:

- Theorem `ImportTable.paths_ofCensus`: the table has the paths of the census in
  their order.
-/

namespace EcmaWriter

/-- Module paths with their namespaces. -/
structure ImportTable where
  entries : List (String × Identifier)

namespace ImportTable

/-- The namespaces for the paths of a census. -/
def ofCensus (c : Census) : ImportTable where
  entries :=
    c.paths.toList.zip
      ((Candidate.mintMany c.names.toList c.paths.size .first).map Prod.fst)

/-- The namespace of a path. -/
def find? (t : ImportTable) (path : String) : Option Identifier :=
  t.entries.lookup path

/-- The paths of a census keep their order. -/
theorem paths_ofCensus (c : Census) :
    (ofCensus c).entries.map Prod.fst = c.paths.toList := by
  rw [ofCensus, List.map_fst_zip]
  simp [OrderedSet.size]

end ImportTable

end EcmaWriter
