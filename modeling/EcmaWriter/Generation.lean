import EcmaWriter.Layout.Module

/-!
# EcmaWriter - Generating source text

From a module to its text: the census, the import namespaces, the layout and its
spelling.

Main definitions:

- `Options`: what may be chosen.
- `Module.render`: the text of a module with given namespaces.
- `Module.generate`: the text of a module.
-/

namespace EcmaWriter

/-- What may be chosen when a module is generated. -/
structure Options where
  dialect : Dialect
  links : List String
  unresolved : UnresolvedPolicy

/-- TypeScript, without credits, and references must resolve. -/
def Options.standard : Options where
  dialect := .typeScript
  links := []
  unresolved := .reject

namespace Module

/-- The text of a module with given import namespaces. -/
def render (m : Module) (table : ImportTable) (dialect : Dialect) (links : List String) :
    Except Fault String :=
  spellAll table (m.layout table dialect links)

/-- The text of a module, or its first fault. -/
def generate (m : Module) (options : Options) : Except Fault String := do
  let census ← m.census options.unresolved
  m.render (.ofCensus census) options.dialect options.links

end Module

end EcmaWriter
