import EcmaWriter.Tree.Basic

/-!
# EcmaWriter - Scopes

The names visible at a place of a module: a root with the module's own names and
one frame for every construct entered since. Entering a construct makes a new
scope and leaves the old one as it was.

Main results:

- Theorem `Scope.contains_push`: a child sees its own names and its parent's.
-/

namespace EcmaWriter

/-- A chain of frames of bound names. -/
inductive Scope
  | root (names : List Identifier)
  | child (parent : Scope) (names : List Identifier)

namespace Scope

/-- Enter a construct that binds `names`. -/
def push (s : Scope) (names : List Identifier) : Scope :=
  .child s names

/-- The scope around the construct entered last. -/
def parent? : Scope → Option Scope
  | .root _ => none
  | .child parent _ => some parent

/-- Number of constructs entered. -/
def depth : Scope → Nat
  | .root _ => 0
  | .child parent _ => parent.depth + 1

/-- Whether a frame has a name. -/
def frameHas (names : List Identifier) (text : String) : Bool :=
  names.any fun name => name.text == text

/-- Whether a name is bound here or further out. -/
def contains (text : String) : Scope → Bool
  | .root names => frameHas names text
  | .child parent names => frameHas names text || parent.contains text

/-- Enter a block. The construct around it binds `bindings`, its own statements
what they declare. -/
def enterBlock (s : Scope) (bindings : List Identifier) (body : List Statement) : Scope :=
  s.push (bindings ++ blockBindings body)

@[simp] theorem contains_root (names : List Identifier) (text : String) :
    (root names).contains text = frameHas names text := rfl

/-- A child sees its own names and those its parent sees. -/
@[simp] theorem contains_push (s : Scope) (names : List Identifier) (text : String) :
    (s.push names).contains text = (frameHas names text || s.contains text) := rfl

@[simp] theorem parent?_push (s : Scope) (names : List Identifier) :
    (s.push names).parent? = some s := rfl

@[simp] theorem depth_push (s : Scope) (names : List Identifier) :
    (s.push names).depth = s.depth + 1 := rfl

/-- A frame has exactly the texts of its names. -/
theorem frameHas_eq_true {names : List Identifier} {text : String} :
    frameHas names text = true ↔ ∃ name ∈ names, name.text = text := by
  simp [frameHas]

end Scope

end EcmaWriter
