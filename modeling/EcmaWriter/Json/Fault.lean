import EcmaWriter.Json.Numeral
import EcmaWriter.Decimal.Shortest
import EcmaWriter.Text.Shown

/-!
# EcmaWriter - Why a text is not the tree asked for

A text either is no JSON, or it is JSON of the wrong form. In the second case the
fault says what was found and what was expected.

Main definitions:

- `DataFault`: the ways in which JSON can have the wrong form.
- `DataFault.message`: their wording.
- `ReadFault`: why a text could not be read.
-/

namespace EcmaWriter

/-- What was found in place of something else. -/
inductive Found
  | null
  | boolean (value : Bool)
  | integer (value : Int)
  | real (value : Float)
  | string (text : String)
  | sequence
  | map

/-- What was expected. -/
inductive Expected
  | string
  | boolean
  | integer32
  | sequence
  | record (name : String)
  | taggedUnion (name : String)
  | variantIdentifier
  | variantIndex (count : Nat)
  | unitVariant (union variant : String)
  | unit
  | stringOrMap
  | singleKeyMap

/-- What should have had another number of elements. -/
inductive ExpectedLength
  | record (name : String) (fields : Nat)
  | taggedUnion (name : String)
  | elements (count : Nat)

/-- How JSON can be something else than the tree asked for. -/
inductive DataFault
  | wrongType (found : Found) (expected : Expected)
  | wrongValue (found : Found) (expected : Expected)
  | wrongLength (length : Nat) (expected : ExpectedLength)
  | unknownVariant (name : String) (variants : List String)
  | missingField (name : String)
  | duplicateField (name : String)

/-- Why a text could not be read. -/
inductive ReadFault
  /-- The text is not JSON, or it nests too deep. -/
  | malformed
  | data (fault : DataFault)

/-! ## Wording -/

/-- How messages write floating-point values: all digits from a ten-thousandth up
to ten to the sixteenth, else an exponent with its sign and at least two digits. -/
def messageNumber : Decimal.Style where
  leastPositional := -4
  pastPositional := 16
  exponentDigits := 2

/-- A name in grave accents. -/
def inGraves (text : String) : String :=
  "\x60" ++ text ++ "\x60"

namespace Found

/-- The wording of what was found. -/
def message : Found → String
  | .null => "null"
  | .boolean value => "boolean " ++ inGraves (if value then "true" else "false")
  | .integer value => "integer " ++ inGraves (toString value)
  | .real value => "floating point " ++ inGraves (Decimal.shortest messageNumber value)
  | .string text => "string " ++ shown text
  | .sequence => "sequence"
  | .map => "map"

end Found

namespace Expected

/-- The wording of what was expected. -/
def message : Expected → String
  | .string => "a string"
  | .boolean => "a boolean"
  | .integer32 => "i32"
  | .sequence => "a sequence"
  | .record name => "struct " ++ name
  | .taggedUnion name => "adjacently tagged enum " ++ name
  | .variantIdentifier => "variant identifier"
  | .variantIndex count => "variant index 0 <= i < " ++ toString count
  | .unitVariant union variant => "unit variant " ++ union ++ "::" ++ variant
  | .unit => "unit"
  | .stringOrMap => "string or map"
  | .singleKeyMap => "map with a single key"

end Expected

namespace ExpectedLength

/-- A count with its noun. -/
def counted (n : Nat) (noun : String) : String :=
  toString n ++ " " ++ (if n = 1 then noun else noun ++ "s")

/-- The wording of what should have had another length. -/
def message : ExpectedLength → String
  | .record name fields => "struct " ++ name ++ " with " ++ counted fields "element"
  | .taggedUnion name => "adjacently tagged enum " ++ name
  | .elements count => counted count "element" ++ " in sequence"

end ExpectedLength

namespace DataFault

/-- The names one of which was expected. -/
def alternatives : List String → String
  | [one] => inGraves one
  | [one, other] => inGraves one ++ " or " ++ inGraves other
  | names => "one of " ++ ", ".intercalate (names.map inGraves)

/-- The wording of a fault. -/
def message : DataFault → String
  | .wrongType found expected =>
    "invalid type: " ++ found.message ++ ", expected " ++ expected.message
  | .wrongValue found expected =>
    "invalid value: " ++ found.message ++ ", expected " ++ expected.message
  | .wrongLength length expected =>
    "invalid length " ++ toString length ++ ", expected " ++ expected.message
  | .unknownVariant name variants =>
    "unknown variant " ++ inGraves name ++ ", expected " ++ alternatives variants
  | .missingField name => "missing field " ++ inGraves name
  | .duplicateField name => "duplicate field " ++ inGraves name

end DataFault

end EcmaWriter
