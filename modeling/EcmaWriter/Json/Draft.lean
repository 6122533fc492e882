import EcmaWriter.Json.Token

/-!
# EcmaWriter - Drafts

A draft is a JSON text read as far as it is JSON. Where the text breaks off, the
draft has a gap: the value that should stand there is missing and the arrays and
objects around it are left open. A reader of drafts that goes from left to right
therefore meets what is wrong in the same order as a reader of the text, whether
the text is no JSON or the JSON is not what was asked for.

Main definitions:

- `Draft`: values read as far as possible.
- `Document.ofText`: the draft of a text, and whether more follows it.
-/

namespace EcmaWriter

/-- A value as far as it could be read. A string or a key without text has an
escape that is half of a surrogate pair. -/
inductive Draft
  | null
  | boolean (value : Bool)
  | number (value : Numeral)
  | string (text : Option String)
  | array (items : List Draft) (closed : Bool)
  | object (members : List (Option String × Draft)) (closed : Bool)
  /-- An object in which a value stands where the first key should. -/
  | keyless (value : Draft)
  /-- Nothing could be read. -/
  | gap

namespace Draft

/-- Whether a value was read to its end. Nothing inside such a value is missing. -/
def isComplete : Draft → Bool
  | .array _ closed => closed
  | .object _ closed => closed
  | .keyless _ => false
  | .gap => false
  | _ => true

/-! ## Assembly -/

/-- An array or object that is not yet closed, with its contents in reverse. The
key is the one whose value comes next. -/
inductive Frame
  | array (items : List Draft)
  | object (members : List (Option String × Draft)) (key : Option (Option String))

/-- What may come next. -/
inductive Want
  | value
  | itemOrClose
  | keyOrClose
  | key
  | colon
  | commaOrClose
deriving DecidableEq

/-- Put a value into a frame. -/
def Frame.add : Frame → Draft → Frame
  | .array items, v => .array (v :: items)
  | .object members (some key), v => .object ((key, v) :: members) none
  | .object members none, _ => .object members none

/-- The value of a frame. -/
def Frame.close (closed : Bool) : Frame → Draft
  | .array items => .array items.reverse closed
  | .object members none => .object members.reverse closed
  | .object members (some key) => .object ((key, .gap) :: members).reverse closed

/-- The value around an unfinished one, when the text breaks off inside it. -/
def abandon (v : Draft) : List Frame → Draft
  | [] => v
  | frame :: frames => abandon ((frame.add v).close false) frames

/-- The value that a text has up to the point where it breaks off. -/
def breakOff : List Frame → Draft
  | [] => .gap
  | frame :: frames => abandon (frame.close false) frames

/-- What a token that may start a value says of that value by itself. -/
def ofToken : Token → Option Draft
  | .null => some .null
  | .boolean value => some (.boolean value)
  | .number value => some (.number value)
  | .string text => some (.string text)
  | .openArray => some (.array [] false)
  | .openObject => some (.object [] false)
  | _ => none

/-- Where the assembly of a value stands after a token. -/
inductive Step
  | go (frames : List Frame) (want : Want)
  | done (value : Draft)
  | broken (value : Draft)

/-- A value is complete: it is the whole, or it goes into the frame around it. -/
def finish (v : Draft) : List Frame → Step
  | [] => .done v
  | frame :: frames => .go (frame.add v :: frames) .commaOrClose

/-- A token that should start a value. -/
def startValue (frames : List Frame) : Token → Step
  | .openArray => .go (.array [] :: frames) .itemOrClose
  | .openObject => .go (.object [] none :: frames) .keyOrClose
  | token =>
    match ofToken token with
    | some v => finish v frames
    | none => .broken (breakOff frames)

/-- A token that should close the innermost frame. -/
def closeFrame : List Frame → Token → Step
  | .array items :: frames, .closeArray => finish (Frame.close true (.array items)) frames
  | .object members none :: frames, .closeObject =>
    finish (Frame.close true (.object members none)) frames
  | frames, _ => .broken (breakOff frames)

/-- A token that should be a key. -/
def startMember : List Frame → Token → Step
  | .object members none :: frames, .string key =>
    .go (.object members (some key) :: frames) .colon
  | frames, _ => .broken (breakOff frames)

/-- Take one token. -/
def step (frames : List Frame) (want : Want) (token : Token) : Step :=
  match want, token with
  | .value, token => startValue frames token
  | .itemOrClose, .closeArray => closeFrame frames .closeArray
  | .itemOrClose, token => startValue frames token
  | .keyOrClose, .closeObject => closeFrame frames .closeObject
  | .keyOrClose, .string key => startMember frames (.string key)
  | .keyOrClose, token =>
    match ofToken token with
    | some v => .broken (abandon (.keyless v) frames.tail)
    | none => .broken (breakOff frames)
  | .key, token => startMember frames token
  | .colon, .colon => .go frames .value
  | .colon, _ => .broken (breakOff frames)
  | .commaOrClose, .comma =>
    match frames with
    | .object _ _ :: _ => .go frames .key
    | _ => .go frames .value
  | .commaOrClose, token => closeFrame frames token

/-- Take tokens until a value is complete or the text breaks off. The second
result is what follows the value. -/
def assemble (frames : List Frame) (want : Want) : List Token → Draft × List Token
  | [] => (breakOff frames, [])
  | token :: tokens =>
    match step frames want token with
    | .go frames want => assemble frames want tokens
    | .done v => (v, tokens)
    | .broken v => (v, [])

end Draft

/-- A text: its value, and whether anything but separators follows the value. -/
structure Document where
  value : Draft
  trailing : Bool

/-- Read a text as far as it is JSON. -/
def Document.ofText (text : String) : Document :=
  let (value, rest) := Draft.assemble [] .value (Token.read text.toList)
  ⟨value, !rest.isEmpty⟩

end EcmaWriter
