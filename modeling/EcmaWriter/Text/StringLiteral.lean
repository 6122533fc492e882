/-!
# EcmaWriter - String literals

The source text of a string value: double quotes, short escapes for the common
control characters, `\xHH` for the others. A carriage return before a line feed
is dropped, so the pair reads back as one line feed.

Main definitions:

- `escapeText`: the characters between the quotes.
- `stringLiteral`: the whole literal.
-/

namespace EcmaWriter

/-- The upper-case hexadecimal digit of a number below sixteen. -/
def upperHexDigit (n : Nat) : Char :=
  if n < 10 then Char.ofNat (48 + n) else Char.ofNat (55 + n)

/-- One character as it stands inside a string literal, when the character after
it is `next`. A NUL before a digit is written in full, since `\0` followed by a
digit would be an octal escape. -/
def escapeChar (c : Char) (next : Option Char) : List Char :=
  if c = '\\' then ['\\', '\\']
  else if c = '"' then ['\\', '"']
  else if c = '\n' then ['\\', 'n']
  else if c = '\r' then ['\\', 'r']
  else if c = '\t' then ['\\', 't']
  else if c = Char.ofNat 0 then
    if next.any Char.isDigit then ['\\', 'x', '0', '0'] else ['\\', '0']
  else if c = Char.ofNat 0x2028 then ['\\', 'u', '2', '0', '2', '8']
  else if c = Char.ofNat 0x2029 then ['\\', 'u', '2', '0', '2', '9']
  else if c.toNat < 0x20 then
    ['\\', 'x', upperHexDigit (c.toNat / 16), upperHexDigit (c.toNat % 16)]
  else [c]

/-- The characters between the quotes of a literal. -/
def escapeText : List Char → List Char
  | [] => []
  | '\r' :: '\n' :: cs => '\\' :: 'n' :: escapeText cs
  | c :: cs => escapeChar c cs.head? ++ escapeText cs

/-- The string literal of a value. -/
def stringLiteral (value : String) : String :=
  "\"" ++ String.ofList (escapeText value.toList) ++ "\""

end EcmaWriter
