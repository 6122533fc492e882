import EcmaWriter.Generation

/-!
# EcmaWriter - Command line arguments

Options are given by a long name after two dashes or by a letter after one. A value
follows in the next argument or, joined, after `=` or right after the letter;
letters of options without a value can be grouped. Only `--link` may be repeated,
and there are no arguments besides options.

Main definitions:

- `Arguments`: what the arguments ask for.
- `Refusal`: why arguments are not carried out.
- `Arguments.parse`: read a list of arguments.
-/

namespace EcmaWriter

/-- What the arguments ask for. Without an input or output path the standard
streams are used. -/
structure Arguments where
  input : Option String
  output : Option String
  dialect : Option Dialect
  links : List String
  allowUnresolved : Bool
  verbose : Bool
deriving DecidableEq

/-- The options. -/
inductive OptionName
  | input
  | output
  | dialect
  | link
  | allowUnresolved
  | verbose
  | help
deriving DecidableEq

namespace OptionName

/-- Long names. -/
def long : List (String × OptionName) :=
  [("input", input), ("output", output), ("dialect", dialect), ("link", link),
    ("allow-unresolved", allowUnresolved), ("verbose", verbose), ("help", help)]

/-- Letters. -/
def short : List (Char × OptionName) :=
  [('i', input), ('o', output), ('v', verbose), ('h', help)]

/-- Whether an option has a value. -/
def hasValue : OptionName → Bool
  | input | output | dialect | link => true
  | allowUnresolved | verbose | help => false

/-- The long name with its dashes. -/
def written (option : OptionName) : String :=
  "--" ++ nameIn long option

end OptionName

/-- Why the arguments are not carried out. -/
inductive Refusal
  /-- The arguments ask for help. -/
  | help
  | unknownOption (text : String)
  | missingValue (option : OptionName)
  | unexpectedValue (option : OptionName)
  | badValue (option : OptionName)
  | repeated (option : OptionName)
  | unexpectedArgument (text : String)

/-- The wording of a refusal. -/
def Refusal.message : Refusal → String
  | help => "help was asked for"
  | unknownOption text => "unknown option " ++ text
  | missingValue option => "no value for " ++ option.written
  | unexpectedValue option => "a value for " ++ option.written ++ ", which takes none"
  | badValue option => "invalid value for " ++ option.written
  | repeated option => option.written ++ " was given more than once"
  | unexpectedArgument text => "unexpected argument " ++ text

namespace Arguments

/-- No option given. -/
def none : Arguments where
  input := Option.none
  output := Option.none
  dialect := Option.none
  links := []
  allowUnresolved := false
  verbose := false

/-- Names of dialects on the command line. -/
def dialectNames : List (String × Dialect) :=
  [("js", .javaScript), ("ts", .typeScript)]

/-- A path that is given once and not empty. -/
def path (option : OptionName) (known : Option String) (value : String) :
    Except Refusal (Option String) :=
  if known.isSome then .error (.repeated option)
  else if value.isEmpty then .error (.badValue option)
  else .ok (some value)

/-- Take an option that has no value. -/
def flag (a : Arguments) (option : OptionName) : Except Refusal Arguments :=
  match option with
  | .allowUnresolved =>
    if a.allowUnresolved then .error (.repeated option) else .ok { a with allowUnresolved := true }
  | .verbose => if a.verbose then .error (.repeated option) else .ok { a with verbose := true }
  | .help => .error .help
  | _ => .error (.missingValue option)

/-- Take an option with its value. -/
def store (a : Arguments) (option : OptionName) (value : String) : Except Refusal Arguments :=
  match option with
  | .input => do return { a with input := ← path option a.input value }
  | .output => do return { a with output := ← path option a.output value }
  | .dialect =>
    match dialectNames.lookup value with
    | some dialect =>
      if a.dialect.isSome then .error (.repeated option)
      else .ok { a with dialect := some dialect }
    | Option.none => .error (.badValue option)
  | .link => .ok { a with links := a.links ++ [value] }
  | _ => .error (.unexpectedValue option)

/-- Take the letters after one dash. The second result is an option whose value is
still to come. -/
def letters (a : Arguments) : List Char → Except Refusal (Arguments × Option OptionName)
  | [] => .ok (a, Option.none)
  | c :: cs =>
    match OptionName.short.lookup c with
    | Option.none => .error (.unknownOption (String.ofList ['-', c]))
    | some option =>
      if option.hasValue then
        match cs with
        | [] => .ok (a, some option)
        | '=' :: value => do return (← a.store option (String.ofList value), Option.none)
        | value => do return (← a.store option (String.ofList value), Option.none)
      else do letters (← a.flag option) cs

/-- Take what stands after two dashes. The second result is an option whose value
is still to come. -/
def longOption (a : Arguments) (text : List Char) :
    Except Refusal (Arguments × Option OptionName) :=
  let name := String.ofList (text.takeWhile (· ≠ '='))
  match OptionName.long.lookup name, text.dropWhile (· ≠ '=') with
  | Option.none, _ => .error (.unknownOption ("--" ++ name))
  | some option, [] =>
    if option.hasValue then .ok (a, some option)
    else do return (← a.flag option, Option.none)
  | some option, _ :: value =>
    if option.hasValue then do return (← a.store option (String.ofList value), Option.none)
    else .error (.unexpectedValue option)

/-- Take one argument that is not the value of an option before it. -/
def take (a : Arguments) (argument : String) :
    Except Refusal (Arguments × Option OptionName) :=
  match argument.toList with
  | '-' :: '-' :: text => a.longOption text
  | '-' :: c :: cs => a.letters (c :: cs)
  | _ => .error (.unexpectedArgument argument)

/-- Whether an argument can be the value of the option before it. A dash by itself
can. -/
def isValue (argument : String) : Bool :=
  match argument.toList with
  | '-' :: _ :: _ => false
  | _ => true

/-- Take arguments from left to right. After two dashes alone nothing may come. -/
def takeAll (a : Arguments) : List String → Except Refusal Arguments
  | [] => .ok a
  | argument :: rest =>
    if argument = "--" then
      match rest with
      | [] => .ok a
      | text :: _ => .error (.unexpectedArgument text)
    else do
      match ← a.take argument with
      | (a, Option.none) => takeAll a rest
      | (a, some option) =>
        match rest with
        | [] => .error (.missingValue option)
        | value :: rest =>
          if isValue value then takeAll (← a.store option value) rest
          else .error (.missingValue option)

/-- Read a list of arguments. -/
def parse (arguments : List String) : Except Refusal Arguments :=
  none.takeAll arguments

/-- The choices for generating. -/
def options (a : Arguments) : Options where
  dialect := a.dialect.getD .typeScript
  links := a.links
  unresolved := if a.allowUnresolved then .tolerate else .reject

end Arguments

end EcmaWriter
