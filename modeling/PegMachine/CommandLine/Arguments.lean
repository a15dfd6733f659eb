import PegMachine.Journal
/-!
  The arguments of the command line.

  Options are taken out of the list of arguments one after the other, in a fixed order, wherever they stand. The first
  argument that is left in the end is the input file, and there must be no other. How a single thing is taken out is
  left to an `OptionReader`. The usual one takes the value of an option from whatever argument follows it, or from what
  its own argument says after an equals sign, perhaps in quotes.

  Correspondence (program ↔ here):
    `Args`                            ↔ `Invocation`
    `parse_args`                      ↔ `takeInvocation`, `Invocation.ofArguments?`
    `contains`, `value_from_str`, `opt_value_from_str`, `free_from_str` ↔ the fields of `OptionReader`
    `HELP`                            ↔ `help`
-/
namespace PegMachine.CommandLine

/-- What the arguments ask for. -/
structure Invocation where
  program : String
  start? : Option String
  onlyMatch : Bool
  profile : Bool
  csv? : Option String
  strictVersion : Bool
  stack? : Option Nat
  symbols? : Option Nat
  /-- The least important events that are shown. -/
  verbosity : Level
  input : String
  deriving DecidableEq, Repr

/-! ## Taking options out -/

/-- Takes things out of the arguments that are left. What is wrong with them is told in words. -/
abbrev Take := StateT (List String) (Except String)

/-- How things are taken out of the arguments. An option may have several names. -/
structure OptionReader where
  /-- Takes a flag out; tells whether it was there. -/
  contains : List String → Take Bool
  /-- Takes an option and its value out, which have to be there. -/
  value : List String → Take String
  /-- Takes an option and its value out, if the option is there. -/
  value? : List String → Take (Option String)
  /-- Takes an option with a number out, if it is there. -/
  number? : List String → Take (Option Nat)
  /-- Takes the first argument out that is left. -/
  free : Take String

/-- Makes sure that nothing is left. -/
def takeNothing : Take Unit := do
  match ← get with
  | [] => pure ()
  | rest => throw ("unexpected arguments: [" ++ ", ".intercalate (rest.map Text.quotedName) ++ "]")

def takeVerbosity (options : OptionReader) : Take Level := do
  if ← options.contains ["--trace"] then pure .trace
  else if ← options.contains ["-v"] then pure .debug
  else pure .warn

/-- Takes everything out; nothing is wanted but the help if that is among the arguments. -/
def takeInvocation (options : OptionReader) : Take (Option Invocation) := do
  if ← options.contains ["-h", "--help"] then return none
  let verbosity ← takeVerbosity options
  let program ← options.value ["-p", "--program"]
  let start? ← options.value? ["-s", "--start"]
  let onlyMatch ← options.contains ["--match"]
  let profile ← options.contains ["--profile"]
  let csv? ← options.value? ["--profile-csv"]
  let strictVersion ← options.contains ["--strict-version"]
  let stack? ← options.number? ["--stack"]
  let symbols? ← options.number? ["--symbols"]
  let input ← options.free
  takeNothing
  return some { program, start?, onlyMatch, profile, csv?, strictVersion, stack?, symbols?, verbosity, input }

/-- What the arguments ask for; `none` is for the help. -/
def Invocation.ofArguments? (options : OptionReader) (arguments : List String) : Except String (Option Invocation) :=
  (takeInvocation options).run' arguments

def help : String :=
  "pegvm: run compiled PEG bytecode over an input file

USAGE:
  pegvm -p <BYTECODE> [OPTIONS] <INPUT>

OPTIONS:
  -p, --program <PATH>     compiled grammar to load
  -s, --start <RULE>       rule to start from (default: instruction 1)
  --match                  only say whether the input matched
  --profile                print opcode counts after the run
  --profile-csv <PATH>     write the opcode pair matrix as CSV
  --strict-version         refuse bytecode with an unknown version
  --stack <N>              backtrack/AST/call stack capacity
  --symbols <N>            symbol table capacity
  -v                       log loading and matching
  --trace                  log every instruction executed
  -h, --help               print this
"

/-! ## The usual way -/

inductive NumberFault where
  | empty | invalidDigit | tooLarge
  deriving DecidableEq, Repr

def NumberFault.message : NumberFault → String
  | empty => "cannot parse integer from empty string"
  | invalidDigit => "invalid digit found in string"
  | tooLarge => "number too large to fit in target type"

inductive OptionError where
  /-- An option that has to be there is not. -/
  | missingOption (names : List String)
  /-- An option is the last argument, or says nothing after its equals sign. -/
  | missingValue (name : String)
  | badNumber (text : String) (fault : NumberFault)
  | missingInput
  deriving DecidableEq, Repr

def OptionError.message : OptionError → String
  | missingOption names => "the '" ++ "/".intercalate names ++ "' option must be set"
  | missingValue name => s!"the '{name}' option doesn't have an associated value"
  | badNumber text fault => s!"failed to parse '{text}' cause {fault.message}"
  | missingInput => "free-standing argument is missing"

def refuse {α : Type} (error : OptionError) : Take α := throw error.message

/-- Continues a number of 64 bits by decimal digits. -/
def readDigits : List Char → (n : Nat) → Except NumberFault Nat
  | [], n => .ok n
  | c :: cs, n =>
    if !c.isDigit then .error .invalidDigit
    else
      let n := 10 * n + (c.toNat - '0'.toNat)
      if n < UInt64.size then readDigits cs n else .error .tooLarge

/-- Reads a decimal number of 64 bits, which may have a plus sign before it. -/
def readNumber (text : String) : Except NumberFault Nat :=
  match text.toList with
  | [] => .error .empty
  | ['+'] => .error .invalidDigit
  | '+' :: digits => readDigits digits 0
  | digits => readDigits digits 0

/-- The option among the arguments, under the first of its names that is there, and its place. -/
def find? (names arguments : List String) : Option (String × Nat) :=
  names.findSome? fun name => (arguments.idxOf? name).map (name, ·)

/-- The first element of which something can be made: what it gives, and the list without it. -/
def extract? {α β : Type} (f : α → Option β) : List α → Option (β × List α)
  | [] => none
  | a :: as =>
    match f a with
    | some b => some (b, as)
    | none => (extract? f as).map fun (b, rest) => (b, a :: rest)

/-- What an argument says after the option's name and an equals sign. -/
def joinedText? (name argument : String) : Option (List Char) :=
  let start := name.toList ++ ['=']
  if start.isPrefixOf argument.toList then some (argument.toList.drop start.length) else none

/-- The option among the arguments with an equals sign after its name, under the first of its names that
    is there so: what follows the sign, and the other arguments. -/
def findJoined? (names arguments : List String) : Option (String × List Char × List String) :=
  names.findSome? fun name => (extract? (joinedText? name) arguments).map (name, ·)

/-- The value in a text, without the quotes that may stand around it. A quote at the start needs its like at
    the end; and a value has at least one character. -/
def valueOf? : List Char → Option String
  | [] => none
  | c :: cs =>
    if c = '"' || c = '\x27' then
      if cs.getLast? = some c && 1 < cs.length then some (String.ofList cs.dropLast) else none
    else some (String.ofList (c :: cs))

namespace OptionReader

def takeFlag (names : List String) : Take Bool := do
  let arguments ← get
  match find? names arguments with
  | none => pure false
  | some (_, place) =>
    set (arguments.eraseIdx place)
    pure true

/-- An equals sign is only looked for if the option does not stand alone in any argument. -/
def takeValue? (names : List String) : Take (Option String) := do
  let arguments ← get
  match find? names arguments with
  | some (name, place) =>
    match arguments[place + 1]? with
    | none => refuse (.missingValue name)
    | some value =>
      set ((arguments.eraseIdx place).eraseIdx place)
      pure (some value)
  | none =>
    match findJoined? names arguments with
    | none => pure none
    | some (name, text, rest) =>
      match valueOf? text with
      | none => refuse (.missingValue name)
      | some value =>
        set rest
        pure (some value)

def takeValue (names : List String) : Take String := do
  match ← takeValue? names with
  | some value => pure value
  | none => refuse (.missingOption names)

def takeNumber? (names : List String) : Take (Option Nat) := do
  match ← takeValue? names with
  | none => pure none
  | some text =>
    match readNumber text with
    | .ok n => pure (some n)
    | .error fault => refuse (.badNumber text fault)

def takeFree : Take String := do
  match ← get with
  | [] => refuse .missingInput
  | input :: rest =>
    set rest
    pure input

/-- Options and their values stand in arguments of their own, or in one with an equals sign between them. -/
def usual : OptionReader := ⟨takeFlag, takeValue, takeValue?, takeNumber?, takeFree⟩

end OptionReader

end PegMachine.CommandLine
