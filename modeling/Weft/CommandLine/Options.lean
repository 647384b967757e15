import Weft.Build.Config
import Weft.Number.Literal

/-!
# Options of the command line

Options come before the files. An option starts with one or two dashes; its value follows after an equals
sign or is the next argument, but a switch takes a value only after an equals sign. Two dashes alone end
the options.
-/

namespace Weft.CommandLine

/-- The options. -/
inductive Flag where
  | directory | define | search | cache | deterministic | disasm | encoding | errorFile | workers
  | output | verbose
deriving DecidableEq, Repr

namespace Flag

/-- Every option by name. -/
def all : List Flag :=
  [directory, define, search, cache, deterministic, disasm, encoding, errorFile, workers, output, verbose]

/-- The name of an option. -/
def name : Flag → String
  | directory => "C"
  | define => "D"
  | search => "I"
  | cache => "cache"
  | deterministic => "deterministic"
  | disasm => "disasm"
  | encoding => "encoding"
  | errorFile => "error-file"
  | workers => "j"
  | output => "o"
  | verbose => "v"

/-- What kind of value an option takes; a switch takes none. -/
def value? : Flag → Option String
  | directory | cache | encoding | errorFile | output => some "string"
  | define | search => some "value"
  | workers => some "int"
  | deterministic | disasm | verbose => none

/-- What an option is for. -/
def help : Flag → String
  | directory => "Directory to search for loom.toml (default \".\")"
  | define => "Preprocessor define (repeatable)"
  | search => "Import search directory (repeatable)"
  | cache => "Cache directory"
  | deterministic => "Order artifact modules by file path"
  | disasm => "Disassemble the given artifacts instead of building"
  | encoding => "Module encoding: raw, lz4 or ref"
  | errorFile => "Write diagnostics as JSON lines ('-' for stderr)"
  | workers => "Parse and compile workers (0 = one per CPU)"
  | output => "Artifact output path"
  | verbose => "Verbose output (repeat for more)"

/-- The option with a name. -/
def ofName? (s : String) : Option Flag := all.find? fun f => f.name = s

/-- The lines about an option in the help. -/
def usage (f : Flag) : String :=
  let start := "  -" ++ f.name ++ ((f.value?.map (" " ++ ·)).getD "")
  start ++ (if start.length ≤ 4 then "\t" else "\n    \t") ++ f.help ++ "\n"

end Flag

/-- The help. -/
def usage : String :=
  "Usage: loomc [options] [files...]\n\n" ++
  "Builds a Loom project into a single artifact. Settings come from the\n" ++
  "nearest loom.toml; flags and file arguments override them.\n\n" ++
  "Options:\n" ++ String.join (Flag.all.map Flag.usage) ++
  "\nExamples:\n" ++
  "  loomc                          # Build the project in this directory\n" ++
  "  loomc -o game.lmod -I src src/main.loom\n" ++
  "  loomc -encoding lz4 -D DEBUG -v\n" ++
  "  loomc -disasm out/game.lmod    # Print the compiled bytecode\n"

/-- What the command line asks for. An empty text means that an option was not given. -/
structure Options where
  verbose : Nat
  includes : List String
  defines : List String
  directory : String
  output : String
  cache : String
  workers : Int
  deterministic : Bool
  encoding : String
  errorFile : String
  disasm : Bool
  files : List String
deriving Repr, Inhabited

/-- The options of a command line that gives none. -/
def Options.plain : Options :=
  { verbose := 0, includes := [], defines := [], directory := ".", output := "", cache := "", workers := 0,
    deterministic := false, encoding := "", errorFile := "", disasm := false, files := [] }

/-- Why a command line cannot be read. -/
inductive OptionError where
  | malformed (argument : String)
  | unknown (name : String)
  | missing (name : String)
  | notSwitch (value name : String)
  | notNumber (value name : String)
  | outOfRange (value name : String)
  | help
deriving DecidableEq, Repr

/-- The text of the problem. A call for help is no problem. -/
def OptionError.message : OptionError → String
  | malformed a => "bad flag syntax: " ++ a ++ "\n"
  | unknown n => "flag provided but not defined: -" ++ n ++ "\n"
  | missing n => "flag needs an argument: -" ++ n ++ "\n"
  | notSwitch v n => "invalid boolean value " ++ Text.quote v ++ " for -" ++ n ++ ": parse error\n"
  | notNumber v n => "invalid value " ++ Text.quote v ++ " for flag -" ++ n ++ ": parse error\n"
  | outOfRange v n => "invalid value " ++ Text.quote v ++ " for flag -" ++ n ++ ": value out of range\n"
  | help => ""

/-- The value of a switch. -/
def switch? (s : String) : Option Bool :=
  if s ∈ ["1", "t", "T", "true", "TRUE", "True"] then some true
  else if s ∈ ["0", "f", "F", "false", "FALSE", "False"] then some false
  else none

/-- The base of a number with its digits: a zero before the digits means base eight, unless a letter follows
that names another one. The third part tells whether an underscore may come first. -/
def baseOf : List Char → Nat × List Char × Bool
  | '0' :: x :: d :: ds =>
    if x = 'b' ∨ x = 'B' then (2, d :: ds, true)
    else if x = 'o' ∨ x = 'O' then (8, d :: ds, true)
    else if x = 'x' ∨ x = 'X' then (16, d :: ds, true)
    else (8, x :: d :: ds, true)
  | '0' :: ds => (8, ds, true)
  | ds => (10, ds, false)

/-- Digits without the underscores between them. -/
def ungroup : Bool → List Char → Option (List Char)
  | _, [] => some []
  | after, '_' :: cs => if after && !cs.isEmpty then ungroup false cs else none
  | _, c :: cs => (ungroup true cs).map (c :: ·)

/-- The magnitude of a number on the command line. -/
def magnitude? (cs : List Char) : Option Nat := do
  if cs.isEmpty then none
  let (base, digits, after) := baseOf cs
  Number.digits? base 0 (← ungroup after digits)

/-- The value of an option that is a number. -/
def number (s name : String) : Except OptionError Int :=
  let (negative, digits) := match s.toList with
    | '-' :: cs => (true, cs)
    | '+' :: cs => (false, cs)
    | cs => (false, cs)
  match magnitude? digits with
  | none => .error (.notNumber s name)
  | some n =>
    let v : Int := if negative then -n else n
    if -(Number.pow2 63) ≤ v ∧ v < Number.pow2 63 then .ok v else .error (.outOfRange s name)

/-- The options after one more with its value. -/
def Options.set (o : Options) (f : Flag) (value : String) : Except OptionError Options :=
  match f with
  | .directory => .ok { o with directory := value }
  | .define => .ok { o with defines := o.defines ++ [value] }
  | .search => .ok { o with includes := o.includes ++ [value] }
  | .cache => .ok { o with cache := value }
  | .encoding => .ok { o with encoding := value }
  | .errorFile => .ok { o with errorFile := value }
  | .output => .ok { o with output := value }
  | .verbose => .ok { o with verbose := o.verbose + 1 }
  | .workers => (number value f.name).map fun workers => { o with workers }
  | .deterministic =>
    match switch? value with
    | some deterministic => .ok { o with deterministic }
    | none => .error (.notSwitch value f.name)
  | .disasm =>
    match switch? value with
    | some disasm => .ok { o with disasm }
    | none => .error (.notSwitch value f.name)

/-- An argument: an option with the value behind its equals sign, the end of the options, or a file. -/
inductive Argument where
  | option (name : String) (value : Option String)
  | endOfOptions
  | file
  | malformed
deriving DecidableEq, Repr

/-- The name and the value of an option without its dashes. -/
def Argument.ofBody (cs : List Char) : Argument :=
  match cs with
  | [] | '-' :: _ | '=' :: _ => malformed
  | cs =>
    let name := String.ofList (cs.takeWhile (· ≠ '='))
    match cs.dropWhile (· ≠ '=') with
    | [] => option name none
    | _ :: value => option name (some (String.ofList value))

/-- What an argument is. -/
def Argument.of (s : String) : Argument :=
  match s.toList with
  | ['-', '-'] => endOfOptions
  | '-' :: '-' :: cs => ofBody cs
  | '-' :: c :: cs => ofBody (c :: cs)
  | _ => file

/-- Read arguments after some options. -/
def Options.parse (o : Options) : List String → Except OptionError Options
  | [] => .ok o
  | a :: rest =>
    match Argument.of a with
    | .file => .ok { o with files := a :: rest }
    | .endOfOptions => .ok { o with files := rest }
    | .malformed => .error (.malformed a)
    | .option name value =>
      match Flag.ofName? name, value with
      | none, _ => .error (if name = "h" ∨ name = "help" then .help else .unknown name)
      | some f, some v => do parse (← o.set f v) rest
      | some f, none =>
        if f.value?.isNone then do parse (← o.set f "true") rest
        else match rest with
          | [] => .error (.missing name)
          | v :: rest => do parse (← o.set f v) rest
termination_by args => args.length

end Weft.CommandLine
