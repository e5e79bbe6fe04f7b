import ArrayEquations.Derivative.Transform

/-!
# ArrayEquations — arguments of the command line

A command line names one input and options in any order. An option with a value takes
the next argument, or what follows an equals sign; a short one also what follows its
letter. After `--` nothing is an option. Asking for help or the version ends the reading
at that place.

## Main definitions

* `Flag` — the options by their spellings.
* `Arguments` — what is asked for.
* `Stop` — why there is nothing to do, with `UsageError` for a faulty command line.
* `readArguments` — the arguments of a command line.
-/

namespace ArrayEquations.CommandLine

/-- What is written in the end. -/
inductive Stage where
  /-- The equations in LaTeX. -/
  | tex
  /-- The equations in prefix form. -/
  | expr
  /-- The document of the trace. -/
  | graph
  /-- The provenance of the equations. -/
  | buildInfo
  deriving DecidableEq, Repr

namespace Stage

/-- The spelling of a stage. -/
def name : Stage → String
  | .tex => "tex"
  | .expr => "expr"
  | .graph => "graph"
  | .buildInfo => "build-info"

/-- All stages. -/
def all : List Stage := [.tex, .expr, .graph, .buildInfo]

/-- The stage of a spelling. -/
def ofName? (name : String) : Option Stage := all.find? (·.name == name)

end Stage

/-- The options. -/
inductive Flag where
  | function | symbol
  /-- A differentiation with respect to an argument. -/
  | derivative (mode : Mode)
  | emit | config | display | output | verbose | help | version
  deriving DecidableEq, Repr

namespace Flag

/-- The long spelling of an option. -/
def long : Flag → String
  | .function => "function"
  | .symbol => "symbol"
  | .derivative .grad => "grad"
  | .derivative .jvp => "jvp"
  | .derivative .vjp => "vjp"
  | .emit => "emit"
  | .config => "config"
  | .display => "display"
  | .output => "output"
  | .verbose => "verbose"
  | .help => "help"
  | .version => "version"

/-- The short spelling of an option. -/
def short? : Flag → Option Char
  | .function => some 'f'
  | .output => some 'o'
  | .help => some 'h'
  | .version => some 'V'
  | _ => none

/-- Whether an option has a value. -/
def takesValue : Flag → Bool
  | .display | .verbose | .help | .version => false
  | _ => true

/-- Whether an option may be given more than once. -/
def isRepeatable : Flag → Bool
  | .derivative _ => true
  | _ => false

/-- All options. -/
def all : List Flag :=
  [ .function, .symbol, .derivative .grad, .derivative .jvp, .derivative .vjp, .emit, .config,
    .display, .output, .verbose, .help, .version ]

end Flag

/-- A fault of a command line. -/
inductive UsageError where
  | unknownOption (argument : String)
  | missingValue (flag : Flag)
  | unneededValue (flag : Flag)
  | repeated (flag : Flag)
  | invalidValue (flag : Flag) (value : String)
  | conflict
  | missingInput
  | emptyInput
  | secondInput (argument : String)
  deriving DecidableEq, Repr

/-- The text of a usage error. -/
def UsageError.message : UsageError → String
  | .unknownOption argument => s!"error: unknown option '{argument}'"
  | .missingValue flag => s!"error: '--{flag.long}' needs a value"
  | .unneededValue flag => s!"error: '--{flag.long}' takes no value"
  | .repeated flag => s!"error: '--{flag.long}' cannot be used twice"
  | .invalidValue flag value => s!"error: '{value}' is no value of '--{flag.long}'"
  | .conflict => "error: '--grad', '--jvp' and '--vjp' exclude each other"
  | .missingInput => "error: the input is missing"
  | .emptyInput => "error: the input is empty"
  | .secondInput argument => s!"error: unexpected argument '{argument}'"

/-- Why there is nothing to do. -/
inductive Stop where
  | usage (e : UsageError)
  | help
  | version
  deriving DecidableEq, Repr

/-- What is asked for. -/
structure Arguments where
  input : String
  function : Option String
  symbol : Option String
  /-- The differentiation, and the names or positions of arguments. -/
  derivative : Option (Mode × List String)
  stage : Stage
  config : Option String
  display : Bool
  output : Option String
  verbose : Bool
  deriving DecidableEq, Repr

/-! ## Reading -/

/-- What was read so far: the input, and the options with their values in order. -/
structure Draft where
  input : Option String
  flags : List (Flag × String)

namespace Draft

/-- Whether an option was given. -/
def has (d : Draft) (flag : Flag) : Bool := d.flags.any (·.1 == flag)

/-- The values of an option in order. -/
def values (d : Draft) (flag : Flag) : List String :=
  (d.flags.filter (·.1 == flag)).map (·.2)

/-- The value of an option. -/
def value? (d : Draft) (flag : Flag) : Option String := (d.values flag).head?

/-- Whether a text can be the value of an option: a stage, a path that is not empty, or any
text. -/
def admits (flag : Flag) (value : String) : Bool :=
  match flag with
  | .emit => (Stage.ofName? value).isSome
  | .config | .output => !value.isEmpty
  | _ => true

/-- The draft with one more option. -/
def add (d : Draft) (flag : Flag) (value : String) : Except Stop Draft :=
  if !admits flag value then .error (.usage (.invalidValue flag value))
  else if d.has flag && !flag.isRepeatable then .error (.usage (.repeated flag))
  else .ok { d with flags := d.flags ++ [(flag, value)] }

/-- The draft with an option that has no value. -/
def addSwitch (d : Draft) (flag : Flag) : Except Stop Draft :=
  match flag with
  | .help => .error .help
  | .version => .error .version
  | flag => d.add flag ""

/-- The draft with the input. -/
def addInput (d : Draft) (argument : String) : Except Stop Draft :=
  if d.input.isSome then .error (.usage (.secondInput argument))
  else if argument.isEmpty then .error (.usage .emptyInput)
  else .ok { d with input := some argument }

/-- The one differentiation that was asked for, if any was. -/
def derivative (d : Draft) : Except Stop (Option (Mode × List String)) :=
  let asked := [Mode.grad, .jvp, .vjp].filter fun mode => d.has (.derivative mode)
  match asked with
  | [] => .ok none
  | [mode] => .ok (some (mode, d.values (.derivative mode)))
  | _ => .error (.usage .conflict)

/-- The arguments of a complete draft. -/
def finish (d : Draft) : Except Stop Arguments := do
  let derivative ← d.derivative
  match d.input with
  | none => throw (.usage .missingInput)
  | some input =>
    return {
      input := input
      function := d.value? .function
      symbol := d.value? .symbol
      derivative := derivative
      stage := ((d.value? .emit).bind Stage.ofName?).getD .tex
      config := d.value? .config
      display := d.has .display
      output := d.value? .output
      verbose := d.has .verbose }

end Draft

/-- What an argument is. -/
inductive ArgumentKind where
  | plain
  /-- The mark after which nothing is an option. -/
  | escape
  /-- An option, with the value attached to it. -/
  | option (flag : Flag) (attached : Option String)
  | unknown
  deriving DecidableEq, Repr

/-- An option by its long spelling, with the value behind an equals sign. -/
def longOption (spelling : List Char) : ArgumentKind :=
  let name := String.ofList (spelling.takeWhile (· ≠ '='))
  let attached :=
    match spelling.dropWhile (· ≠ '=') with
    | [] => none
    | _ :: value => some (String.ofList value)
  match Flag.all.find? (·.long == name) with
  | some flag => .option flag attached
  | none => .unknown

/-- An option by its letter, with what follows the letter as its value; an equals sign between
them does not count. Options without a value end the reading, so nothing can follow them. -/
def shortOption (letter : Char) (rest : List Char) : ArgumentKind :=
  match Flag.all.find? (·.short? == some letter) with
  | none => .unknown
  | some flag =>
    if !flag.takesValue then .option flag none
    else
      match rest with
      | [] => .option flag none
      | '=' :: value => .option flag (some (String.ofList value))
      | value => .option flag (some (String.ofList value))

/-- What an argument is. A lone dash is no option. -/
def argumentKind (argument : String) : ArgumentKind :=
  match argument.toList with
  | ['-', '-'] => .escape
  | '-' :: '-' :: spelling => longOption spelling
  | '-' :: letter :: rest => shortOption letter rest
  | _ => .plain

/-- Whether an argument can be the value of the option before it. -/
def isValue (argument : String) : Bool := argumentKind argument = .plain

/-- Reads arguments from left to right. -/
def readFrom (d : Draft) : List String → Except Stop Draft
  | [] => .ok d
  | argument :: rest =>
    match argumentKind argument with
    | .plain => do readFrom (← d.addInput argument) rest
    | .escape => rest.foldlM Draft.addInput d
    | .unknown => .error (.usage (.unknownOption argument))
    | .option flag attached =>
      if flag.takesValue then
        match attached, rest with
        | some value, rest => do readFrom (← d.add flag value) rest
        | none, value :: rest =>
          if isValue value then do readFrom (← d.add flag value) rest
          else .error (.usage (.missingValue flag))
        | none, [] => .error (.usage (.missingValue flag))
      else if attached.isSome then .error (.usage (.unneededValue flag))
      else do readFrom (← d.addSwitch flag) rest
termination_by arguments => arguments.length

/-- The arguments of a command line. -/
def readArguments (arguments : List String) : Except Stop Arguments := do
  (← readFrom ⟨none, []⟩ arguments).finish

end ArrayEquations.CommandLine
