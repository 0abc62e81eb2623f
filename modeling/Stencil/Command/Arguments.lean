/-!
Reading the arguments of the command line.

A subcommand comes first, and then its operands and options in any order. A long
option has its value after an equals sign or as the next argument, a short one
also right behind its letter. Two hyphens end the options. The option for the
log filter may also stand before the subcommand.
-/

namespace Stencil.Command

inductive Subcommand where
  | split
  | tokenize
  | compile
  | matching
  deriving DecidableEq, Repr

inductive Opt where
  | logLevel
  | start
  | stop
  | escape
  | rule
  deriving DecidableEq, Repr

namespace Subcommand

def ofText? : String → Option Subcommand
  | "split" => some .split
  | "tokenize" => some .tokenize
  | "compile" => some .compile
  | "match" => some .matching
  | _ => none

def hasRule : Subcommand → Bool
  | .split | .tokenize => false
  | .compile | .matching => true

/-- How many operands there may be; the first is always needed. -/
def maxOperands : Subcommand → Nat
  | .matching => 2
  | _ => 1

def longOption? (c : Subcommand) : String → Option Opt
  | "log-level" => some .logLevel
  | "start" => some .start
  | "stop" => some .stop
  | "escape" => some .escape
  | "rule" => if c.hasRule then some .rule else none
  | _ => none

end Subcommand

/-- The options and operands given, operands last one first. -/
structure Given where
  options : List (Opt × String) := []
  operands : List String := []
  deriving DecidableEq, Repr

namespace Given

def option? (g : Given) (o : Opt) : Option String :=
  g.options.lookup o

/-- No option may be given twice. -/
def setOption? (g : Given) (o : Opt) (value : String) : Option Given :=
  if (g.option? o).isSome then none
  else some { g with options := (o, value) :: g.options }

def addOperand? (g : Given) (max : Nat) (operand : String) : Option Given :=
  if g.operands.length < max then some { g with operands := operand :: g.operands } else none

def addOperands? (g : Given) (max : Nat) : List String → Option Given
  | [] => some g
  | a :: as =>
    match g.addOperand? max a with
    | some g => g.addOperands? max as
    | none => none

end Given

/-- What an argument looks like, before the options are known. -/
inductive Shape where
  | terminator
  | long (name : String) (value : Option String)
  | short (letter : Char) (more : List Char)
  | plain

def shapeOf (arg : String) : Shape :=
  match arg.toList with
  | ['-', '-'] => .terminator
  | '-' :: '-' :: cs =>
    let name := String.ofList (cs.takeWhile (· ≠ '='))
    match cs.dropWhile (· ≠ '=') with
    | [] => .long name none
    | _ :: value => .long name (some (String.ofList value))
  | '-' :: c :: cs => .short c cs
  | _ => .plain

/-- The value written right behind the letter of a short option. -/
def attached? : List Char → Option String
  | [] => none
  | '=' :: cs => some (String.ofList cs)
  | cs => some (String.ofList cs)

def Shape.isPlain : Shape → Bool
  | .plain => true
  | _ => false

/-- What the arguments ask for. -/
inductive Asked where
  | run (command : Subcommand) (outer inner : Given)
  | version
  | help
  /-- The arguments are not understood. -/
  | usage
  deriving DecidableEq, Repr

/-- Reads the arguments after a subcommand. -/
def readInner (c : Subcommand) (outer : Given) : Given → List String → Asked
  | g, [] => if g.operands.isEmpty then .usage else .run c outer g
  | g, arg :: rest =>
    let withValue (o : Opt) (value : Option String) : Asked :=
      match value with
      | some v =>
        match g.setOption? o v with
        | some g => readInner c outer g rest
        | none => .usage
      | none =>
        match rest with
        | [] => .usage
        | v :: rest =>
          if (shapeOf v).isPlain then
            match g.setOption? o v with
            | some g => readInner c outer g rest
            | none => .usage
          else .usage
    match shapeOf arg with
    | .terminator =>
      match g.addOperands? c.maxOperands rest with
      | some g => if g.operands.isEmpty then .usage else .run c outer g
      | none => .usage
    | .long "help" none => .help
    | .long name value =>
      match c.longOption? name with
      | some o => withValue o value
      | none => .usage
    | .short 'h' _ => .help
    | .short letter more =>
      if letter = 'r' && c.hasRule then withValue .rule (attached? more) else .usage
    | .plain =>
      match g.addOperand? c.maxOperands arg with
      | some g => readInner c outer g rest
      | none => .usage

/-- Help can be asked for on one subcommand, itself among them. -/
def helpOn : List String → Asked
  | [] => .help
  | [topic] => if topic = "help" || (Subcommand.ofText? topic).isSome then .help else .usage
  | _ => .usage

/-- Reads all arguments. -/
def readOuter : Given → List String → Asked
  | _, [] => .usage
  | g, arg :: rest =>
    match shapeOf arg with
    | .terminator => .usage
    | .long "help" none => .help
    | .long "version" none => .version
    | .long "log-level" (some v) =>
      match g.setOption? .logLevel v with
      | some g => readOuter g rest
      | none => .usage
    | .long "log-level" none =>
      match rest with
      | [] => .usage
      | v :: rest =>
        if (shapeOf v).isPlain then
          match g.setOption? .logLevel v with
          | some g => readOuter g rest
          | none => .usage
        else .usage
    | .long _ _ => .usage
    | .short 'V' _ => .version
    | .short 'h' _ => .help
    | .short _ _ => .usage
    | .plain =>
      match Subcommand.ofText? arg with
      | some c => readInner c g {} rest
      | none => if arg = "help" then helpOn rest else .usage

def readArguments (args : List String) : Asked :=
  readOuter {} args

end Stencil.Command
