import Stencil.Command.Arguments
import Stencil.Command.LogFilter
import Stencil.Grammar.Input
import Stencil.Pattern
import Stencil.Statements

/-!
What the command line does. A run ends in a report; only matching without an
input among its operands has to read the standard input first.
-/

namespace Stencil.Command

/-- Why a run failed. -/
inductive Failure where
  | delimiters (cause : DelimiterError)
  | grammar (cause : GrammarError)
  | split (cause : SplitError)
  | compile (cause : CompileError)
  | notText
  | input (cause : InputError)
  deriving DecidableEq, Repr

namespace Failure

def message : Failure → String
  | .delimiters e => e.message
  | .grammar e => e.message
  | .split e => e.message
  | .compile e => e.message
  | .notText => "stream did not contain valid UTF-8"
  | .input e => e.message

/-- What was being done when it failed, where that is not clear. -/
def context? : Failure → Option String
  | .delimiters _ => some "invalid delimiters"
  | .grammar _ => some "building statement grammar"
  | .notText => some "reading input from stdin"
  | _ => none

/-- Sets every line after the first off by four spaces. -/
def indent (text : String) : String :=
  String.ofList (text.toList.flatMap fun c => if c = '\n' then "\n    ".toList else [c])

def render (f : Failure) : String :=
  match f.context? with
  | none => "Error: " ++ f.message ++ "\n"
  | some context => "Error: " ++ context ++ "\n\nCaused by:\n    " ++ indent f.message ++ "\n"

end Failure

/-- Lines on the error stream that come before any failure. -/
inductive Note where
  | ignoredDirective (text : List Char)
  | compiled (pattern : String) (rule : RuleId) (leaves : Nat)
  | rejected (pattern : String) (rule : RuleId) (reason : String)
  deriving DecidableEq, Repr

def Note.render : Note → String
  | .ignoredDirective text => "ignoring log directive " ++ String.ofList text ++ "\n"
  | .compiled pattern rule leaves =>
    "DEBUG compiled tree pattern pattern=" ++ pattern ++ " rule=" ++ toString rule ++
      " leaves=" ++ toString leaves ++ "\n"
  | .rejected pattern rule reason =>
    "DEBUG tree pattern rejected pattern=" ++ pattern ++ " rule=" ++ toString rule ++
      " error=" ++ reason ++ "\n"

inductive Ending where
  | success
  /-- The pattern does not match. -/
  | mismatch
  | failure (cause : Failure)
  /-- The arguments were not understood. -/
  | usage
  /-- The log filter could not be divided into its parts. -/
  | brokenFilter
  deriving DecidableEq, Repr

def Ending.status : Ending → Nat
  | .success => 0
  | .mismatch | .failure _ => 1
  | .usage => 2
  | .brokenFilter => 101

structure Report where
  output : String := ""
  notes : List Note := []
  ending : Ending := .success
  deriving DecidableEq, Repr

inductive Run where
  | done (report : Report)
  | needsInput (next : ByteArray → Report)

def lines (ls : List String) : String :=
  String.join (ls.map (· ++ "\n"))

/-- Fills a text up with blanks to a width. -/
def padTo (width : Nat) (text : String) : String :=
  text ++ String.ofList (List.replicate (width - text.length) ' ')

def usageText : String :=
  lines
    ["usage: tree-pattern [--log-level FILTER] COMMAND",
     "commands:",
     "  split PATTERN",
     "  tokenize PATTERN",
     "  compile PATTERN [--rule RULE]",
     "  match PATTERN [INPUT] [--rule RULE]",
     "options of all commands: --start TEXT, --stop TEXT, --escape TEXT"]

def versionText : String := "tree-pattern 0.1.0\n"

/-- The event of a compilation, which has a field for its result. -/
def compileEvent (result : String) : Event :=
  ⟨"tree_pattern::compiler", .debug, ["message", "pattern", "rule", result]⟩

def delimitersOf (g : Given) : Except DelimiterError Delimiters :=
  Delimiters.make ((g.option? .start).getD "<") ((g.option? .stop).getD ">")
    ((g.option? .escape).getD "\\")

def filterOf (outer inner : Given) : Except Flaw LogFilter :=
  match (inner.option? .logLevel).or (outer.option? .logLevel) with
  | some text => LogFilter.read text
  | none => .ok LogFilter.standard

def splitLines (d : Delimiters) (pattern : String) : Except Failure String :=
  match d.split pattern with
  | .ok chunks => .ok (lines (chunks.map Chunk.render))
  | .error e => .error (.split e)

def tokenLine (g : Grammar) (t : Token) : String :=
  let name :=
    match t.type? with
    | some n => (g.tokenName? n).getD "?"
    | none => "rule"
  padTo 8 name ++ " " ++ t.text

def tokenLines (g : Grammar) (d : Delimiters) (pattern : String) : Except Failure String :=
  match g.language.patternTokens d pattern with
  | .ok tokens => .ok (lines (tokens.map (tokenLine g)))
  | .error e => .error (.compile e)

def mismatchLines (g : Grammar) (m : Match) : List String :=
  match m.mismatch with
  | none => []
  | some t =>
    ["  mismatch at " ++ (t.rule?.bind g.ruleName?).getD "token" ++ " '" ++ t.text ++ "'"]

def matchLines (g : Grammar) (m : Match) : List String :=
  [m.subject.render g.ruleName?, m.render] ++
    m.labels.entries.map (fun e => "  " ++ e.1 ++ " = " ++ Labels.renderTexts e.2) ++
    mismatchLines g m

/-- The note on a compilation, if the filter lets it pass. There is none when
the start rule is unknown. -/
def compileNotes (g : Grammar) (f : LogFilter) (pattern rule : String)
    (result : Except CompileError Pattern) : List Note :=
  match g.ruleIndex? rule, result with
  | none, _ => []
  | some r, .ok p =>
    if f.passes (compileEvent "leaves") then [.compiled pattern r p.template.leafCount] else []
  | some r, .error e =>
    if f.passes (compileEvent "error") then [.rejected pattern r e.message] else []

/-- The text of the standard input, without the line ends at its end. -/
def inputText? (bytes : ByteArray) : Option String :=
  (String.fromUTF8? bytes).map fun s =>
    String.ofList (s.toList.reverse.dropWhile (· == '\n')).reverse

def reportMatch (g : Grammar) (notes : List Note) (p : Pattern) (input : String) : Report :=
  match g.parseText input p.start with
  | .error e => { notes, ending := .failure (.input e) }
  | .ok tree =>
    let m := p.matchTree tree
    { output := lines (matchLines g m), notes,
      ending := if m.succeeded then .success else .mismatch }

def runMatch (g : Grammar) (notes : List Note) (p : Pattern) : Option String → Run
  | some input => .done (reportMatch g notes p input)
  | none =>
    .needsInput fun bytes =>
      match inputText? bytes with
      | some input => reportMatch g notes p input
      | none => { notes, ending := .failure .notText }

/-- Runs a subcommand on its operands, the first of which is the pattern. -/
def runCommand (c : Subcommand) (filter : LogFilter) (inner : Given) : Run :=
  let ignored := filter.ignored.map Note.ignoredDirective
  let fail (cause : Failure) : Run := .done { notes := ignored, ending := .failure cause }
  let print : Except Failure String → Run
    | .ok output => .done { output, notes := ignored }
    | .error cause => fail cause
  let operands := inner.operands.reverse
  let pattern := operands.head?.getD ""
  let rule := (inner.option? .rule).getD "stat"
  match delimitersOf inner with
  | .error e => fail (.delimiters e)
  | .ok d =>
    match c, statements.build with
    | .split, _ => print (splitLines d pattern)
    | _, .error e => fail (.grammar e)
    | .tokenize, .ok g => print (tokenLines g d pattern)
    | .compile, .ok g =>
      let result := Pattern.compileNamed g.language d pattern rule
      let notes := ignored ++ compileNotes g filter pattern rule result
      match result with
      | .error e => .done { notes, ending := .failure (.compile e) }
      | .ok p => .done { output := lines [p.template.render g.ruleName?], notes }
    | .matching, .ok g =>
      let result := Pattern.compileNamed g.language d pattern rule
      let notes := ignored ++ compileNotes g filter pattern rule result
      match result with
      | .error e => .done { notes, ending := .failure (.compile e) }
      | .ok p => runMatch g notes p operands[1]?

def start (args : List String) : Run :=
  match readArguments args with
  | .run c outer inner =>
    match filterOf outer inner with
    | .ok filter => runCommand c filter inner
    | .error _ => .done { ending := .brokenFilter }
  | .version => .done { output := versionText }
  | .help => .done { output := usageText }
  | .usage => .done { ending := .usage }

/-- The report of a whole run, given its standard input. -/
def run (args : List String) (input : ByteArray) : Report :=
  match start args with
  | .done report => report
  | .needsInput next => next input

namespace Report

/-- What a run writes to the error stream. -/
def errorText (r : Report) : String :=
  String.join (r.notes.map Note.render) ++
    match r.ending with
    | .failure cause => cause.render
    | .usage => usageText
    | .brokenFilter => "log filter divided inside a character\n"
    | _ => ""

end Report

end Stencil.Command
