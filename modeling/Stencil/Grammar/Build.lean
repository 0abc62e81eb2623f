import Stencil.Grammar.Basic
import Stencil.Grammar.Symbols

/-!
Building a grammar from its declarations. Four things can be wrong with them,
and they are looked for one after the other: names that are declared twice,
literals that are not closed, token patterns that are no regular expressions,
and symbols that are not declared.
-/

namespace Stencil

structure RuleDecl where
  name : String
  alternatives : List String
  deriving DecidableEq, Repr

structure TokenDecl where
  name : String
  pattern : String
  action : Action := .emit
  deriving DecidableEq, Repr

structure GrammarDecl where
  name : String
  rules : List RuleDecl
  tokens : List TokenDecl
  deriving DecidableEq, Repr

inductive GrammarError where
  | undefinedSymbol (grammar rule name : String)
  | duplicateName (grammar name : String)
  | unterminatedLiteral (grammar rule : String)
  | invalidTokenPattern (name : String)
  deriving DecidableEq, Repr

def GrammarError.message : GrammarError → String
  | .undefinedSymbol grammar rule name =>
    "grammar " ++ grammar ++ " references undefined symbol " ++ name ++ " in rule " ++ rule
  | .duplicateName grammar name => "grammar " ++ grammar ++ " defines " ++ name ++ " more than once"
  | .unterminatedLiteral grammar rule =>
    "grammar " ++ grammar ++ " has an unterminated literal in rule " ++ rule
  | .invalidTokenPattern name => "invalid pattern for token " ++ name

/-- The first member of a list that repeats an earlier one or one of `seen`. -/
def firstRepeated? {α : Type} [DecidableEq α] (seen : List α) : List α → Option α
  | [] => none
  | a :: as => if a ∈ seen then some a else firstRepeated? (a :: seen) as

/-- The members of a list without repetitions, each where it comes first. -/
def distinct {α : Type} [DecidableEq α] (seen : List α) : List α → List α
  | [] => []
  | a :: as => if a ∈ seen then distinct seen as else a :: distinct (a :: seen) as

namespace RawSymbol

def literal? : RawSymbol → Option String
  | .literal text => some text
  | .name _ => none

end RawSymbol

/-- A rule whose alternatives have been read. -/
structure RawRule where
  name : String
  alternatives : List (List RawSymbol)

/-- Applies a function to all members of a list, up to the first error. -/
def tryMap {α β ε : Type} (f : α → Except ε β) : List α → Except ε (List β)
  | [] => .ok []
  | a :: as =>
    match f a with
    | .error e => .error e
    | .ok b =>
      match tryMap f as with
      | .error e => .error e
      | .ok bs => .ok (b :: bs)

namespace GrammarDecl

def names (d : GrammarDecl) : List String :=
  d.rules.map RuleDecl.name ++ d.tokens.map TokenDecl.name

def readRule (d : GrammarDecl) (r : RuleDecl) : Except GrammarError RawRule :=
  let read (alternative : String) : Except GrammarError (List RawSymbol) :=
    match RawSymbol.readAll alternative with
    | some symbols => .ok symbols
    | none => .error (.unterminatedLiteral d.name r.name)
  match tryMap read r.alternatives with
  | .ok alternatives => .ok ⟨r.name, alternatives⟩
  | .error e => .error e

/-- The literals of some rules, each where it comes first. -/
def literals (rules : List RawRule) : List String :=
  distinct [] (rules.flatMap fun r => r.alternatives.flatMap (·.filterMap RawSymbol.literal?))

def compileToken (t : TokenDecl) : Except GrammarError TokenDef :=
  match Regex.compile? t.pattern with
  | some pattern => .ok (.named t.name t.action pattern)
  | none => .error (.invalidTokenPattern t.name)

/-- The symbol a raw symbol stands for. The literals are the first tokens, and
the named tokens come after them; a name is looked up among the rules first. -/
def resolve (d : GrammarDecl) (literals : List String) (rule : String) :
    RawSymbol → Except GrammarError Symbol
  | .literal text => .ok (.token (literals.idxOf text + 1))
  | .name name =>
    match d.rules.findIdx? (·.name == name) with
    | some r => .ok (.rule r)
    | none =>
      match d.tokens.findIdx? (·.name == name) with
      | some t => .ok (.token (literals.length + t + 1))
      | none => .error (.undefinedSymbol d.name rule name)

/-- The alternative without its first symbol, if that is the rule itself. -/
def suffix? (r : RuleId) : List Symbol → Option (List Symbol)
  | .rule k :: rest => if k = r then some rest else none
  | _ => none

/-- The rule with the given index, from its resolved alternatives. -/
def makeRule (r : RuleId) (name : String) (alternatives : List (List Symbol)) : Rule where
  name := name
  primaries := alternatives.filter fun a => (suffix? r a).isNone
  operators := alternatives.filterMap (suffix? r)

def resolveRule (d : GrammarDecl) (literals : List String) (r : RuleId) (raw : RawRule) :
    Except GrammarError Rule :=
  match tryMap (tryMap (d.resolve literals raw.name)) raw.alternatives with
  | .ok alternatives => .ok (makeRule r raw.name alternatives)
  | .error e => .error e

def resolveRules (d : GrammarDecl) (literals : List String) :
    RuleId → List RawRule → Except GrammarError (List Rule)
  | _, [] => .ok []
  | r, raw :: raws => do
    let rule ← d.resolveRule literals r raw
    let rules ← d.resolveRules literals (r + 1) raws
    return rule :: rules

def build (d : GrammarDecl) : Except GrammarError Grammar :=
  match firstRepeated? [] d.names with
  | some name => .error (.duplicateName d.name name)
  | none => do
    let raws ← tryMap d.readRule d.rules
    let named ← tryMap compileToken d.tokens
    let rules ← d.resolveRules (literals raws) 0 raws
    return ⟨d.name, rules, (literals raws).map .literal ++ named⟩

end GrammarDecl

end Stencil
