import Stencil.Regex.Search
import Stencil.Token
import Stencil.Tree

/-!
Grammars. A grammar has rules and token definitions. The alternatives of a rule
that begin with the rule itself are kept apart, without their first symbol: they
are the ways in which a derivation of the rule can be extended.
-/

namespace Stencil

inductive Symbol where
  | token (t : TokenType)
  | rule (r : RuleId)
  deriving DecidableEq, Repr

structure Rule where
  name : String
  primaries : List (List Symbol)
  operators : List (List Symbol)
  deriving DecidableEq, Repr

/-- What becomes of the words a token definition finds. -/
inductive Action where
  | emit
  | hide
  | skip
  deriving DecidableEq, Repr

inductive TokenDef where
  | literal (text : String)
  | named (name : String) (action : Action) (pattern : Regex.Program)
  deriving DecidableEq, Repr

namespace TokenDef

def action : TokenDef → Action
  | .literal _ => .emit
  | .named _ action _ => action

def display : TokenDef → String
  | .literal text => "'" ++ text ++ "'"
  | .named name _ _ => name

def isNamed (name : String) : TokenDef → Bool
  | .literal _ => false
  | .named n _ _ => n == name

end TokenDef

/-- The token types are the positions of the token definitions, counted from
one. -/
structure Grammar where
  name : String
  rules : List Rule
  tokens : List TokenDef
  deriving DecidableEq, Repr

namespace Grammar

def ruleIndex? (g : Grammar) (name : String) : Option RuleId :=
  g.rules.findIdx? (·.name == name)

def ruleName? (g : Grammar) (r : RuleId) : Option String :=
  g.rules[r]?.map Rule.name

/-- The type of a named token; literals have no name. -/
def tokenType? (g : Grammar) (name : String) : Option TokenType :=
  (g.tokens.findIdx? (·.isNamed name)).map (· + 1)

/-- The name of a token type, for literals the quoted text. -/
def tokenName? (g : Grammar) : TokenType → Option String
  | 0 => none
  | t + 1 => g.tokens[t]?.map TokenDef.display

def showRule (g : Grammar) (r : RuleId) : String :=
  Stencil.showRule g.ruleName? r

def showToken (g : Grammar) (t : TokenType) : String :=
  (g.tokenName? t).getD ("<" ++ toString t ++ ">")

end Grammar

end Stencil
