import Stencil.Grammar.Lex
import Stencil.Grammar.Parse

/-!
Grammars as languages, and parsing whole texts with them.
-/

namespace Stencil

/-- Why a text is not derived by a rule. -/
inductive InputError where
  | lex (cause : LexFailure)
  | parse (cause : ParseFailure)
  | trailingInput (rule found : String)
  deriving DecidableEq, Repr

def InputError.message : InputError → String
  | .lex e => e.message
  | .parse e => e.message
  | .trailingInput rule found => "extraneous input " ++ found ++ " after rule " ++ rule

namespace Grammar

def language (g : Grammar) : Language where
  lex := g.lex
  ruleIndex? := g.ruleIndex?
  tokenType? := g.tokenType?
  ruleName? := g.ruleName?
  parse := g.parse

/-- Parses a text from a rule, which must derive all of it. Hidden tokens are
not seen by the parser. -/
def parseText (g : Grammar) (input : String) (r : RuleId) : Except InputError Tree :=
  match g.lex input with
  | .error e => .error (.lex e)
  | .ok tokens =>
    match g.parse r (.ofList (tokens.filter (!·.hidden))) with
    | (.error e, _) => .error (.parse e)
    | (.ok tree, rest) =>
      if rest.atEnd then .ok tree
      else .error (.trailingInput (g.showRule r) rest.nextDisplay)

end Grammar

end Stencil
