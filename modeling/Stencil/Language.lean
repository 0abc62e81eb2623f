import Stencil.TokenStream
import Stencil.Tree

/-!
Languages: what the pattern compiler needs to know of the text it works on. A
language lexes text, knows its rules and token types by name, and parses a
token stream from a rule.
-/

namespace Stencil

/-- No token begins at this byte offset. -/
structure LexFailure where
  offset : Nat
  text : String
  deriving DecidableEq, Repr

def LexFailure.message (e : LexFailure) : String :=
  "token recognition error at offset " ++ toString e.offset ++ ": '" ++ e.text ++ "'"

/-- Why a token stream has no derivation from the rule asked for. -/
inductive ParseFailure where
  | unexpectedToken (expected found : String)
  | noViableAlternative (rule found : String)
  /-- The rule calls itself again and again without reading a token. -/
  | endless (rule : String)
  deriving DecidableEq, Repr

def ParseFailure.message : ParseFailure → String
  | .unexpectedToken expected found =>
    "mismatched input " ++ found ++ " expecting " ++ expected
  | .noViableAlternative rule found =>
    "no viable alternative at input " ++ found ++ " in rule " ++ rule
  | .endless rule => "endless recursion in rule " ++ rule

/-- A lexer and a parser. The lexer keeps hidden tokens; the parser returns the
stream as it leaves it, whether it succeeds or not. -/
structure Language where
  lex : String → Except LexFailure (List Token)
  ruleIndex? : String → Option RuleId
  tokenType? : String → Option TokenType
  ruleName? : RuleId → Option String
  parse : RuleId → TokenStream → Except ParseFailure Tree × TokenStream

end Stencil
