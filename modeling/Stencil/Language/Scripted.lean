import Stencil.Language

/-!
Scripted languages: a lexer that looks its answers up in a table, and a parser
that follows a script whatever it is asked to parse. They drive the pattern
compiler into places that no grammar leads to.
-/

namespace Stencil

inductive Script where
  /-- Takes the next token as a leaf. -/
  | take
  | noViable (rule : String)
  | unexpected (expected : String)
  /-- A leaf that is not taken from the stream. -/
  | leaf (token : Token)
  | node (rule : RuleId) (children : List Script)

namespace Script

mutual
def run : Script → TokenStream → Except ParseFailure Tree × TokenStream
  | .take, s =>
    match s.advance with
    | (some t, s) => (.ok (.leaf t), s)
    | (none, s) => (.error (.unexpectedToken "token" s.nextDisplay), s)
  | .noViable rule, s => (.error (.noViableAlternative rule s.nextDisplay), s)
  | .unexpected expected, s => (.error (.unexpectedToken expected s.nextDisplay), s)
  | .leaf t, s => (.ok (.leaf t), s)
  | .node r cs, s =>
    match runList cs s with
    | (.ok ts, s) => (.ok (.node r ts), s)
    | (.error e, s) => (.error e, s)

def runList : List Script → TokenStream → Except ParseFailure (List Tree) × TokenStream
  | [], s => (.ok [], s)
  | c :: cs, s =>
    match run c s with
    | (.error e, s) => (.error e, s)
    | (.ok t, s) =>
      match runList cs s with
      | (.error e, s) => (.error e, s)
      | (.ok ts, s) => (.ok (t :: ts), s)
end

end Script

namespace Language

/-- The first entry for a text or a name is the one that counts. A text without
an entry cannot be lexed at all. -/
def scripted (ruleNames : List String) (tokenTypes : List (String × TokenType))
    (lexed : List (String × List Token)) (script : Script) : Language where
  lex text :=
    match lexed.lookup text with
    | some tokens => .ok tokens
    | none => .error ⟨0, text⟩
  ruleIndex? := ruleNames.idxOf?
  tokenType? name := tokenTypes.lookup name
  ruleName? r := ruleNames[r]?
  parse _ := script.run

end Language

end Stencil
