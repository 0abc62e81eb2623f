import Stencil.Tag

/-!
Tokens: what a parser reads. A token stands for a word of the text, or for a
tag of a pattern; a tag that names a rule stands for a whole derivation of it.
-/

namespace Stencil

abbrev TokenType := Nat

abbrev RuleId := Nat

inductive Kind where
  | type (t : TokenType)
  | rule (r : RuleId)
  deriving DecidableEq, Repr

/-- Hidden tokens are kept by a lexer and never seen by a parser. -/
structure Token where
  kind : Kind
  text : String
  hidden : Bool := false
  tag : Option Tag := none
  deriving DecidableEq, Repr

namespace Token

def word (t : TokenType) (text : String) : Token :=
  { kind := .type t, text }

def hiddenWord (t : TokenType) (text : String) : Token :=
  { kind := .type t, text, hidden := true }

def placeholderText (tag : Tag) : String :=
  "<" ++ tag.render ++ ">"

/-- A placeholder for one token of the given type. -/
def typePlaceholder (t : TokenType) (tag : Tag) : Token :=
  { kind := .type t, text := placeholderText tag, tag := some tag }

/-- A placeholder for a derivation of the given rule. -/
def rulePlaceholder (r : RuleId) (tag : Tag) : Token :=
  { kind := .rule r, text := placeholderText tag, tag := some tag }

def type? (t : Token) : Option TokenType :=
  match t.kind with
  | .type n => some n
  | .rule _ => none

def render (t : Token) : String :=
  match t.tag, t.kind with
  | some tag, .type n => tag.name ++ ":" ++ toString n
  | some tag, .rule r => tag.name ++ ":rule" ++ toString r
  | none, .type n => "'" ++ t.text ++ "'<" ++ toString n ++ ">"
  | none, .rule r => "'" ++ t.text ++ "'<rule" ++ toString r ++ ">"

/-- The next of the tokens still to come, as error messages name it. -/
def nextDisplay : List Token → String
  | [] => "<EOF>"
  | t :: _ => "'" ++ t.text ++ "'"

end Token

end Stencil
