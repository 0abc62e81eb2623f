import Stencil.Grammar.Basic
import Stencil.Language

/-!
Lexing. At every place the token definition with the longest match wins, and of
several with matches of that length the first. A match of no characters does not
count.
-/

namespace Stencil

/-- The number of characters up to the end of what a definition matches in a
text. -/
def TokenDef.matchLength? (d : TokenDef) (cs : List Char) : Option Nat :=
  let found :=
    match d with
    | .literal text => if text.toList.isPrefixOf cs then some text.length else none
    | .named _ _ pattern => (pattern.search? cs).map Regex.Span.stop
  found.filter (0 < ·)

/-- A word found at some place: its length, and what it is. -/
structure Lexeme where
  length : Nat
  type : TokenType
  action : Action
  deriving DecidableEq, Repr

def Lexeme.tokens (l : Lexeme) (text : String) : List Token :=
  match l.action with
  | .emit => [.word l.type text]
  | .hide => [.hiddenWord l.type text]
  | .skip => []

namespace Grammar

/-- The winner among some definitions, the first of which has type `t`. -/
def longestOf? (cs : List Char) (t : TokenType) : List TokenDef → Option Lexeme
  | [] => none
  | d :: ds =>
    match d.matchLength? cs, longestOf? cs (t + 1) ds with
    | none, later => later
    | some n, none => some ⟨n, t, d.action⟩
    | some n, some later => if n < later.length then some later else some ⟨n, t, d.action⟩

def longest? (g : Grammar) (cs : List Char) : Option Lexeme :=
  longestOf? cs 1 g.tokens

/-- Lexes a text that begins at a byte offset, after passing over `skip`
characters of a word already found. -/
def lexFrom (g : Grammar) : (offset skip : Nat) → List Char → Except LexFailure (List Token)
  | _, _, [] => .ok []
  | offset, n + 1, c :: cs => g.lexFrom (offset + c.utf8Size) n cs
  | offset, 0, c :: cs =>
    match g.longest? (c :: cs) with
    | none => .error ⟨offset, String.singleton c⟩
    | some l =>
      match g.lexFrom (offset + c.utf8Size) (l.length - 1) cs with
      | .ok tokens => .ok (l.tokens (String.ofList ((c :: cs).take l.length)) ++ tokens)
      | .error e => .error e

/-- All tokens of a text, hidden ones included. -/
def lex (g : Grammar) (text : String) : Except LexFailure (List Token) :=
  g.lexFrom 0 0 text.toList

end Grammar

end Stencil
