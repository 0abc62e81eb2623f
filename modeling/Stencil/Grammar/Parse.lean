import Stencil.Grammar.Basic
import Stencil.Language

/-!
Parsing. A rule is parsed by trying its alternatives in order; a placeholder for
the rule counts as a derivation of it. A derivation of a rule is then extended
by the left-recursive alternatives of the rule as long as that is possible.

The left-recursive alternatives are operators: earlier ones bind tighter, and
all of them associate to the left. Of `n` of them the one at position `i` has
precedence `n - i`, and the last operand of an operator is parsed with the
operators of higher precedence only.

A rule that calls itself without reading a token would be parsed forever. The
depth of calls is bounded so that no other derivation is lost: between two
tokens no rule can be entered twice with the same precedence.
-/

namespace Stencil

/-- The outcome of parsing: a result and the tokens that follow it, or a failure
and the tokens it left, or no end of calls. -/
inductive Outcome (α : Type) where
  | ok (result : α) (rest : List Token)
  | fail (failure : ParseFailure) (rest : List Token)
  | endless
  deriving Repr

namespace Grammar

def parseToken (g : Grammar) (t : TokenType) : List Token → Outcome Tree
  | [] => .fail (.unexpectedToken (g.showToken t) (Token.nextDisplay [])) []
  | token :: rest =>
    if token.kind = .type t then .ok (.leaf token) rest
    else
      .fail (.unexpectedToken (g.showToken t) (Token.nextDisplay (token :: rest)))
        (token :: rest)

/-! The parts of parsing a rule are given the parser for the rules in it. It
takes a rule and the least precedence of the operators it may use. -/

abbrev RuleParser := RuleId → (minPrec : Nat) → List Token → Outcome Tree

def parseSymbol (g : Grammar) (sub : RuleParser) : Symbol → List Token → Outcome Tree
  | .token t, ts => g.parseToken t ts
  | .rule r, ts => sub r 0 ts

def parseSymbols (g : Grammar) (sub : RuleParser) :
    List Symbol → List Token → Outcome (List Tree)
  | [], ts => .ok [] ts
  | s :: ss, ts =>
    match g.parseSymbol sub s ts with
    | .fail e rest => .fail e rest
    | .endless => .endless
    | .ok child rest =>
      match g.parseSymbols sub ss rest with
      | .fail e rest => .fail e rest
      | .endless => .endless
      | .ok children rest => .ok (child :: children) rest

/-- Parses what follows the first operand of an operator of rule `r`. If its
last symbol is the rule itself, only tighter operators are used there. -/
def parseOperands (g : Grammar) (sub : RuleParser) (r : RuleId) (prec : Nat) :
    List Symbol → List Token → Outcome (List Tree)
  | [], ts => .ok [] ts
  | s :: ss, ts =>
    match (if ss.isEmpty ∧ s = .rule r then sub r (prec + 1) ts else g.parseSymbol sub s ts) with
    | .fail e rest => .fail e rest
    | .endless => .endless
    | .ok child rest =>
      match g.parseOperands sub r prec ss rest with
      | .fail e rest => .fail e rest
      | .endless => .endless
      | .ok children rest => .ok (child :: children) rest

/-- Parses by the first alternative that can be parsed at all; `none` if there
is no such alternative. -/
def parseFirst (g : Grammar) (sub : RuleParser) :
    List (List Symbol) → List Token → Outcome (Option (List Tree))
  | [], ts => .ok none ts
  | a :: as, ts =>
    match g.parseSymbols sub a ts with
    | .ok children rest => .ok (some children) rest
    | .fail _ _ => g.parseFirst sub as ts
    | .endless => .endless

/-- Parses a rule without any of its operators. If there is just one
alternative, a failure of it is the failure of the rule. -/
def parsePrimary (g : Grammar) (sub : RuleParser) (r : RuleId) (rule : Rule)
    (ts : List Token) : Outcome Tree :=
  let alternatives : Outcome Tree :=
    match rule.primaries with
    | [only] =>
      match g.parseSymbols sub only ts with
      | .ok children rest => .ok (.node r children) rest
      | .fail e rest => .fail e rest
      | .endless => .endless
    | several =>
      match g.parseFirst sub several ts with
      | .ok (some children) rest => .ok (.node r children) rest
      | .ok none _ => .fail (.noViableAlternative rule.name (Token.nextDisplay ts)) ts
      | .fail e rest => .fail e rest
      | .endless => .endless
  match ts with
  | token :: rest =>
    if token.kind = .rule r then .ok (.node r [.leaf token]) rest else alternatives
  | [] => alternatives

/-- Parses by the first operator that is tight enough, can be parsed and reads
a token; `none` if there is no such operator. The precedence of an operator is
the number of operators from it on. -/
def parseOperator (g : Grammar) (sub : RuleParser) (r : RuleId) (minPrec : Nat) :
    List (List Symbol) → List Token → Outcome (Option (List Tree))
  | [], ts => .ok none ts
  | s :: ss, ts =>
    let prec := ss.length + 1
    if prec < minPrec then .ok none ts
    else
      match g.parseOperands sub r prec s ts with
      | .ok children rest =>
        if rest.length < ts.length then .ok (some children) rest
        else g.parseOperator sub r minPrec ss ts
      | .fail _ _ => g.parseOperator sub r minPrec ss ts
      | .endless => .endless

/-- Extends a derivation by operators as long as possible, at most `fuel - 1`
times. -/
def extend (g : Grammar) (sub : RuleParser) (r : RuleId) (minPrec : Nat)
    (operators : List (List Symbol)) : (fuel : Nat) → Tree → List Token → Outcome Tree
  | 0, _, _ => .endless
  | n + 1, tree, ts =>
    match g.parseOperator sub r minPrec operators ts with
    | .ok none _ => .ok tree ts
    | .ok (some children) rest =>
      g.extend sub r minPrec operators n (.node r (tree :: children)) rest
    | .fail e rest => .fail e rest
    | .endless => .endless

/-- Parses a rule with the operators whose precedence is at least `minPrec`. -/
def parseRule (g : Grammar) : (fuel : Nat) → RuleParser
  | 0, _, _, _ => .endless
  | n + 1, r, minPrec, ts =>
    match g.rules[r]? with
    | none => .fail (.noViableAlternative (g.showRule r) (Token.nextDisplay ts)) ts
    | some rule =>
      match g.parsePrimary (g.parseRule n) r rule ts with
      | .ok tree rest =>
        g.extend (g.parseRule n) r minPrec rule.operators (rest.length + 1) tree rest
      | .fail e rest => .fail e rest
      | .endless => .endless

/-- The number of ways in which rules are entered: each with no bound on the
precedence, and with a bound for each of its operators. -/
def entries (g : Grammar) : Nat :=
  g.rules.foldl (fun n rule => n + rule.operators.length + 1) 0

/-- Parses tokens from a rule. -/
def parseTokens (g : Grammar) (r : RuleId) (ts : List Token) : Outcome Tree :=
  g.parseRule ((g.entries + 1) * (ts.length + 1)) r 0 ts

/-- Parses a stream from its position on, and leaves it where parsing ended. -/
def parse (g : Grammar) (r : RuleId) (s : TokenStream) : Except ParseFailure Tree × TokenStream :=
  match g.parseTokens r s.remaining with
  | .ok tree rest => (.ok tree, s.seekLast rest.length)
  | .fail e rest => (.error e, s.seekLast rest.length)
  | .endless => (.error (.endless (g.showRule r)), s)

end Grammar

end Stencil
