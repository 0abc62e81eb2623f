import Stencil.Regex.CharSet

/-!
Regular expressions.

They are put together by `concat`, `choice` and `times`, which leave out what
changes nothing: an empty factor, a choice between single characters, and a
repetition of what reads no character.
-/

namespace Stencil.Regex

/-- What can be asked of a place between two characters. -/
inductive Look where
  | startText
  | endText
  | startLine
  | endLine
  | wordBoundary
  | notWordBoundary
  | wordStart
  | wordEnd
  | notAfterWord
  | notBeforeWord
  deriving DecidableEq, Repr

namespace Look

def wordAt (c : Option Char) : Bool :=
  c.any Text.isWord

/-- Whether the place after `prev` and before `next` is as asked; nothing stands
before the start of the text and after its end. -/
def holds (prev next : Option Char) : Look → Bool
  | .startText => prev.isNone
  | .endText => next.isNone
  | .startLine => prev.all (· == '\n')
  | .endLine => next.all (· == '\n')
  | .wordBoundary => wordAt prev != wordAt next
  | .notWordBoundary => wordAt prev == wordAt next
  | .wordStart => !wordAt prev && wordAt next
  | .wordEnd => wordAt prev && !wordAt next
  | .notAfterWord => !wordAt prev
  | .notBeforeWord => !wordAt next

/-- Whether the answer depends on what a word is. -/
def asksForWord : Look → Bool
  | .startText | .endText | .startLine | .endLine => false
  | _ => true

end Look

inductive Expr where
  | empty
  | set (s : CharSet)
  | look (l : Look)
  /-- A group whose place in the text is remembered. -/
  | group (body : Expr)
  | seq (a b : Expr)
  /-- The first branch is preferred to the second. -/
  | alt (a b : Expr)
  /-- At least `min` and at most `max` times: as often as possible if `greedy`,
  and otherwise as seldom as possible. -/
  | rep (min : Nat) (max : Option Nat) (greedy : Bool) (body : Expr)
  deriving DecidableEq, Repr

namespace Expr

/-- Whether the expression can match without reading a character. -/
def nullable : Expr → Bool
  | .empty | .look _ => true
  | .set _ => false
  | .group e => e.nullable
  | .seq a b => a.nullable && b.nullable
  | .alt a b => a.nullable || b.nullable
  | .rep min _ _ body => min == 0 || body.nullable

/-- Whether the expression never reads a character. -/
def isZeroWidth : Expr → Bool
  | .empty | .look _ => true
  | .set _ => false
  | .group e => e.isZeroWidth
  | .seq a b | .alt a b => a.isZeroWidth && b.isZeroWidth
  | .rep _ _ _ body => body.isZeroWidth

/-- Whether every match begins at a place where `l` holds. -/
def beginsWith (l : Look) : Expr → Bool
  | .empty | .set _ => false
  | .look k => k == l
  | .group e => e.beginsWith l
  | .seq a b => a.beginsWith l || a.isZeroWidth && b.beginsWith l
  | .alt a b => a.beginsWith l && b.beginsWith l
  | .rep min _ _ body => min != 0 && body.beginsWith l

/-- Whether every match ends at a place where `l` holds. -/
def endsWith (l : Look) : Expr → Bool
  | .empty | .set _ => false
  | .look k => k == l
  | .group e => e.endsWith l
  | .seq a b => b.endsWith l || b.isZeroWidth && a.endsWith l
  | .alt a b => a.endsWith l && b.endsWith l
  | .rep min _ _ body => min != 0 && body.endsWith l

def asksForWord : Expr → Bool
  | .empty | .set _ => false
  | .look l => l.asksForWord
  | .group e | .rep _ _ _ e => e.asksForWord
  | .seq a b | .alt a b => a.asksForWord || b.asksForWord

def hasGroup : Expr → Bool
  | .empty | .set _ | .look _ => false
  | .group _ => true
  | .rep _ _ _ e => e.hasGroup
  | .seq a b | .alt a b => a.hasGroup || b.hasGroup

/-! Sequences. -/

/-- What an expression is a sequence of. -/
def factors : Expr → List Expr
  | .empty => []
  | .seq a b => a.factors ++ b.factors
  | e => [e]

def ofFactors : List Expr → Expr
  | [] => .empty
  | [e] => e
  | e :: es => .seq e (ofFactors es)

/-- One expression after the other. -/
def concat (es : List Expr) : Expr :=
  ofFactors (es.flatMap factors)

def isChar : Expr → Bool
  | .set s => s.single?.isSome
  | _ => false

/-- The factors of an expression, where characters that follow each other are one
factor. -/
def runs (e : Expr) : List (List Expr) :=
  e.factors.foldr
    (fun f rs =>
      match rs with
      | (g :: run) :: rest =>
        if f.isChar && g.isChar then (f :: g :: run) :: rest
        else [f] :: (g :: run) :: rest
      | _ => [f] :: rs)
    []

/-! Choices. -/

/-- What an expression is a choice between, the preferred branches first. -/
def branches : Expr → List Expr
  | .alt a b => a.branches ++ b.branches
  | e => [e]

/-- A choice between `e` and some others. -/
def ofBranches (e : Expr) : List Expr → Expr
  | [] => e
  | f :: es => .alt e (ofBranches f es)

/-- The union of some expressions that are all sets. -/
def unionOf? : List Expr → Option CharSet
  | [] => some .empty
  | .set s :: es => (unionOf? es).map (·.union s)
  | _ => none

/-- The runs that two lists of runs begin with. Two groups are never the same. -/
def commonFront : List (List Expr) → List (List Expr) → List (List Expr)
  | a :: as, b :: bs => if a = b && !a.any hasGroup then a :: commonFront as bs else []
  | _, _ => []

/-- A choice between expressions without branches of their own. -/
def choose (es : List Expr) : Expr :=
  match es with
  | [] => .set .empty
  | [e] => e
  | e :: rest =>
    match unionOf? es with
    | some s => .set s
    | none => ofBranches e rest

/-- The runs that all branches begin with, if every branch has more than one. -/
def front (es : List Expr) : List (List Expr) :=
  match es.map runs with
  | r :: rs => if (r :: rs).all (2 ≤ ·.length) then rs.foldl commonFront r else []
  | [] => []

/-- A choice, the preferred branches first. A choice between characters is a set,
and what all branches begin with is put before the choice. -/
def choice (es : List Expr) : Expr :=
  let es := es.flatMap branches
  match es, front es with
  | _ :: _ :: _, r :: rs =>
    let shared := (r :: rs).flatten
    let rests := es.map fun e => ofFactors (e.factors.drop shared.length)
    concat (shared ++ [choose (rests.flatMap branches)])
  | _, _ => choose es

/-! Repetitions. -/

/-- A repetition. There is no use in repeating what reads no character. -/
def times (min : Nat) (max : Option Nat) (greedy : Bool) (body : Expr) : Expr :=
  let (min, max) :=
    if body.isZeroWidth then (Nat.min min 1, some ((max.getD 1).min 1)) else (min, max)
  match min, max with
  | 0, some 0 => .empty
  | 1, some 1 => body
  | min, max => .rep min max greedy body

end Expr

end Stencil.Regex
