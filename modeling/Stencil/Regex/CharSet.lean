import Stencil.Text.CharClass

/-!
Sets of characters, as the classes of a regular expression denote them. A set is
kept as ranges of code points in ascending order, with a gap between any two, so
that equal sets have equal ranges.
-/

namespace Stencil.Regex

/-- The code point after `n`. There is no character between U+D7FF and U+E000. -/
def nextPoint (n : Nat) : Nat :=
  if n = 0xd7ff then 0xe000 else n + 1

/-- The code point before `n`. -/
def prevPoint (n : Nat) : Nat :=
  if n = 0xe000 then 0xd7ff else n - 1

def lastPoint : Nat := 0x10ffff

/-- Adds a range to others, and joins it with those it overlaps or touches. -/
def insertRange (lo hi : Nat) : List (Nat × Nat) → List (Nat × Nat)
  | [] => [(lo, hi)]
  | (a, b) :: rs =>
    if nextPoint hi < a then (lo, hi) :: (a, b) :: rs
    else if nextPoint b < lo then (a, b) :: insertRange lo hi rs
    else insertRange (min lo a) (max hi b) rs

/-- What lies between some ranges, from `lo` on. -/
def gapsFrom (lo : Nat) : List (Nat × Nat) → List (Nat × Nat)
  | [] => if lo ≤ lastPoint then [(lo, lastPoint)] else []
  | (a, b) :: rs =>
    if lo < a then (lo, prevPoint a) :: gapsFrom (nextPoint b) rs
    else gapsFrom (nextPoint b) rs

structure CharSet where
  ranges : List (Nat × Nat)
  deriving DecidableEq, Repr

namespace CharSet

def mem (c : Char) (s : CharSet) : Bool :=
  Text.inRanges c.toNat s.ranges

def empty : CharSet := ⟨[]⟩

def single (c : Char) : CharSet := ⟨[(c.toNat, c.toNat)]⟩

def range (lo hi : Char) : CharSet := ⟨[(lo.toNat, hi.toNat)]⟩

def digits : CharSet := ⟨Text.digitRanges⟩

def words : CharSet := ⟨Text.wordRanges⟩

def blanks : CharSet := ⟨Text.blankRanges⟩

def union (a b : CharSet) : CharSet :=
  ⟨b.ranges.foldl (fun rs r => insertRange r.1 r.2 rs) a.ranges⟩

def compl (a : CharSet) : CharSet := ⟨gapsFrom 0 a.ranges⟩

def inter (a b : CharSet) : CharSet := (a.compl.union b.compl).compl

def all : CharSet := compl empty

def diff (a b : CharSet) : CharSet := a.inter b.compl

def symmDiff (a b : CharSet) : CharSet := (a.diff b).union (b.diff a)

def ofRanges (rs : List (Char × Char)) : CharSet :=
  rs.foldl (fun s r => s.union (.range r.1 r.2)) .empty

def ofChars (cs : List Char) : CharSet :=
  cs.foldl (fun s c => s.union (.single c)) .empty

/-- The only member of a set that has just one. -/
def single? (s : CharSet) : Option Char :=
  match s.ranges with
  | [(a, b)] => if a = b then some (Char.ofNat a) else none
  | _ => none

def isAscii (s : CharSet) : Bool :=
  s.ranges.all (·.2 < 128)

/-- The characters that differ only in case from `c`, a letter from `a` to `z`. The
long s counts as an `s`, and the Kelvin sign as a `k`. -/
def caseVariants (c : Char) : List Char :=
  if c = 'k' then ['K', 'k', '\u212a']
  else if c = 's' then ['S', 's', '\u017f']
  else [c.toUpper, c]

/-- The characters that differ from a member at most in case. -/
def anyCase (s : CharSet) : CharSet :=
  "abcdefghijklmnopqrstuvwxyz".toList.foldl
    (fun s c => if (caseVariants c).any s.mem then s.union (ofChars (caseVariants c)) else s) s

/-- The named classes of ASCII characters, such as `alpha`. -/
def named? (name : String) : Option CharSet :=
  match name with
  | "alnum" => some (ofRanges [('0', '9'), ('A', 'Z'), ('a', 'z')])
  | "alpha" => some (ofRanges [('A', 'Z'), ('a', 'z')])
  | "ascii" => some (.range '\x00' '\x7f')
  | "blank" => some (ofRanges [('\t', '\t'), (' ', ' ')])
  | "cntrl" => some (ofRanges [('\x00', '\x1f'), ('\x7f', '\x7f')])
  | "digit" => some (.range '0' '9')
  | "graph" => some (.range '!' '~')
  | "lower" => some (.range 'a' 'z')
  | "print" => some (.range ' ' '~')
  | "punct" => some (ofRanges [('!', '/'), (':', '@'), ('[', '\x60'), ('\x7b', '~')])
  | "space" => some (ofRanges [('\t', '\r'), (' ', ' ')])
  | "upper" => some (.range 'A' 'Z')
  | "word" => some (ofRanges [('0', '9'), ('A', 'Z'), ('_', '_'), ('a', 'z')])
  | "xdigit" => some (ofRanges [('0', '9'), ('A', 'F'), ('a', 'f')])
  | _ => none

end CharSet

end Stencil.Regex
