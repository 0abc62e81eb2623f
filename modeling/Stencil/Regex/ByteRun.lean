import Stencil.Regex.CharSet

/-!
Characters as bytes. The UTF-8 forms of a range of characters are given by runs:
lists of byte ranges, one for each byte of the form.
-/

namespace Stencil.Regex

abbrev ByteRange := Nat × Nat

abbrev ByteRun := List ByteRange

/-- The numbers from `lo` to `hi` to the base 64, with `k` digits after the first
one, as lists of digit ranges. -/
def digitRuns : (k : Nat) → (lo hi : Nat) → List ByteRun
  | 0, lo, hi => [[(lo, hi)]]
  | k + 1, lo, hi =>
    let w := 64 ^ (k + 1)
    let lead (d : Nat) (runs : List ByteRun) := runs.map ((d, d) :: ·)
    if lo / w = hi / w then lead (lo / w) (digitRuns k (lo % w) (hi % w))
    else
      let first := if lo % w = 0 then lo / w else lo / w + 1
      let past := if hi % w = w - 1 then hi / w + 1 else hi / w
      (if lo % w = 0 then [] else lead (lo / w) (digitRuns k (lo % w) (w - 1))) ++
        (if first < past then [(first, past - 1) :: List.replicate (k + 1) (0, 63)] else []) ++
        (if hi % w = w - 1 then [] else lead (hi / w) (digitRuns k 0 (hi % w)))

/-- Characters whose forms have the same length: the first and the last of them,
how many bytes follow the first one, and the mark on the first byte. -/
structure FormClass where
  lo : Nat
  hi : Nat
  more : Nat
  mark : Nat

def formClasses : List FormClass :=
  [⟨0, 0x7f, 0, 0⟩, ⟨0x80, 0x7ff, 1, 0xc0⟩, ⟨0x800, 0xd7ff, 2, 0xe0⟩, ⟨0xe000, 0xffff, 2, 0xe0⟩,
   ⟨0x10000, 0x10ffff, 3, 0xf0⟩]

def addMarks (mark : Nat) : ByteRun → ByteRun
  | [] => []
  | d :: ds => (d.1 + mark, d.2 + mark) :: ds.map fun d => (d.1 + 0x80, d.2 + 0x80)

/-- The forms of the characters from `lo` to `hi`, in ascending order. -/
def byteRuns (lo hi : Nat) : List ByteRun :=
  formClasses.flatMap fun f =>
    if max lo f.lo ≤ min hi f.hi then
      (digitRuns f.more (max lo f.lo) (min hi f.hi)).map (addMarks f.mark)
    else []

def CharSet.byteRuns (s : CharSet) : List ByteRun :=
  s.ranges.flatMap fun r => Regex.byteRuns r.1 r.2

/-- The form of a text. -/
def textRun (cs : List Char) : ByteRun :=
  cs.flatMap fun c => (byteRuns c.toNat c.toNat).flatten

/-- Adds a run that begins with `b` to runs sorted by what they begin with. -/
def addRun (b : ByteRange) (rest : ByteRun) (sorted : List (ByteRange × List ByteRun)) :
    List (ByteRange × List ByteRun) :=
  if sorted.any (·.1 == b) then
    sorted.map fun s => if s.1 = b then (b, rest :: s.2) else s
  else (b, [rest]) :: sorted

/-- The byte ranges that some runs begin with, each with what follows it. -/
def fanOut : List ByteRun → List (ByteRange × List ByteRun)
  | [] => []
  | [] :: runs => fanOut runs
  | (b :: rest) :: runs => addRun b rest (fanOut runs)

/-- The places of the tree that some runs form, except its leaves, each as the
runs that are left there. -/
def innerPlaces : (depth : Nat) → List ByteRun → List (List ByteRun)
  | 0, _ => []
  | n + 1, runs =>
    if runs.all List.isEmpty then []
    else runs :: (fanOut runs).flatMap fun b => innerPlaces n b.2

/-- No form has more than four bytes. -/
def CharSet.innerPlaces (s : CharSet) : List (List ByteRun) :=
  Regex.innerPlaces 4 s.byteRuns

end Stencil.Regex
