import Stencil.Regex.ByteRun
import Stencil.Regex.Expr

/-!
How much memory the automata for an expression take. They read bytes, one of
them forward, with a mark at both ends of every group, and one backward. An
expression whose automata take too much is refused.

What a repetition takes follows from what its body takes, so nothing has to be
built to know it.
-/

namespace Stencil.Regex

/-- The memory of a state. -/
def stateSize : Nat := 32

/-- The memory of an edge, where a state has several. -/
def edgeSize : Nat := 8

/-- The memory of an alternative at a fork. -/
def forkSize : Nat := 4

/-- Neither automaton may take more than 10 MiB. -/
def memoryLimit : Nat := 10 * 1024 * 1024

inductive Direction where
  | forward
  | backward
  deriving DecidableEq, Repr

/-- The memory for reading one character of a set. Forward, places with the same
runs are one state; backward, every place of the tree is a state of its own. -/
def CharSet.memory (d : Direction) (s : CharSet) : Nat :=
  match s.single? with
  | some c => stateSize * c.utf8Size
  | none =>
    if s.isAscii then 2 * stateSize + edgeSize * s.ranges.length
    else
      match d with
      | .forward =>
        s.innerPlaces.eraseDups.foldl
          (fun n runs => n + stateSize + edgeSize * (fanOut runs).length) stateSize
      | .backward =>
        s.innerPlaces.foldl (fun n runs => n + stateSize * (fanOut runs).length)
          (2 * stateSize + forkSize * s.byteRuns.length)

/-! A choice between texts is a tree of bytes. At every place of it stand the
rests of the texts in order of preference; where a text ends, those after it are
kept apart from those before it. -/

/-- The rests between the ends of texts. -/
def chunks : List ByteRun → List (List ByteRun)
  | [] => [[]]
  | [] :: runs => [] :: chunks runs
  | run :: runs =>
    match chunks runs with
    | c :: cs => (run :: c) :: cs
    | [] => [[run]]

/-- Two texts that end where no other goes on have one end. -/
def dropRepeatedEnds : List ByteRun → List ByteRun
  | [] :: runs => [] :: runs.dropWhile List.isEmpty
  | runs => runs

/-- The memory of a tree of texts, which is no deeper than `fuel`. -/
def treeMemory : (fuel : Nat) → List ByteRun → Nat
  | 0, _ => 0
  | n + 1, runs =>
    let cs := chunks (dropRepeatedEnds runs)
    let nodes := (cs.filter (!·.isEmpty)).map fanOut
    let below (b : ByteRange × List ByteRun) : Nat :=
      if b.2.all List.isEmpty then 0 else treeMemory n b.2
    let edges (bs : List (ByteRange × List ByteRun)) : Nat :=
      if bs.length = 1 then 0 else edgeSize * bs.length
    (nodes.map fun bs => stateSize + edges bs + (bs.map below).sum).sum
      + stateSize + forkSize * (nodes.length + (cs.length - 1))

def textsMemory (d : Direction) (texts : List ByteRun) : Nat :=
  let texts :=
    match d with
    | .forward => texts
    | .backward => texts.map List.reverse
  stateSize + treeMemory ((texts.map List.length).foldl max 0) texts

/-- The memory of an expression, seen as a choice: the number of its branches, the
memory of all of them, and their texts if all are texts. -/
structure Memory where
  branches : Nat
  total : Nat
  texts : Option (List ByteRun)

namespace Memory

def ofTotal (n : Nat) : Memory := ⟨1, n, none⟩

def whole (d : Direction) (m : Memory) : Nat :=
  if m.branches ≤ 1 then m.total
  else
    match m.texts with
    | some texts => textsMemory d texts
    | none => 2 * stateSize + forkSize * m.branches + m.total

def either (a b : Memory) : Memory :=
  ⟨a.branches + b.branches, a.total + b.total,
    match a.texts, b.texts with
    | some s, some t => some (s ++ t)
    | _, _ => none⟩

def both (d : Direction) (a b : Memory) : Memory :=
  ⟨1, a.whole d + b.whole d,
    match a.texts, b.texts with
    | some [s], some [t] => some [s ++ t]
    | _, _ => none⟩

end Memory

/-- The memory of a repetition, from that of its body. -/
def repeatedMemory (min : Nat) (max : Option Nat) (nullable : Bool) (body : Nat) : Nat :=
  match min, max with
  | 0, none =>
    if nullable then body + 3 * stateSize + 4 * forkSize else body + stateSize + 2 * forkSize
  | n + 1, none => (n + 1) * body + stateSize + 2 * forkSize
  | 0, some 1 => body + 2 * stateSize + 2 * forkSize
  | min, some max =>
    let required := if min = 0 then stateSize else min * body
    if min = max then required
    else required + stateSize + (max - min) * (body + stateSize + 2 * forkSize)

namespace Expr

def measure (d : Direction) : Expr → Memory
  | .empty | .look _ => .ofTotal stateSize
  | .set s => ⟨1, s.memory d, s.single?.map fun c => [textRun [c]]⟩
  | .group e =>
    let marks :=
      match d with
      | .forward => 2 * stateSize
      | .backward => 0
    .ofTotal ((e.measure d).whole d + marks)
  | .seq a b => .both d (a.measure d) (b.measure d)
  | .alt a b => .either (a.measure d) (b.measure d)
  | .rep min max _ body =>
    .ofTotal (repeatedMemory min max body.nullable ((body.measure d).whole d))

/-- The memory of the way into the automaton. Unless a match can begin only at the
end where reading begins, there is a loop that passes over bytes. -/
def entryMemory (d : Direction) (e : Expr) : Nat :=
  let atEnd :=
    match d with
    | .forward => e.beginsWith .startText
    | .backward => e.endsWith .endText
  if atEnd then stateSize else 3 * stateSize + edgeSize + 2 * forkSize

/-- The memory of the whole automaton. It ends in one state, and forward it has
marks at both ends of the match. -/
def memory (d : Direction) (e : Expr) : Nat :=
  let ends :=
    match d with
    | .forward => 3 * stateSize
    | .backward => stateSize
  e.entryMemory d + (e.measure d).whole d + ends

def fits (e : Expr) : Bool :=
  e.memory .forward ≤ memoryLimit && e.memory .backward ≤ memoryLimit

end Expr

end Stencil.Regex
