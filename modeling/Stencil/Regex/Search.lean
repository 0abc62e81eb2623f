import Stencil.Regex.Memory
import Stencil.Regex.Program
import Stencil.Regex.Reader

/-!
Searching a text with a program. All ways through the program are followed at
once, one character at a time, and kept in order of preference; an address is
entered at most once at each place of the text. The match found is the one that
begins first, and among those the one that is preferred.
-/

namespace Stencil.Regex

/-- Where a match begins and where it ends, in characters of the text. -/
structure Span where
  start : Nat
  stop : Nat
  deriving DecidableEq, Repr

/-- A way through the program that began at place `start` of the text. -/
structure Thread where
  pc : Nat
  start : Nat
  deriving DecidableEq, Repr

/-- A place of the text: how many characters are before it, the last of them, and
the character after it. -/
structure Place where
  pos : Nat
  prev : Option Char
  next : Option Char
  deriving DecidableEq, Repr

/-- For every address of a program the last place at which it was entered, counted
from one. -/
abbrev Marks := Array Nat

/-- The threads that wait for a character, the preferred ones first, and the
start of a match that ends here. What is less preferred than that match is left
out. -/
structure Live where
  reading : Array Thread
  accepted : Option Nat
  marks : Marks
  deriving DecidableEq, Repr

/-- A match that ends at place `pos` is preferred to one found before. -/
def Live.found (live : Live) (pos : Nat) (before : Option Span) : Option Span :=
  match live.accepted with
  | some start => some ⟨start, pos⟩
  | none => before

namespace Program

/-- Follows the ways that read no character, from the threads on the stack. -/
def follow (prog : Program) (place : Place) :
    (fuel : Nat) → (stack : List Thread) → (reading : Array Thread) → Marks → Live
  | 0, _, reading, marks => ⟨reading, none, marks⟩
  | _ + 1, [], reading, marks => ⟨reading, none, marks⟩
  | n + 1, t :: stack, reading, marks =>
    if marks[t.pc]? = some (place.pos + 1) then prog.follow place n stack reading marks
    else
      let marks := marks.setIfInBounds t.pc (place.pos + 1)
      match prog.code[t.pc]? with
      | none => prog.follow place n stack reading marks
      | some .accept => ⟨reading, some t.start, marks⟩
      | some (.read _) => prog.follow place n stack (reading.push t) marks
      | some (.look l) =>
        if l.holds place.prev place.next then
          prog.follow place n (⟨t.pc + 1, t.start⟩ :: stack) reading marks
        else prog.follow place n stack reading marks
      | some (.jump a) => prog.follow place n (⟨a, t.start⟩ :: stack) reading marks
      | some (.fork a b) =>
        prog.follow place n (⟨a, t.start⟩ :: ⟨b, t.start⟩ :: stack) reading marks

/-- Every step takes a thread from the stack, and one at a new address puts at
most two back. -/
def live (prog : Program) (place : Place) (stack : List Thread) (marks : Marks) : Live :=
  prog.follow place (stack.length + 2 * prog.code.size + 1) stack #[] marks

/-- The threads that go on when the character `c` is read. -/
def step (prog : Program) (c : Char) (reading : Array Thread) : List Thread :=
  reading.toList.filterMap fun (t : Thread) =>
    match prog.code[t.pc]? with
    | some (.read s) => if s.mem c then some ⟨t.pc + 1, t.start⟩ else none
    | _ => none

/-- Whether a match may begin at a place. -/
def mayBegin (prog : Program) (found : Option Span) (pos : Nat) : Bool :=
  found.isNone && (pos == 0 || !prog.anchored)

/-- A new thread begins at every place where a match may begin. -/
def seeds (prog : Program) (threads : List Thread) (found : Option Span) (pos : Nat) :
    List Thread :=
  if prog.mayBegin found pos then threads ++ [⟨0, pos⟩] else threads

/-- Goes on with a search after `pos` characters, the last of which is `prev`. -/
def searchFrom (prog : Program) (prev : Option Char) (threads : List Thread)
    (found : Option Span) (pos : Nat) (marks : Marks) : List Char → Option Span
  | [] => (prog.live ⟨pos, prev, none⟩ (prog.seeds threads found pos) marks).found pos found
  | c :: cs =>
    if threads.isEmpty && !prog.mayBegin found pos then found
    else
      let live := prog.live ⟨pos, prev, some c⟩ (prog.seeds threads found pos) marks
      prog.searchFrom (some c) (prog.step c live.reading) (live.found pos found) (pos + 1)
        live.marks cs

/-- The match found in a text. -/
def search? (prog : Program) (cs : List Char) : Option Span :=
  prog.searchFrom none [] none 0 (Array.replicate prog.code.size 0) cs

end Program

/-- The expression for matches at the front of a text, from the text of a regular
expression. The anchor is put before the text of the expression and not before
what it denotes. -/
def readAnchored? (pattern : String) : Option Expr :=
  read ("^(?:".toList ++ pattern.toList ++ [')'])

/-- The program for matches at the front of a text. It is refused if the automata
for it would take too much memory. -/
def compile? (pattern : String) : Option Program :=
  match readAnchored? pattern with
  | some e => if e.fits then some e.program else none
  | none => none

end Stencil.Regex
