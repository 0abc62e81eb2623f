import Stencil.Regex.Expr

/-!
Programs: regular expressions as machine code. The code of an expression is
entered at its first instruction and left by running past its last one. Where
a fork has two ways to go, the first is preferred.
-/

namespace Stencil.Regex

inductive Instr where
  | read (s : CharSet)
  | look (l : Look)
  | jump (target : Nat)
  | fork (first second : Nat)
  | accept
  deriving DecidableEq, Repr

/-- The code is entered at address zero. If the program is `anchored`, this has to
be tried at the start of the text only. -/
structure Program where
  code : Array Instr
  anchored : Bool
  deriving DecidableEq, Repr

/-- Something that puts code behind other code. -/
abbrev Writer := Array Instr → Array Instr

/-- A fork between the body of a repetition and the way out of it. -/
def forkTo (greedy : Bool) (body out : Nat) : Instr :=
  if greedy then .fork body out else .fork out body

namespace Writer

/-- Some code `n` times. -/
def copies (body : Writer) : (n : Nat) → Writer
  | 0, code => code
  | n + 1, code => copies body n (body code)

/-- Some code up to `n` times, with a way to `out` before each of them. -/
def optionals (body : Writer) (greedy : Bool) (out : Nat) : (n : Nat) → Writer
  | 0, code => code
  | n + 1, code =>
    optionals body greedy out n (body (code.push (forkTo greedy (code.size + 1) out)))

/-- Some code once or more often. -/
def many1 (body : Writer) (length : Nat) (greedy : Bool) : Writer := fun code =>
  let start := code.size
  (body code).push (forkTo greedy start (start + length + 1))

/-- Some code any number of times. Code that can be run without reading is
entered through a fork of its own, so that the loop is not taken for an attempt
to leave it. -/
def many (body : Writer) (length : Nat) (greedy nullable : Bool) : Writer := fun code =>
  let start := code.size
  let code := code.push (forkTo greedy (start + 1) (start + length + 2))
  if nullable then many1 body length greedy code else (body code).push (.jump start)

/-! How much each of them writes, for a body of length `k`. -/

theorem size_copies {body : Writer} {k : Nat} (h : ∀ code, (body code).size = code.size + k)
    (n : Nat) (code : Array Instr) : (copies body n code).size = code.size + n * k := by
  induction n generalizing code with
  | zero => simp [copies]
  | succ n ih =>
    rw [copies, ih, h, Nat.succ_mul]
    omega

theorem size_optionals {body : Writer} {k : Nat} (h : ∀ code, (body code).size = code.size + k)
    (greedy : Bool) (out n : Nat) (code : Array Instr) :
    (optionals body greedy out n code).size = code.size + n * (k + 1) := by
  induction n generalizing code with
  | zero => simp [optionals]
  | succ n ih =>
    rw [optionals, ih, h, Array.size_push, Nat.succ_mul]
    omega

theorem size_many1 {body : Writer} {k : Nat} (h : ∀ code, (body code).size = code.size + k)
    (greedy : Bool) (code : Array Instr) :
    (many1 body k greedy code).size = code.size + k + 1 := by
  simp [many1, h]

theorem size_many {body : Writer} {k : Nat} (h : ∀ code, (body code).size = code.size + k)
    (greedy nullable : Bool) (code : Array Instr) :
    (many body k greedy nullable code).size = code.size + k + 2 := by
  cases nullable
  · simp [many, h]
    omega
  · simp [many, size_many1 h]
    omega

end Writer

namespace Expr

/-- The number of instructions in the code of an expression. -/
def length : Expr → Nat
  | .empty => 0
  | .set _ | .look _ => 1
  | .group e => e.length
  | .seq a b => a.length + b.length
  | .alt a b => a.length + b.length + 2
  | .rep 0 none _ body => body.length + 2
  | .rep (n + 1) none _ body => (n + 1) * body.length + 1
  | .rep min (some max) _ body =>
    let k := body.length
    min * k + (max - min) * (k + 1)

/-- Puts the code of an expression behind other code. -/
def write : Expr → Writer
  | .empty, code => code
  | .set s, code => code.push (.read s)
  | .look l, code => code.push (.look l)
  | .group e, code => e.write code
  | .seq a b, code => b.write (a.write code)
  | .alt a b, code =>
    let second := code.size + a.length + 2
    let code := a.write (code.push (.fork (code.size + 1) second))
    b.write (code.push (.jump (second + b.length)))
  | .rep 0 none greedy body, code =>
    Writer.many body.write body.length greedy body.nullable code
  | .rep (n + 1) none greedy body, code =>
    Writer.many1 body.write body.length greedy (Writer.copies body.write n code)
  | .rep min (some max) greedy body, code =>
    let more := max - min
    let code := Writer.copies body.write min code
    Writer.optionals body.write greedy (code.size + more * (body.length + 1)) more code

/-- The code of an expression is as long as said, so every fork and jump leads
where it should. -/
@[simp] theorem size_write (e : Expr) (code : Array Instr) :
    (e.write code).size = code.size + e.length := by
  induction e generalizing code with
  | empty => simp [write, length]
  | set s => simp [write, length]
  | look l => simp [write, length]
  | group e ih => simp [write, length, ih]
  | seq a b iha ihb =>
    simp only [write, length, iha, ihb]
    omega
  | alt a b iha ihb =>
    simp only [write, length, iha, ihb, Array.size_push]
    omega
  | rep min max greedy body ih =>
    match min, max with
    | 0, none =>
      simp only [write, length, Writer.size_many ih]
      omega
    | n + 1, none =>
      simp only [write, length, Writer.size_many1 ih, Writer.size_copies ih, Nat.succ_mul]
      omega
    | min, some max =>
      simp only [write, length, Writer.size_optionals ih, Writer.size_copies ih]
      omega

def program (e : Expr) : Program :=
  ⟨(e.write #[]).push .accept, e.beginsWith .startText⟩

end Expr

end Stencil.Regex
