import Stencil.Regex.Expr

/-!
Reading the text of a regular expression. Every reader takes the text still to
be read and gives back what is left of it; `none` means that the text is no
regular expression. Groups, repetitions, classes, and lists of two or more parts
may not be nested too deeply.
-/

namespace Stencil.Regex

/-- How deeply the parts of an expression may be nested. -/
def nestLimit : Nat := 250

/-- Something that was read, and how deeply its parts are nested. -/
structure Nested (α : Type) where
  value : α
  depth : Nat

/-- The depth of a list of parts, from their number and the depth of the deepest.
A single part stands for itself. -/
def listDepth (count inner : Nat) : Nat :=
  if count ≤ 1 then inner else inner + 1

/-- Switches that a text sets with `(?flags)`. They last to the end of the group
in which they are set. -/
structure Flags where
  anyCase : Bool := false
  dotAll : Bool := false
  multiLine : Bool := false
  swapGreed : Bool := false
  deriving DecidableEq, Repr

namespace Flags

def set? (fl : Flags) (c : Char) (on : Bool) : Option Flags :=
  match c with
  | 'i' => some { fl with anyCase := on }
  | 's' => some { fl with dotAll := on }
  | 'm' => some { fl with multiLine := on }
  | 'U' => some { fl with swapGreed := on }
  | 'u' => if on then some fl else none
  | _ => none

/-- A set as it is meant under the flags. -/
def close (fl : Flags) (s : CharSet) : CharSet :=
  if fl.anyCase then s.anyCase else s

def dot (fl : Flags) : CharSet :=
  if fl.dotAll then .all else (CharSet.single '\n').compl

def lineStart (fl : Flags) : Look :=
  if fl.multiLine then .startLine else .startText

def lineEnd (fl : Flags) : Look :=
  if fl.multiLine then .endLine else .endText

end Flags

/-! Escapes. -/

inductive Escape where
  | char (c : Char)
  | set (s : CharSet)
  | look (l : Look)

def hexValue? (c : Char) : Option Nat :=
  if '0' ≤ c ∧ c ≤ '9' then some (c.toNat - '0'.toNat)
  else if 'a' ≤ c ∧ c ≤ 'f' then some (c.toNat - 'a'.toNat + 10)
  else if 'A' ≤ c ∧ c ≤ 'F' then some (c.toNat - 'A'.toNat + 10)
  else none

def hexNumber? (acc : Nat) : List Char → Option Nat
  | [] => some acc
  | c :: cs =>
    match hexValue? c with
    | some v => hexNumber? (acc * 16 + v) cs
    | none => none

/-- The character whose code point is written in hexadecimal digits. -/
def hexChar? (digits : List Char) : Option Char :=
  match digits, hexNumber? 0 digits with
  | _ :: _, some n => if n.isValidChar then some (Char.ofNat n) else none
  | _, _ => none

/-- A code point in `width` digits, or in any number of digits inside braces. -/
def readHex (width : Nat) : List Char → Option (Escape × List Char)
  | '\x7b' :: cs =>
    match cs.dropWhile (· ≠ '\x7d') with
    | _ :: rest => (hexChar? (cs.takeWhile (· ≠ '\x7d'))).map fun c => (.char c, rest)
    | [] => none
  | cs =>
    if cs.length < width then none
    else (hexChar? (cs.take width)).map fun c => (.char c, cs.drop width)

/-- ASCII characters that stand for themselves after a backslash. -/
def isEscapable (c : Char) : Bool :=
  c.toNat < 128 && !c.isAlphanum && c != '<' && c != '>'

/-- Reads what follows `\b`. A name in braces tells which side of a word is
meant; braces that begin otherwise are a repetition. -/
def readBoundary (cs : List Char) : Option (Escape × List Char) :=
  let inName (c : Char) : Bool := c.isAlpha || c == '-'
  match cs with
  | '\x7b' :: rest =>
    if rest.head?.any inName then
      match String.ofList (rest.takeWhile inName), rest.dropWhile inName with
      | "start", '\x7d' :: rest => some (.look .wordStart, rest)
      | "end", '\x7d' :: rest => some (.look .wordEnd, rest)
      | "start-half", '\x7d' :: rest => some (.look .notAfterWord, rest)
      | "end-half", '\x7d' :: rest => some (.look .notBeforeWord, rest)
      | _, _ => none
    else some (.look .wordBoundary, cs)
  | _ => some (.look .wordBoundary, cs)

theorem readBoundary_of_ne {cs : List Char} (h : ∀ more, cs ≠ '\x7b' :: more) :
    readBoundary cs = some (.look .wordBoundary, cs) := by
  unfold readBoundary
  split
  · rename_i more
    exact absurd rfl (h more)
  · rfl

/-- Reads an escape, without its backslash. -/
def readEscape : List Char → Option (Escape × List Char)
  | [] => none
  | c :: cs =>
    match c with
    | 'x' => readHex 2 cs
    | 'u' => readHex 4 cs
    | 'U' => readHex 8 cs
    | 'd' => some (.set .digits, cs)
    | 'D' => some (.set CharSet.digits.compl, cs)
    | 'w' => some (.set .words, cs)
    | 'W' => some (.set CharSet.words.compl, cs)
    | 's' => some (.set .blanks, cs)
    | 'S' => some (.set CharSet.blanks.compl, cs)
    | 'a' => some (.char '\x07', cs)
    | 'f' => some (.char '\x0c', cs)
    | 't' => some (.char '\t', cs)
    | 'n' => some (.char '\n', cs)
    | 'r' => some (.char '\r', cs)
    | 'v' => some (.char '\x0b', cs)
    | 'A' => some (.look .startText, cs)
    | 'z' => some (.look .endText, cs)
    | 'b' => readBoundary cs
    | 'B' => some (.look .notWordBoundary, cs)
    | '<' => some (.look .wordStart, cs)
    | '>' => some (.look .wordEnd, cs)
    | c => if isEscapable c then some (.char c, cs) else none

/-! Classes in brackets. -/

inductive SetOp where
  | inter
  | diff
  | symmDiff

def SetOp.apply : SetOp → CharSet → CharSet → CharSet
  | .inter => CharSet.inter
  | .diff => CharSet.diff
  | .symmDiff => CharSet.symmDiff

/-- A class of which some part has been read: whether it is negated, the left
side of an operation that waits for its right side, the members so far, the
number of items that gave them, and the depth of the deepest item. -/
structure ClassPart where
  negated : Bool
  pending : Option (SetOp × Nested CharSet) := none
  members : CharSet := .empty
  count : Nat := 0
  inner : Nat := 0

namespace ClassPart

def add (p : ClassPart) (s : Nested CharSet) : ClassPart :=
  { p with
    members := p.members.union s.value
    count := p.count + 1
    inner := max p.inner s.depth }

def value (fl : Flags) (p : ClassPart) : Nested CharSet :=
  let depth := listDepth p.count p.inner
  match p.pending with
  | some (op, left) =>
    ⟨op.apply (fl.close left.value) (fl.close p.members), max left.depth depth + 1⟩
  | none => ⟨p.members, depth⟩

def operate (fl : Flags) (p : ClassPart) (op : SetOp) : ClassPart :=
  { negated := p.negated, pending := some (op, p.value fl) }

/-- Case is ignored before the class is negated. -/
def finish (fl : Flags) (p : ClassPart) : Nested CharSet :=
  let v := p.value fl
  let s := fl.close v.value
  ⟨if p.negated then s.compl else s, v.depth + 1⟩

end ClassPart

/-- Reads what may stand right after the opening bracket: a caret, and then
hyphens or a closing bracket that are members of the class. -/
def openClass (cs : List Char) : ClassPart × List Char :=
  let (negated, cs) :=
    match cs with
    | '^' :: rest => (true, rest)
    | _ => (false, cs)
  match cs with
  | '-' :: _ =>
    let hyphens := cs.takeWhile (· == '-')
    ({ negated, members := .single '-', count := hyphens.length }, cs.dropWhile (· == '-'))
  | ']' :: rest => ({ negated, members := .single ']', count := 1 }, rest)
  | _ => ({ negated }, cs)

/-- Reads a named class such as `[:alpha:]`, without its opening bracket. -/
def readNamedClass (fl : Flags) : List Char → Option (CharSet × List Char)
  | ':' :: cs =>
    let (negated, cs) :=
      match cs with
      | '^' :: rest => (true, rest)
      | _ => (false, cs)
    match CharSet.named? (String.ofList (cs.takeWhile (· ≠ ':'))), cs.dropWhile (· ≠ ':') with
    | some s, ':' :: ']' :: rest =>
      some (if negated then (fl.close s).compl else fl.close s, rest)
    | _, _ => none
  | _ => none

def readMember : List Char → Option (Escape × List Char)
  | [] => none
  | '\\' :: cs => readEscape cs
  | c :: cs => some (.char c, cs)

def Escape.members? : Escape → Option CharSet
  | .char c => some (.single c)
  | .set s => some s
  | .look _ => none

/-- Reads one member of a class or a range of members. A hyphen makes a range
unless a closing bracket or a second hyphen follows it. -/
def readRange (cs : List Char) : Option (CharSet × List Char) :=
  match readMember cs with
  | none => none
  | some (lo, rest) =>
    match rest with
    | '-' :: d :: more =>
      if d = ']' ∨ d = '-' then lo.members?.map (·, rest)
      else
        match lo, readMember (d :: more) with
        | .char a, some (.char b, rest) => if a ≤ b then some (.range a b, rest) else none
        | _, _ => none
    | _ => lo.members?.map (·, rest)

/-- Reads a class up to its closing bracket, `level` classes deep. No more than
`fuel` steps are made, and every step reads a character. -/
def readClass (fl : Flags) : (fuel level : Nat) → ClassPart → List Char →
    Option (Nested CharSet × List Char)
  | 0, _, _, _ => none
  | n + 1, level, p, cs =>
    match cs with
    | [] => none
    | ']' :: rest => some (p.finish fl, rest)
    | '&' :: '&' :: rest => readClass fl n level (p.operate fl .inter) rest
    | '-' :: '-' :: rest => readClass fl n level (p.operate fl .diff) rest
    | '~' :: '~' :: rest => readClass fl n level (p.operate fl .symmDiff) rest
    | '[' :: rest =>
      match readNamedClass fl rest with
      | some (s, rest) => readClass fl n level (p.add ⟨s, 0⟩) rest
      | none =>
        if nestLimit ≤ level then none
        else
          let (inner, rest) := openClass rest
          match readClass fl n (level + 1) inner rest with
          | some (s, rest) => readClass fl n level (p.add s) rest
          | none => none
    | _ =>
      match readRange cs with
      | some (s, rest) => readClass fl n level (p.add ⟨s, 0⟩) rest
      | none => none

/-! Groups and repetitions. -/

/-- What an opening parenthesis begins: a group with its flags, one whose place is
remembered and that may have a name, or a change of flags for the rest of the
group around it. -/
inductive Opening where
  | group (flags : Flags)
  | remembered (name : Option (List Char))
  | change (flags : Flags)

/-- Reads flags up to a colon or a closing parenthesis. No flag may come twice,
and a minus sign needs a flag after it. -/
def readFlags (fl : Flags) (seen : List Char) (on : Bool) : List Char → Option (Opening × List Char)
  | [] => none
  | c :: cs =>
    if c = ':' ∨ c = ')' then
      if seen.head? = some '-' then none
      else if c = ':' then some (.group fl, cs)
      else if seen.isEmpty then none
      else some (.change fl, cs)
    else if seen.contains c then none
    else if c = '-' then readFlags fl (c :: seen) false cs
    else
      match fl.set? c on with
      | some fl => readFlags fl (c :: seen) on cs
      | none => none

def isNameChar (c : Char) : Bool :=
  Text.isWord c || c == '.' || c == '[' || c == ']'

def isNameStart (c : Char) : Bool :=
  Text.isWord c && !Text.isDigit c

/-- Reads the name of a group up to the bracket that ends it. -/
def readName (cs : List Char) : Option (Opening × List Char) :=
  let name := cs.takeWhile (· ≠ '>')
  match cs.dropWhile (· ≠ '>') with
  | _ :: rest =>
    if name.head?.any isNameStart && name.all isNameChar then some (.remembered name, rest)
    else none
  | [] => none

/-- Reads what follows an opening parenthesis. There is no looking ahead of or
behind a place. -/
def readOpening (fl : Flags) : List Char → Option (Opening × List Char)
  | '?' :: '=' :: _ | '?' :: '!' :: _ | '?' :: '<' :: '=' :: _ | '?' :: '<' :: '!' :: _ => none
  | '?' :: 'P' :: '<' :: cs | '?' :: '<' :: cs => readName cs
  | '?' :: cs => readFlags fl [] true cs
  | cs => some (.remembered none, cs)

/-- Reads a decimal number with blanks around it. -/
def readDecimal (cs : List Char) : Option (Nat × List Char) :=
  let cs := cs.dropWhile Text.isBlank
  let digits := cs.takeWhile Char.isDigit
  let n := digits.foldl (fun n c => n * 10 + (c.toNat - '0'.toNat)) 0
  if digits.isEmpty || UInt32.size ≤ n then none
  else some (n, (cs.dropWhile Char.isDigit).dropWhile Text.isBlank)

/-- Reads the bounds of a repetition, without the opening brace. -/
def readBounds (cs : List Char) : Option ((Nat × Option Nat) × List Char) :=
  match readDecimal cs with
  | some (n, '\x7d' :: rest) => some ((n, some n), rest)
  | some (n, ',' :: '\x7d' :: rest) => some ((n, none), rest)
  | some (n, ',' :: rest) =>
    match readDecimal rest with
    | some (m, '\x7d' :: rest) => if n ≤ m then some ((n, some m), rest) else none
    | _ => none
  | _ => none

/-- Reads a repetition operator, if one stands here. -/
def readOperator : List Char → Option (Option ((Nat × Option Nat) × List Char))
  | '*' :: cs => some (some ((0, none), cs))
  | '+' :: cs => some (some ((1, none), cs))
  | '?' :: cs => some (some ((0, some 1), cs))
  | '\x7b' :: cs => some (readBounds cs)
  | _ => none

/-- The depth of the deepest of some parts. -/
def deepest {α : Type} (parts : List (Nested α)) : Nat :=
  (parts.map Nested.depth).foldl max 0

/-- The branches and the items of a group of which some part has been read, last
one first. A change of flags is an item that cannot be repeated. -/
structure GroupPart where
  branches : List (Nested Expr)
  items : List (Nested (Option Expr))

namespace GroupPart

def start : GroupPart := ⟨[], []⟩

def add (p : GroupPart) (e : Nested Expr) : GroupPart :=
  { p with items := ⟨some e.value, e.depth⟩ :: p.items }

def addChange (p : GroupPart) : GroupPart :=
  { p with items := ⟨none, 0⟩ :: p.items }

def branch (p : GroupPart) : Nested Expr :=
  ⟨Expr.concat (p.items.filterMap Nested.value).reverse,
    listDepth p.items.length (deepest p.items)⟩

def nextBranch (p : GroupPart) : GroupPart :=
  ⟨p.branch :: p.branches, []⟩

def finish (p : GroupPart) : Nested Expr :=
  let branches := (p.branch :: p.branches).reverse
  ⟨Expr.choice (branches.map Nested.value), listDepth branches.length (deepest branches)⟩

/-- Repeats the last item. -/
def repeatLast? (p : GroupPart) (min : Nat) (max : Option Nat) (greedy : Bool) :
    Option GroupPart :=
  match p.items with
  | ⟨some e, depth⟩ :: items =>
    some { p with items := ⟨some (.times min max greedy e), depth + 1⟩ :: items }
  | _ => none

end GroupPart

/-- Reads one item that is neither a group nor a repetition. -/
def readItem (fl : Flags) : List Char → Option (Nested Expr × List Char)
  | [] => none
  | '\\' :: cs =>
    match readEscape cs with
    | some (.char c, rest) => some (⟨.set (fl.close (.single c)), 0⟩, rest)
    | some (.set s, rest) => some (⟨.set s, 0⟩, rest)
    | some (.look l, rest) => some (⟨.look l, 0⟩, rest)
    | none => none
  | '[' :: cs =>
    let (p, rest) := openClass cs
    (readClass fl (rest.length + 1) 1 p rest).map fun (s, rest) => (⟨.set s.value, s.depth⟩, rest)
  | '.' :: cs => some (⟨.set fl.dot, 0⟩, cs)
  | '^' :: cs => some (⟨.look fl.lineStart, 0⟩, cs)
  | '$' :: cs => some (⟨.look fl.lineEnd, 0⟩, cs)
  | c :: cs => some (⟨.set (fl.close (.single c)), 0⟩, cs)

/-- What was read of a text: the expression, the names of all groups so far, and
the rest of the text. -/
structure Reading where
  expr : Nested Expr
  names : List (List Char)
  rest : List Char

/-- Reads up to the end of a group, which is the end of the text or a closing
parenthesis, `level` groups deep. No more than `fuel` steps are made, and every
step reads a character. -/
def readGroup : (fuel level : Nat) → Flags → List (List Char) → GroupPart → List Char →
    Option Reading
  | 0, _, _, _, _, _ => none
  | n + 1, level, fl, names, p, cs =>
    match cs with
    | [] => some ⟨p.finish, names, []⟩
    | ')' :: _ => some ⟨p.finish, names, cs⟩
    | '|' :: rest => readGroup n level fl names p.nextBranch rest
    | '(' :: rest =>
      match readOpening fl rest with
      | none => none
      | some (.change fl, rest) => readGroup n level fl names p.addChange rest
      | some (.group inner, rest) =>
        if nestLimit ≤ level then none
        else
          match readGroup n (level + 1) inner names .start rest with
          | some ⟨e, names, ')' :: rest⟩ =>
            readGroup n level fl names (p.add ⟨e.value, e.depth + 1⟩) rest
          | _ => none
      | some (.remembered name, rest) =>
        if nestLimit ≤ level || name.any names.contains then none
        else
          match readGroup n (level + 1) fl (name.toList ++ names) .start rest with
          | some ⟨e, names, ')' :: rest⟩ =>
            readGroup n level fl names (p.add ⟨.group e.value, e.depth + 1⟩) rest
          | _ => none
    | _ =>
      match readOperator cs with
      | some none => none
      | some (some ((min, max), rest)) =>
        let (lazy, rest) :=
          match rest with
          | '?' :: more => (true, more)
          | _ => (false, rest)
        match p.repeatLast? min max (lazy == fl.swapGreed) with
        | some p => readGroup n level fl names p rest
        | none => none
      | none =>
        match readItem fl cs with
        | some (e, rest) => readGroup n level fl names (p.add e) rest
        | none => none

/-- The regular expression that a text denotes. -/
def read (cs : List Char) : Option Expr :=
  match readGroup (cs.length + 1) 0 {} [] .start cs with
  | some ⟨e, _, []⟩ => if e.depth ≤ nestLimit then some e.value else none
  | _ => none

end Stencil.Regex
