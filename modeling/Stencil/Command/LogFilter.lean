import Stencil.Regex.Reader

/-!
Log filters: which events are worth a line on the error stream. A filter is a
list of directives between commas, of the form

    target[span{field=value}]=level

where every part may be missing. A level alone holds for all targets, and a
directive without level lets all events pass.
-/

namespace Stencil.Command

inductive Level where
  | off
  | error
  | warn
  | info
  | debug
  | trace
  deriving DecidableEq, Repr

namespace Level

def rank : Level → Nat
  | .off => 0
  | .error => 1
  | .warn => 2
  | .info => 3
  | .debug => 4
  | .trace => 5

def ofRank? : Nat → Option Level
  | 0 => some .off
  | 1 => some .error
  | 2 => some .warn
  | 3 => some .info
  | 4 => some .debug
  | 5 => some .trace
  | _ => none

/-- A number in decimal digits, with or without a plus sign. -/
def number? (cs : List Char) : Option Nat :=
  let digits :=
    match cs with
    | '+' :: cs => cs
    | _ => cs
  if !digits.isEmpty && digits.all Char.isDigit then
    some (digits.foldl (fun n c => n * 10 + (c.toNat - '0'.toNat)) 0)
  else none

/-- A level by its name, in any case, or by its rank. -/
def ofText? (cs : List Char) : Option Level :=
  match number? cs with
  | some n => ofRank? n
  | none =>
    match String.ofList (cs.map Char.toLower) with
    | "off" => some .off
    | "error" => some .error
    | "warn" => some .warn
    | "info" => some .info
    | "debug" => some .debug
    | "trace" => some .trace
    | _ => none

end Level

/-- A field that an event must have, and whether it must have a certain value. -/
structure FieldFilter where
  name : List Char
  hasValue : Bool
  deriving DecidableEq, Repr

structure Directive where
  target : Option (List Char) := none
  span : Option (List Char) := none
  field : Option FieldFilter := none
  level : Level := .trace
  deriving DecidableEq, Repr

/-! Reading directives. -/

/-- Why a directive cannot be read. -/
inductive Flaw where
  /-- It does not have the form of a directive. -/
  | form
  /-- One of its parts would begin or end inside a character. -/
  | splitCharacter
  deriving DecidableEq, Repr

/-- A text without its first bytes, if they are whole characters. -/
def dropBytes? (cs : List Char) (n : Nat) : Option (List Char) :=
  match cs, n with
  | cs, 0 => some cs
  | [], _ => none
  | c :: cs, n => if c.utf8Size ≤ n then dropBytes? cs (n - c.utf8Size) else none

/-- The first bytes of a text, if they are whole characters. -/
def takeBytes? (cs : List Char) (n : Nat) : Option (List Char) :=
  match cs, n with
  | _, 0 => some []
  | [], _ => none
  | c :: cs, n =>
    if c.utf8Size ≤ n then (takeBytes? cs (n - c.utf8Size)).map (c :: ·) else none

/-- What stands between two places of a text, which are counted in bytes. -/
def cut (text : List Char) (start stop : Nat) : Except Flaw (List Char) :=
  match (dropBytes? text start).bind (takeBytes? · (stop - start)) with
  | some part => .ok part
  | none => .error .splitCharacter

/-- What stands after a place of a text. -/
def cutFrom (text : List Char) (start : Nat) : Except Flaw (List Char) :=
  match dropBytes? text start with
  | some part => .ok part
  | none => .error .splitCharacter

/-- A text without the blanks around it. -/
def trim (cs : List Char) : List Char :=
  ((cs.dropWhile Text.isBlank).reverse.dropWhile Text.isBlank).reverse

/-- Whether a text is a decimal number after its sign, with or without a point and
an exponent. -/
def isUnsignedNumber (cs : List Char) : Bool :=
  let whole := cs.takeWhile Char.isDigit
  let (part, rest) :=
    match cs.dropWhile Char.isDigit with
    | '.' :: rest => (rest.takeWhile Char.isDigit, rest.dropWhile Char.isDigit)
    | rest => ([], rest)
  let isExponent : List Char → Bool
    | [] => true
    | e :: '+' :: ds | e :: '-' :: ds | e :: ds =>
      (e == 'e' || e == 'E') && !ds.isEmpty && ds.all Char.isDigit
  !(whole ++ part).isEmpty && isExponent rest ||
    ["inf", "infinity", "nan"].contains (String.ofList (cs.map Char.toLower))

/-- A value is a number or a regular expression. What asks for words cannot be
used here. -/
def isValue : List Char → Bool
  | '+' :: cs => isUnsignedNumber cs
  | cs => (Regex.read cs).any (!·.asksForWord)

/-- Reads a field with or without a value. What follows a second equals sign does
not count. -/
def FieldFilter.read? (cs : List Char) : Option FieldFilter :=
  let name := cs.takeWhile (· ≠ '=')
  match cs.dropWhile (· ≠ '=') with
  | [] => if name.isEmpty then none else some ⟨name, false⟩
  | _ :: rest => if isValue (rest.takeWhile (· ≠ '=')) then some ⟨name, true⟩ else none

/-- The part of a directive that is being read, and the place where it began. -/
inductive Part where
  | start
  | word (since : Nat)
  | span (since : Nat)
  | field (since : Nat)
  /-- Behind the field. -/
  | fieldEnd
  /-- Behind the brackets. -/
  | spanEnd
  | level (since : Nat)

namespace Directive

def isStart (c : Char) : Bool :=
  Text.isAlnum c || c == '-' || c == ':' || c == '_'

/-- The directive made of a single word, which is a level or a target. -/
def ofWord (cs : List Char) : Directive :=
  match Level.ofText? cs with
  | some level => { level }
  | none => { target := some cs }

/-- What has been read when the text ends in the given part. -/
def finish (text : List Char) (d : Directive) : Part → Except Flaw Directive
  | .word since => do
    let word ← cutFrom text since
    return ofWord word
  | .level since => do
    let name ← cutFrom text since
    if name.isEmpty then return d
    match Level.ofText? name with
    | some level => return { d with level }
    | none => .error .form
  | .spanEnd => .ok d
  | _ => .error .form

/-- Goes on reading a directive at place `pos`. The parts are cut out of `text`. -/
def readFrom (text : List Char) (d : Directive) (part : Part) (pos : Nat) :
    List Char → Except Flaw Directive
  | [] => d.finish text part
  | c :: cs =>
    let next := pos + c.utf8Size
    match part, c with
    | .start, '[' => readFrom text d (.span next) next cs
    | .start, c => if isStart c then readFrom text d (.word pos) next cs else .error .form
    | .word since, '=' => do
      let target ← cut text since pos
      readFrom text { d with target := some target } (.level next) next cs
    | .word since, '[' => do
      let target ← cut text since pos
      readFrom text { d with target := some target } (.span next) next cs
    | .span since, ']' => do
      let span ← cut text since pos
      readFrom text { d with span := some span } .spanEnd next cs
    | .span since, '\x7b' => do
      let span ← cut text since pos
      let span? := if span.isEmpty then none else some span
      readFrom text { d with span := span? } (.field next) next cs
    | .field since, '\x7d' => do
      let field ← cut text since pos
      match FieldFilter.read? field with
      | some field => readFrom text { d with field := some field } .fieldEnd next cs
      | none => .error .form
    | .fieldEnd, ']' => readFrom text d .spanEnd next cs
    | .spanEnd, '=' => readFrom text d (.level next) next cs
    | .fieldEnd, _ | .spanEnd, _ => .error .form
    | part, _ => readFrom text d part next cs

/-- Reads a directive. Blanks around it are passed over; but the places of its
parts are counted without the blanks in front, and the parts are cut out of the
text with them. -/
def read (text : List Char) : Except Flaw Directive :=
  readFrom text {} .start 0 (trim text)

end Directive

structure LogFilter where
  directives : List Directive := []
  /-- Directives that do not have the form of one. -/
  ignored : List (List Char) := []

/-- The parts of a text between commas. -/
def commaParts : List Char → List (List Char)
  | [] => [[]]
  | c :: cs =>
    match commaParts cs with
    | [] => [[c]]
    | part :: parts => if c = ',' then [] :: part :: parts else (c :: part) :: parts

/-! Events. -/

/-- What may be logged. An event has fields with these names. -/
structure Event where
  target : String
  level : Level
  fields : List String
  deriving DecidableEq, Repr

namespace Directive

/-- Whether a directive decides on an event. Events lie in no span here, and their
values are not looked at. -/
def concerns (d : Directive) (e : Event) : Bool :=
  d.span.isNone && d.target.all (·.isPrefixOf e.target.toList) &&
    d.field.all fun f => !f.hasValue && e.fields.contains (String.ofList f.name)

def targetSize (d : Directive) : Nat :=
  match d.target with
  | some t => (String.ofList t).utf8ByteSize + 1
  | none => 0

/-- Whether a directive that comes later goes before another: if it has a longer
target, or one as long and a field that the other does not have or that comes
no later in the alphabet. -/
def outranks (d other : Directive) : Bool :=
  if d.targetSize = other.targetSize then
    match d.field, other.field with
    | some f, some g => !decide (f.name < g.name)
    | none, some _ => false
    | _, none => true
  else other.targetSize < d.targetSize

end Directive

namespace LogFilter

def readParts : List (List Char) → Except Flaw LogFilter
  | [] => .ok {}
  | part :: parts =>
    match Directive.read part with
    | .error .splitCharacter => .error .splitCharacter
    | .error .form => do
      let f ← readParts parts
      return { f with ignored := part :: f.ignored }
    | .ok d => do
      let f ← readParts parts
      return { f with directives := d :: f.directives }

/-- Reads a filter. Directives that do not have the form of one are ignored. -/
def read (text : String) : Except Flaw LogFilter :=
  readParts ((commaParts text.toList).filter (!·.isEmpty))

/-- What passes when nothing is said. -/
def standard : LogFilter := { directives := [{ level := .warn }] }

/-- The directive that decides on an event. -/
def directiveFor (f : LogFilter) (e : Event) : Option Directive :=
  (f.directives.filter (·.concerns e)).foldl
    (fun best d => if best.all d.outranks then some d else best) none

def passes (f : LogFilter) (e : Event) : Bool :=
  match f.directiveFor e with
  | some d => e.level.rank ≤ d.level.rank
  | none => f.directives.isEmpty && e.level.rank ≤ Level.error.rank

end LogFilter

end Stencil.Command
