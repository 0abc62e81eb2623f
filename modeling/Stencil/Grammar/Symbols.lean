import Stencil.Text.CharClass

/-!
The notation of alternatives: names and quoted literals in a row, such as
`ID '=' expr`. Blanks divide them; after a literal none is needed.
-/

namespace Stencil

inductive RawSymbol where
  | literal (text : String)
  | name (name : String)
  deriving DecidableEq, Repr

namespace RawSymbol

/-- Where a reader stands: between symbols, or inside one whose characters so
far are kept last one first. -/
inductive Place where
  | between
  | inLiteral (chars : List Char)
  | inName (chars : List Char)

def ofLiteral (chars : List Char) : RawSymbol := .literal (String.ofList chars.reverse)

def ofName (chars : List Char) : RawSymbol := .name (String.ofList chars.reverse)

/-- Reads on from a place; `none` if a literal is not closed. A quote inside a
name belongs to the name. -/
def readFrom : Place → List Char → Option (List RawSymbol)
  | .between, [] => some []
  | .inLiteral _, [] => none
  | .inName chars, [] => some [ofName chars]
  | .between, c :: cs =>
    if Text.isBlank c then readFrom .between cs
    else if c = '\'' then readFrom (.inLiteral []) cs
    else readFrom (.inName [c]) cs
  | .inLiteral chars, c :: cs =>
    if c = '\'' then (readFrom .between cs).map (ofLiteral chars :: ·)
    else readFrom (.inLiteral (c :: chars)) cs
  | .inName chars, c :: cs =>
    if Text.isBlank c then (readFrom .between cs).map (ofName chars :: ·)
    else readFrom (.inName (c :: chars)) cs

section Steps

variable (c : Char) (chars cs : List Char)

@[simp] theorem readFrom_between_nil : readFrom .between [] = some [] := rfl

@[simp] theorem readFrom_inLiteral_nil : readFrom (.inLiteral chars) [] = none := rfl

@[simp] theorem readFrom_inName_nil : readFrom (.inName chars) [] = some [ofName chars] := rfl

theorem readFrom_between_cons :
    readFrom .between (c :: cs) =
      if Text.isBlank c then readFrom .between cs
      else if c = '\'' then readFrom (.inLiteral []) cs
      else readFrom (.inName [c]) cs := rfl

theorem readFrom_inLiteral_cons :
    readFrom (.inLiteral chars) (c :: cs) =
      if c = '\'' then (readFrom .between cs).map (ofLiteral chars :: ·)
      else readFrom (.inLiteral (c :: chars)) cs := rfl

theorem readFrom_inName_cons :
    readFrom (.inName chars) (c :: cs) =
      if Text.isBlank c then (readFrom .between cs).map (ofName chars :: ·)
      else readFrom (.inName (c :: chars)) cs := rfl

end Steps

/-- The symbols of an alternative. -/
def readAll (alternative : String) : Option (List RawSymbol) :=
  readFrom .between alternative.toList

end RawSymbol

end Stencil
