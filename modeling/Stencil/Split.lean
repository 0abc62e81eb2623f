import Stencil.Chunk
import Stencil.Delimiters

/-!
Splitting a pattern into chunks.

A left-to-right scan cuts the pattern into pieces: escaped delimiters, bare
delimiters and single characters. The bare delimiters must read start, stop,
start, stop and so on; the raw text between them becomes text chunks and tags,
after the escapes in it are removed.
-/

namespace Stencil

/-- Why a pattern cannot be split. Every cause carries the whole pattern. -/
inductive SplitError where
  | tagsOutOfOrder (pattern : String)
  | unterminatedTag (pattern : String)
  | missingStartTag (pattern : String)
  | emptyTag (pattern : String)
  deriving DecidableEq, Repr

namespace SplitError

def pattern : SplitError → String
  | .tagsOutOfOrder p | .unterminatedTag p | .missingStartTag p | .emptyTag p => p

def message : SplitError → String
  | .tagsOutOfOrder p => "tag delimiters out of order in pattern: " ++ p
  | .unterminatedTag p => "unterminated tag in pattern: " ++ p
  | .missingStartTag p => "missing start tag in pattern: " ++ p
  | .emptyTag p => "empty tag in pattern: " ++ p

end SplitError

/-- The two sides of a tag. -/
inductive Mark where
  | start
  | stop
  deriving DecidableEq, Repr

inductive Piece where
  | escaped (mark : Mark)
  | bare (mark : Mark)
  | char (c : Char)
  deriving DecidableEq, Repr

namespace Delimiters

def textOf (d : Delimiters) : Mark → List Char
  | .start => d.start.toList
  | .stop => d.stop.toList

/-- The delimiter that stands escaped at the front of the text, if any. -/
def escapedAt (d : Delimiters) (cs : List Char) : Option Mark :=
  if d.escape.toList.isEmpty then none
  else if (d.escape.toList ++ d.textOf .start).isPrefixOf cs then some .start
  else if (d.escape.toList ++ d.textOf .stop).isPrefixOf cs then some .stop
  else none

/-- The delimiter that stands at the front of the text, if any. -/
def bareAt (d : Delimiters) (cs : List Char) : Option Mark :=
  if (d.textOf .start).isPrefixOf cs then some .start
  else if (d.textOf .stop).isPrefixOf cs then some .stop
  else none

/-- The piece that starts with the character `c`, when `cs` follows it. -/
def pieceAt (d : Delimiters) (c : Char) (cs : List Char) : Piece :=
  match d.escapedAt (c :: cs) with
  | some m => .escaped m
  | none =>
    match d.bareAt (c :: cs) with
    | some m => .bare m
    | none => .char c

/-- The text of a piece as it stands in the pattern. -/
def rawOf (d : Delimiters) : Piece → List Char
  | .escaped m => d.escape.toList ++ d.textOf m
  | .bare m => d.textOf m
  | .char c => [c]

/-- Cuts a text into pieces, after passing over `skip` characters that belong
to a piece already cut. -/
def pieces (d : Delimiters) : (skip : Nat) → List Char → List Piece
  | _, [] => []
  | n + 1, _ :: cs => d.pieces n cs
  | 0, c :: cs =>
    let p := d.pieceAt c cs
    p :: d.pieces ((d.rawOf p).length - 1) cs

theorem length_textOf_pos (d : Delimiters) (m : Mark) : 0 < (d.textOf m).length := by
  cases m with
  | start =>
    rw [List.length_pos_iff]
    intro h
    exact d.start_ne_empty (String.toList_eq_nil_iff.1 h)
  | stop =>
    rw [List.length_pos_iff]
    intro h
    exact d.stop_ne_empty (String.toList_eq_nil_iff.1 h)

theorem length_rawOf_pos (d : Delimiters) (p : Piece) : 0 < (d.rawOf p).length := by
  cases p with
  | escaped m =>
    have := d.length_textOf_pos m
    simp only [rawOf, List.length_append]
    omega
  | bare m => exact d.length_textOf_pos m
  | char c => simp [rawOf]

theorem rawOf_pieceAt_prefix (d : Delimiters) (c : Char) (cs : List Char) :
    d.rawOf (d.pieceAt c cs) <+: c :: cs := by
  unfold pieceAt escapedAt bareAt
  split
  · rename_i m h
    split at h
    · cases h
    · split at h
      · cases h
        exact List.isPrefixOf_iff_prefix.1 ‹_›
      · split at h
        · cases h
          exact List.isPrefixOf_iff_prefix.1 ‹_›
        · cases h
  · split
    · rename_i m h
      split at h
      · cases h
        exact List.isPrefixOf_iff_prefix.1 ‹_›
      · split at h
        · cases h
          exact List.isPrefixOf_iff_prefix.1 ‹_›
        · cases h
    · exact ⟨cs, rfl⟩

/-- Nothing of a text is lost when it is cut into pieces. -/
theorem flatMap_rawOf_pieces (d : Delimiters) (n : Nat) (cs : List Char) :
    (d.pieces n cs).flatMap d.rawOf = cs.drop n := by
  induction cs generalizing n with
  | nil => simp [pieces]
  | cons c cs ih =>
    cases n with
    | succ n => simp [pieces, ih]
    | zero =>
      obtain ⟨rest, hrest⟩ := d.rawOf_pieceAt_prefix c cs
      have hpos := d.length_rawOf_pos (d.pieceAt c cs)
      rw [pieces, List.flatMap_cons, ih, List.drop_zero]
      cases hraw : d.rawOf (d.pieceAt c cs) with
      | nil => simp [hraw] at hpos
      | cons e raw =>
        rw [hraw, List.cons_append, List.cons.injEq] at hrest
        rw [← hrest.1, ← hrest.2]
        simp

/-- The raw text before the first bare delimiter, and every bare delimiter with
the raw text that follows it. -/
def sections (d : Delimiters) : List Piece → List Char × List (Mark × List Char)
  | [] => ([], [])
  | .bare m :: ps =>
    let (raw, rest) := d.sections ps
    ([], (m, raw) :: rest)
  | p :: ps =>
    let (raw, rest) := d.sections ps
    (d.rawOf p ++ raw, rest)

/-- Puts the bare delimiter in the place of every escaped one, after passing
over `skip` characters. -/
def unescapeFrom (d : Delimiters) : (skip : Nat) → List Char → List Char
  | _, [] => []
  | n + 1, _ :: cs => d.unescapeFrom n cs
  | 0, c :: cs =>
    match d.escapedAt (c :: cs) with
    | some m => d.textOf m ++ d.unescapeFrom ((d.rawOf (.escaped m)).length - 1) cs
    | none => c :: d.unescapeFrom 0 cs

def unescape (d : Delimiters) (raw : List Char) : List Char :=
  d.unescapeFrom 0 raw

/-- Pairs each start delimiter with the stop delimiter right after it: the raw
body of the tag and the raw text behind the tag. -/
def pairUp : List (Mark × List Char) → Option (List (List Char × List Char))
  | [] => some []
  | (.start, body) :: (.stop, text) :: rest => (pairUp rest).map ((body, text) :: ·)
  | _ => none

def textChunk (d : Delimiters) (raw : List Char) : List Chunk :=
  if raw.isEmpty then [] else [.text (String.ofList (d.unescape raw))]

/-- The tag of a raw body, if its name is not empty. -/
def tagOf? (d : Delimiters) (body : List Char) : Option Tag :=
  let tag := Tag.read (d.unescape body)
  if tag.name = "" then none else some tag

def tagChunks (d : Delimiters) : List (List Char × List Char) → Option (List Chunk)
  | [] => some []
  | (body, text) :: rest => do
    let tag ← d.tagOf? body
    let chunks ← d.tagChunks rest
    return .tag tag :: d.textChunk text ++ chunks

/-- Splits a pattern into its chunks. The number of delimiters is judged before
their order, and their order before the tags they enclose. -/
def split (d : Delimiters) (pattern : String) : Except SplitError (List Chunk) :=
  let (lead, marked) := d.sections (d.pieces 0 pattern.toList)
  let marks := marked.map (·.1)
  if marks.count .stop < marks.count .start then .error (.unterminatedTag pattern)
  else if marks.count .start < marks.count .stop then .error (.missingStartTag pattern)
  else
    match pairUp marked with
    | none => .error (.tagsOutOfOrder pattern)
    | some tags =>
      match d.tagChunks tags with
      | none => .error (.emptyTag pattern)
      | some chunks => .ok (d.textChunk lead ++ chunks)

end Delimiters

end Stencil
