import Stencil.Proofs.RoundTrip

/-!
The scan of a pattern and the scans of its segments. At every place the scan looks
for an escaped start, an escaped stop, a start and a stop, in this order, and takes
one character if none of them is there. The delimiters may have any length, and may
share characters with each other and with the escape.

Main statement: the segments between the bare delimiters of a pattern are scanned
and unescaped on their own as they are within the pattern, although less text
follows them there.
-/

namespace Stencil

theorem Mark.forall_iff {P : Mark → Prop} : (∀ m, P m) ↔ P .start ∧ P .stop :=
  ⟨fun h => ⟨h .start, h .stop⟩, fun h m => by cases m; exacts [h.1, h.2]⟩

/-- The side of a tag that a piece marks, if it is a bare delimiter. -/
def Piece.mark? : Piece → Option Mark
  | .bare m => some m
  | .escaped _ | .char _ => none

namespace Delimiters

/-! ### What a scan does -/

/-- A delimiter with the escape before it stands at the front of the text. -/
def HasEscaped (d : Delimiters) (m : Mark) (cs : List Char) : Prop :=
  d.escape ≠ "" ∧ d.escape.toList ++ d.textOf m <+: cs

/-- A delimiter stands at the front of the text. -/
def HasBare (d : Delimiters) (m : Mark) (cs : List Char) : Prop :=
  d.textOf m <+: cs

/-- The piece stands at the front of the text, and nothing does that is looked for
before it. -/
def Leads (d : Delimiters) : Piece → List Char → Prop
  | .escaped .start, cs => d.HasEscaped .start cs
  | .escaped .stop, cs => ¬d.HasEscaped .start cs ∧ d.HasEscaped .stop cs
  | .bare .start, cs => (∀ m, ¬d.HasEscaped m cs) ∧ d.HasBare .start cs
  | .bare .stop, cs => (∀ m, ¬d.HasEscaped m cs) ∧ ¬d.HasBare .start cs ∧ d.HasBare .stop cs
  | .char c, cs => (∀ m, ¬d.HasEscaped m cs) ∧ (∀ m, ¬d.HasBare m cs) ∧ cs.head? = some c

/-- The scan of a text from left to right. -/
inductive Scan (d : Delimiters) : List Char → List Piece → Prop
  | nil : Scan d [] []
  | cons {p : Piece} {rest : List Char} {ps : List Piece}
      (hlead : d.Leads p (d.rawOf p ++ rest)) (hrest : Scan d rest ps) :
      Scan d (d.rawOf p ++ rest) (p :: ps)

variable {d : Delimiters} {p : Piece} {ps : List Piece} {m : Mark} {cs rest : List Char}

theorem escapedAt_eq_none_iff : d.escapedAt cs = none ↔ ∀ m, ¬d.HasEscaped m cs := by
  rw [Mark.forall_iff]
  unfold escapedAt HasEscaped
  by_cases hescape : d.escape = ""
  · simp [hescape]
  · by_cases hstart : d.escape.toList ++ d.textOf .start <+: cs
    · simp [hescape, hstart]
    · simp [hescape, hstart]

theorem escapedAt_eq_some_iff : d.escapedAt cs = some m ↔ d.Leads (.escaped m) cs := by
  unfold escapedAt
  by_cases hescape : d.escape = ""
  · cases m <;> simp [Leads, HasEscaped, hescape]
  · by_cases hstart : d.escape.toList ++ d.textOf .start <+: cs
    · cases m <;> simp [Leads, HasEscaped, hescape, hstart]
    · cases m <;> simp [Leads, HasEscaped, hescape, hstart]

/-- At every place of a text stands the piece that is cut off there. -/
theorem leads_pieceAt (d : Delimiters) (c : Char) (cs : List Char) :
    d.Leads (d.pieceAt c cs) (c :: cs) := by
  unfold pieceAt
  cases hescaped : d.escapedAt (c :: cs) with
  | some m => exact escapedAt_eq_some_iff.1 hescaped
  | none =>
      rw [escapedAt_eq_none_iff] at hescaped
      by_cases hstart : d.textOf .start <+: c :: cs
      · simpa [bareAt, hstart, Leads, HasBare] using hescaped
      · by_cases hstop : d.textOf .stop <+: c :: cs
        · simpa [bareAt, hstart, hstop, Leads, HasBare] using hescaped
        · simpa [bareAt, hstart, hstop, Leads, HasBare, Mark.forall_iff] using hescaped

/-- What is looked for at a place is looked for in a fixed order. -/
theorem Leads.unique {q : Piece} (hp : d.Leads p cs) (hq : d.Leads q cs) : p = q := by
  rcases p with (_ | _) | (_ | _) | c <;> rcases q with (_ | _) | (_ | _) | c' <;>
    simp_all [Leads, Mark.forall_iff]

/-- With less text after a piece nothing else can stand in its place. -/
theorem Leads.of_prefix {rest' : List Char} (h : d.Leads p (d.rawOf p ++ rest))
    (hrest : rest' <+: rest) : d.Leads p (d.rawOf p ++ rest') := by
  have hle : d.rawOf p ++ rest' <+: d.rawOf p ++ rest := (List.prefix_append_right_inj _).2 hrest
  have hescaped {m : Mark} (hm : ¬d.HasEscaped m (d.rawOf p ++ rest)) :
      ¬d.HasEscaped m (d.rawOf p ++ rest') := fun hm' => hm ⟨hm'.1, hm'.2.trans hle⟩
  have hbare {m : Mark} (hm : ¬d.HasBare m (d.rawOf p ++ rest)) :
      ¬d.HasBare m (d.rawOf p ++ rest') := fun hm' => hm (hm'.trans hle)
  have hself : d.rawOf p <+: d.rawOf p ++ rest' := List.prefix_append _ _
  rcases p with (_ | _) | (_ | _) | c
  · exact ⟨h.1, hself⟩
  · exact ⟨hescaped h.1, h.2.1, hself⟩
  · exact ⟨fun m => hescaped (h.1 m), hself⟩
  · exact ⟨fun m => hescaped (h.1 m), hbare h.2.1, hself⟩
  · exact ⟨fun m => hescaped (h.1 m), fun m => hbare (h.2.1 m), rfl⟩

theorem pieces_of_leads (h : d.Leads p (d.rawOf p ++ rest)) :
    d.pieces 0 (d.rawOf p ++ rest) = p :: d.pieces 0 rest := by
  obtain ⟨c, raw, hraw⟩ := List.exists_cons_of_length_pos (d.length_rawOf_pos p)
  rw [hraw, List.cons_append] at h ⊢
  have hpiece : d.pieceAt c (raw ++ rest) = p := (d.leads_pieceAt c (raw ++ rest)).unique h
  rw [pieces, hpiece, pieces_eq_drop, hraw]
  simp

theorem scan_pieces (d : Delimiters) (cs : List Char) : d.Scan cs (d.pieces 0 cs) := by
  induction hn : cs.length using Nat.strong_induction_on generalizing cs with
  | _ n ih =>
      subst hn
      cases cs with
      | nil => exact .nil
      | cons c cs =>
          obtain ⟨rest, hrest⟩ := d.rawOf_pieceAt_prefix c cs
          have hlead := d.leads_pieceAt c cs
          have hlength := congrArg List.length hrest
          have hpos := d.length_rawOf_pos (d.pieceAt c cs)
          rw [List.length_append] at hlength
          rw [← hrest] at hlead ⊢
          rw [pieces_of_leads hlead]
          exact .cons hlead (ih rest.length (by omega) rest rfl)

/-- A text has one scan. -/
theorem scan_iff : d.Scan cs ps ↔ ps = d.pieces 0 cs := by
  constructor
  · intro h
    induction h with
    | nil => rfl
    | cons hlead _ ih => rw [pieces_of_leads hlead, ih]
  · rintro rfl
    exact d.scan_pieces cs

/-! ### Segments -/

/-- The segments of raw text with the bare delimiters before them, as they stand in
a pattern. -/
def joined (d : Delimiters) (marked : List (Mark × List Char)) : List Char :=
  marked.flatMap fun m => d.textOf m.1 ++ m.2

/-- The pieces of segments with the bare delimiters before them. -/
def joinedPieces (d : Delimiters) (marked : List (Mark × List Char)) : List Piece :=
  marked.flatMap fun m => .bare m.1 :: d.pieces 0 m.2

/-- No bare delimiter is found in the text. -/
def IsRaw (d : Delimiters) (cs : List Char) : Prop :=
  ∀ p ∈ d.pieces 0 cs, p.mark? = none

/-- The sections of a scanned text are put together to the text, and their scans to
the scan of the text. -/
theorem Scan.sections (h : d.Scan cs ps) :
    cs = (d.sections ps).1 ++ d.joined (d.sections ps).2 ∧
      ps = d.pieces 0 (d.sections ps).1 ++ d.joinedPieces (d.sections ps).2 ∧
      d.IsRaw (d.sections ps).1 ∧ ∀ m ∈ (d.sections ps).2, d.IsRaw m.2 := by
  induction h with
  | nil => simp [Delimiters.sections, joined, joinedPieces, IsRaw, pieces]
  | @cons p rest ps hlead hscan ih =>
      obtain ⟨hrest, hps, hraw, hmarked⟩ := ih
      -- the section that a piece stands in ends no later than the text
      have hpieces := pieces_of_leads (hlead.of_prefix ⟨_, hrest.symm⟩)
      have hcons (hmark : p.mark? = none) : d.IsRaw (d.rawOf p ++ (d.sections ps).1) := by
        rw [IsRaw, hpieces, List.forall_mem_cons]
        exact ⟨hmark, hraw⟩
      cases p with
      | bare m =>
          rw [sections_bare]
          refine ⟨?_, ?_, ?_, ?_⟩
          · simpa [joined, rawOf] using hrest
          · simpa [joinedPieces, pieces] using hps
          · simp [IsRaw, pieces]
          · exact List.forall_mem_cons.2 ⟨hraw, hmarked⟩
      | escaped m =>
          rw [sections_escaped]
          refine ⟨?_, ?_, hcons rfl, hmarked⟩
          · rw [List.append_assoc, ← hrest]
          · rw [hpieces, List.cons_append, ← hps]
      | char c =>
          rw [sections_char]
          refine ⟨congrArg (c :: ·) hrest, ?_, hcons rfl, hmarked⟩
          change d.pieces 0 (c :: (d.sections ps).1) = _ at hpieces
          rw [hpieces, List.cons_append, ← hps]

/-- The text that a piece stands for. -/
def meaning (d : Delimiters) : Piece → List Char
  | .escaped m | .bare m => d.textOf m
  | .char c => [c]

theorem unescape_of_leads (h : d.Leads p (d.rawOf p ++ rest)) (hmark : p.mark? = none) :
    d.unescape (d.rawOf p ++ rest) = d.meaning p ++ d.unescape rest := by
  cases p with
  | bare m => cases hmark
  | char c =>
      have hnone : d.escapedAt (c :: rest) = none := escapedAt_eq_none_iff.2 h.1
      simp [rawOf, meaning, unescape, unescapeFrom, hnone]
  | escaped m =>
      have hsome := escapedAt_eq_some_iff.2 h
      obtain ⟨c, raw, hraw⟩ := List.exists_cons_of_length_pos (d.length_rawOf_pos (.escaped m))
      rw [hraw, List.cons_append] at hsome ⊢
      rw [unescape, unescapeFrom, hsome]
      simp [unescapeFrom_eq_drop, hraw, meaning]

/-- The escapes that are removed from a text without bare delimiters are those of
its scan. -/
theorem IsRaw.unescape_eq (h : d.IsRaw cs) : d.unescape cs = (d.pieces 0 cs).flatMap d.meaning := by
  have hscan := d.scan_pieces cs
  rw [IsRaw] at h
  generalize d.pieces 0 cs = ps at hscan h
  induction hscan with
  | nil => rfl
  | cons hlead _ ih =>
      rw [List.forall_mem_cons] at h
      rw [unescape_of_leads hlead h.1, ih h.2, List.flatMap_cons]

theorem IsRaw.sections_eq (h : d.IsRaw cs) : d.sections (d.pieces 0 cs) = (cs, []) := by
  obtain ⟨hcs, hps, _, _⟩ := (d.scan_pieces cs).sections
  rcases hsections : d.sections (d.pieces 0 cs) with ⟨lead, marked⟩
  rw [hsections] at hcs hps
  cases marked with
  | nil => simpa [joined, eq_comm] using hcs
  | cons m marked =>
      have hbare : Piece.bare m.1 ∈ d.pieces 0 cs := by
        rw [hps]
        simp [joinedPieces]
      cases h _ hbare

/-- A text without bare delimiters is split into itself. -/
theorem IsRaw.split_eq (h : d.IsRaw cs) (hne : cs ≠ []) :
    d.split (String.ofList cs) = .ok [.text (String.ofList (d.unescape cs))] := by
  rw [split_eq_ok_iff, String.toList_ofList, h.sections_eq]
  exact ⟨[], [], rfl, rfl, by simp [textChunk, hne]⟩

/-- The tags of some raw bodies, each with the chunk of the raw text behind it. -/
def tagsRead (d : Delimiters) (tags : List (List Char × List Char)) : List Chunk :=
  tags.flatMap fun tag => .tag (Tag.read (d.unescape tag.1)) :: d.textChunk tag.2

theorem tagChunks_eq (d : Delimiters) (tags : List (List Char × List Char)) :
    d.tagChunks tags =
      if ∀ tag ∈ tags, (Tag.read (d.unescape tag.1)).name ≠ "" then some (d.tagsRead tags)
      else none := by
  induction tags with
  | nil => rfl
  | cons tag tags ih =>
      rw [tagChunks, tagOf?, ih]
      by_cases hname : (Tag.read (d.unescape tag.1)).name = ""
      · simp [hname]
      · by_cases hnames : ∀ tag ∈ tags, (Tag.read (d.unescape tag.1)).name ≠ ""
        · have hall : ∀ tag' ∈ tag :: tags, (Tag.read (d.unescape tag'.1)).name ≠ "" :=
            List.forall_mem_cons.2 ⟨hname, hnames⟩
          rw [if_pos hnames, if_pos hall]
          simp [hname, tagsRead]
        · have hall : ¬∀ tag' ∈ tag :: tags, (Tag.read (d.unescape tag'.1)).name ≠ "" :=
            fun h => hnames (List.forall_mem_cons.1 h).2
          rw [if_neg hnames, if_neg hall]
          simp [hname]

/-- A pattern with its chunks is cut into a first raw text and tags, each a raw body
and the raw text behind it. Each of these segments is scanned on its own into the
pieces that the scan of the pattern finds in it, none of them a bare delimiter, and
what is removed from it are the escapes among these pieces. -/
structure Cut (d : Delimiters) (pattern : String) (chunks : List Chunk) (lead : List Char)
    (tags : List (List Char × List Char)) : Prop where
  text : pattern.toList = lead ++ tags.flatMap fun tag =>
    d.start.toList ++ tag.1 ++ d.stop.toList ++ tag.2
  chunks : chunks = d.textChunk lead ++ d.tagsRead tags
  scan : d.pieces 0 pattern.toList = d.pieces 0 lead ++ tags.flatMap fun tag =>
    .bare .start :: d.pieces 0 tag.1 ++ .bare .stop :: d.pieces 0 tag.2
  unescape : ∀ raw ∈ lead :: tags.flatMap fun tag => [tag.1, tag.2],
    d.unescape raw = (d.pieces 0 raw).flatMap d.meaning
  split : ∀ raw ∈ lead :: tags.flatMap fun tag => [tag.1, tag.2], raw ≠ [] →
    d.split (String.ofList raw) = .ok [.text (String.ofList (d.unescape raw))]

/-- Every pattern that can be split is cut at the bare delimiters of its scan. -/
theorem split_segments {pattern : String} {chunks : List Chunk}
    (h : d.split pattern = .ok chunks) : ∃ lead tags, d.Cut pattern chunks lead tags := by
  obtain ⟨tags, rest, htags, hrest, rfl⟩ := split_eq_ok_iff.1 h
  obtain ⟨hcs, hps, hlead, hmarked⟩ := (d.scan_pieces pattern.toList).sections
  rw [pairUp_eq_some_iff] at htags
  rw [htags] at hcs hps hmarked
  have hraw : ∀ raw ∈ (d.sections (d.pieces 0 pattern.toList)).1 ::
      tags.flatMap fun tag => [tag.1, tag.2], d.IsRaw raw := by
    have hsegments : tags.flatMap (fun tag => [tag.1, tag.2]) = (marksOf tags).map Prod.snd := by
      simp [marksOf, List.map_flatMap]
    rw [hsegments, List.forall_mem_cons, List.forall_mem_map]
    exact ⟨hlead, hmarked⟩
  refine ⟨(d.sections (d.pieces 0 pattern.toList)).1, tags, ?_, ?_, ?_, ?_, ?_⟩
  · simpa [joined, marksOf, List.flatMap_assoc, textOf] using hcs
  · rw [tagChunks_eq] at hrest
    split at hrest
    · cases hrest
      rfl
    · cases hrest
  · simpa [joinedPieces, marksOf, List.flatMap_assoc] using hps
  · intro raw hmem
    exact (hraw raw hmem).unescape_eq
  · intro raw hmem hne
    exact (hraw raw hmem).split_eq hne

/-- Delimiters where the escape is the stop delimiter, so that two of them in a row
are one that is escaped. -/
def doubled : Delimiters :=
  ⟨"((", ")", ")", by decide, by decide, by decide⟩

theorem split_segments_doubled :
    doubled.split "é)((b((x:c))d)e" =
        .ok [.text "é((b", .tag ⟨"c)d", some "x"⟩, .text "e"] ∧
      ∃ lead tags, doubled.Cut "é)((b((x:c))d)e"
        [.text "é((b", .tag ⟨"c)d", some "x"⟩, .text "e"] lead tags := by
  have hsplit : doubled.split "é)((b((x:c))d)e" =
      .ok [.text "é((b", .tag ⟨"c)d", some "x"⟩, .text "e"] := by decide
  exact ⟨hsplit, split_segments hsplit⟩

end Delimiters

end Stencil
