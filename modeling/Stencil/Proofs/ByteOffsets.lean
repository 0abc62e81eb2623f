import Mathlib.Data.String.Basic
import Stencil.Proofs.Segments

/-!
Splitting by byte offsets. The bare delimiters of a pattern are noted by their
offsets, the first start is paired with the first stop and so on, and the segments
are cut out of the pattern between the offsets. Only neighbouring offsets are ever
compared.

Main statement: every cut lies within the pattern and at the border of a character,
and what comes of it is what comes of splitting by sections.
-/

namespace Stencil

open String (utf8Len)

/-- The part of a text between two byte offsets. There is none if they are out of
order, and none if one of them lies outside the text or inside a character. -/
def slice? (text : String) (start stop : Nat) : Option (List Char) :=
  if start ≤ stop ∧ (⟨start⟩ : String.Pos.Raw).IsValid text ∧
      (⟨stop⟩ : String.Pos.Raw).IsValid text then
    some (String.Pos.Raw.extract text ⟨start⟩ ⟨stop⟩).toList
  else none

theorem utf8ByteSize_eq (text : String) : text.utf8ByteSize = utf8Len text.toList := by
  rw [← String.utf8ByteSize_ofList, String.ofList_toList]

theorem isValid_utf8Len {text : String} {xs ys : List Char} (h : text.toList = xs ++ ys) :
    (⟨utf8Len xs⟩ : String.Pos.Raw).IsValid text := by
  rw [String.Pos.Raw.isValid_iff_exists_take_toList]
  exact ⟨xs.length, by simp [h, String.utf8ByteSize_ofList]⟩

theorem slice?_eq_some {text : String} (xs ys zs : List Char) (h : text.toList = xs ++ ys ++ zs) :
    slice? text (utf8Len xs) (utf8Len xs + utf8Len ys) = some ys := by
  have hstart : (⟨utf8Len xs⟩ : String.Pos.Raw).IsValid text :=
    isValid_utf8Len (by rw [h, List.append_assoc])
  have hstop : (⟨utf8Len xs + utf8Len ys⟩ : String.Pos.Raw).IsValid text := by
    rw [← String.utf8Len_append]
    exact isValid_utf8Len h
  have htext : text = String.ofList (xs ++ ys ++ zs) := by rw [← h, String.ofList_toList]
  rw [slice?, if_pos ⟨Nat.le_add_right _ _, hstart, hstop⟩, htext, String.extract_of_valid,
    String.toList_ofList]

namespace Delimiters

/-! ### The offsets of the bare delimiters -/

theorem utf8Len_rawOf_pos (d : Delimiters) (p : Piece) : 0 < utf8Len (d.rawOf p) := by
  rw [Nat.pos_iff_ne_zero, Ne, String.utf8Len_eq_zero, ← List.length_eq_zero_iff]
  exact Nat.ne_of_gt (d.length_rawOf_pos p)

/-- The bare delimiters of a pattern from a byte offset on, each with its offset.
At every place the scan cuts off what is left of the pattern. -/
def marksFrom? (d : Delimiters) (pattern : String) (pos : Nat) : Option (List (Mark × Nat)) :=
  if pos < pattern.utf8ByteSize then
    match slice? pattern pos pattern.utf8ByteSize with
    | some (c :: rest) =>
      let p := d.pieceAt c rest
      let later := d.marksFrom? pattern (pos + utf8Len (d.rawOf p))
      match p.mark? with
      | some m => later.map ((m, pos) :: ·)
      | none => later
    | _ => none
  else some []
termination_by pattern.utf8ByteSize - pos
decreasing_by
  have hpos := d.utf8Len_rawOf_pos (d.pieceAt c rest)
  omega

/-- The offsets of the bare delimiters with segments behind them, if the first
of them begins at `pos`. -/
def marksAt (d : Delimiters) : (pos : Nat) → List (Mark × List Char) → List (Mark × Nat)
  | _, [] => []
  | pos, (m, raw) :: marked =>
    (m, pos) :: d.marksAt (pos + utf8Len (d.textOf m) + utf8Len raw) marked

theorem marksAt_cons (d : Delimiters) (pos : Nat) (m : Mark × List Char)
    (marked : List (Mark × List Char)) :
    d.marksAt pos (m :: marked) =
      (m.1, pos) :: d.marksAt (pos + utf8Len (d.textOf m.1) + utf8Len m.2) marked :=
  rfl

variable {d : Delimiters} {ps : List Piece} {cs : List Char}

theorem marksFrom?_eq (h : d.Scan cs ps) {pattern : String} (before : List Char)
    (hpattern : pattern.toList = before ++ cs) :
    d.marksFrom? pattern (utf8Len before) =
      some (d.marksAt (utf8Len before + utf8Len (d.sections ps).1) (d.sections ps).2) := by
  induction h generalizing before with
  | nil =>
      have hsize : pattern.utf8ByteSize = utf8Len before := by
        rw [utf8ByteSize_eq, hpattern, List.append_nil]
      rw [marksFrom?, if_neg (by omega)]
      rfl
  | @cons p rest ps hlead _ ih =>
      have hsize : pattern.utf8ByteSize = utf8Len before + utf8Len (d.rawOf p ++ rest) := by
        rw [utf8ByteSize_eq, hpattern, String.utf8Len_append]
      have hslice : slice? pattern (utf8Len before) pattern.utf8ByteSize =
          some (d.rawOf p ++ rest) := by
        rw [hsize]
        exact slice?_eq_some before _ [] (by rw [hpattern, List.append_nil])
      have hlater := ih (before ++ d.rawOf p) (by rw [hpattern, List.append_assoc])
      rw [String.utf8Len_append] at hlater
      have hpos := d.utf8Len_rawOf_pos p
      rw [String.utf8Len_append] at hsize
      obtain ⟨c, raw, hraw⟩ := List.exists_cons_of_length_pos (d.length_rawOf_pos p)
      rw [hraw, List.cons_append] at hslice hlead
      have hpiece : d.pieceAt c (raw ++ rest) = p := (d.leads_pieceAt c _).unique hlead
      rw [marksFrom?, if_pos (by omega), hslice]
      simp only [hpiece, hlater]
      cases p with
      | bare m => simp [Piece.mark?, sections_bare, marksAt_cons, rawOf]
      | escaped m => simp [Piece.mark?, sections_escaped, Nat.add_assoc]
      | char c =>
          simp [Piece.mark?, sections_char, rawOf, Nat.add_assoc, Nat.add_comm, Nat.add_left_comm]

/-- The offsets of the delimiters for one side of a tag. -/
def offsetsOf (m : Mark) (marks : List (Mark × Nat)) : List Nat :=
  (marks.filter (·.1 = m)).map Prod.snd

@[simp] theorem offsetsOf_cons (m m' : Mark) (pos : Nat) (marks : List (Mark × Nat)) :
    offsetsOf m ((m', pos) :: marks) =
      if m' = m then pos :: offsetsOf m marks else offsetsOf m marks := by
  by_cases h : m' = m <;> simp [offsetsOf, h]

theorem map_fst_marksAt (d : Delimiters) (pos : Nat) (marked : List (Mark × List Char)) :
    (d.marksAt pos marked).map Prod.fst = marked.map Prod.fst := by
  induction marked generalizing pos with
  | nil => rfl
  | cons m marked ih => simp [marksAt_cons, ih]

theorem length_offsetsOf_marksAt (d : Delimiters) (m : Mark) (pos : Nat)
    (marked : List (Mark × List Char)) :
    (offsetsOf m (d.marksAt pos marked)).length = (marked.map Prod.fst).count m := by
  rw [← d.map_fst_marksAt pos, offsetsOf, List.length_map, List.count, List.countP_map,
    List.countP_eq_length_filter]
  rfl

/-- The offsets lie behind each other. -/
theorem le_of_mem_offsetsOf {m : Mark} {pos offset : Nat} {marked : List (Mark × List Char)}
    (h : offset ∈ offsetsOf m (d.marksAt pos marked)) : pos ≤ offset := by
  induction marked generalizing pos with
  | nil => cases h
  | cons m' marked ih =>
      rw [marksAt_cons, offsetsOf_cons] at h
      split at h
      · rcases List.mem_cons.1 h with rfl | h
        · exact Nat.le_refl _
        · have hle := ih h
          omega
      · have hle := ih h
        omega

/-! ### Pairing -/

/-- Pairs the offsets of starts and stops one by one. A start has to come before its
stop, and not before the stop of the tag before it, which is at `floor`. -/
def pairOffsets : (floor : Nat) → List Nat → List Nat → Option (List (Nat × Nat))
  | floor, start :: starts, stop :: stops =>
    if stop ≤ start ∨ start < floor then none
    else (pairOffsets stop starts stops).map ((start, stop) :: ·)
  | _, _, _ => some []

/-- The offsets of tags with texts behind them, if the first begins at `pos`. -/
def tagOffsets (d : Delimiters) : (pos : Nat) → List (List Char × List Char) → List (Nat × Nat)
  | _, [] => []
  | pos, (body, text) :: tags =>
    let stop := pos + utf8Len (d.textOf .start) + utf8Len body
    (pos, stop) :: d.tagOffsets (stop + utf8Len (d.textOf .stop) + utf8Len text) tags

theorem utf8Len_textOf_pos (d : Delimiters) (m : Mark) : 0 < utf8Len (d.textOf m) :=
  d.utf8Len_rawOf_pos (.bare m)

theorem pairOffsets_marksOf (d : Delimiters) {floor pos : Nat} (hfloor : floor ≤ pos)
    (tags : List (List Char × List Char)) :
    pairOffsets floor (offsetsOf .start (d.marksAt pos (marksOf tags)))
      (offsetsOf .stop (d.marksAt pos (marksOf tags))) = some (d.tagOffsets pos tags) := by
  induction tags generalizing floor pos with
  | nil => rfl
  | cons tag tags ih =>
      obtain ⟨body, text⟩ := tag
      have hpos := d.utf8Len_textOf_pos .start
      have hmarks : marksOf ((body, text) :: tags) =
          (.start, body) :: (.stop, text) :: marksOf tags := rfl
      have hok : ¬(pos + utf8Len (d.textOf .start) + utf8Len body ≤ pos ∨ pos < floor) := by omega
      simp only [hmarks, marksAt_cons, offsetsOf_cons, reduceCtorEq, if_true, if_false,
        pairOffsets, hok, tagOffsets]
      rw [ih (by omega), Option.map_some]

/-- Starts and stops that do not alternate cannot be paired: of two neighbours that
are on the same side, the offset of one is compared with that of a later one. -/
theorem pairOffsets_eq_none {floor pos : Nat} : {marked : List (Mark × List Char)} →
    (marked.map Prod.fst).count .start = (marked.map Prod.fst).count .stop →
    pairUp marked = none →
    pairOffsets floor (offsetsOf .start (d.marksAt pos marked))
      (offsetsOf .stop (d.marksAt pos marked)) = none
  | [], _, hpair => by cases hpair
  | [(.start, _)], hcount, _ => by simp at hcount
  | (.stop, text) :: rest, hcount, _ => by
    rw [← d.length_offsetsOf_marksAt .start pos, ← d.length_offsetsOf_marksAt .stop pos] at hcount
    simp only [marksAt_cons, offsetsOf_cons, reduceCtorEq, if_true, if_false] at hcount ⊢
    obtain ⟨start, starts, hstarts⟩ := List.exists_cons_of_length_eq_add_one hcount
    have hle : pos + utf8Len (d.textOf .stop) + utf8Len text ≤ start :=
      le_of_mem_offsetsOf (by rw [hstarts]; exact List.mem_cons_self)
    rw [hstarts, pairOffsets, if_pos (by omega)]
  | (.start, body) :: (.start, body') :: rest, hcount, _ => by
    rw [← d.length_offsetsOf_marksAt .start pos, ← d.length_offsetsOf_marksAt .stop pos] at hcount
    simp only [marksAt_cons, offsetsOf_cons, reduceCtorEq, if_true, if_false] at hcount ⊢
    obtain ⟨stop, stops, hstops⟩ := List.exists_cons_of_length_eq_add_one hcount.symm
    have hle := le_of_mem_offsetsOf (by rw [hstops]; exact List.mem_cons_self)
    have hpos := d.utf8Len_textOf_pos .start
    simp only [hstops, List.length_cons, Nat.add_right_cancel_iff] at hcount
    obtain ⟨stop', stops', rfl⟩ := List.exists_cons_of_length_eq_add_one hcount.symm
    -- the second start comes before the stop of the first
    have hsecond (starts : List Nat) :
        pairOffsets stop ((pos + utf8Len (d.textOf .start) + utf8Len body) :: starts)
          (stop' :: stops') = none := by
      rw [pairOffsets, if_pos (.inr (by omega))]
    rw [hstops, pairOffsets, hsecond, Option.map_none, ite_self]
  | (.start, body) :: (.stop, text) :: rest, hcount, hpair => by
    have hrest : pairUp rest = none := by simpa [pairUp] using hpair
    have hcount' : (rest.map Prod.fst).count .start = (rest.map Prod.fst).count .stop := by
      simpa using hcount
    simp only [marksAt_cons, offsetsOf_cons, reduceCtorEq, if_true, if_false]
    rw [pairOffsets, pairOffsets_eq_none hcount' hrest, Option.map_none, ite_self]

/-! ### Cutting -/

/-- Cuts out of a pattern what stands between byte offsets: the text from `pos` to
the first tag, and every body with the text behind it. -/
def cutAt? (d : Delimiters) (pattern : String) :
    (pos : Nat) → List (Nat × Nat) → Option (List Char × List (List Char × List Char))
  | pos, [] => (slice? pattern pos pattern.utf8ByteSize).map (·, [])
  | pos, (start, stop) :: tags => do
    let text ← slice? pattern pos start
    let body ← slice? pattern (start + utf8Len (d.textOf .start)) stop
    let (next, rest) ← d.cutAt? pattern (stop + utf8Len (d.textOf .stop)) tags
    return (text, (body, next) :: rest)

theorem cutAt?_tagOffsets {pattern : String} (before : List Char) {lead : List Char}
    {tags : List (List Char × List Char)}
    (h : pattern.toList = before ++ lead ++ d.joined (marksOf tags)) :
    d.cutAt? pattern (utf8Len before) (d.tagOffsets (utf8Len before + utf8Len lead) tags) =
      some (lead, tags) := by
  induction tags generalizing before lead with
  | nil =>
      have hsize : pattern.utf8ByteSize = utf8Len before + utf8Len lead := by
        rw [utf8ByteSize_eq, h]
        simp [marksOf, joined]
      rw [tagOffsets, cutAt?, hsize, slice?_eq_some _ _ _ h, Option.map_some]
  | cons tag tags ih =>
      obtain ⟨body, text⟩ := tag
      have hmarks : d.joined (marksOf ((body, text) :: tags)) =
          d.textOf .start ++ body ++ (d.textOf .stop ++ text ++ d.joined (marksOf tags)) := rfl
      rw [hmarks] at h
      have htext : slice? pattern (utf8Len before) (utf8Len before + utf8Len lead) = some lead :=
        slice?_eq_some _ _ _ h
      have hbody := slice?_eq_some (before ++ lead ++ d.textOf .start) body
        (d.textOf .stop ++ text ++ d.joined (marksOf tags))
        (show pattern.toList = _ by simpa using h)
      have hrest := ih (before ++ lead ++ d.textOf .start ++ body ++ d.textOf .stop)
        (show pattern.toList = _ ++ text ++ _ by simpa using h)
      simp only [String.utf8Len_append] at hbody hrest
      simp [tagOffsets, cutAt?, htext, hbody, hrest]

/-- Splits a pattern by the byte offsets of its delimiters. There is no result if a
cut falls outside the pattern or inside a character. -/
def splitAtOffsets? (d : Delimiters) (pattern : String) :
    Option (Except SplitError (List Chunk)) := do
  let marks ← d.marksFrom? pattern 0
  let starts := offsetsOf .start marks
  let stops := offsetsOf .stop marks
  if stops.length < starts.length then return .error (.unterminatedTag pattern)
  else if starts.length < stops.length then return .error (.missingStartTag pattern)
  else
    match pairOffsets 0 starts stops with
    | none => return .error (.tagsOutOfOrder pattern)
    | some offsets =>
      let (lead, tags) ← d.cutAt? pattern 0 offsets
      match d.tagChunks tags with
      | none => return .error (.emptyTag pattern)
      | some chunks => return .ok (d.textChunk lead ++ chunks)

/-- Splitting by offsets always comes to a result, and to that of splitting by
sections. -/
theorem splitAtOffsets?_eq (d : Delimiters) (pattern : String) :
    d.splitAtOffsets? pattern = some (d.split pattern) := by
  have hscan := d.scan_pieces pattern.toList
  have hmarks := marksFrom?_eq hscan [] rfl
  obtain ⟨hcs, -, -, -⟩ := hscan.sections
  rcases hsections : d.sections (d.pieces 0 pattern.toList) with ⟨lead, marked⟩
  rw [hsections] at hmarks hcs
  simp only [String.utf8Len_nil, Nat.zero_add] at hmarks
  rw [splitAtOffsets?, split, hsections, hmarks]
  simp only [Option.bind_eq_bind, Option.bind_some, length_offsetsOf_marksAt]
  split
  · rfl
  · rename_i hstops
    split
    · rfl
    · rename_i hstarts
      cases hpair : pairUp marked with
      | none =>
          rw [pairOffsets_eq_none (by omega) hpair]
          rfl
      | some tags =>
          rw [pairUp_eq_some_iff] at hpair
          subst hpair
          have hcut := cutAt?_tagOffsets [] hcs
          simp only [String.utf8Len_nil, Nat.zero_add] at hcut
          rw [d.pairOffsets_marksOf (Nat.zero_le _)]
          simp only [hcut, Option.bind_some]
          cases d.tagChunks tags <;> rfl

end Delimiters

end Stencil
