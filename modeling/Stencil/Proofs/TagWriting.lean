import Stencil.Proofs.Segments

/-!
Writing tags. A name is written as a tag by putting it between the delimiters. The
scan has to find both of them again: the start must not be taken for an escaped stop,
and the stop neither for an escaped start nor for a start.

Main statement: with delimiters that meet these three conditions every plain name can
be written as a tag; where one of them fails, no plain name can.
-/

namespace Stencil

namespace Delimiters

/-- The delimiters are found where they stand by themselves. -/
structure AreFound (d : Delimiters) : Prop where
  start_ne_escaped : ¬d.HasEscaped .stop d.start.toList
  stop_ne_escaped : ¬d.HasEscaped .start d.stop.toList
  stop_ne_start : ¬d.start.toList <+: d.stop.toList

/-- The character stands in none of the delimiters, nor in the escape. -/
def IsPlain (d : Delimiters) (c : Char) : Prop :=
  c ∉ d.start.toList ∧ c ∉ d.stop.toList ∧ c ∉ d.escape.toList

instance (d : Delimiters) : DecidablePred d.IsPlain := fun c =>
  inferInstanceAs
    (Decidable (c ∉ d.start.toList ∧ c ∉ d.stop.toList ∧ c ∉ d.escape.toList))

variable {d : Delimiters} {c : Char} {cs name : List Char} {m : Mark}

theorem IsPlain.not_mem_textOf (h : d.IsPlain c) (m : Mark) : c ∉ d.textOf m := by
  cases m with
  | start => exact h.1
  | stop => exact h.2.1

/-- What has no plain character in it ends before the first of them. -/
theorem prefix_of_prefix_append {xs ys zs : List Char} (h : xs <+: ys ++ c :: zs) (hc : c ∉ xs) :
    xs <+: ys := by
  have hfront : ys ++ [c] <+: ys ++ c :: zs := ⟨zs, by simp⟩
  rcases List.prefix_or_prefix_of_prefix h hfront with hle | hge
  · rcases List.prefix_concat_iff.1 hle with rfl | hle
    · simp at hc
    · exact hle
  · exact absurd (hge.subset (by simp)) hc

theorem HasEscaped.of_append (h : d.HasEscaped m (cs ++ c :: name)) (hc : d.IsPlain c) :
    d.HasEscaped m cs := by
  refine ⟨h.1, prefix_of_prefix_append h.2 ?_⟩
  rw [List.mem_append, not_or]
  exact ⟨hc.2.2, hc.not_mem_textOf m⟩

theorem not_hasEscaped_textOf (d : Delimiters) (m : Mark) : ¬d.HasEscaped m (d.textOf m) := by
  rintro ⟨hescape, hfront⟩
  have hle := hfront.length_le
  rw [List.length_append] at hle
  have hnil : d.escape.toList = [] := List.length_eq_zero_iff.1 (by omega)
  exact hescape (String.toList_eq_nil_iff.1 hnil)

theorem not_prefix_nil (d : Delimiters) (m : Mark) : ¬d.textOf m <+: [] := by
  intro h
  have hpos := d.length_textOf_pos m
  simp [List.prefix_nil.1 h] at hpos

/-- A plain character is read by itself, whatever follows it. -/
theorem leads_char (hc : d.IsPlain c) (rest : List Char) : d.Leads (.char c) (c :: rest) := by
  refine ⟨?_, ?_, rfl⟩
  · intro m h
    have hnil : d.HasEscaped m [] := HasEscaped.of_append h hc
    have hend : d.textOf m = [] := (List.append_eq_nil_iff.1 (List.prefix_nil.1 hnil.2)).2
    exact d.not_prefix_nil m (hend ▸ List.prefix_rfl)
  · intro m h
    have hfront : d.textOf m <+: [] ++ c :: rest := h
    exact d.not_prefix_nil m (prefix_of_prefix_append hfront (hc.not_mem_textOf m))

theorem pieces_append (h : ∀ c ∈ name, d.IsPlain c) (rest : List Char) :
    d.pieces 0 (name ++ rest) = name.map .char ++ d.pieces 0 rest := by
  induction name with
  | nil => rfl
  | cons c name ih =>
      rw [List.forall_mem_cons] at h
      have hpieces : d.pieces 0 (c :: (name ++ rest)) = .char c :: d.pieces 0 (name ++ rest) :=
        pieces_of_leads (leads_char h.1 (name ++ rest))
      rw [List.cons_append, hpieces, ih h.2]
      rfl

theorem leads_of_pieces {p : Piece} {ps : List Piece} (h : d.pieces 0 cs = p :: ps) :
    d.Leads p cs := by
  cases cs with
  | nil => cases h
  | cons c cs =>
      rw [pieces, List.cons.injEq] at h
      exact h.1 ▸ d.leads_pieceAt c cs

theorem leads_start_iff (hc : d.IsPlain c) :
    d.Leads (.bare .start) (d.textOf .start ++ c :: cs) ↔
      ¬d.HasEscaped .stop (d.textOf .start) := by
  constructor
  · rintro ⟨hescaped, -⟩ ⟨hescape, hfront⟩
    exact hescaped .stop ⟨hescape, hfront.trans (List.prefix_append _ _)⟩
  · intro hstop
    refine ⟨?_, List.prefix_append _ _⟩
    intro m h
    cases m with
    | start => exact d.not_hasEscaped_textOf .start (h.of_append hc)
    | stop => exact hstop (h.of_append hc)

theorem leads_stop_iff :
    d.Leads (.bare .stop) (d.textOf .stop) ↔
      ¬d.HasEscaped .start (d.textOf .stop) ∧ ¬d.HasBare .start (d.textOf .stop) := by
  constructor
  · rintro ⟨hescaped, hbare, -⟩
    exact ⟨hescaped .start, hbare⟩
  · rintro ⟨hescaped, hbare⟩
    refine ⟨?_, hbare, List.prefix_rfl⟩
    intro m
    cases m with
    | start => exact hescaped
    | stop => exact d.not_hasEscaped_textOf .stop

/-- The scan of a plain name between the delimiters finds them if they can be found
where they stand by themselves. -/
theorem pieces_tag_iff (hne : name ≠ []) (h : ∀ c ∈ name, d.IsPlain c) :
    d.pieces 0 (d.textOf .start ++ (name ++ d.textOf .stop)) =
        .bare .start :: (name.map .char ++ [.bare .stop]) ↔ d.AreFound := by
  have hlead : d.Leads (.bare .start) (d.textOf .start ++ (name ++ d.textOf .stop)) ↔
      ¬d.HasEscaped .stop (d.textOf .start) := by
    obtain ⟨c, name, rfl⟩ := List.exists_cons_of_ne_nil hne
    exact leads_start_iff (h c List.mem_cons_self)
  have hrest (hstart : d.Leads (.bare .start) (d.textOf .start ++ (name ++ d.textOf .stop))) :
      d.pieces 0 (d.textOf .start ++ (name ++ d.textOf .stop)) =
        .bare .start :: (name.map .char ++ d.pieces 0 (d.textOf .stop)) := by
    rw [← pieces_append h]
    exact pieces_of_leads hstart
  constructor
  · intro hpieces
    have hstart := leads_of_pieces hpieces
    rw [hrest hstart, List.cons.injEq, List.append_cancel_left_eq] at hpieces
    obtain ⟨hescaped, hbare⟩ := leads_stop_iff.1 (leads_of_pieces hpieces.2)
    exact ⟨hlead.1 hstart, hescaped, hbare⟩
  · rintro ⟨hstart, hescaped, hbare⟩
    have hstop : d.Leads (.bare .stop) (d.textOf .stop ++ []) := by
      rw [List.append_nil]
      exact leads_stop_iff.2 ⟨hescaped, hbare⟩
    have hpieces := pieces_of_leads hstop
    rw [rawOf, List.append_nil] at hpieces
    rw [hrest (hlead.2 hstart), hpieces]
    rfl

theorem sections_chars (d : Delimiters) (cs : List Char) (ps : List Piece) :
    d.sections (cs.map .char ++ ps) = (cs ++ (d.sections ps).1, (d.sections ps).2) := by
  induction cs with
  | nil => rfl
  | cons c cs ih => rw [List.map_cons, List.cons_append, sections_char, ih, List.cons_append]

theorem pieces_plain (h : ∀ c ∈ name, d.IsPlain c) : d.pieces 0 name = name.map .char := by
  simpa [pieces] using pieces_append h []

theorem unescape_plain (h : ∀ c ∈ name, d.IsPlain c) : d.unescape name = name := by
  have hraw : d.IsRaw name := by
    rw [IsRaw, pieces_plain h, List.forall_mem_map]
    exact fun _ _ => rfl
  rw [hraw.unescape_eq, pieces_plain h, List.flatMap_map]
  exact List.flatMap_singleton' name

theorem textChunk_eq_nil_iff {raw : List Char} : d.textChunk raw = [] ↔ raw = [] := by
  cases raw <;> simp [textChunk]

/-- Chunks that are a single tag come from one body with nothing around it. -/
theorem eq_singleton_of_chunks {lead : List Char} {tags : List (List Char × List Char)} {tag : Tag}
    (h : d.textChunk lead ++ d.tagsRead tags = [.tag tag]) :
    lead = [] ∧ ∃ body, tags = [(body, [])] := by
  have hlead : lead = [] := by
    cases lead with
    | nil => rfl
    | cons c lead => simp [textChunk] at h
  subst hlead
  refine ⟨rfl, ?_⟩
  cases tags with
  | nil => cases h
  | cons first tags =>
      obtain ⟨body, text⟩ := first
      rw [textChunk_eq_nil_iff.2 rfl, List.nil_append, tagsRead, List.flatMap_cons,
        List.cons_append, List.cons.injEq, List.append_eq_nil_iff, textChunk_eq_nil_iff] at h
      obtain ⟨-, rfl, hrest⟩ := h
      cases tags with
      | nil => exact ⟨body, rfl⟩
      | cons next tags => cases hrest

/-- A plain name between the delimiters is read as the tag of this name exactly if
the delimiters can be found. -/
theorem split_tag_eq_ok_iff {text : String} (hne : text ≠ "") (hcolon : ':' ∉ text.toList)
    (h : ∀ c ∈ text.toList, d.IsPlain c) :
    d.split (d.start ++ text ++ d.stop) = .ok [.tag ⟨text, none⟩] ↔ d.AreFound := by
  have hpattern : (d.start ++ text ++ d.stop).toList =
      d.textOf .start ++ (text.toList ++ d.textOf .stop) := by
    simp [textOf]
  rw [← pieces_tag_iff (by simpa using hne) h, split_eq_ok_iff, hpattern]
  constructor
  · rintro ⟨tags, rest, htags, hrest, hchunks⟩
    obtain ⟨hcs, hps, -, -⟩ :=
      (d.scan_pieces (d.textOf .start ++ (text.toList ++ d.textOf .stop))).sections
    rw [pairUp_eq_some_iff] at htags
    rw [tagChunks_eq] at hrest
    split at hrest
    · cases hrest
      obtain ⟨hlead, body, rfl⟩ := eq_singleton_of_chunks hchunks.symm
      rw [hlead, htags] at hcs hps
      have hbody : text.toList = body := by simpa [joined, marksOf] using hcs
      rw [hps, ← hbody]
      simp [joinedPieces, marksOf, pieces, pieces_plain h]
    · cases hrest
  · intro hpieces
    have hsections : d.sections (d.pieces 0 (d.textOf .start ++ (text.toList ++ d.textOf .stop))) =
        ([], [(.start, text.toList), (.stop, [])]) := by
      rw [hpieces, sections_bare, sections_chars]
      simp [sections]
    rw [hsections]
    refine ⟨[(text.toList, [])], [.tag ⟨text, none⟩], rfl, ?_, rfl⟩
    have hread : Tag.read text.toList = ⟨text, none⟩ := by
      rw [Tag.read_of_not_mem hcolon, String.ofList_toList]
    simp [tagChunks_eq, unescape_plain h, hread, hne, tagsRead, textChunk]

/-- With accepted delimiters that can be found, every plain name can be written as a
tag. -/
theorem split_start_name_stop {start stop escape name : String}
    (hd : make start stop escape = .ok d) (hstop : ¬start.toList <+: stop.toList)
    (hescape : escape ≠ "" → ¬(escape ++ stop).toList <+: start.toList ∧
      ¬(escape ++ start).toList <+: stop.toList)
    (hne : name ≠ "")
    (hname : ∀ c ∈ name.toList,
      c ≠ ':' ∧ c ∉ start.toList ∧ c ∉ stop.toList ∧ c ∉ escape.toList) :
    d.split (start ++ name ++ stop) = .ok [.tag ⟨name, none⟩] := by
  obtain ⟨rfl, rfl, rfl⟩ := make_eq_ok_iff.1 hd
  have hcolon : ':' ∉ name.toList := fun hmem => (hname ':' hmem).1 rfl
  refine (split_tag_eq_ok_iff hne hcolon fun c hc => (hname c hc).2).2 ⟨?_, ?_, hstop⟩
  · rintro ⟨hx, hfront⟩
    exact (hescape hx).1 (by rwa [String.toList_append])
  · rintro ⟨hx, hfront⟩
    exact (hescape hx).2 (by rwa [String.toList_append])

/-- The stop is the beginning of the start, and the escape is its end. -/
def overlapping : Delimiters := ⟨"$<", "$", "<", by decide, by decide, by decide⟩

theorem split_start_name_stop_overlapping :
    make "$<" "$" "<" = .ok overlapping ∧
      overlapping.split ("$<" ++ "é 1" ++ "$") = .ok [.tag ⟨"é 1", none⟩] := by
  have hmake : make "$<" "$" "<" = .ok overlapping := by decide
  refine ⟨hmake, split_start_name_stop hmake (by decide) (fun _ => ⟨by decide, by decide⟩)
    (by decide) ?_⟩
  intro c hc
  have hchars : c = 'é' ∨ c = ' ' ∨ c = '1' := by simpa using hc
  rcases hchars with rfl | rfl | rfl <;> decide

/-- Accepted delimiters with which the tag of the plain name `a` cannot be written: the
stop begins with the start, the start is the escaped stop, the stop is the escaped start. -/
theorem split_start_name_stop_misread :
    (∃ d, make "<" "<<" "\\" = .ok d ∧ d.IsPlain 'a' ∧
      d.split ("<" ++ "a" ++ "<<") = .error (.unterminatedTag "<a<<")) ∧
    (∃ d, make "\\>" ">" "\\" = .ok d ∧ d.IsPlain 'a' ∧
      d.split ("\\>" ++ "a" ++ ">") = .error (.missingStartTag "\\>a>")) ∧
    ∃ d, make "<" "\\<" "\\" = .ok d ∧ d.IsPlain 'a' ∧
      d.split ("<" ++ "a" ++ "\\<") = .error (.unterminatedTag "<a\\<") := by
  refine ⟨⟨⟨"<", "<<", "\\", by decide, by decide, by decide⟩, ?_, ?_, ?_⟩,
    ⟨⟨"\\>", ">", "\\", by decide, by decide, by decide⟩, ?_, ?_, ?_⟩,
    ⟨⟨"<", "\\<", "\\", by decide, by decide, by decide⟩, ?_, ?_, ?_⟩⟩ <;> decide

end Delimiters

end Stencil
