import Stencil.Proofs.ByteOffsets

/-!
What becomes of a pattern. The verdict on a pattern is read off its scan: off the
bare delimiters in it and their order, and off the bodies of its tags.

Main statement: for every pattern and all delimiters it is said exactly when the
pattern is split and when it is refused for which cause.
-/

namespace Stencil

/-- The bare delimiters of a scan. -/
def events (ps : List Piece) : List Mark :=
  ps.filterMap Piece.mark?

/-- Starts and stops take turns: a start comes first and a stop last. -/
def Alternates (marks : List Mark) : Prop :=
  ∃ n, marks = (List.replicate n [Mark.start, Mark.stop]).flatten

theorem Alternates.count_eq {marks : List Mark} (h : Alternates marks) :
    marks.count .start = marks.count .stop := by
  obtain ⟨n, rfl⟩ := h
  simp [List.count_flatten]

/-- The body has no name: it is empty, or its first colon is its last character. -/
def Nameless (body : List Char) : Prop :=
  body = [] ∨ ∃ label, ':' ∉ label ∧ body = label ++ [':']

theorem Tag.name_read_eq_empty_iff {body : List Char} :
    (Tag.read body).name = "" ↔ Nameless body := by
  constructor
  · intro h
    by_cases hcolon : ':' ∈ body
    · obtain ⟨label, name, rfl, hlabel⟩ := List.eq_append_cons_of_mem hcolon
      rw [read_append hlabel, String.ofList_eq_empty_iff] at h
      exact .inr ⟨label, hlabel, by rw [h]⟩
    · rw [read_of_not_mem hcolon, String.ofList_eq_empty_iff] at h
      exact .inl h
  · rintro (rfl | ⟨label, hlabel, rfl⟩)
    · rfl
    · rw [read_append hlabel]

namespace Delimiters

/-- The raw texts behind the bare starts of a scan, each up to the next bare
delimiter. -/
def bodies (d : Delimiters) : List Piece → List (List Char)
  | [] => []
  | .bare .start :: ps => (ps.takeWhile (·.mark?.isNone)).flatMap d.rawOf :: d.bodies ps
  | _ :: ps => d.bodies ps

theorem map_fst_sections (d : Delimiters) (ps : List Piece) :
    (d.sections ps).2.map Prod.fst = events ps := by
  induction ps with
  | nil => rfl
  | cons p ps ih =>
      cases p with
      | bare m => exact congrArg (m :: ·) ih
      | escaped m => exact ih
      | char c => exact ih

theorem fst_sections (d : Delimiters) (ps : List Piece) :
    (d.sections ps).1 = (ps.takeWhile (·.mark?.isNone)).flatMap d.rawOf := by
  induction ps with
  | nil => rfl
  | cons p ps ih =>
      cases p with
      | bare m => simp [sections_bare, Piece.mark?]
      | escaped m => simp [sections_escaped, Piece.mark?, ih]
      | char c => simp [sections_char, Piece.mark?, ih, rawOf]

theorem bodies_eq (d : Delimiters) (ps : List Piece) :
    d.bodies ps = ((d.sections ps).2.filter (·.1 = .start)).map Prod.snd := by
  induction ps with
  | nil => rfl
  | cons p ps ih =>
      cases p with
      | escaped m => exact ih
      | char c => exact ih
      | bare m =>
          cases m with
          | start => simp [sections_bare, bodies, ih, ← fst_sections]
          | stop => simpa [sections_bare, bodies] using ih

theorem alternates_iff {marked : List (Mark × List Char)} :
    Alternates (marked.map Prod.fst) ↔ ∃ tags, marked = marksOf tags := by
  constructor
  · rintro ⟨n, hn⟩
    induction n generalizing marked with
    | zero => exact ⟨[], List.map_eq_nil_iff.1 hn⟩
    | succ n ih =>
        rw [List.replicate_succ, List.flatten_cons, List.cons_append, List.cons_append] at hn
        match marked, hn with
        | (.start, body) :: (.stop, text) :: rest, hn =>
          obtain ⟨tags, rfl⟩ := ih (by simpa using hn)
          exact ⟨(body, text) :: tags, rfl⟩
  · rintro ⟨tags, rfl⟩
    refine ⟨tags.length, ?_⟩
    induction tags with
    | nil => rfl
    | cons tag tags ih => exact congrArg (Mark.start :: Mark.stop :: ·) ih

theorem bodies_marksOf (tags : List (List Char × List Char)) :
    ((marksOf tags).filter (·.1 = .start)).map Prod.snd = tags.map Prod.fst := by
  induction tags with
  | nil => rfl
  | cons tag tags ih => exact congrArg (tag.1 :: ·) ih

section Verdict

variable {d : Delimiters} {pattern : String} {ps : List Piece}

theorem split_of_count_lt (h : d.Scan pattern.toList ps)
    (hcount : (events ps).count .stop < (events ps).count .start) :
    d.split pattern = .error (.unterminatedTag pattern) := by
  rw [← d.map_fst_sections, scan_iff.1 h] at hcount
  rw [split]
  exact if_pos hcount

theorem split_of_lt_count (h : d.Scan pattern.toList ps)
    (hcount : (events ps).count .start < (events ps).count .stop) :
    d.split pattern = .error (.missingStartTag pattern) := by
  rw [← d.map_fst_sections, scan_iff.1 h] at hcount
  rw [split]
  exact (if_neg (Nat.lt_asymm hcount)).trans (if_pos hcount)

/-- Tags that do not take turns are out of order. -/
theorem split_of_not_alternates (h : d.Scan pattern.toList ps)
    (hcount : (events ps).count .start = (events ps).count .stop)
    (halternates : ¬Alternates (events ps)) :
    d.split pattern = .error (.tagsOutOfOrder pattern) := by
  rw [← d.map_fst_sections, scan_iff.1 h] at hcount halternates
  rcases hsections : d.sections (d.pieces 0 pattern.toList) with ⟨lead, marked⟩
  rw [hsections] at hcount halternates
  cases hpair : pairUp marked with
  | none => simp [split, hsections, hcount, hpair]
  | some tags =>
      exact absurd (alternates_iff.2 ⟨tags, pairUp_eq_some_iff.1 hpair⟩) halternates

theorem countP_textChunk (d : Delimiters) (raw : List Char) :
    (d.textChunk raw).countP (· matches .tag _) = 0 := by
  unfold textChunk
  split <;> rfl

theorem countP_tagsRead (d : Delimiters) (tags : List (List Char × List Char)) :
    (d.tagsRead tags).countP (· matches .tag _) = tags.length := by
  induction tags with
  | nil => rfl
  | cons tag tags ih =>
      rw [tagsRead] at ih
      simp [tagsRead, countP_textChunk, ih]

/-- Where the delimiters take turns, the bodies of the tags decide. -/
theorem split_of_alternates (h : d.Scan pattern.toList ps) (halternates : Alternates (events ps)) :
    ((∃ body ∈ d.bodies ps, Nameless (d.unescape body)) →
      d.split pattern = .error (.emptyTag pattern)) ∧
    ((∀ body ∈ d.bodies ps, ¬Nameless (d.unescape body)) →
      ∃ chunks, d.split pattern = .ok chunks ∧
        chunks.countP (· matches .tag _) = (events ps).count .start) := by
  cases scan_iff.1 h
  rw [← d.map_fst_sections] at halternates ⊢
  rw [d.bodies_eq]
  rcases hsections : d.sections (d.pieces 0 pattern.toList) with ⟨lead, marked⟩
  rw [hsections] at halternates
  have hcount := halternates.count_eq
  obtain ⟨tags, rfl⟩ := alternates_iff.1 halternates
  rw [split, hsections, bodies_marksOf]
  simp only [hcount, Nat.lt_irrefl, if_false, pairUp_eq_some_iff.2 rfl, tagChunks_eq, ne_eq,
    ← Tag.name_read_eq_empty_iff, List.forall_mem_map]
  constructor
  · rintro ⟨body, hbody, hnameless⟩
    obtain ⟨tag, htag, rfl⟩ := List.mem_map.1 hbody
    rw [if_neg fun hnames => hnames tag htag hnameless]
  · intro hnames
    rw [if_pos hnames]
    refine ⟨_, rfl, ?_⟩
    rw [List.countP_append, countP_textChunk, countP_tagsRead, Nat.zero_add, ← hcount]
    exact (count_marksOf tags .start).symm

/-- What becomes of a pattern is decided by its one scan. No cut falls outside the
pattern or inside a character. Starts and stops are counted first; then they have to
take turns; then every tag has to have a name; and every error carries the pattern. -/
theorem split_verdict (d : Delimiters) (pattern : String) :
    d.splitAtOffsets? pattern = some (d.split pattern) ∧
    ∃ ps, (∀ qs, d.Scan pattern.toList qs ↔ qs = ps) ∧
      (d.split pattern = .error (.unterminatedTag pattern) ↔
        (events ps).count .stop < (events ps).count .start) ∧
      (d.split pattern = .error (.missingStartTag pattern) ↔
        (events ps).count .start < (events ps).count .stop) ∧
      (d.split pattern = .error (.tagsOutOfOrder pattern) ↔
        (events ps).count .start = (events ps).count .stop ∧ ¬Alternates (events ps)) ∧
      (d.split pattern = .error (.emptyTag pattern) ↔
        Alternates (events ps) ∧ ∃ body ∈ d.bodies ps, Nameless (d.unescape body)) ∧
      ((∃ chunks, d.split pattern = .ok chunks ∧
          chunks.countP (· matches .tag _) = (events ps).count .start) ↔
        Alternates (events ps) ∧ ∀ body ∈ d.bodies ps, ¬Nameless (d.unescape body)) ∧
      ∀ e, d.split pattern = .error e → e.pattern = pattern := by
  refine ⟨d.splitAtOffsets?_eq pattern, d.pieces 0 pattern.toList, fun qs => scan_iff, ?_⟩
  have hscan := d.scan_pieces pattern.toList
  generalize d.pieces 0 pattern.toList = ps at hscan ⊢
  by_cases halternates : Alternates (events ps)
  · have hcount := halternates.count_eq
    obtain ⟨hempty, hok⟩ := split_of_alternates hscan halternates
    by_cases hnameless : ∃ body ∈ d.bodies ps, Nameless (d.unescape body)
    · have hnames : ¬∀ body ∈ d.bodies ps, ¬Nameless (d.unescape body) :=
        fun h => hnameless.elim fun body hbody => h body hbody.1 hbody.2
      simp only [hempty hnameless, halternates, hnameless, hnames, hcount]
      simp [SplitError.pattern]
    · have hnames : ∀ body ∈ d.bodies ps, ¬Nameless (d.unescape body) :=
        fun body hbody h => hnameless ⟨body, hbody, h⟩
      obtain ⟨chunks, hsplit, hchunks⟩ := hok hnames
      simp only [hsplit, halternates, hnameless, hcount]
      simpa [hchunks, hcount] using hnames
  · rcases Nat.lt_trichotomy ((events ps).count .start) ((events ps).count .stop) with
      hlt | heq | hgt
    · simp [split_of_lt_count hscan hlt, halternates, hlt, hlt.ne, hlt.le, SplitError.pattern]
    · simp [split_of_not_alternates hscan heq halternates, halternates, heq, SplitError.pattern]
    · simp [split_of_count_lt hscan hgt, halternates, hgt, hgt.ne', hgt.le, SplitError.pattern]

end Verdict

end Delimiters

end Stencil
