import Mathlib.Data.List.Chain
import Mathlib.Data.List.TakeWhile
import Stencil.Split

/-!
Splitting undoes writing. With single characters as delimiters, a list of chunks
is written by putting the escape before every delimiter in a text or in the body
of a tag, and the delimiters around the body of a tag.

Main statement: a pattern is split into some chunks exactly if the chunks are
well formed and the pattern is how they are written.
-/

namespace Stencil

/-! ### Tags -/

namespace Tag

theorem read_of_not_mem {body : List Char} (h : ':' ∉ body) :
    Tag.read body = ⟨String.ofList body, none⟩ := by
  have hdrop : body.dropWhile (· ≠ ':') = [] := by
    rw [List.dropWhile_eq_nil_iff]
    intro c hc
    exact decide_eq_true fun hcolon => h (hcolon ▸ hc)
  rw [Tag.read, hdrop]

theorem read_append {label : List Char} (h : ':' ∉ label) (name : List Char) :
    Tag.read (label ++ ':' :: name) = ⟨String.ofList name, some (String.ofList label)⟩ := by
  have hall : ∀ c ∈ label, decide (c ≠ ':') = true := by
    intro c hc
    exact decide_eq_true fun hcolon => h (hcolon ▸ hc)
  have hdrop : (label ++ ':' :: name).dropWhile (· ≠ ':') = ':' :: name := by
    rw [List.dropWhile_append_of_pos hall]
    rfl
  have htake : (label ++ ':' :: name).takeWhile (· ≠ ':') = label := by
    rw [List.takeWhile_append_of_pos hall]
    simp
  rw [Tag.read, hdrop, htake]

/-- The colon divides label and name: the first one does, or there is none. -/
def Divided (tag : Tag) : Prop :=
  match tag.label with
  | some label => ':' ∉ label.toList
  | none => ':' ∉ tag.name.toList

theorem toList_render (tag : Tag) :
    tag.render.toList =
      (tag.label.elim [] fun label => label.toList ++ [':']) ++ tag.name.toList := by
  cases h : tag.label <;> simp [Tag.render, h]

theorem read_render {tag : Tag} (h : tag.Divided) : Tag.read tag.render.toList = tag := by
  obtain ⟨name, label⟩ := tag
  cases label with
  | none => rw [toList_render, Option.elim_none, List.nil_append, read_of_not_mem h,
      String.ofList_toList]
  | some label =>
      rw [toList_render, Option.elim_some, List.append_assoc, List.singleton_append,
        read_append h, String.ofList_toList, String.ofList_toList]

/-- Every body is that of the tag read from it, with its first colon as the one
that divides. -/
theorem read_spec (body : List Char) :
    (Tag.read body).Divided ∧ (Tag.read body).render.toList = body := by
  by_cases h : ':' ∈ body
  · obtain ⟨label, name, rfl, hlabel⟩ := List.eq_append_cons_of_mem h
    rw [read_append hlabel, toList_render]
    simpa [Divided] using hlabel
  · rw [read_of_not_mem h, toList_render]
    simpa [Divided] using h

/-- A body ends as the name in it does. -/
theorem getLast?_render {tag : Tag} (h : tag.name ≠ "") :
    tag.render.toList.getLast? = tag.name.toList.getLast? := by
  have hname : tag.name.toList ≠ [] := by simpa using h
  rw [toList_render, List.getLast?_append, List.getLast?_eq_some_getLast hname, Option.some_or]

end Tag

/-! ### Scanning -/

/-- The delimiter for a side of a tag, when the delimiters are the characters `s`
and `e`. -/
def Mark.char (s e : Char) : Mark → Char
  | .start => s
  | .stop => e

@[simp] theorem Mark.char_start (s e : Char) : Mark.start.char s e = s := rfl

@[simp] theorem Mark.char_stop (s e : Char) : Mark.stop.char s e = e := rfl

namespace Delimiters

theorem pieces_eq_drop (d : Delimiters) (n : Nat) (cs : List Char) :
    d.pieces n cs = d.pieces 0 (cs.drop n) := by
  induction cs generalizing n with
  | nil => simp [pieces]
  | cons c cs ih =>
      cases n with
      | zero => rfl
      | succ n => rw [pieces, ih, List.drop_succ_cons]

theorem unescapeFrom_eq_drop (d : Delimiters) (n : Nat) (cs : List Char) :
    d.unescapeFrom n cs = d.unescape (cs.drop n) := by
  induction cs generalizing n with
  | nil => simp [unescapeFrom, unescape]
  | cons c cs ih =>
      cases n with
      | zero => rfl
      | succ n => rw [unescapeFrom, ih, List.drop_succ_cons]

theorem sections_escaped (d : Delimiters) (m : Mark) (ps : List Piece) :
    d.sections (.escaped m :: ps) =
      (d.rawOf (.escaped m) ++ (d.sections ps).1, (d.sections ps).2) :=
  rfl

theorem sections_bare (d : Delimiters) (m : Mark) (ps : List Piece) :
    d.sections (.bare m :: ps) = ([], (m, (d.sections ps).1) :: (d.sections ps).2) :=
  rfl

theorem sections_char (d : Delimiters) (c : Char) (ps : List Piece) :
    d.sections (.char c :: ps) = (c :: (d.sections ps).1, (d.sections ps).2) :=
  rfl

/-- The delimiters and the escape are three different characters. -/
structure IsSingle (d : Delimiters) (s e x : Char) : Prop where
  start : d.start = String.singleton s
  stop : d.stop = String.singleton e
  escape : d.escape = String.singleton x
  start_ne : s ≠ x
  stop_ne : e ≠ x

namespace IsSingle

variable {d : Delimiters} {s e x : Char} (h : d.IsSingle s e x)

include h

theorem start_ne_stop : s ≠ e := by
  intro heq
  apply d.start_ne_stop
  rw [h.start, h.stop, heq]

theorem textOf_eq (m : Mark) : d.textOf m = [m.char s e] := by
  cases m with
  | start => simp [textOf, h.start]
  | stop => simp [textOf, h.stop]

theorem char_ne (m : Mark) : m.char s e ≠ x := by
  cases m with
  | start => exact h.start_ne
  | stop => exact h.stop_ne

theorem escapedAt_eq (c : Char) (cs : List Char) :
    d.escapedAt (c :: cs) =
      if c = x ∧ cs.head? = some s then some .start
      else if c = x ∧ cs.head? = some e then some .stop
      else none := by
  cases cs with
  | nil => simp [escapedAt, h.escape, h.textOf_eq]
  | cons c' cs =>
      simp [escapedAt, h.escape, h.textOf_eq, @eq_comm _ x c, @eq_comm _ s c', @eq_comm _ e c']

theorem escapedAt_escape (m : Mark) (cs : List Char) :
    d.escapedAt (x :: m.char s e :: cs) = some m := by
  have hne := h.start_ne_stop
  cases m with
  | start => simp [h.escapedAt_eq]
  | stop => simp [h.escapedAt_eq, hne.symm]

theorem escapedAt_of_ne {c : Char} {cs : List Char}
    (hc : c = x → ∀ m : Mark, cs.head? ≠ some (m.char s e)) : d.escapedAt (c :: cs) = none := by
  have hstart : ¬(c = x ∧ cs.head? = some s) := fun hx => hc hx.1 .start hx.2
  have hstop : ¬(c = x ∧ cs.head? = some e) := fun hx => hc hx.1 .stop hx.2
  rw [h.escapedAt_eq, if_neg hstart, if_neg hstop]

theorem bareAt_eq (c : Char) (cs : List Char) :
    d.bareAt (c :: cs) =
      if c = s then some .start else if c = e then some .stop else none := by
  simp [bareAt, h.textOf_eq, @eq_comm _ s c, @eq_comm _ e c]

theorem pieces_escape (m : Mark) (cs : List Char) :
    d.pieces 0 (x :: m.char s e :: cs) = .escaped m :: d.pieces 0 cs := by
  have hpiece : d.pieceAt x (m.char s e :: cs) = .escaped m := by
    rw [pieceAt, h.escapedAt_escape]
  rw [pieces, hpiece, pieces_eq_drop]
  simp [rawOf, h.escape, h.textOf_eq]

theorem pieces_mark (m : Mark) (cs : List Char) :
    d.pieces 0 (m.char s e :: cs) = .bare m :: d.pieces 0 cs := by
  have hpiece : d.pieceAt (m.char s e) cs = .bare m := by
    rw [pieceAt, h.escapedAt_of_ne fun hx => absurd hx (h.char_ne m), h.bareAt_eq]
    cases m with
    | start => simp
    | stop => simp [h.start_ne_stop.symm]
  rw [pieces, hpiece, pieces_eq_drop]
  simp [rawOf, h.textOf_eq]

theorem pieces_char {c : Char} {cs : List Char} (hc : ∀ m : Mark, c ≠ m.char s e)
    (hx : c = x → ∀ m : Mark, cs.head? ≠ some (m.char s e)) :
    d.pieces 0 (c :: cs) = .char c :: d.pieces 0 cs := by
  have hpiece : d.pieceAt c cs = .char c := by
    have hstart : c ≠ s := hc .start
    have hstop : c ≠ e := hc .stop
    rw [pieceAt, h.escapedAt_of_ne hx, h.bareAt_eq, if_neg hstart, if_neg hstop]
  rw [pieces, hpiece, pieces_eq_drop]
  simp [rawOf]

end IsSingle

/-! ### Words -/

/-- A word as it is written: with the escape before every delimiter in it. -/
def protect (s e x : Char) (word : List Char) : List Char :=
  word.flatMap fun c => if c = s ∨ c = e then [x, c] else [c]

section Protect

variable {s e x : Char}

@[simp] theorem protect_nil : protect s e x [] = [] := rfl

theorem protect_cons (c : Char) (word : List Char) :
    protect s e x (c :: word) =
      (if c = s ∨ c = e then [x, c] else [c]) ++ protect s e x word :=
  rfl

theorem protect_mark (m : Mark) (word : List Char) :
    protect s e x (m.char s e :: word) = x :: m.char s e :: protect s e x word := by
  cases m <;> simp [protect_cons]

theorem protect_char {c : Char} (hc : ∀ m : Mark, c ≠ m.char s e) (word : List Char) :
    protect s e x (c :: word) = c :: protect s e x word := by
  have hne : ¬(c = s ∨ c = e) := not_or.2 ⟨hc .start, hc .stop⟩
  simp [protect_cons, hne]

theorem protect_eq_self {word : List Char} (hstart : s ∉ word) (hstop : e ∉ word) :
    protect s e x word = word := by
  induction word with
  | nil => rfl
  | cons c word ih =>
      rw [List.mem_cons, not_or] at hstart hstop
      have hc : ∀ m : Mark, c ≠ m.char s e := by
        intro m
        cases m with
        | start => exact Ne.symm hstart.1
        | stop => exact Ne.symm hstop.1
      rw [protect_char hc, ih hstart.2 hstop.2]

@[simp] theorem protect_eq_nil_iff {word : List Char} : protect s e x word = [] ↔ word = [] := by
  cases word with
  | nil => simp
  | cons c word =>
      rw [protect_cons]
      split <;> simp

end Protect

/-- No word but the last ends with the escape. -/
def Sealed (x : Char) (words : List (List Char)) : Prop :=
  ∀ word ∈ words.dropLast, word.getLast? ≠ some x

@[simp] theorem sealed_singleton (x : Char) (word : List Char) : Sealed x [word] := by
  simp [Sealed]

@[simp] theorem sealed_cons_cons_iff {x : Char} {word word' : List Char}
    {words : List (List Char)} :
    Sealed x (word :: word' :: words) ↔ word.getLast? ≠ some x ∧ Sealed x (word' :: words) := by
  simp [Sealed, List.dropLast_cons_cons]

theorem Sealed.cons_char {x c : Char} {word : List Char} {words : List (List Char)}
    (h : Sealed x (word :: words)) (hc : word = [] → words ≠ [] → c ≠ x) :
    Sealed x ((c :: word) :: words) := by
  cases words with
  | nil => exact sealed_singleton x _
  | cons word' words =>
      rw [sealed_cons_cons_iff] at h ⊢
      refine ⟨?_, h.2⟩
      cases word with
      | nil => simpa using hc rfl (List.cons_ne_nil _ _)
      | cons c' word => simpa [List.getLast?_cons_cons] using h.1

/-- Words with the delimiters before them, as they are written. -/
def spread (s e x : Char) (marked : List (Mark × List Char)) : List Char :=
  marked.flatMap fun m => m.1.char s e :: protect s e x m.2

@[simp] theorem spread_nil (s e x : Char) : spread s e x [] = [] := rfl

theorem spread_cons (s e x : Char) (m : Mark) (word : List Char)
    (marked : List (Mark × List Char)) :
    spread s e x ((m, word) :: marked) = m.char s e :: protect s e x word ++ spread s e x marked :=
  rfl

namespace IsSingle

variable {d : Delimiters} {s e x : Char} (h : d.IsSingle s e x)

include h

theorem head?_protect_ne (m : Mark) (word : List Char) :
    (protect s e x word).head? ≠ some (m.char s e) := by
  cases word with
  | nil => simp
  | cons c word =>
      by_cases hc : ∃ m : Mark, c = m.char s e
      · obtain ⟨m', rfl⟩ := hc
        rw [protect_mark]
        simpa using (h.char_ne m).symm
      · rw [not_exists] at hc
        rw [protect_char hc]
        simpa using hc m

theorem unescape_protect (word : List Char) : d.unescape (protect s e x word) = word := by
  induction word with
  | nil => rfl
  | cons c word ih =>
      by_cases hc : ∃ m : Mark, c = m.char s e
      · obtain ⟨m, rfl⟩ := hc
        rw [protect_mark, unescape, unescapeFrom, h.escapedAt_escape]
        simp [unescapeFrom_eq_drop, rawOf, h.escape, h.textOf_eq, ih]
      · rw [not_exists] at hc
        rw [protect_char hc, unescape, unescapeFrom,
          h.escapedAt_of_ne fun _ m => h.head?_protect_ne m word]
        simp [unescapeFrom_eq_drop, ih]

/-- A written word is scanned as one stretch of raw text, up to what follows it. -/
theorem sections_word {word tail : List Char}
    (hlast : word.getLast? = some x → ∀ m : Mark, tail.head? ≠ some (m.char s e)) :
    d.sections (d.pieces 0 (protect s e x word ++ tail)) =
      (protect s e x word ++ (d.sections (d.pieces 0 tail)).1,
        (d.sections (d.pieces 0 tail)).2) := by
  induction word with
  | nil => rfl
  | cons c word ih =>
      have ih := ih fun hx => hlast (by rw [List.getLast?_cons, hx]; rfl)
      by_cases hc : ∃ m : Mark, c = m.char s e
      · obtain ⟨m, rfl⟩ := hc
        rw [protect_mark, List.cons_append, List.cons_append, h.pieces_escape,
          sections_escaped, ih]
        simp [rawOf, h.escape, h.textOf_eq]
      · rw [not_exists] at hc
        have hnext : c = x → ∀ m : Mark,
            (protect s e x word ++ tail).head? ≠ some (m.char s e) := by
          rintro rfl m
          cases word with
          | nil => exact hlast rfl m
          | cons c' word =>
              have hne : protect s e c (c' :: word) ≠ [] := by simp
              have hhead := h.head?_protect_ne m (c' :: word)
              obtain ⟨a, as, has⟩ := List.exists_cons_of_ne_nil hne
              rw [has] at hhead ⊢
              exact hhead
        rw [protect_char hc, List.cons_append, h.pieces_char hc hnext, sections_char, ih]
        rfl

theorem sections_spread {word : List Char} {marked : List (Mark × List Char)}
    (hsealed : Sealed x (word :: marked.map Prod.snd)) :
    d.sections (d.pieces 0 (protect s e x word ++ spread s e x marked)) =
      (protect s e x word, marked.map (Prod.map id (protect s e x))) := by
  induction marked generalizing word with
  | nil =>
      rw [h.sections_word fun _ m => by simp]
      simp [pieces, sections]
  | cons mw marked ih =>
      obtain ⟨m, word'⟩ := mw
      rw [List.map_cons, sealed_cons_cons_iff] at hsealed
      rw [h.sections_word fun hx => absurd hx hsealed.1, spread_cons, List.cons_append,
        h.pieces_mark, sections_bare, ih hsealed.2]
      simp

/-- Every pattern consists of words and bare delimiters. -/
theorem exists_words (cs : List Char) :
    ∃ word marked, cs = protect s e x word ++ spread s e x marked ∧
      Sealed x (word :: marked.map Prod.snd) := by
  induction hn : cs.length using Nat.strong_induction_on generalizing cs with
  | _ n ih =>
      subst hn
      cases cs with
      | nil => exact ⟨[], [], rfl, by simp⟩
      | cons c cs =>
          by_cases hc : ∃ m : Mark, c = m.char s e
          · -- a bare delimiter: the word before it is empty
            obtain ⟨m, rfl⟩ := hc
            obtain ⟨word, marked, rfl, hsealed⟩ := ih _ (Nat.lt_succ_self _) cs rfl
            exact ⟨[], (m, word) :: marked, by simp [spread_cons], by simpa using hsealed⟩
          · by_cases hx : c = x ∧ ∃ m : Mark, cs.head? = some (m.char s e)
            · -- an escaped delimiter
              obtain ⟨rfl, m, hm⟩ := hx
              obtain ⟨cs, rfl⟩ := List.head?_eq_some_iff.1 hm
              have hlt : cs.length < (c :: m.char s e :: cs).length := by
                simp only [List.length_cons]
                omega
              obtain ⟨word, marked, rfl, hsealed⟩ := ih _ hlt cs rfl
              refine ⟨m.char s e :: word, marked, ?_, hsealed.cons_char fun _ _ => h.char_ne m⟩
              rw [protect_mark]
              rfl
            · -- any other character
              rw [not_exists] at hc
              obtain ⟨word, marked, rfl, hsealed⟩ := ih _ (Nat.lt_succ_self _) cs rfl
              refine ⟨c :: word, marked, by rw [protect_char hc]; rfl, hsealed.cons_char ?_⟩
              rintro rfl hmarked rfl
              cases marked with
              | nil => exact hmarked rfl
              | cons mw marked => exact hx ⟨rfl, mw.1, by simp [spread]⟩

end IsSingle

/-! ### Splitting -/

/-- Bodies of tags and the texts behind them, each with the delimiter before it. -/
def marksOf (tags : List (List Char × List Char)) : List (Mark × List Char) :=
  tags.flatMap fun tag => [(.start, tag.1), (.stop, tag.2)]

theorem pairUp_eq_some_iff {marked : List (Mark × List Char)}
    {tags : List (List Char × List Char)} : pairUp marked = some tags ↔ marked = marksOf tags := by
  constructor
  · intro h
    induction marked using pairUp.induct generalizing tags with
    | case1 =>
        cases h
        rfl
    | case2 body text rest ih =>
        rw [pairUp, Option.map_eq_some_iff] at h
        obtain ⟨tags, htags, rfl⟩ := h
        rw [ih htags]
        rfl
    | case3 marked hnil hpair =>
        rw [pairUp.eq_3 marked hnil hpair] at h
        cases h
  · rintro rfl
    induction tags with
    | nil => rfl
    | cons tag tags ih =>
        change (pairUp (marksOf tags)).map (tag :: ·) = some (tag :: tags)
        rw [ih, Option.map_some]

theorem pairUp_map (f : List Char → List Char) : (marked : List (Mark × List Char)) →
    pairUp (marked.map (Prod.map id f)) = (pairUp marked).map (List.map (Prod.map f f))
  | [] => rfl
  | [(.start, _)] => rfl
  | (.stop, _) :: _ => rfl
  | (.start, _) :: (.start, _) :: _ => rfl
  | (.start, body) :: (.stop, text) :: rest => by
    change (pairUp (rest.map (Prod.map id f))).map ((f body, f text) :: ·) =
      ((pairUp rest).map ((body, text) :: ·)).map (List.map (Prod.map f f))
    rw [pairUp_map f rest, Option.map_map, Option.map_map]
    rfl

theorem count_marksOf (tags : List (List Char × List Char)) (m : Mark) :
    ((marksOf tags).map Prod.fst).count m = tags.length := by
  induction tags with
  | nil => rfl
  | cons tag tags ih =>
      change List.count m (.start :: .stop :: (marksOf tags).map Prod.fst) = tags.length + 1
      cases m <;> simp [ih]

/-- Splitting succeeds if the delimiters pair up and the tags between them have
names. -/
theorem split_eq_ok_iff {d : Delimiters} {pattern : String} {chunks : List Chunk} :
    d.split pattern = .ok chunks ↔ ∃ tags rest,
      pairUp (d.sections (d.pieces 0 pattern.toList)).2 = some tags ∧
        d.tagChunks tags = some rest ∧
        chunks = d.textChunk (d.sections (d.pieces 0 pattern.toList)).1 ++ rest := by
  rcases hsections : d.sections (d.pieces 0 pattern.toList) with ⟨lead, marked⟩
  rw [split, hsections]
  constructor
  · intro h
    simp only at h
    split at h
    · cases h
    · split at h
      · cases h
      · split at h
        · cases h
        · rename_i tags htags
          split at h
          · cases h
          · rename_i rest hrest
            cases h
            exact ⟨tags, rest, htags, hrest, rfl⟩
  · rintro ⟨tags, rest, htags, hrest, rfl⟩
    have hmarks : marked = marksOf tags := pairUp_eq_some_iff.1 htags
    have hcount (m : Mark) : (marked.map (·.1)).count m = tags.length := by
      rw [hmarks]
      exact count_marksOf tags m
    simp only at htags
    simp [htags, hrest, hcount]

end Delimiters

/-! ### Writing chunks -/

/-- The chunk as it is written, with the escape `x` before every `s` and `e` in a
text or in the body of a tag. -/
def Chunk.write (s e x : Char) : Chunk → List Char
  | .text t => Delimiters.protect s e x t.toList
  | .tag t => s :: Delimiters.protect s e x t.render.toList ++ [e]

@[simp] theorem Chunk.write_text (s e x : Char) (t : String) :
    (Chunk.text t).write s e x = Delimiters.protect s e x t.toList :=
  rfl

@[simp] theorem Chunk.write_tag (s e x : Char) (t : Tag) :
    (Chunk.tag t).write s e x = s :: Delimiters.protect s e x t.render.toList ++ [e] :=
  rfl

def writeChunks (s e x : Char) (chunks : List Chunk) : String :=
  String.ofList (chunks.flatMap (Chunk.write s e x))

/-- A text is not empty. A tag has a name that does not end with the escape; its
label has no colon, and without a label its name has none. -/
def Chunk.IsProper (x : Char) : Chunk → Prop
  | .text t => t ≠ ""
  | .tag t => t.name ≠ "" ∧ t.name.toList.getLast? ≠ some x ∧ t.Divided

@[simp] theorem Chunk.isProper_text {x : Char} {t : String} :
    (Chunk.text t).IsProper x ↔ t ≠ "" :=
  Iff.rfl

@[simp] theorem Chunk.isProper_tag {x : Char} {t : Tag} :
    (Chunk.tag t).IsProper x ↔ t.name ≠ "" ∧ t.name.toList.getLast? ≠ some x ∧ t.Divided :=
  Iff.rfl

/-- No text follows a text, and a text before a tag does not end with the escape. -/
def Chunk.MayPrecede (x : Char) : Chunk → Chunk → Prop
  | .text _, .text _ => False
  | .text t, .tag _ => t.toList.getLast? ≠ some x
  | .tag _, _ => True

@[simp] theorem Chunk.mayPrecede_text_tag {x : Char} {t : String} {tag : Tag} :
    (Chunk.text t).MayPrecede x (.tag tag) ↔ t.toList.getLast? ≠ some x :=
  Iff.rfl

theorem Chunk.mayPrecede_tag (x : Char) (tag : Tag) (next : Chunk) :
    (Chunk.tag tag).MayPrecede x next :=
  trivial

structure WellFormed (x : Char) (chunks : List Chunk) : Prop where
  proper : ∀ chunk ∈ chunks, chunk.IsProper x
  order : chunks.IsChain (Chunk.MayPrecede x)

namespace WellFormed

variable {x : Char} {chunks : List Chunk}

theorem nil : WellFormed x [] :=
  ⟨by simp, .nil⟩

theorem cons_iff {chunk : Chunk} :
    WellFormed x (chunk :: chunks) ↔
      chunk.IsProper x ∧ (∀ next ∈ chunks.head?, chunk.MayPrecede x next) ∧
        WellFormed x chunks := by
  constructor
  · rintro ⟨hproper, horder⟩
    rw [List.isChain_cons] at horder
    exact ⟨hproper _ List.mem_cons_self, horder.1,
      fun c hc => hproper c (List.mem_cons_of_mem _ hc), horder.2⟩
  · rintro ⟨hchunk, hnext, hproper, horder⟩
    refine ⟨?_, List.isChain_cons.2 ⟨hnext, horder⟩⟩
    intro c hc
    rcases List.mem_cons.1 hc with rfl | hc
    · exact hchunk
    · exact hproper c hc

theorem tag_cons_iff {tag : Tag} :
    WellFormed x (.tag tag :: chunks) ↔ (Chunk.tag tag).IsProper x ∧ WellFormed x chunks := by
  rw [cons_iff]
  simp [Chunk.mayPrecede_tag]

end WellFormed

/-- The chunks of a word: none if it is empty. -/
def wordChunk (word : List Char) : List Chunk :=
  if word.isEmpty then [] else [.text (String.ofList word)]

@[simp] theorem wordChunk_nil : wordChunk [] = [] := rfl

@[simp] theorem wordChunk_cons (c : Char) (word : List Char) :
    wordChunk (c :: word) = [.text (String.ofList (c :: word))] :=
  rfl

/-- The chunks are the tags of some bodies, each with the chunk of the word behind
it. -/
def TagsRead : List (List Char × List Char) → List Chunk → Prop
  | [], chunks => chunks = []
  | tag :: tags, chunks =>
    (Tag.read tag.1).name ≠ "" ∧ ∃ rest, TagsRead tags rest ∧
      chunks = .tag (Tag.read tag.1) :: (wordChunk tag.2 ++ rest)

@[simp] theorem tagsRead_nil_iff {chunks : List Chunk} : TagsRead [] chunks ↔ chunks = [] :=
  Iff.rfl

theorem tagsRead_cons_iff {tag : List Char × List Char} {tags : List (List Char × List Char)}
    {chunks : List Chunk} :
    TagsRead (tag :: tags) chunks ↔
      (Tag.read tag.1).name ≠ "" ∧ ∃ rest, TagsRead tags rest ∧
        chunks = .tag (Tag.read tag.1) :: (wordChunk tag.2 ++ rest) :=
  Iff.rfl

/-- The chunks are those of a first word and of tags with words behind them, where
no delimiter stands behind an escape. -/
def LaidOut (x : Char) (word : List Char) (tags : List (List Char × List Char))
    (chunks : List Chunk) : Prop :=
  Delimiters.Sealed x (word :: (Delimiters.marksOf tags).map Prod.snd) ∧
    ∃ rest, TagsRead tags rest ∧ chunks = wordChunk word ++ rest

namespace Delimiters.IsSingle

variable {d : Delimiters} {s e x : Char} (h : d.IsSingle s e x)

include h

theorem textChunk_protect (word : List Char) :
    d.textChunk (protect s e x word) = wordChunk word := by
  cases word with
  | nil => rfl
  | cons c word => simp [textChunk, h.unescape_protect]

theorem tagOf?_protect (body : List Char) :
    d.tagOf? (protect s e x body) =
      if (Tag.read body).name = "" then none else some (Tag.read body) := by
  rw [tagOf?, h.unescape_protect]

theorem tagChunks_eq_some_iff {tags : List (List Char × List Char)} {chunks : List Chunk} :
    d.tagChunks (tags.map (Prod.map (protect s e x) (protect s e x))) = some chunks ↔
      TagsRead tags chunks := by
  induction tags generalizing chunks with
  | nil => simp [tagChunks, eq_comm]
  | cons tag tags ih =>
      obtain ⟨body, text⟩ := tag
      rw [List.map_cons, Prod.map_apply, tagChunks, h.tagOf?_protect, h.textChunk_protect,
        tagsRead_cons_iff]
      simp only [← ih]
      by_cases hname : (Tag.read body).name = ""
      · simp [hname]
      · cases d.tagChunks (tags.map (Prod.map (protect s e x) (protect s e x))) <;>
          simp [hname, eq_comm]

/-- A pattern is split into chunks by taking it for a first word and for tags,
each with a word behind it. -/
theorem split_eq_ok_iff_laidOut {pattern : String} {chunks : List Chunk} :
    d.split pattern = .ok chunks ↔ ∃ word tags,
      pattern.toList = protect s e x word ++ spread s e x (marksOf tags) ∧
        LaidOut x word tags chunks := by
  rw [split_eq_ok_iff]
  constructor
  · rintro ⟨raws, rest, hraws, hrest, rfl⟩
    obtain ⟨word, marked, hpattern, hsealed⟩ := h.exists_words pattern.toList
    rw [hpattern, h.sections_spread hsealed] at hraws ⊢
    rw [pairUp_map, Option.map_eq_some_iff] at hraws
    obtain ⟨tags, htags, rfl⟩ := hraws
    cases pairUp_eq_some_iff.1 htags
    exact ⟨word, tags, rfl, hsealed, rest, h.tagChunks_eq_some_iff.1 hrest,
      by rw [h.textChunk_protect]⟩
  · rintro ⟨word, tags, hpattern, hsealed, rest, hrest, rfl⟩
    rw [hpattern, h.sections_spread hsealed]
    refine ⟨tags.map (Prod.map (protect s e x) (protect s e x)), rest, ?_,
      h.tagChunks_eq_some_iff.2 hrest, by rw [h.textChunk_protect]⟩
    rw [pairUp_map, pairUp_eq_some_iff.2 rfl, Option.map_some]

end Delimiters.IsSingle

/-! ### The chunks of a pattern -/

section LaidOut

variable {s e x : Char}

theorem laidOut_nil_iff {word : List Char} {chunks : List Chunk} :
    LaidOut x word [] chunks ↔ chunks = wordChunk word := by
  simp [LaidOut, Delimiters.marksOf]

theorem laidOut_cons_iff {word body text : List Char} {tags : List (List Char × List Char)}
    {chunks : List Chunk} :
    LaidOut x word ((body, text) :: tags) chunks ↔
      word.getLast? ≠ some x ∧ body.getLast? ≠ some x ∧ (Tag.read body).name ≠ "" ∧
        ∃ rest, LaidOut x text tags rest ∧
          chunks = wordChunk word ++ .tag (Tag.read body) :: rest := by
  have hmarks : (Delimiters.marksOf ((body, text) :: tags)).map Prod.snd =
      body :: text :: (Delimiters.marksOf tags).map Prod.snd := rfl
  simp only [LaidOut, hmarks, Delimiters.sealed_cons_cons_iff, tagsRead_cons_iff]
  constructor
  · rintro ⟨⟨hword, hbody, hsealed⟩, _, ⟨hname, rest, hrest, rfl⟩, rfl⟩
    exact ⟨hword, hbody, hname, _, ⟨hsealed, rest, hrest, rfl⟩, rfl⟩
  · rintro ⟨hword, hbody, hname, _, ⟨hsealed, rest, hrest, rfl⟩, rfl⟩
    exact ⟨⟨hword, hbody, hsealed⟩, _, ⟨hname, rest, hrest, rfl⟩, rfl⟩

theorem wordChunk_toList {t : String} (h : t ≠ "") : wordChunk t.toList = [.text t] := by
  simp [wordChunk, h]

theorem flatMap_write_wordChunk (word : List Char) :
    (wordChunk word).flatMap (Chunk.write s e x) = Delimiters.protect s e x word := by
  cases word <;> simp

/-- The chunks of a pattern are written as the pattern. -/
theorem LaidOut.write {word : List Char} {tags : List (List Char × List Char)}
    {chunks : List Chunk} (h : LaidOut x word tags chunks) :
    chunks.flatMap (Chunk.write s e x) =
      Delimiters.protect s e x word ++ Delimiters.spread s e x (Delimiters.marksOf tags) := by
  induction tags generalizing word chunks with
  | nil =>
      rw [laidOut_nil_iff.1 h, flatMap_write_wordChunk]
      simp [Delimiters.marksOf]
  | cons tag tags ih =>
      obtain ⟨body, text⟩ := tag
      obtain ⟨_, _, _, rest, hrest, rfl⟩ := laidOut_cons_iff.1 h
      rw [List.flatMap_append, flatMap_write_wordChunk, List.flatMap_cons, ih hrest,
        Chunk.write_tag, (Tag.read_spec body).2]
      simp [Delimiters.marksOf, Delimiters.spread_cons]

theorem WellFormed.wordChunk_append {word : List Char} {tag : Tag} {chunks : List Chunk}
    (hword : word.getLast? ≠ some x) (h : WellFormed x (.tag tag :: chunks)) :
    WellFormed x (wordChunk word ++ .tag tag :: chunks) := by
  cases word with
  | nil => exact h
  | cons c word =>
      refine WellFormed.cons_iff.2 ⟨by simp, ?_, h⟩
      intro next hnext
      cases hnext
      simpa using hword

/-- The chunks of a pattern are well formed. -/
theorem LaidOut.wellFormed {word : List Char} {tags : List (List Char × List Char)}
    {chunks : List Chunk} (h : LaidOut x word tags chunks) : WellFormed x chunks := by
  induction tags generalizing word chunks with
  | nil =>
      rw [laidOut_nil_iff.1 h]
      cases word with
      | nil => exact .nil
      | cons c word =>
          exact WellFormed.cons_iff.2 ⟨by simp, by simp, .nil⟩
  | cons tag tags ih =>
      obtain ⟨body, text⟩ := tag
      obtain ⟨hword, hbody, hname, rest, hrest, rfl⟩ := laidOut_cons_iff.1 h
      obtain ⟨hdivided, hrender⟩ := Tag.read_spec body
      have hlast : (Tag.read body).name.toList.getLast? ≠ some x := by
        rw [← Tag.getLast?_render hname, hrender]
        exact hbody
      exact .wordChunk_append hword
        (WellFormed.tag_cons_iff.2 ⟨⟨hname, hlast, hdivided⟩, ih hrest⟩)

/-- Well-formed chunks are those of some pattern. -/
theorem WellFormed.exists_laidOut {chunks : List Chunk} (h : WellFormed x chunks) :
    ∃ word tags, LaidOut x word tags chunks := by
  induction chunks with
  | nil => exact ⟨[], [], laidOut_nil_iff.2 rfl⟩
  | cons chunk chunks ih =>
      obtain ⟨hproper, hnext, hchunks⟩ := WellFormed.cons_iff.1 h
      obtain ⟨word, tags, hlaid⟩ := ih hchunks
      cases chunk with
      | tag t =>
          obtain ⟨hname, hlast, hdivided⟩ := hproper
          have hread := Tag.read_render hdivided
          refine ⟨[], (t.render.toList, word) :: tags, laidOut_cons_iff.2 ⟨by simp, ?_, ?_,
            chunks, hlaid, ?_⟩⟩
          · rw [Tag.getLast?_render hname]
            exact hlast
          · rw [hread]
            exact hname
          · rw [hread]
            rfl
      | text t =>
          have hword : wordChunk t.toList = [.text t] := wordChunk_toList hproper
          -- what follows does not begin with a text, so its first word is empty
          cases word with
          | cons c word =>
              obtain ⟨_, rest, _, rfl⟩ := hlaid
              exact (hnext (.text (String.ofList (c :: word))) rfl).elim
          | nil =>
              cases tags with
              | nil =>
                  cases laidOut_nil_iff.1 hlaid
                  exact ⟨t.toList, [], laidOut_nil_iff.2 hword.symm⟩
              | cons tag tags =>
                  obtain ⟨body, text⟩ := tag
                  obtain ⟨_, hbody, hname, rest, hrest, rfl⟩ := laidOut_cons_iff.1 hlaid
                  have hlast := hnext (.tag (Tag.read body)) rfl
                  exact ⟨t.toList, (body, text) :: tags,
                    laidOut_cons_iff.2 ⟨hlast, hbody, hname, rest, hrest, by rw [hword]; rfl⟩⟩

end LaidOut

namespace Delimiters

/-- A pattern is split into some chunks exactly if they are well formed and the
pattern is how they are written. -/
theorem IsSingle.split_eq_ok_iff_write {d : Delimiters} {s e x : Char} (h : d.IsSingle s e x)
    {pattern : String} {chunks : List Chunk} :
    d.split pattern = .ok chunks ↔ WellFormed x chunks ∧ writeChunks s e x chunks = pattern := by
  have hwritten {word tags} (hlaid : LaidOut x word tags chunks) :
      pattern.toList = protect s e x word ++ spread s e x (marksOf tags) ↔
        writeChunks s e x chunks = pattern := by
    rw [writeChunks, hlaid.write, ← String.toList_inj, String.toList_ofList, eq_comm]
  rw [h.split_eq_ok_iff_laidOut]
  constructor
  · rintro ⟨word, tags, hpattern, hlaid⟩
    exact ⟨hlaid.wellFormed, (hwritten hlaid).1 hpattern⟩
  · rintro ⟨hchunks, hpattern⟩
    obtain ⟨word, tags, hlaid⟩ := hchunks.exists_laidOut
    exact ⟨word, tags, (hwritten hlaid).2 hpattern, hlaid⟩

/-- Splitting and writing are inverse to each other: on the patterns that can be
split, and on the well-formed lists of chunks. -/
theorem split_round_trip {d : Delimiters} {s e x : Char} (h : d.IsSingle s e x) :
    (∀ pattern chunks, d.split pattern = .ok chunks → writeChunks s e x chunks = pattern) ∧
    (∀ chunks, WellFormed x chunks → d.split (writeChunks s e x chunks) = .ok chunks) ∧
    (∀ pattern pattern' chunks, d.split pattern = .ok chunks → d.split pattern' = .ok chunks →
      pattern = pattern') ∧
    ∀ chunks, (∃ pattern, d.split pattern = .ok chunks) ↔ WellFormed x chunks := by
  have hwrite (pattern chunks) (hsplit : d.split pattern = .ok chunks) :
      writeChunks s e x chunks = pattern := (h.split_eq_ok_iff_write.1 hsplit).2
  have hsplit (chunks) (hchunks : WellFormed x chunks) :
      d.split (writeChunks s e x chunks) = .ok chunks := h.split_eq_ok_iff_write.2 ⟨hchunks, rfl⟩
  refine ⟨hwrite, hsplit, ?_, ?_⟩
  · intro pattern pattern' chunks hpattern hpattern'
    rw [← hwrite pattern chunks hpattern, hwrite pattern' chunks hpattern']
  · intro chunks
    constructor
    · rintro ⟨pattern, hpattern⟩
      exact (h.split_eq_ok_iff_write.1 hpattern).1
    · intro hchunks
      exact ⟨_, hsplit chunks hchunks⟩

theorem isSingle_standard : standard.IsSingle '<' '>' '\\' :=
  ⟨rfl, rfl, rfl, by decide, by decide⟩

/-- Escapes before a delimiter, inside the body of a tag and at the end. -/
def escapeChunks : List Chunk :=
  [.text "a\\<b", .tag ⟨"n>m", some "l"⟩, .text "\\"]

theorem split_round_trip_standard :
    standard.IsSingle '<' '>' '\\' ∧ WellFormed '\\' escapeChunks ∧
      writeChunks '<' '>' '\\' escapeChunks = "a\\\\<b<l:n\\>m>\\" ∧
      standard.split "a\\\\<b<l:n\\>m>\\" = .ok escapeChunks := by
  have hchunks : WellFormed '\\' escapeChunks := by
    constructor
    · simp [escapeChunks, Tag.Divided]
    · simp [escapeChunks, Chunk.mayPrecede_tag]
  have hwritten : writeChunks '<' '>' '\\' escapeChunks = "a\\\\<b<l:n\\>m>\\" := rfl
  refine ⟨isSingle_standard, hchunks, hwritten, ?_⟩
  rw [← hwritten]
  exact (split_round_trip isSingle_standard).2.1 escapeChunks hchunks

end Delimiters

end Stencil
