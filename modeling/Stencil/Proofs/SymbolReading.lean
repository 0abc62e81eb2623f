import Mathlib.Data.List.Basic
import Stencil.Grammar.Symbols

/-!
Reading the symbols of an alternative. What can be written is said without the reader: names
and quoted texts in a row, with blanks around them. The reader finds the symbols that are
written, and fails where a quote is opened and never closed.

Main statement: an alternative is read as some symbols if and only if it is blanks and then
these symbols in a row, each with the blanks behind it; and it cannot be read if and only if
behind such a row a quote is opened and never closed.
-/

namespace Stencil

namespace RawSymbol

/-- The symbols are written one after the other, up to a rest. Blanks may stand anywhere
between them; behind a name one must, unless nothing follows. -/
inductive Written (rest : List Char) : List RawSymbol → List Char → Prop
  | nil : Written rest [] rest
  | blank {c : Char} {cs : List Char} {symbols : List RawSymbol} (hc : Text.isBlank c = true)
      (htail : Written rest symbols cs) : Written rest symbols (c :: cs)
  | literal {text cs : List Char} {symbols : List RawSymbol} (htext : '\'' ∉ text)
      (htail : Written rest symbols cs) :
      Written rest (.literal (String.ofList text) :: symbols) ('\'' :: (text ++ '\'' :: cs))
  | name {first : Char} {chars cs : List Char} {symbols : List RawSymbol} (hquote : first ≠ '\'')
      (hchars : ∀ c ∈ first :: chars, Text.isBlank c = false)
      (hend : ∀ c ∈ cs.head?, Text.isBlank c = true) (htail : Written rest symbols cs) :
      Written rest (.name (String.ofList (first :: chars)) :: symbols) (first :: (chars ++ cs))

/-- A quote is opened behind some symbols and never closed. -/
def Unclosed (cs : List Char) : Prop :=
  ∃ symbols body, Written ('\'' :: body) symbols cs ∧ '\'' ∉ body

variable {acc chars cs rest text : List Char} {symbols : List RawSymbol}

/-! ### Inside a symbol -/

theorem readFrom_inLiteral (htext : '\'' ∉ text) :
    readFrom (.inLiteral acc) (text ++ '\'' :: cs) =
      (readFrom .between cs).map (.literal (String.ofList (acc.reverse ++ text)) :: ·) := by
  induction text generalizing acc with
  | nil => simp [readFrom_inLiteral_cons, ofLiteral]
  | cons c text ih =>
      rw [List.mem_cons, not_or] at htext
      rw [List.cons_append, readFrom_inLiteral_cons, if_neg (Ne.symm htext.1), ih htext.2]
      simp

theorem readFrom_inLiteral_eq_none (htext : '\'' ∉ text) :
    readFrom (.inLiteral acc) text = none := by
  induction text generalizing acc with
  | nil => rfl
  | cons c text ih =>
      rw [List.mem_cons, not_or] at htext
      rw [readFrom_inLiteral_cons, if_neg (Ne.symm htext.1), ih htext.2]

theorem readFrom_blank {c : Char} (hc : Text.isBlank c = true) :
    readFrom .between (c :: cs) = readFrom .between cs := by
  rw [readFrom_between_cons, if_pos hc]

theorem isBlank_quote : Text.isBlank '\'' = false := by
  decide

theorem readFrom_quote (cs : List Char) :
    readFrom .between ('\'' :: cs) = readFrom (.inLiteral []) cs := by
  rw [readFrom_between_cons, if_neg (by simp [isBlank_quote]), if_pos rfl]

theorem readFrom_inName (hchars : ∀ c ∈ chars, Text.isBlank c = false)
    (hend : ∀ c ∈ cs.head?, Text.isBlank c = true) :
    readFrom (.inName acc) (chars ++ cs) =
      (readFrom .between cs).map (.name (String.ofList (acc.reverse ++ chars)) :: ·) := by
  induction chars generalizing acc with
  | nil =>
      cases cs with
      | nil => simp [ofName]
      | cons c cs =>
          have hc : Text.isBlank c = true := hend c rfl
          rw [List.nil_append, readFrom_blank hc, readFrom_inName_cons, if_pos hc]
          simp [ofName]
  | cons c chars ih =>
      obtain ⟨hc, hchars⟩ := List.forall_mem_cons.1 hchars
      rw [List.cons_append, readFrom_inName_cons, if_neg (by simp [hc]), ih hchars]
      simp

/-! ### Whole alternatives -/

/-- What is written is read, and what comes of the rest stands behind it. -/
theorem Written.readFrom_eq (h : Written rest symbols cs) :
    readFrom .between cs = (readFrom .between rest).map (symbols ++ ·) := by
  induction h with
  | nil => simp
  | blank hc _ ih => rw [readFrom_blank hc, ih]
  | literal htext _ ih =>
      rw [readFrom_quote, readFrom_inLiteral htext, ih, Option.map_map]
      rfl
  | @name first chars cs symbols hquote hchars hend _ ih =>
      obtain ⟨hfirst, hchars⟩ := List.forall_mem_cons.1 hchars
      rw [readFrom_between_cons, if_neg (by simp [hfirst]), if_neg hquote,
        readFrom_inName hchars hend, ih, Option.map_map]
      rfl

/-- A name ends before the first blank. -/
theorem exists_name_end (cs : List Char) : ∃ chars later, cs = chars ++ later ∧
    (∀ c ∈ chars, Text.isBlank c = false) ∧ ∀ c ∈ later.head?, Text.isBlank c = true := by
  induction cs with
  | nil => exact ⟨[], [], rfl, by simp, by simp⟩
  | cons c cs ih =>
      cases hc : Text.isBlank c with
      | true => exact ⟨[], c :: cs, rfl, by simp, by simpa using hc⟩
      | false =>
          obtain ⟨chars, later, rfl, hchars, hlater⟩ := ih
          exact ⟨c :: chars, later, rfl, List.forall_mem_cons.2 ⟨hc, hchars⟩, hlater⟩

/-- The symbols of a text can be told apart up to its end, or up to a quote that is not
closed. -/
theorem exists_written (cs : List Char) : ∃ symbols rest, Written rest symbols cs ∧
    (rest = [] ∨ ∃ body, rest = '\'' :: body ∧ '\'' ∉ body) := by
  -- on the length, since whole symbols are taken from the front
  induction hn : cs.length using Nat.strongRecOn generalizing cs with
  | ind n ih =>
      subst hn
      cases cs with
      | nil => exact ⟨[], [], .nil, .inl rfl⟩
      | cons c cs =>
          cases hc : Text.isBlank c with
          | true =>
              obtain ⟨symbols, rest, htail, hrest⟩ := ih cs.length (by simp) cs rfl
              exact ⟨symbols, rest, .blank hc htail, hrest⟩
          | false =>
              by_cases hquote : c = '\''
              · subst hquote
                by_cases hclosed : '\'' ∈ cs
                · obtain ⟨text, later, rfl, htext⟩ := List.eq_append_cons_of_mem hclosed
                  have hlt : later.length < ('\'' :: (text ++ '\'' :: later)).length := by
                    simp only [List.length_cons, List.length_append]
                    omega
                  obtain ⟨symbols, rest, htail, hrest⟩ := ih _ hlt later rfl
                  exact ⟨_, rest, .literal htext htail, hrest⟩
                · exact ⟨[], '\'' :: cs, .nil, .inr ⟨cs, rfl, hclosed⟩⟩
              · obtain ⟨chars, later, rfl, hchars, hend⟩ := exists_name_end cs
                have hlt : later.length < (c :: (chars ++ later)).length := by
                  simp only [List.length_cons, List.length_append]
                  omega
                obtain ⟨symbols, rest, htail, hrest⟩ := ih _ hlt later rfl
                have hname : ∀ b ∈ c :: chars, Text.isBlank b = false :=
                  List.forall_mem_cons.2 ⟨hc, hchars⟩
                exact ⟨_, rest, .name hquote hname hend htail, hrest⟩

theorem readFrom_eq_none_iff : readFrom .between cs = none ↔ Unclosed cs := by
  constructor
  · intro h
    obtain ⟨symbols, rest, hwritten, rfl | ⟨body, rfl, hbody⟩⟩ := exists_written cs
    · rw [hwritten.readFrom_eq] at h
      cases h
    · exact ⟨symbols, body, hwritten, hbody⟩
  · rintro ⟨symbols, body, hwritten, hbody⟩
    rw [hwritten.readFrom_eq, readFrom_quote, readFrom_inLiteral_eq_none hbody, Option.map_none]

instance (cs : List Char) : Decidable (Unclosed cs) :=
  decidable_of_iff _ readFrom_eq_none_iff

theorem Written.readFrom_eq_some (h : Written [] symbols cs) :
    readFrom .between cs = some symbols := by
  rw [h.readFrom_eq, readFrom_between_nil, Option.map_some, List.append_nil]

theorem readFrom_eq_some_iff : readFrom .between cs = some symbols ↔ Written [] symbols cs := by
  constructor
  · intro h
    -- the text has some symbols in any case, so the reader has found these
    obtain ⟨found, rest, hwritten, rfl | ⟨body, rfl, hbody⟩⟩ := exists_written cs
    · rw [hwritten.readFrom_eq_some] at h
      cases h
      exact hwritten
    · rw [readFrom_eq_none_iff.2 ⟨found, body, hwritten, hbody⟩] at h
      cases h
  · exact Written.readFrom_eq_some

/-! ### Symbols in a row -/

/-- The symbols in order, each with the blanks behind it, up to a rest. A literal may touch
what follows; a name that no blank follows ends the text. -/
inductive Row (rest : List Char) : List RawSymbol → List Char → Prop
  | nil : Row rest [] rest
  | literal {text blanks cs : List Char} {symbols : List RawSymbol} (htext : '\'' ∉ text)
      (hblanks : ∀ c ∈ blanks, Text.isBlank c = true) (htail : Row rest symbols cs) :
      Row rest (.literal (String.ofList text) :: symbols) ('\'' :: (text ++ '\'' :: (blanks ++ cs)))
  | name {first : Char} {chars blanks cs : List Char} {symbols : List RawSymbol}
      (hquote : first ≠ '\'') (hchars : ∀ c ∈ first :: chars, Text.isBlank c = false)
      (hblanks : ∀ c ∈ blanks, Text.isBlank c = true) (hend : blanks = [] → cs = [])
      (htail : Row rest symbols cs) :
      Row rest (.name (String.ofList (first :: chars)) :: symbols)
        (first :: (chars ++ (blanks ++ cs)))

/-- Blanks, and then the symbols in a row. -/
def SpacedRow (rest : List Char) (symbols : List RawSymbol) (cs : List Char) : Prop :=
  ∃ blanks row, cs = blanks ++ row ∧ (∀ c ∈ blanks, Text.isBlank c = true) ∧ Row rest symbols row

variable {blanks : List Char}

theorem Written.blanks_append (hblanks : ∀ c ∈ blanks, Text.isBlank c = true)
    (h : Written rest symbols cs) : Written rest symbols (blanks ++ cs) := by
  induction blanks with
  | nil => exact h
  | cons c blanks ih =>
      obtain ⟨hc, hblanks⟩ := List.forall_mem_cons.1 hblanks
      exact .blank hc (ih hblanks)

theorem Row.written (h : Row rest symbols cs) : Written rest symbols cs := by
  induction h with
  | nil => exact .nil
  | literal htext hblanks _ ih => exact .literal htext (ih.blanks_append hblanks)
  | @name first chars blanks cs symbols hquote hchars hblanks hend _ ih =>
      have hhead : ∀ c ∈ (blanks ++ cs).head?, Text.isBlank c = true := by
        cases blanks with
        | nil => simp [hend rfl]
        | cons b blanks => simpa using hblanks b List.mem_cons_self
      exact .name hquote hchars hhead (ih.blanks_append hblanks)

/-- All blanks are taken by the symbol before them, so none begins a row. -/
theorem Row.head_not_blank (hrest : ∀ c ∈ rest.head?, Text.isBlank c = false)
    (h : Row rest symbols cs) : ∀ c ∈ cs.head?, Text.isBlank c = false := by
  cases h with
  | nil => exact hrest
  | literal => simpa using isBlank_quote
  | name _ hchars => simpa using hchars _ List.mem_cons_self

theorem Written.spacedRow (hrest : ∀ c ∈ rest.head?, Text.isBlank c = false)
    (h : Written rest symbols cs) : SpacedRow rest symbols cs := by
  induction h with
  | nil => exact ⟨[], rest, rfl, by simp, .nil⟩
  | @blank c _ _ hc _ ih =>
      obtain ⟨blanks, row, rfl, hblanks, hrow⟩ := ih
      exact ⟨c :: blanks, row, rfl, List.forall_mem_cons.2 ⟨hc, hblanks⟩, hrow⟩
  | literal htext _ ih =>
      obtain ⟨blanks, row, rfl, hblanks, hrow⟩ := ih
      exact ⟨[], _, rfl, by simp, .literal htext hblanks hrow⟩
  | name hquote hchars hend _ ih =>
      obtain ⟨blanks, row, rfl, hblanks, hrow⟩ := ih
      -- with no blank behind the name the row would have to begin with one
      have hlast : blanks = [] → row = [] := by
        rintro rfl
        cases row with
        | nil => rfl
        | cons c row =>
            have hc : Text.isBlank c = false := hrow.head_not_blank hrest c rfl
            rw [hend c rfl] at hc
            cases hc
      exact ⟨[], _, rfl, by simp, .name hquote hchars hblanks hlast hrow⟩

theorem written_iff_spacedRow (hrest : ∀ c ∈ rest.head?, Text.isBlank c = false) :
    Written rest symbols cs ↔ SpacedRow rest symbols cs := by
  constructor
  · exact Written.spacedRow hrest
  · rintro ⟨blanks, row, rfl, hblanks, hrow⟩
    exact hrow.written.blanks_append hblanks

/-- Read are the texts in which symbols stand in a row, and the symbols found are the ones that
stand there. In every other text a quote behind such a row is never closed. -/
theorem readAll_iff_spacedRow (alternative : String) (symbols : List RawSymbol) :
    (readAll alternative = some symbols ↔ SpacedRow [] symbols alternative.toList) ∧
      (readAll alternative = none ↔ ∃ opened body, '\'' ∉ body ∧
        SpacedRow ('\'' :: body) opened alternative.toList) := by
  constructor
  · rw [readAll, readFrom_eq_some_iff]
    exact written_iff_spacedRow (by simp)
  · rw [readAll, readFrom_eq_none_iff, Unclosed]
    have hrows (opened : List RawSymbol) (body : List Char) :
        Written ('\'' :: body) opened alternative.toList ↔
        SpacedRow ('\'' :: body) opened alternative.toList :=
      written_iff_spacedRow (by simpa using isBlank_quote)
    constructor
    · rintro ⟨opened, body, hwritten, hbody⟩
      exact ⟨opened, body, hbody, (hrows opened body).1 hwritten⟩
    · rintro ⟨opened, body, hbody, hrow⟩
      exact ⟨opened, body, (hrows opened body).2 hrow, hbody⟩

/-- Quotes inside a name belong to it, and a literal may touch what follows. -/
example : readAll " a'b 'c d'''e " =
    some [.name "a'b", .literal "c d", .literal "", .name "e"] := by
  decide

end RawSymbol

end Stencil
