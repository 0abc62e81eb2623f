import Mathlib.Data.String.Basic
import Stencil.Proofs.Declarations
import Stencil.Proofs.Lexing
import Stencil.Proofs.Repetition

/-!
Lexing by the longest match. At every place the word is taken that no definition can
better, for the first definition that reaches it, and lexing goes on after the word.

Main statement: a text can be cut into such words in one way only, up to its end or up
to a place where no definition matches. In the first case its tokens are the words that
are not skipped, and in the second the failure names the place.
-/

namespace Stencil

open String (utf8Len)

/-! ### Matches lie in the text -/

namespace Regex

theorem Live.stop_le {live : Live} {pos : Nat} {before : Option Span} {span : Span}
    (h : live.found pos before = some span) (hbefore : ∀ s, before = some s → s.stop ≤ pos) :
    span.stop ≤ pos := by
  unfold Live.found at h
  split at h
  · cases h
    exact Nat.le_refl pos
  · exact hbefore span h

theorem Program.searchFrom_stop_le {prog : Program} {prev : Option Char} {threads : List Thread}
    {found : Option Span} {pos : Nat} {marks : Marks} {cs : List Char} {span : Span}
    (h : prog.searchFrom prev threads found pos marks cs = some span)
    (hfound : ∀ s, found = some s → s.stop ≤ pos) : span.stop ≤ pos + cs.length := by
  induction cs generalizing prev threads found pos marks with
  | nil => exact Live.stop_le h hfound
  | cons c cs ih =>
      rw [searchFrom] at h
      split at h
      · exact (hfound span h).trans (Nat.le_add_right _ _)
      · have hle := ih h fun s hs => (Live.stop_le hs hfound).trans (Nat.le_succ pos)
        rw [List.length_cons]
        omega

theorem Program.search?_stop_le {prog : Program} {cs : List Char} {span : Span}
    (h : prog.search? cs = some span) : span.stop ≤ cs.length := by
  have hle := searchFrom_stop_le h (by simp)
  rwa [Nat.zero_add] at hle

end Regex

namespace TokenDef

variable {token : TokenDef} {cs : List Char} {n : Nat}

/-- A match that counts has a character, and it ends in the text. -/
theorem matchLength?_bounds (h : token.matchLength? cs = some n) : 0 < n ∧ n ≤ cs.length := by
  obtain ⟨hfound, hpos⟩ := Option.filter_eq_some_iff.1 h
  refine ⟨by simpa using hpos, ?_⟩
  cases token with
  | literal text =>
      simp only [Option.ite_none_right_eq_some, Option.some.injEq] at hfound
      obtain ⟨hfront, rfl⟩ := hfound
      rw [← String.length_toList]
      exact (List.isPrefixOf_iff_prefix.1 hfront).length_le
  | named name action pattern =>
      obtain ⟨span, hspan, rfl⟩ := Option.map_eq_some_iff.1 hfound
      exact Regex.Program.search?_stop_le hspan

/-! ### The winner -/

/-- Of the definitions, number `i` is the first with the longest match, and this match
has `n` characters. -/
structure Wins (tokens : List TokenDef) (cs : List Char) (i n : Nat) : Prop where
  reaches : ∃ token, tokens[i]? = some token ∧ token.matchLength? cs = some n
  longest : ∀ token ∈ tokens, ∀ m, token.matchLength? cs = some m → m ≤ n
  first : ∀ j < i, ∀ token, tokens[j]? = some token → token.matchLength? cs ≠ some n

namespace Wins

variable {tokens : List TokenDef} {i j m : Nat}

theorem unique (h : Wins tokens cs i n) (h' : Wins tokens cs j m) : i = j ∧ n = m := by
  obtain ⟨token, hi, hn⟩ := h.reaches
  obtain ⟨token', hj, hm⟩ := h'.reaches
  have hlength : n = m := Nat.le_antisymm (h'.longest _ (List.mem_of_getElem? hi) n hn)
    (h.longest _ (List.mem_of_getElem? hj) m hm)
  subst hlength
  refine ⟨Nat.le_antisymm ?_ ?_, rfl⟩
  · exact Nat.le_of_not_lt fun hlt => h.first j hlt token' hj hm
  · exact Nat.le_of_not_lt fun hlt => h'.first i hlt token hi hn

/-- The first definition wins if no later one has a longer match. -/
theorem zero (hn : token.matchLength? cs = some n)
    (hlater : ∀ later ∈ tokens, ∀ m, later.matchLength? cs = some m → m ≤ n) :
    Wins (token :: tokens) cs 0 n where
  reaches := ⟨token, rfl, hn⟩
  longest := by
    refine List.forall_mem_cons.2 ⟨fun m hm => ?_, hlater⟩
    rw [hn, Option.some.injEq] at hm
    exact Nat.le_of_eq hm.symm
  first := fun j hj => absurd hj (Nat.not_lt_zero j)

/-- A later definition wins against the first one with a longer match only. -/
theorem succ (h : Wins tokens cs i n) (hlt : ∀ m, token.matchLength? cs = some m → m < n) :
    Wins (token :: tokens) cs (i + 1) n where
  reaches := h.reaches
  longest := List.forall_mem_cons.2 ⟨fun m hm => Nat.le_of_lt (hlt m hm), h.longest⟩
  first := by
    intro j hj other hother hn
    cases j with
    | zero =>
        cases hother
        exact Nat.lt_irrefl n (hlt n hn)
    | succ j => exact h.first j (Nat.lt_of_succ_lt_succ hj) other hother hn

end Wins

end TokenDef

namespace Grammar

open TokenDef (Wins)

variable {g : Grammar} {cs : List Char} {t : TokenType} {tokens : List TokenDef} {l : Lexeme}

theorem longestOf?_eq_none_iff :
    longestOf? cs t tokens = none ↔ ∀ token ∈ tokens, token.matchLength? cs = none := by
  induction tokens generalizing t with
  | nil => simp [longestOf?]
  | cons token tokens ih =>
      rw [longestOf?, List.forall_mem_cons, ← ih (t := t + 1)]
      cases token.matchLength? cs with
      | none => simp
      | some n =>
          cases longestOf? cs (t + 1) tokens with
          | none => simp
          | some later =>
              by_cases hlt : n < later.length <;> simp [hlt]

/-- What is chosen among some definitions is a winner. -/
theorem wins_of_longestOf? (h : longestOf? cs t tokens = some l) :
    ∃ i token, Wins tokens cs i l.length ∧ tokens[i]? = some token ∧
      l = ⟨l.length, t + i, token.action⟩ := by
  induction tokens generalizing t l with
  | nil => cases h
  | cons token tokens ih =>
      -- A later winner wins here too if it beats the first definition.
      have hlater {l : Lexeme} (hl : longestOf? cs (t + 1) tokens = some l)
          (hlt : ∀ m, token.matchLength? cs = some m → m < l.length) :
          ∃ i other, Wins (token :: tokens) cs i l.length ∧
            (token :: tokens)[i]? = some other ∧ l = ⟨l.length, t + i, other.action⟩ := by
        obtain ⟨i, other, hwins, hother, hl⟩ := ih hl
        refine ⟨i + 1, other, hwins.succ hlt, hother, ?_⟩
        rw [Nat.add_right_comm, Nat.add_assoc] at hl
        exact hl
      rw [longestOf?] at h
      split at h
      · rename_i hnone
        exact hlater h (by simp [hnone])
      · rename_i n hn hnone
        cases h
        rw [longestOf?_eq_none_iff] at hnone
        refine ⟨0, token, .zero hn fun other hother m hm => ?_, rfl, rfl⟩
        rw [hnone other hother] at hm
        cases hm
      · rename_i n later hn hfound
        split at h
        · rename_i hlt
          cases h
          exact hlater hfound (by simpa [hn] using hlt)
        · rename_i hle
          cases h
          obtain ⟨i, _, hwins, _⟩ := ih hfound
          refine ⟨0, token, .zero hn fun other hother m hm => ?_, rfl, rfl⟩
          exact (hwins.longest other hother m hm).trans (Nat.le_of_not_lt hle)

/-- The word at the front of a text has a character, and it ends in the text. -/
theorem length_of_longest? (h : g.longest? cs = some l) : 0 < l.length ∧ l.length ≤ cs.length := by
  obtain ⟨_, _, hwins, -, -⟩ := wins_of_longestOf? h
  obtain ⟨_, -, hmatch⟩ := hwins.reaches
  exact TokenDef.matchLength?_bounds hmatch

theorem longest?_of_wins {i n : Nat} (h : Wins g.tokens cs i n) :
    ∃ token, g.tokens[i]? = some token ∧ g.longest? cs = some ⟨n, i + 1, token.action⟩ := by
  cases hlongest : g.longest? cs with
  | none =>
      obtain ⟨token, hi, hn⟩ := h.reaches
      rw [longestOf?_eq_none_iff.1 hlongest token (List.mem_of_getElem? hi)] at hn
      cases hn
  | some l =>
      obtain ⟨j, token, hwins, htoken, hl⟩ := wins_of_longestOf? hlongest
      obtain ⟨rfl, rfl⟩ := h.unique hwins
      refine ⟨token, htoken, ?_⟩
      rw [hl, Nat.add_comm 1 i]

/-! ### Cutting a text into words -/

/-- A word of a text, with the number of the definition it is a word of. -/
structure Word where
  chars : List Char
  index : Nat

/-- The token that becomes of a word, if it is not skipped. -/
def tokensOf (g : Grammar) (w : Word) : List Token :=
  match g.tokens[w.index]?.map TokenDef.action with
  | some .emit => [.word (w.index + 1) (String.ofList w.chars)]
  | some .hide => [.hiddenWord (w.index + 1) (String.ofList w.chars)]
  | _ => []

/-- The text is cut into words up to `rest`, each the longest match at its place, of the
first definition that reaches it. -/
inductive Munched (g : Grammar) (rest : List Char) : List Word → List Char → Prop
  | nil : Munched g rest [] rest
  | cons {chars cs : List Char} {i : Nat} {ws : List Word} (hne : chars ≠ [])
      (hwins : Wins g.tokens (chars ++ cs) i chars.length) (htail : Munched g rest ws cs) :
      Munched g rest (⟨chars, i⟩ :: ws) (chars ++ cs)

/-- No definition has a match at the front of the text. -/
def IsStuck (g : Grammar) (cs : List Char) : Prop :=
  ∀ token ∈ g.tokens, token.matchLength? cs = none

theorem isStuck_nil (g : Grammar) : g.IsStuck [] := by
  intro token _
  rw [Option.eq_none_iff_forall_ne_some]
  intro n hn
  obtain ⟨hpos, hle⟩ := TokenDef.matchLength?_bounds hn
  exact Nat.not_lt_of_le hle hpos

theorem IsStuck.not_wins {i n : Nat} (h : g.IsStuck cs) : ¬Wins g.tokens cs i n := by
  rintro ⟨⟨token, hi, hn⟩, -, -⟩
  rw [h token (List.mem_of_getElem? hi)] at hn
  cases hn

variable {rest rest' : List Char} {ws ws' : List Word}

/-- There is only one way to cut a text as far as it can be cut. -/
theorem Munched.unique (h : g.Munched rest ws cs) (h' : g.Munched rest' ws' cs)
    (hrest : g.IsStuck rest) (hrest' : g.IsStuck rest') : ws = ws' ∧ rest = rest' := by
  induction h generalizing ws' with
  | nil =>
      cases h' with
      | nil => exact ⟨rfl, rfl⟩
      | cons _ hwins _ => exact absurd hwins hrest.not_wins
  | @cons chars cs i ws _ hwins _ ih =>
      generalize htext : chars ++ cs = text at h' hwins
      cases h' with
      | nil => exact absurd hwins hrest'.not_wins
      | @cons chars' cs' j ws' _ hwins' htail' =>
          obtain ⟨rfl, hlength⟩ := hwins.unique hwins'
          obtain ⟨rfl, rfl⟩ := List.append_inj htext hlength
          obtain ⟨rfl, rfl⟩ := ih htail'
          exact ⟨rfl, rfl⟩

/-- Every text can be cut as far as a place where no definition matches. -/
theorem exists_munched (g : Grammar) (cs : List Char) :
    ∃ ws rest, g.Munched rest ws cs ∧ g.IsStuck rest := by
  -- A match has a character at least, so that less of the text is left after it.
  induction hn : cs.length using Nat.strongRecOn generalizing cs with
  | ind n ih =>
      cases hlongest : g.longest? cs with
      | none => exact ⟨[], cs, .nil, longestOf?_eq_none_iff.1 hlongest⟩
      | some l =>
          obtain ⟨i, token, hwins, -, -⟩ := wins_of_longestOf? hlongest
          obtain ⟨hpos, hle⟩ := length_of_longest? hlongest
          have htake : (cs.take l.length).length = l.length := List.length_take_of_le hle
          obtain ⟨ws, rest, htail, hrest⟩ :=
            ih (cs.drop l.length).length (by rw [List.length_drop]; omega) _ rfl
          have hcut : g.Munched rest (⟨cs.take l.length, i⟩ :: ws)
              (cs.take l.length ++ cs.drop l.length) := by
            refine .cons (List.ne_nil_of_length_pos (by omega)) ?_ htail
            rwa [List.take_append_drop, htake]
          rw [List.take_append_drop] at hcut
          exact ⟨_, rest, hcut, hrest⟩

/-! ### Lexing -/

theorem lexFrom_skip (g : Grammar) (offset : Nat) (chars cs : List Char) :
    g.lexFrom offset chars.length (chars ++ cs) = g.lexFrom (offset + utf8Len chars) 0 cs := by
  induction chars generalizing offset with
  | nil => rfl
  | cons c chars ih =>
      change g.lexFrom (offset + c.utf8Size) chars.length (chars ++ cs) = _
      rw [ih, String.utf8Len_cons, Nat.add_assoc, Nat.add_comm c.utf8Size]

/-- Lexing takes a word and goes on after it. -/
theorem lexFrom_append {offset : Nat} {chars : List Char} (hne : chars ≠ [])
    (hlongest : g.longest? (chars ++ cs) = some l) (hlength : l.length = chars.length) :
    g.lexFrom offset 0 (chars ++ cs) =
      (g.lexFrom (offset + utf8Len chars) 0 cs).map (l.tokens (String.ofList chars) ++ ·) := by
  obtain ⟨c, chars, rfl⟩ := List.exists_cons_of_ne_nil hne
  have hskip : g.lexFrom (offset + c.utf8Size) (l.length - 1) (chars ++ cs) =
      g.lexFrom (offset + utf8Len (c :: chars)) 0 cs := by
    rw [hlength, List.length_cons, Nat.add_sub_cancel, lexFrom_skip, String.utf8Len_cons,
      Nat.add_assoc, Nat.add_comm c.utf8Size]
  have htake : (c :: (chars ++ cs)).take l.length = c :: chars := by
    rw [hlength, ← List.cons_append, List.take_left]
  rw [List.cons_append] at hlongest ⊢
  rw [lexFrom_cons_of_longest? hlongest, hskip, htake]

theorem tokensOf_eq {w : Word} {token : TokenDef} (h : g.tokens[w.index]? = some token) :
    g.tokensOf w =
      Lexeme.tokens ⟨w.chars.length, w.index + 1, token.action⟩ (String.ofList w.chars) := by
  rw [tokensOf, Lexeme.tokens, h, Option.map_some]
  cases token.action <;> rfl

/-- What becomes of a text that begins at a byte offset and is cut into words up to a
place where no definition matches. -/
def resultOf (g : Grammar) (offset : Nat) (ws : List Word) :
    List Char → Except LexFailure (List Token)
  | [] => .ok (ws.flatMap g.tokensOf)
  | c :: _ => .error ⟨offset + utf8Len (ws.flatMap Word.chars), String.singleton c⟩

theorem resultOf_cons (offset : Nat) (w : Word) (ws : List Word) (rest : List Char) :
    g.resultOf offset (w :: ws) rest =
      (g.resultOf (offset + utf8Len w.chars) ws rest).map (g.tokensOf w ++ ·) := by
  cases rest with
  | nil => rfl
  | cons c rest => simp [resultOf, Except.map, Nat.add_assoc]

theorem lexFrom_of_munched (h : g.Munched rest ws cs) (hrest : g.IsStuck rest) (offset : Nat) :
    g.lexFrom offset 0 cs = g.resultOf offset ws rest := by
  induction h generalizing offset with
  | nil =>
      cases rest with
      | nil => rfl
      | cons c rest =>
          rw [lexFrom, longest?, longestOf?_eq_none_iff.2 hrest]
          rfl
  | cons hne hwins _ ih =>
      obtain ⟨token, htoken, hlongest⟩ := longest?_of_wins hwins
      rw [lexFrom_append hne hlongest rfl, ih, resultOf_cons, tokensOf_eq htoken]

theorem exists_lex_eq (g : Grammar) (text : String) :
    ∃ ws rest, g.Munched rest ws text.toList ∧ g.IsStuck rest ∧
      g.lex text = g.resultOf 0 ws rest := by
  obtain ⟨ws, rest, hcut, hrest⟩ := g.exists_munched text.toList
  exact ⟨ws, rest, hcut, hrest, lexFrom_of_munched hcut hrest 0⟩

theorem lex_eq_ok_iff {text : String} {ts : List Token} :
    g.lex text = .ok ts ↔
      ∃ ws, g.Munched [] ws text.toList ∧ ts = ws.flatMap g.tokensOf := by
  constructor
  · intro h
    obtain ⟨ws, rest, hcut, _, hlex⟩ := g.exists_lex_eq text
    rw [h] at hlex
    cases rest with
    | nil =>
        cases hlex
        exact ⟨ws, hcut, rfl⟩
    | cons => cases hlex
  · rintro ⟨ws, hcut, rfl⟩
    exact lexFrom_of_munched hcut g.isStuck_nil 0

end Grammar

namespace GrammarDecl

end GrammarDecl

end Stencil
