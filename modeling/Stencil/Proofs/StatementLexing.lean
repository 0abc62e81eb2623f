import Mathlib.Data.List.Chain
import Mathlib.Data.List.TakeWhile
import Stencil.Proofs.Lexing
import Stencil.Proofs.Statements

/-!
Lexing statements. The first character of a word tells what the word is, and how
far it goes.

Main statement: the tokens of a text, put together again without what was between
them, are lexed as the same tokens, as long as no two of them are identifiers or
numbers that stand next to each other.
-/

namespace Stencil

namespace Statement

/-- The characters that are words by themselves. -/
def signs : List Char := ['=', ';', '*', '+', '(', ')']

/-- The word a text begins with. -/
def lexeme? (c : Char) (cs : List Char) : Option Lexeme :=
  if c ∈ signs then some ⟨1, 1 + signs.idxOf c, .emit⟩
  else if letters.mem c then some ⟨1 + (cs.takeWhile wordChars.mem).length, 7, .emit⟩
  else if digits.mem c then some ⟨1 + (cs.takeWhile digits.mem).length, 8, .emit⟩
  else if blanks.mem c then some ⟨1 + (cs.takeWhile blanks.mem).length, 9, .hide⟩
  else none

theorem matchLength?_singleton (d c : Char) (cs : List Char) :
    (TokenDef.literal (String.singleton d)).matchLength? (c :: cs) =
      if c = d then some 1 else none := by
  by_cases hc : c = d
  · simp [TokenDef.matchLength?, hc]
  · simp [TokenDef.matchLength?, hc, Ne.symm hc]

theorem matchLength?_named {a b : Regex.CharSet} {prog : Regex.Program} {c : Char} {cs : List Char}
    (h : prog.search? (c :: cs) =
      if a.mem c then some ⟨0, 1 + (cs.takeWhile b.mem).length⟩ else none)
    (name : String) (action : Action) :
    (TokenDef.named name action prog).matchLength? (c :: cs) =
      if a.mem c then some (1 + (cs.takeWhile b.mem).length) else none := by
  by_cases hc : a.mem c = true
  · have hpos : 0 < 1 + (cs.takeWhile b.mem).length := by omega
    simp [TokenDef.matchLength?, h, hc, hpos]
  · simp [TokenDef.matchLength?, h, hc]

section Literals

variable {c : Char} {cs ds : List Char} {defs : List TokenDef} {t : TokenType}

theorem longestOf?_of_not_mem (h : c ∉ ds) :
    Grammar.longestOf? (c :: cs) t (ds.map (.literal <| String.singleton ·) ++ defs) =
      Grammar.longestOf? (c :: cs) (t + ds.length) defs := by
  induction ds generalizing t with
  | nil => rfl
  | cons d ds ih =>
      rw [List.mem_cons, not_or] at h
      rw [List.map_cons, List.cons_append, Grammar.longestOf?, matchLength?_singleton, if_neg h.1,
        ih h.2, List.length_cons, Nat.add_right_comm, Nat.add_assoc]

/-- Of several literals with one character each, the first that fits is taken. -/
theorem longestOf?_of_mem (h : c ∈ ds)
    (hdefs : ∀ t, Grammar.longestOf? (c :: cs) t defs = none) :
    Grammar.longestOf? (c :: cs) t (ds.map (.literal <| String.singleton ·) ++ defs) =
      some ⟨1, t + ds.idxOf c, .emit⟩ := by
  induction ds generalizing t with
  | nil => cases h
  | cons d ds ih =>
      rw [List.map_cons, List.cons_append, Grammar.longestOf?, matchLength?_singleton]
      by_cases hc : c = d
      · subst hc
        by_cases hmem : c ∈ ds
        · rw [ih hmem]
          simp [TokenDef.action]
        · rw [longestOf?_of_not_mem hmem, hdefs]
          simp [TokenDef.action]
      · have hmem : c ∈ ds := (List.mem_cons.1 h).resolve_left hc
        rw [if_neg hc, ih hmem, List.idxOf_cons_ne _ (Ne.symm hc), Nat.add_right_comm,
          Nat.add_assoc]

end Literals

/-- No word of more than one character begins with a sign. -/
theorem of_mem_signs {c : Char} (h : c ∈ signs) :
    letters.mem c = false ∧ wordChars.mem c = false ∧ digits.mem c = false ∧
      blanks.mem c = false := by
  simp only [signs, List.mem_cons, List.not_mem_nil, or_false] at h
  rcases h with rfl | rfl | rfl | rfl | rfl | rfl <;> decide

theorem digits_of_letters {c : Char} (h : letters.mem c = true) :
    digits.mem c = false ∧ blanks.mem c = false := by
  simp [Regex.CharSet.mem, letters, digits, blanks, Text.inRanges] at h ⊢
  omega

theorem blanks_of_digits {c : Char} (h : digits.mem c = true) : blanks.mem c = false := by
  simp [Regex.CharSet.mem, digits, blanks, Text.inRanges] at h ⊢
  omega

/-- At most one of the named tokens can begin with a given character. -/
theorem longestOf?_named (c : Char) (cs : List Char) (t : TokenType) :
    Grammar.longestOf? (c :: cs) t
      [.named "ID" .emit (.leading letters wordChars), .named "INT" .emit (.repeating digits),
        .named "WS" .hide (.repeating blanks)] =
      if letters.mem c then some ⟨1 + (cs.takeWhile wordChars.mem).length, t, .emit⟩
      else if digits.mem c then some ⟨1 + (cs.takeWhile digits.mem).length, t + 1, .emit⟩
      else if blanks.mem c then some ⟨1 + (cs.takeWhile blanks.mem).length, t + 2, .hide⟩
      else none := by
  have hid := matchLength?_named (Regex.Program.search?_leading letters wordChars c cs) "ID" .emit
  have hint := matchLength?_named (Regex.Program.search?_repeating digits c cs) "INT" .emit
  have hws := matchLength?_named (Regex.Program.search?_repeating blanks c cs) "WS" .hide
  simp only [Grammar.longestOf?, hid, hint, hws]
  by_cases hl : letters.mem c = true
  · obtain ⟨hd, hb⟩ := digits_of_letters hl
    simp [hl, hd, hb, TokenDef.action]
  · by_cases hd : digits.mem c = true
    · simp [hl, hd, blanks_of_digits hd, TokenDef.action]
    · by_cases hb : blanks.mem c = true
      · simp [hl, hd, hb, TokenDef.action]
      · simp [hl, hd, hb]

theorem longest?_cons (c : Char) (cs : List Char) : grammar.longest? (c :: cs) = lexeme? c cs := by
  have htokens : grammar.tokens = signs.map (.literal <| String.singleton ·) ++
      [.named "ID" .emit (.leading letters wordChars), .named "INT" .emit (.repeating digits),
        .named "WS" .hide (.repeating blanks)] := rfl
  rw [Grammar.longest?, htokens, lexeme?]
  by_cases hmem : c ∈ signs
  · obtain ⟨hl, _, hd, hb⟩ := of_mem_signs hmem
    rw [if_pos hmem, longestOf?_of_mem hmem]
    intro t
    simp [longestOf?_named, hl, hd, hb]
  · rw [longestOf?_of_not_mem hmem, longestOf?_named, if_neg hmem]
    rfl

/-! ### Words -/

/-- The words of each token type that a parser sees. -/
inductive IsWord : TokenType → List Char → Prop
  | sign {c : Char} (h : c ∈ signs) : IsWord (1 + signs.idxOf c) [c]
  | name {c : Char} {cs : List Char} (hc : letters.mem c = true)
      (hcs : ∀ d ∈ cs, wordChars.mem d = true) : IsWord 7 (c :: cs)
  | number {c : Char} {cs : List Char} (hc : digits.mem c = true)
      (hcs : ∀ d ∈ cs, digits.mem d = true) : IsWord 8 (c :: cs)

/-- A token as lexing makes it, if it is not hidden. -/
def IsVisible (token : Token) : Prop :=
  ∃ t cs, IsWord t cs ∧ token = .word t (String.ofList cs)

/-- Identifiers and numbers. -/
def IsLong (token : Token) : Prop :=
  token.kind = .type 7 ∨ token.kind = .type 8

/-- No identifier or number follows another one. -/
def Separated (ts : List Token) : Prop :=
  ts.IsChain fun a b => ¬(IsLong a ∧ IsLong b)

theorem wordChars_of_digits {c : Char} (h : digits.mem c = true) : wordChars.mem c = true := by
  simp [Regex.CharSet.mem, digits, wordChars, Text.inRanges] at h ⊢
  omega

theorem wordChars_of_letters {c : Char} (h : letters.mem c = true) : wordChars.mem c = true := by
  simp [Regex.CharSet.mem, letters, wordChars, Text.inRanges] at h ⊢
  omega

theorem IsWord.mem {t : TokenType} {cs : List Char} (h : IsWord t cs) {c : Char} (hc : c ∈ cs) :
    wordChars.mem c = true ∨ c ∈ signs := by
  cases h with
  | sign hsign =>
      cases List.mem_singleton.1 hc
      exact .inr hsign
  | name hfirst hcs =>
      rcases List.mem_cons.1 hc with rfl | hc
      · exact .inl (wordChars_of_letters hfirst)
      · exact .inl (hcs c hc)
  | number hfirst hcs =>
      rcases List.mem_cons.1 hc with rfl | hc
      · exact .inl (wordChars_of_digits hfirst)
      · exact .inl (wordChars_of_digits (hcs c hc))

/-- A run of characters goes on until the first that is not in the set. -/
theorem takeWhile_append_eq {p : Char → Bool} {cs rest : List Char} (hcs : ∀ c ∈ cs, p c = true)
    (hrest : ∀ d ∈ rest.head?, p d = false) : (cs ++ rest).takeWhile p = cs := by
  rw [List.takeWhile_append_of_pos hcs]
  cases rest with
  | nil => simp
  | cons d rest =>
      have hd : p d = false := hrest d rfl
      simp [hd]

/-- A word is taken whole, and no more than it. -/
theorem IsWord.longest?_append {t : TokenType} {cs rest : List Char} (h : IsWord t cs)
    (hrest : t = 7 ∨ t = 8 → ∀ d ∈ rest.head?, wordChars.mem d = false) :
    grammar.longest? (cs ++ rest) = some ⟨cs.length, t, .emit⟩ := by
  have hsign {c : Char} (hc : wordChars.mem c = true) : c ∉ signs := by
    intro hmem
    rw [(of_mem_signs hmem).2.1] at hc
    cases hc
  cases h with
  | sign hmem =>
      rw [List.singleton_append, longest?_cons, lexeme?, if_pos hmem]
      rfl
  | @name c cs hc hcs =>
      rw [List.cons_append, longest?_cons, lexeme?, if_neg (hsign (wordChars_of_letters hc)),
        if_pos hc, takeWhile_append_eq hcs (hrest (.inl rfl)), List.length_cons, Nat.add_comm]
  | @number c cs hc hcs =>
      have hstop : ∀ d ∈ rest.head?, digits.mem d = false := by
        intro d hd
        cases hdigit : digits.mem d with
        | false => rfl
        | true => rw [← hrest (.inr rfl) d hd, wordChars_of_digits hdigit]
      have hletter : ¬ letters.mem c = true := by
        intro hl
        rw [(digits_of_letters hl).1] at hc
        cases hc
      rw [List.cons_append, longest?_cons, lexeme?, if_neg (hsign (wordChars_of_digits hc)),
        if_neg hletter, if_pos hc, takeWhile_append_eq hcs hstop, List.length_cons, Nat.add_comm]

theorem lexFrom_word {t : TokenType} {cs rest : List Char} {ts : List Token} {offset : Nat}
    (h : IsWord t cs) (hrest : t = 7 ∨ t = 8 → ∀ d ∈ rest.head?, wordChars.mem d = false)
    (hts : grammar.lexFrom 0 0 rest = .ok ts) :
    grammar.lexFrom offset 0 (cs ++ rest) = .ok (.word t (String.ofList cs) :: ts) := by
  have hlongest := h.longest?_append hrest
  obtain ⟨c, cs, rfl⟩ : ∃ c cs', cs = c :: cs' := by
    cases h <;> exact ⟨_, _, rfl⟩
  rw [List.cons_append] at hlongest ⊢
  rw [Grammar.lexFrom_cons_eq_ok_iff]
  refine ⟨_, ts, hlongest, ?_, ?_⟩
  · rw [Grammar.lexFrom_eq_ok_iff 0]
    simpa using hts
  · simp [Lexeme.tokens]

theorem IsVisible.exists_sign {token : Token} (h : IsVisible token) (hlong : ¬IsLong token) :
    ∃ c ∈ signs, token.text.toList = [c] := by
  obtain ⟨t, cs, hword, rfl⟩ := h
  cases hword with
  | @sign c hc => exact ⟨c, hc, by simp [Token.word]⟩
  | name _ _ => exact absurd (.inl rfl) hlong
  | number _ _ => exact absurd (.inr rfl) hlong

/-- Words that are put together are found again. -/
theorem lexFrom_words {ts : List Token} (hts : ∀ token ∈ ts, IsVisible token)
    (hsep : Separated ts) (offset : Nat) :
    grammar.lexFrom offset 0 (ts.flatMap fun token => token.text.toList) = .ok ts := by
  induction ts generalizing offset with
  | nil => rfl
  | cons token ts ih =>
      obtain ⟨t, cs, hword, rfl⟩ := hts token List.mem_cons_self
      have htail : ∀ token ∈ ts, IsVisible token := by
        intro token htoken
        exact hts token (List.mem_cons_of_mem _ htoken)
      rw [Separated, List.isChain_cons] at hsep
      -- behind an identifier or a number comes a sign, or nothing
      have hrest : t = 7 ∨ t = 8 →
          ∀ d ∈ (ts.flatMap fun token => token.text.toList).head?, wordChars.mem d = false := by
        intro hlong d hd
        cases ts with
        | nil => cases hd
        | cons next ts =>
            have hfirst : IsLong (.word t (String.ofList cs)) := by
              simpa [IsLong, Token.word] using hlong
            have hnext : ¬IsLong next := fun h => hsep.1 next rfl ⟨hfirst, h⟩
            obtain ⟨c, hc, htext⟩ := (htail next List.mem_cons_self).exists_sign hnext
            have heq : c = d := by simpa [htext] using hd
            exact heq ▸ (of_mem_signs hc).2.1
      rw [List.flatMap_cons, Token.word, String.toList_ofList]
      exact lexFrom_word hword hrest (ih htail hsep.2 0)

theorem take_takeWhile (p : Char → Bool) (c : Char) (cs : List Char) :
    (c :: cs).take (1 + (cs.takeWhile p).length) = c :: cs.takeWhile p := by
  rw [Nat.add_comm, List.take_succ_cons, ← List.prefix_iff_eq_take.1 (List.takeWhile_prefix p)]

theorem mem_of_mem_takeWhile {s : Regex.CharSet} {cs : List Char} {d : Char}
    (h : d ∈ cs.takeWhile s.mem) : s.mem d = true := by
  have hmem := List.mem_takeWhile_imp h
  exact hmem

/-- What a text begins with is a word of its type, or a run of blanks. -/
theorem isWord_or_blanks_of_lexeme? {c : Char} {cs : List Char} {l : Lexeme}
    (h : lexeme? c cs = some l) :
    (IsWord l.type ((c :: cs).take l.length) ∧ l.action = .emit) ∨
      (∀ d ∈ (c :: cs).take l.length, blanks.mem d = true) ∧ l.action = .hide := by
  unfold lexeme? at h
  split at h
  · rename_i hsign
    cases h
    exact .inl ⟨.sign hsign, rfl⟩
  · split at h
    · rename_i hletter
      cases h
      rw [take_takeWhile]
      exact .inl ⟨.name hletter fun _ => mem_of_mem_takeWhile, rfl⟩
    · split at h
      · rename_i hdigit
        cases h
        rw [take_takeWhile]
        exact .inl ⟨.number hdigit fun _ => mem_of_mem_takeWhile, rfl⟩
      · split at h
        · rename_i hblank
          cases h
          rw [take_takeWhile]
          exact .inr ⟨List.forall_mem_cons.2 ⟨hblank, fun _ => mem_of_mem_takeWhile⟩, rfl⟩
        · cases h

theorem isVisible_of_lexeme? {c : Char} {cs : List Char} {l : Lexeme} (h : lexeme? c cs = some l)
    {token : Token} (htoken : token ∈ l.tokens (String.ofList ((c :: cs).take l.length)))
    (hvisible : token.hidden = false) : IsVisible token := by
  rcases isWord_or_blanks_of_lexeme? h with ⟨hword, haction⟩ | ⟨_, haction⟩
  · rw [Lexeme.tokens, haction] at htoken
    exact ⟨_, _, hword, List.mem_singleton.1 htoken⟩
  · rw [Lexeme.tokens, haction] at htoken
    cases List.mem_singleton.1 htoken
    cases hvisible

/-- Every token that is not hidden is a word of its type. -/
theorem isVisible_of_lexFrom {offset n : Nat} {cs : List Char} {ts : List Token}
    (h : grammar.lexFrom offset n cs = .ok ts) :
    ∀ token ∈ ts, token.hidden = false → IsVisible token := by
  -- the first `n` characters belong to a word that was found before
  induction cs generalizing offset n ts with
  | nil =>
      cases h
      simp
  | cons c cs ih =>
      cases n with
      | succ n => exact ih h
      | zero =>
          obtain ⟨l, tail, hlongest, htail, rfl⟩ := Grammar.lexFrom_cons_eq_ok_iff.1 h
          intro token htoken hvisible
          rcases List.mem_append.1 htoken with hfirst | htoken
          · rw [longest?_cons] at hlongest
            exact isVisible_of_lexeme? hlongest hfirst hvisible
          · exact ih htail token htoken hvisible

/-! ### The leaves of statements are separated -/

theorem Separated.append_cons {ts us : List Token} {token : Token} (hts : Separated ts)
    (hus : Separated us) (htoken : ¬IsLong token) : Separated (ts ++ token :: us) := by
  refine List.isChain_append.2 ⟨hts, List.isChain_cons.2 ⟨?_, hus⟩, ?_⟩
  · intro next _ hlong
    exact htoken hlong.1
  · intro last _ first hfirst hlong
    cases hfirst
    exact htoken hlong.2

theorem separated_singleton (token : Token) : Separated [token] :=
  .singleton token

theorem not_isLong {token : Token} {t : TokenType} (hkind : token.kind = .type t)
    (ht : t ∉ [7, 8]) : ¬IsLong token := by
  intro hlong
  apply ht
  simpa [IsLong, hkind] using hlong

theorem IsExpression.separated {m : Nat} {tree : Tree} (h : IsExpression m tree) :
    Separated tree.leaves := by
  induction h with
  | placeholder hkind => exact separated_singleton _
  | atom hmem hkind => exact separated_singleton _
  | @bracket m opening closing a b inner hmem ha hinner hb ih =>
      obtain ⟨rfl, rfl⟩ : opening = 5 ∧ closing = 6 := by simpa using hmem
      have hfront := Separated.append_cons .nil ih (not_isLong ha (by decide))
      simpa using hfront.append_cons .nil (not_isLong hb (by decide))
  | @binary m i t op l r ht hm hop hl hr ihl ihr =>
      have ht : t ∉ [7, 8] := by
        have hmem : t = 3 ∨ t = 4 := by simpa using List.mem_of_getElem? ht
        rcases hmem with rfl | rfl <;> decide
      simpa using ihl.append_cons ihr (not_isLong hop ht)

/-- No two words of a statement stand next to each other without a sign. -/
theorem IsNormal.separated {start : RuleId} {tree : Tree} (h : IsNormal start tree) :
    Separated tree.leaves := by
  cases h with
  | placeholder hkind => exact separated_singleton _
  | @assignment name equals stop value hname hequals hvalue hstop =>
      have hvalue := IsExpression.separated hvalue
      have hfront := (separated_singleton name).append_cons hvalue (not_isLong hequals (by decide))
      simpa using hfront.append_cons .nil (not_isLong hstop (by decide))
  | evaluation hvalue hstop =>
      have hvalue := IsExpression.separated hvalue
      simpa using hvalue.append_cons .nil (not_isLong hstop (by decide))
  | expression h => exact IsExpression.separated h

end Statement

end Stencil
