import Stencil.Proofs.Munching
import Stencil.Proofs.StatementPatterns

/-!
Blanks in statements. They part words from each other, and the parser does not see them. The
words of a statement never need them, and behind the last word there is nothing to part.

Main statement: the text of a tree is the text it was parsed from without its blanks, and it
is parsed as the same tree.
-/

namespace Stencil

/-- The parser depends on the text by way of the tokens that are not hidden. -/
theorem Grammar.parseText_eq (g : Grammar) (input : String) (start : RuleId) :
    g.parseText input start =
      match (g.lex input).map (List.filter (!·.hidden)) with
      | .error e => .error (.lex e)
      | .ok seen =>
        match g.parse start (.ofList seen) with
        | (.error e, _) => .error (.parse e)
        | (.ok tree, rest) =>
          if rest.atEnd then .ok tree
          else .error (.trailingInput (g.showRule start) rest.nextDisplay) := by
  rw [parseText]
  cases g.lex input <;> rfl

namespace Statement

/-! ### Texts without their blanks -/

theorem blanks_of_wordChars {c : Char} (h : wordChars.mem c = true) : blanks.mem c = false := by
  simp [Regex.CharSet.mem, wordChars, blanks, Text.inRanges] at h ⊢
  omega

theorem IsWord.filter_blanks {t : TokenType} {cs : List Char} (h : IsWord t cs) :
    cs.filter (!blanks.mem ·) = cs := by
  rw [List.filter_eq_self]
  intro c hc
  rcases h.mem hc with hword | hsign
  · simp [blanks_of_wordChars hword]
  · simp [(of_mem_signs hsign).2.2.2]

theorem spell_append (ts us : List Token) : spell (ts ++ us) = spell ts ++ spell us :=
  List.flatMap_append

/-- What is seen of a word is the word, and of a run of blanks nothing. -/
theorem spell_filter_tokens {c : Char} {cs : List Char} {l : Lexeme} (h : lexeme? c cs = some l) :
    spell ((l.tokens (String.ofList ((c :: cs).take l.length))).filter (!·.hidden)) =
      ((c :: cs).take l.length).filter (!blanks.mem ·) := by
  rcases isWord_or_blanks_of_lexeme? h with ⟨hword, haction⟩ | ⟨hblanks, haction⟩
  · rw [Lexeme.tokens, haction, hword.filter_blanks]
    simp [spell, Token.word]
  · have hnil : ((c :: cs).take l.length).filter (!blanks.mem ·) = [] := by
      rw [List.filter_eq_nil_iff]
      intro d hd
      simp [hblanks d hd]
    rw [Lexeme.tokens, haction, hnil]
    rfl

/-- Word by word, as the text is cut. -/
theorem spell_filter_tokensOf {ws : List Grammar.Word} {cs : List Char}
    (h : grammar.Munched [] ws cs) :
    spell ((ws.flatMap grammar.tokensOf).filter (!·.hidden)) = cs.filter (!blanks.mem ·) := by
  induction h with
  | nil => rfl
  | @cons chars cs i ws hne hwins _ ih =>
      obtain ⟨token, htoken, hlongest⟩ := Grammar.longest?_of_wins hwins
      obtain ⟨c, chars, rfl⟩ := List.exists_cons_of_ne_nil hne
      rw [List.cons_append, longest?_cons] at hlongest
      have hword := spell_filter_tokens hlongest
      rw [← List.cons_append, List.take_left] at hword
      rw [List.flatMap_cons, List.filter_append, spell_append, ih, List.filter_append,
        Grammar.tokensOf_eq htoken, hword]

/-- The words of a text are what is left of it without the blanks. -/
theorem spell_lex {input : String} {ts : List Token} (h : grammar.lex input = .ok ts) :
    spell (ts.filter (!·.hidden)) = input.toList.filter (!blanks.mem ·) := by
  obtain ⟨ws, hcut, rfl⟩ := Grammar.lex_eq_ok_iff.1 h
  exact spell_filter_tokensOf hcut

theorem toList_text (tree : Tree) : tree.text.toList = spell tree.leaves := by
  rw [Tree.text_eq_join_leaves, String.toList_join, List.flatMap_map, spell]

theorem start_of_ruleIndex? {rule : String} (hrule : rule = "stat" ∨ rule = "expr")
    {start : RuleId} (hstart : grammar.ruleIndex? rule = some start) : start = 0 ∨ start = 1 := by
  rcases hrule with rfl | rfl
  · cases hstart
    exact .inl rfl
  · cases hstart
    exact .inr rfl

/-- The text of a tree has all that its input has but the blanks, and it is parsed as the
same tree. -/
theorem parseText_text {g : Grammar} (hg : statements.build = .ok g) {rule : String}
    (hrule : rule = "stat" ∨ rule = "expr") {start : RuleId}
    (hstart : g.ruleIndex? rule = some start) {input : String} {tree : Tree}
    (h : g.parseText input start = .ok tree) :
    tree.text.toList = input.toList.filter (!blanks.mem ·) ∧
      g.parseText tree.text start = .ok tree := by
  rw [build_statements] at hg
  cases hg
  obtain ⟨tokens, s, hlex, hparse, hend⟩ := Grammar.parseText_eq_ok_iff.1 h
  have hleaves := Grammar.leaves_of_parse hparse hend
  have hwords : ∀ token ∈ tree.leaves, IsVisible token := hleaves ▸ isVisible_of_lex hlex
  have hnormal := isNormal_of_parse (start_of_ruleIndex? hrule hstart) hparse hend
  refine ⟨by rw [toList_text, hleaves, spell_lex hlex], ?_⟩
  -- no two words run together, so that the leaves are lexed again from the text
  have hagain : grammar.lex tree.text = .ok tree.leaves := by
    rw [← String.ofList_toList (s := tree.text), toList_text]
    exact lex_spell hwords hnormal.separated
  refine Grammar.parseText_eq_ok_iff.2 ⟨tree.leaves, s, hagain, ?_, hend⟩
  rw [filter_visible hwords, hleaves, hparse]

theorem parseText_text_product :
    statements.build = .ok grammar ∧ grammar.ruleIndex? "stat" = some 0 ∧
      grammar.parseText "a = (b +\t1) * c ;\n" 0 = .ok productTree ∧
      productTree.text = "a=(b+1)*c;" ∧
      grammar.parseText "a=(b+1)*c;" 0 = .ok productTree := by
  have hparse : grammar.parseText "a = (b +\t1) * c ;\n" 0 = .ok productTree := by
    decide +kernel
  obtain ⟨htext, hagain⟩ := parseText_text build_statements (.inl rfl) rfl hparse
  have hproduct : productTree.text = "a=(b+1)*c;" := by
    rw [← String.toList_inj, htext]
    decide +kernel
  exact ⟨build_statements, rfl, hparse, hproduct, hproduct ▸ hagain⟩

/-! ### Blanks at the end -/

/-- A blank begins a run of blanks and nothing else. -/
theorem lexeme?_of_blank {c : Char} (hc : blanks.mem c = true) (cs : List Char) :
    lexeme? c cs = some ⟨1 + (cs.takeWhile blanks.mem).length, 9, .hide⟩ := by
  have hsign : c ∉ signs := by
    intro hmem
    rw [(of_mem_signs hmem).2.2.2] at hc
    cases hc
  have hletter : ¬letters.mem c = true := by
    intro hl
    rw [(digits_of_letters hl).2] at hc
    cases hc
  have hdigit : ¬digits.mem c = true := by
    intro hd
    rw [blanks_of_digits hd] at hc
    cases hc
  rw [lexeme?, if_neg hsign, if_neg hletter, if_neg hdigit, if_pos hc]

/-- A run that ends in a text ends there too when the text goes on. -/
theorem takeWhile_append_of_exists {p : Char → Bool} {cs : List Char}
    (h : ∃ d ∈ cs, p d = false) (rest : List Char) :
    (cs ++ rest).takeWhile p = cs.takeWhile p := by
  obtain ⟨d, hd, hp⟩ := h
  rw [List.takeWhile_append, if_neg]
  intro hlength
  have hall := (List.takeWhile_prefix p).eq_of_length hlength
  rw [← hall] at hd
  rw [List.mem_takeWhile_imp hd] at hp
  cases hp

theorem map_filter_append {ε : Type} (ts : List Token) (result : Except ε (List Token)) :
    (result.map (ts ++ ·)).map (List.filter (!·.hidden)) =
      (result.map (List.filter (!·.hidden))).map (ts.filter (!·.hidden) ++ ·) := by
  cases result with
  | error e => rfl
  | ok us => exact congrArg Except.ok (List.filter_append ts us)

section Tail

variable {tail : List Char} (htail : ∀ c ∈ tail, blanks.mem c = true)
include htail

/-- A run of characters that are no blanks does not go on into the blanks behind it. -/
theorem takeWhile_append_tail {p : Char → Bool} (hp : ∀ c, p c = true → blanks.mem c = false)
    (cs : List Char) : (cs ++ tail).takeWhile p = cs.takeWhile p := by
  induction cs with
  | nil =>
      rw [List.nil_append, List.takeWhile_nil, List.takeWhile_eq_nil_iff]
      intro hlt hfirst
      have hblank := htail _ (List.get_mem tail ⟨0, hlt⟩)
      rw [hp _ hfirst] at hblank
      cases hblank
  | cons c cs ih => rw [List.cons_append, List.takeWhile_cons, List.takeWhile_cons, ih]

/-- Of blanks nothing is seen. -/
theorem lexFrom_blanks (offset : Nat) :
    (grammar.lexFrom offset 0 tail).map (List.filter (!·.hidden)) = .ok [] := by
  cases tail with
  | nil => rfl
  | cons c cs =>
      obtain ⟨hc, hcs⟩ := List.forall_mem_cons.1 htail
      have hlongest : grammar.longest? (c :: cs ++ []) = some ⟨1 + cs.length, 9, .hide⟩ := by
        rw [List.append_nil, longest?_cons, lexeme?_of_blank hc, List.takeWhile_eq_self_iff.2 hcs]
      rw [← List.append_nil (c :: cs), Grammar.lexFrom_append (List.cons_ne_nil c cs) hlongest
        (Nat.add_comm 1 cs.length)]
      rfl

/-- The first word of a text that is not blank stays the same with blanks at the end. -/
theorem lexeme?_append_tail {c : Char} {cs : List Char}
    (h : ∃ d ∈ c :: cs, blanks.mem d = false) : lexeme? c (cs ++ tail) = lexeme? c cs := by
  by_cases hc : blanks.mem c = true
  · have hcs : ∃ d ∈ cs, blanks.mem d = false := by
      obtain ⟨d, hd, hblank⟩ := h
      rcases List.mem_cons.1 hd with rfl | hd
      · rw [hc] at hblank
        cases hblank
      · exact ⟨d, hd, hblank⟩
    rw [lexeme?_of_blank hc, lexeme?_of_blank hc, takeWhile_append_of_exists hcs]
  · simp only [lexeme?, takeWhile_append_tail htail fun _ => blanks_of_wordChars,
      takeWhile_append_tail htail fun _ => blanks_of_digits, if_neg hc]

/-- The tokens that are seen stay the same, and so does the failure if there is one. The first
`n` characters belong to a word that was found before. -/
theorem lexFrom_append_tail {offset n : Nat} {cs : List Char} (hn : n ≤ cs.length) :
    (grammar.lexFrom offset n (cs ++ tail)).map (List.filter (!·.hidden)) =
      (grammar.lexFrom offset n cs).map (List.filter (!·.hidden)) := by
  induction cs generalizing offset n with
  | nil =>
      cases Nat.le_zero.1 hn
      exact lexFrom_blanks htail offset
  | cons c cs ih =>
      cases n with
      | succ n => exact ih (Nat.le_of_succ_le_succ hn)
      | zero =>
          by_cases hblank : ∃ d ∈ c :: cs, blanks.mem d = false
          · have hsame : grammar.longest? (c :: (cs ++ tail)) = grammar.longest? (c :: cs) := by
              rw [longest?_cons, longest?_cons, lexeme?_append_tail htail hblank]
            rw [List.cons_append]
            cases hlongest : grammar.longest? (c :: cs) with
            | none =>
                rw [Grammar.lexFrom_cons_of_none hlongest,
                  Grammar.lexFrom_cons_of_none (hsame.trans hlongest)]
            | some l =>
                -- the first word ends in the text, and the rest is lexed alike
                obtain ⟨_, hle⟩ := Grammar.length_of_longest? hlongest
                have hrest : l.length - 1 ≤ cs.length := by
                  rw [List.length_cons] at hle
                  omega
                rw [Grammar.lexFrom_cons_of_longest? hlongest,
                  Grammar.lexFrom_cons_of_longest? (hsame.trans hlongest), ← List.cons_append,
                  List.take_append_of_le_length hle, map_filter_append, map_filter_append, ih hrest]
          · -- all blanks are one word, a longer one with those at the end, and it is hidden
            have hcs : ∀ d ∈ c :: cs, blanks.mem d = true := by
              intro d hd
              by_contra hd'
              exact hblank ⟨d, hd, by simpa using hd'⟩
            rw [lexFrom_blanks hcs]
            exact lexFrom_blanks (List.forall_mem_append.2 ⟨hcs, htail⟩) offset

theorem lex_append_tail (input : String) :
    (grammar.lex (input ++ String.ofList tail)).map (List.filter (!·.hidden)) =
      (grammar.lex input).map (List.filter (!·.hidden)) := by
  rw [Grammar.lex, Grammar.lex, String.toList_append, String.toList_ofList]
  exact lexFrom_append_tail htail (Nat.zero_le _)

/-- Blanks at the end of a text change neither its tree nor the reason why it has none. -/
theorem parseText_append_tail (input : String) (start : RuleId) :
    grammar.parseText (input ++ String.ofList tail) start = grammar.parseText input start := by
  rw [Grammar.parseText_eq, Grammar.parseText_eq, lex_append_tail htail]

end Tail

end Statement

end Stencil
