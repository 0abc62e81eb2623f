import Stencil.Grammar.Lex

/-!
Lexing one word after the other. What comes of a text is the first word of it and
what comes of the rest, wherever the text stands, and all visible tokens are words
without a tag.
-/

namespace Stencil

namespace Grammar

variable {g : Grammar} {offset n : Nat} {c : Char} {cs : List Char} {ts : List Token}

@[simp] theorem lexFrom_nil : g.lexFrom offset n [] = .ok [] := by
  cases n <;> rfl

theorem lexFrom_cons :
    g.lexFrom offset 0 (c :: cs) =
      match g.longest? (c :: cs) with
      | none => .error ⟨offset, String.singleton c⟩
      | some l =>
        match g.lexFrom (offset + c.utf8Size) (l.length - 1) cs with
        | .ok tokens => .ok (l.tokens (String.ofList ((c :: cs).take l.length)) ++ tokens)
        | .error e => .error e :=
  rfl

theorem lexFrom_cons_of_none (h : g.longest? (c :: cs) = none) :
    g.lexFrom offset 0 (c :: cs) = .error ⟨offset, String.singleton c⟩ := by
  rw [lexFrom_cons, h]

theorem lexFrom_cons_of_longest? {l : Lexeme} (h : g.longest? (c :: cs) = some l) :
    g.lexFrom offset 0 (c :: cs) = (g.lexFrom (offset + c.utf8Size) (l.length - 1) cs).map
      (l.tokens (String.ofList ((c :: cs).take l.length)) ++ ·) := by
  rw [lexFrom_cons, h]
  dsimp only
  cases g.lexFrom (offset + c.utf8Size) (l.length - 1) cs <;> rfl

theorem lexFrom_cons_eq_ok_iff :
    g.lexFrom offset 0 (c :: cs) = .ok ts ↔ ∃ l tail, g.longest? (c :: cs) = some l ∧
      g.lexFrom (offset + c.utf8Size) (l.length - 1) cs = .ok tail ∧
      ts = l.tokens (String.ofList ((c :: cs).take l.length)) ++ tail := by
  cases hlongest : g.longest? (c :: cs) with
  | none => simp [lexFrom_cons_of_none hlongest]
  | some l =>
      rw [lexFrom_cons_of_longest? hlongest]
      cases htail : g.lexFrom (offset + c.utf8Size) (l.length - 1) cs with
      | error e => simp [htail, Except.map]
      | ok tail => simp [htail, Except.map, eq_comm]

/-- What is lexed does not depend on where the text stands. -/
theorem lexFrom_eq_ok_iff (offset' : Nat) :
    g.lexFrom offset n cs = .ok ts ↔ g.lexFrom offset' 0 (cs.drop n) = .ok ts := by
  induction cs generalizing offset offset' n ts with
  | nil => simp
  | cons c cs ih =>
      cases n with
      | succ n => exact ih offset'
      | zero =>
          have hshift {l : Lexeme} {tail : List Token} :
              g.lexFrom (offset + c.utf8Size) (l.length - 1) cs = .ok tail ↔
                g.lexFrom (offset' + c.utf8Size) (l.length - 1) cs = .ok tail :=
            (ih 0).trans (ih 0).symm
          rw [List.drop_zero, lexFrom_cons_eq_ok_iff, lexFrom_cons_eq_ok_iff]
          simp only [hshift]

end Grammar

/-- A word of a text, as the parser sees it. -/
def Token.IsWord (token : Token) : Prop :=
  ∃ t text, token = .word t text

theorem Lexeme.kind_of_mem_tokens {l : Lexeme} {text : String} {token : Token}
    (h : token ∈ l.tokens text) : token.kind = .type l.type := by
  unfold tokens at h
  split at h
  · rw [List.mem_singleton.1 h]
    rfl
  · rw [List.mem_singleton.1 h]
    rfl
  · cases h

theorem Lexeme.isWord_of_mem_tokens {l : Lexeme} {text : String} {token : Token}
    (h : token ∈ l.tokens text) (hvisible : token.hidden = false) : token.IsWord := by
  unfold tokens at h
  split at h
  · exact ⟨l.type, text, List.mem_singleton.1 h⟩
  · cases List.mem_singleton.1 h
    cases hvisible
  · cases h

namespace Grammar

variable {g : Grammar} {offset n : Nat} {cs : List Char} {ts : List Token}

theorem isWord_of_lexFrom (h : g.lexFrom offset n cs = .ok ts) {token : Token}
    (htoken : token ∈ ts) (hvisible : token.hidden = false) : token.IsWord := by
  induction cs generalizing offset n ts with
  | nil =>
      rw [lexFrom_nil] at h
      cases h
      cases htoken
  | cons c cs ih =>
      cases n with
      | succ n => exact ih h htoken
      | zero =>
          obtain ⟨l, tail, _, htail, rfl⟩ := lexFrom_cons_eq_ok_iff.1 h
          rcases List.mem_append.1 htoken with hfirst | hlater
          · exact l.isWord_of_mem_tokens hfirst hvisible
          · exact ih htail hlater

/-- The parser is given nothing but words. -/
theorem isWord_of_lex {input : String} (h : g.lex input = .ok ts) :
    ∀ token ∈ ts.filter (!·.hidden), token.IsWord := by
  intro token htoken
  obtain ⟨hmem, hvisible⟩ := List.mem_filter.1 htoken
  exact isWord_of_lexFrom h hmem (by simpa using hvisible)

end Grammar

end Stencil
