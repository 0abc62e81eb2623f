import Stencil.Regex.Reader

/-!
Reading a regular expression inside a group. A reader that succeeds has seen the end of
what it reads, or else the end of the text; a closing parenthesis does for that end as
well. So a text that is a regular expression on its own is read in the same way when a
parenthesis is closed behind it, and reading stops at that parenthesis.
-/

namespace Stencil.Regex

/-- What is read is the same if the text goes on with a closing parenthesis. -/
def Stable {α : Type} (read : List Char → Option (α × List Char)) : Prop :=
  ∀ {cs a rest}, read cs = some (a, rest) → read (cs ++ [')']) = some (a, rest ++ [')'])

/-! ### Runs of characters -/

section Runs

variable {p : Char → Bool} {cs rest t : List Char} {c : Char}

theorem takeWhile_append_of_dropWhile (h : cs.dropWhile p = c :: rest) :
    (cs ++ t).takeWhile p = cs.takeWhile p := by
  have hlength := congrArg List.length (List.takeWhile_append_dropWhile (p := p) (l := cs))
  rw [h, List.length_append, List.length_cons] at hlength
  rw [List.takeWhile_append, if_neg (by omega)]

theorem dropWhile_append_of_dropWhile (h : cs.dropWhile p = c :: rest) :
    (cs ++ t).dropWhile p = c :: (rest ++ t) := by
  rw [List.dropWhile_append, h]
  rfl

theorem takeWhile_append_paren (h : p ')' = false) :
    (cs ++ [')']).takeWhile p = cs.takeWhile p := by
  rw [List.takeWhile_append]
  split
  · rename_i hall
    rw [List.takeWhile_cons_of_neg (by simp [h]), List.append_nil,
      (List.takeWhile_prefix p).eq_of_length hall]
  · rfl

theorem dropWhile_append_paren (h : p ')' = false) :
    (cs ++ [')']).dropWhile p = cs.dropWhile p ++ [')'] := by
  rw [List.dropWhile_append]
  split
  · rename_i hnil
    rw [List.isEmpty_iff.1 hnil, List.dropWhile_cons_of_neg (by simp [h]), List.nil_append]
  · rfl

theorem exists_cons_or (c : Char) (cs : List Char) :
    (∃ more, cs = c :: more) ∨ ∀ more, cs ≠ c :: more := by
  by_cases h : ∃ more, cs = c :: more
  · exact .inl h
  · exact .inr fun more heq => h ⟨more, heq⟩

/-- The parenthesis does not stand for another character, even if nothing is before it. -/
theorem append_paren_ne_cons (hc : c ≠ ')') (h : ∀ more, cs ≠ c :: more) (more : List Char) :
    cs ++ [')'] ≠ c :: more := by
  cases cs with
  | nil =>
      intro heq
      rw [List.nil_append, List.cons.injEq] at heq
      exact hc heq.1.symm
  | cons d cs =>
      intro heq
      rw [List.cons_append, List.cons.injEq] at heq
      exact h cs (by rw [heq.1])

theorem append_paren_ne_cons_cons {d : Char} (hd : d ≠ ')') (h : ∀ more, cs ≠ c :: d :: more)
    (more : List Char) : cs ++ [')'] ≠ c :: d :: more := by
  match cs with
  | [] | [_] => simp [hd.symm]
  | a :: b :: cs =>
      intro heq
      cases heq
      exact h cs rfl

end Runs

/-! ### Escapes -/

theorem readHex_stable (width : Nat) : Stable (readHex width) := by
  intro cs e rest h
  unfold readHex at h
  split at h
  · split at h
    · rename_i hdrop
      obtain ⟨c, hc, heq⟩ := Option.map_eq_some_iff.1 h
      cases heq
      simp only [List.cons_append, readHex, dropWhile_append_of_dropWhile hdrop,
        takeWhile_append_of_dropWhile hdrop, hc, Option.map_some]
    · cases h
  · rename_i hne
    split at h
    · cases h
    · rename_i hlength
      have hle : width ≤ cs.length := by omega
      obtain ⟨c, hc, heq⟩ := Option.map_eq_some_iff.1 h
      cases heq
      rw [readHex]
      · rw [if_neg (by simp; omega), List.take_append_of_le_length hle,
          List.drop_append_of_le_length hle, hc, Option.map_some]
      · exact append_paren_ne_cons (by decide) hne

theorem readBoundary_stable : Stable readBoundary := by
  intro cs e rest h
  rcases exists_cons_or '\x7b' cs with ⟨more, rfl⟩ | hne
  · simp only [List.cons_append, readBoundary] at h ⊢
    cases more with
    | nil =>
        cases h
        rfl
    | cons d more =>
        rw [← List.cons_append, takeWhile_append_paren (by decide),
          dropWhile_append_paren (by decide), List.cons_append, List.head?_cons]
        rw [List.head?_cons] at h
        split at h
        · rename_i hname
          rw [if_pos hname]
          split at h
          case h_5 => cases h
          all_goals
            rename_i hword hrest
            cases h
            rw [hword, hrest]
            rfl
        · rename_i hname
          rw [if_neg hname]
          cases h
          rfl
  · rw [readBoundary_of_ne hne] at h
    cases h
    exact readBoundary_of_ne (append_paren_ne_cons (by decide) hne)

theorem readEscape_stable : Stable readEscape := by
  intro cs e rest h
  cases cs with
  | nil => cases h
  | cons c cs =>
      rw [readEscape.eq_def] at h ⊢
      rw [List.cons_append]
      dsimp only at h ⊢
      split at h
      -- most escapes are one character, and what follows it is left as it is
      all_goals first
        | exact readHex_stable _ h
        | exact readBoundary_stable h
        | (cases h; rfl)
        | skip
      split at h
      · rename_i hc
        cases h
        rw [if_pos hc]
      · cases h

/-! ### Classes -/

/-- Reads the caret that negates a class, if it stands there. -/
def readCaret (cs : List Char) : Bool × List Char :=
  match cs with
  | '^' :: rest => (true, rest)
  | _ => (false, cs)

theorem readCaret_append (cs : List Char) :
    readCaret (cs ++ [')']) = ((readCaret cs).1, (readCaret cs).2 ++ [')']) := by
  match cs with
  | [] => rfl
  | c :: cs =>
      by_cases hc : c = '^'
      · subst hc
        rfl
      · simp [readCaret, hc]

/-- Reads the hyphens or the bracket that may stand first in a class. -/
def openMembers (negated : Bool) (cs : List Char) : ClassPart × List Char :=
  match cs with
  | '-' :: _ =>
    ({ negated, members := .single '-', count := (cs.takeWhile (· == '-')).length },
      cs.dropWhile (· == '-'))
  | ']' :: rest => ({ negated, members := .single ']', count := 1 }, rest)
  | _ => ({ negated }, cs)

theorem openClass_eq (cs : List Char) :
    openClass cs = openMembers (readCaret cs).1 (readCaret cs).2 :=
  rfl

theorem openMembers_append (negated : Bool) (cs : List Char) :
    openMembers negated (cs ++ [')']) =
      ((openMembers negated cs).1, (openMembers negated cs).2 ++ [')']) := by
  match cs with
  | [] => rfl
  | c :: cs =>
      by_cases hhyphen : c = '-'
      · subst hhyphen
        rw [List.cons_append]
        simp only [openMembers]
        rw [← List.cons_append, takeWhile_append_paren (by decide),
          dropWhile_append_paren (by decide)]
      · by_cases hbracket : c = ']'
        · subst hbracket
          rfl
        · simp [openMembers, hhyphen, hbracket]

theorem openClass_append (cs : List Char) :
    openClass (cs ++ [')']) = ((openClass cs).1, (openClass cs).2 ++ [')']) := by
  rw [openClass_eq, openClass_eq, readCaret_append, openMembers_append]

/-- Reads the name in a named class up to the bracket that ends it. -/
def readClassName (fl : Flags) (negated : Bool) (cs : List Char) : Option (CharSet × List Char) :=
  match cs.dropWhile (· ≠ ':') with
  | ':' :: ']' :: rest =>
    (CharSet.named? (String.ofList (cs.takeWhile (· ≠ ':')))).map fun s =>
      (if negated then (fl.close s).compl else fl.close s, rest)
  | _ => none

theorem readNamedClass_colon (fl : Flags) (cs : List Char) :
    readNamedClass fl (':' :: cs) = readClassName fl (readCaret cs).1 (readCaret cs).2 := by
  generalize hcaret : readCaret cs = caret
  obtain ⟨negated, left⟩ := caret
  unfold readCaret at hcaret
  unfold readNamedClass readClassName
  cases hname : CharSet.named? (String.ofList (left.takeWhile (· ≠ ':'))) <;> grind

/-- A name that is not ended in the text is not ended behind it. -/
theorem readClassName_append (fl : Flags) (negated : Bool) (cs : List Char) :
    readClassName fl negated (cs ++ [')']) =
      (readClassName fl negated cs).map fun (s, rest) => (s, rest ++ [')']) := by
  cases hdrop : cs.dropWhile (· ≠ ':') with
  | nil =>
      have hend : (cs ++ [')']).dropWhile (· ≠ ':') = [] := by
        rw [List.dropWhile_append, hdrop]
        rfl
      simp only [readClassName, hdrop, hend, Option.map_none]
  | cons c rest =>
      simp only [readClassName, hdrop, dropWhile_append_of_dropWhile hdrop,
        takeWhile_append_of_dropWhile hdrop]
      match rest with
      | [] => grind
      | d :: rest => cases CharSet.named? _ <;> grind

theorem readNamedClass_append (fl : Flags) (cs : List Char) :
    readNamedClass fl (cs ++ [')']) =
      (readNamedClass fl cs).map fun (s, rest) => (s, rest ++ [')']) := by
  match cs with
  | [] => rfl
  | c :: cs =>
      by_cases hc : c = ':'
      · subst hc
        rw [List.cons_append, readNamedClass_colon, readNamedClass_colon, readCaret_append,
          readClassName_append]
      · simp [readNamedClass, hc]

theorem readMember_stable : Stable readMember := by
  intro cs e rest h
  unfold readMember at h
  split at h
  · cases h
  · exact readEscape_stable h
  · rename_i c cs hc
    cases h
    rw [List.cons_append, readMember]
    exact hc

/-- A hyphen at the end of the text could begin a range behind it. -/
theorem readRange_append {cs rest : List Char} {s : CharSet}
    (h : readRange cs = some (s, rest)) (hrest : rest ≠ ['-']) :
    readRange (cs ++ [')']) = some (s, rest ++ [')']) := by
  unfold readRange at h ⊢
  split at h
  · cases h
  · rename_i lo left hlo
    rw [readMember_stable hlo]
    dsimp only
    split at h
    · rename_i d more
      simp only [List.cons_append]
      split at h
      · rename_i hd
        obtain ⟨s, hs, heq⟩ := Option.map_eq_some_iff.1 h
        cases heq
        rw [if_pos hd, hs]
        rfl
      · rename_i hd
        rw [if_neg hd]
        split at h
        · rename_i a b left hhi
          rw [← List.cons_append, readMember_stable hhi]
          dsimp only
          split at h
          · rename_i hab
            cases h
            rw [if_pos hab]
          · cases h
        · cases h
    · rename_i hne
      obtain ⟨s, hs, heq⟩ := Option.map_eq_some_iff.1 h
      cases heq
      split
      · rename_i d more heq
        match rest with
        | [] => cases heq
        | [c] =>
            cases heq
            exact absurd rfl hrest
        | c :: c' :: rest =>
            cases heq
            exact absurd rfl (hne d rest)
      · rw [hs]
        rfl

theorem readClass_hyphen (fl : Flags) (n level : Nat) (p : ClassPart) :
    readClass fl n level p ['-'] = none := by
  match n with
  | 0 | 1 => rfl
  | n + 2 => rfl

theorem readClass_append {fl : Flags} {n m level : Nat} {p : ClassPart} {cs rest : List Char}
    {s : Nested CharSet} (hnm : n ≤ m) (h : readClass fl n level p cs = some (s, rest)) :
    readClass fl m level p (cs ++ [')']) = some (s, rest ++ [')']) := by
  induction n generalizing m level p cs rest s with
  | zero => cases h
  | succ n ih =>
      obtain ⟨m, rfl⟩ : ∃ k, m = k + 1 := ⟨m - 1, by omega⟩
      have hnm : n ≤ m := by omega
      rw [readClass.eq_def] at h
      dsimp only at h
      split at h
      · cases h
      · cases h
        rfl
      · exact ih (m := m) hnm h
      · exact ih (m := m) hnm h
      · exact ih (m := m) hnm h
      · rename_i more
        rw [List.cons_append, readClass, readNamedClass_append]
        split at h
        · rename_i hname
          rw [hname]
          exact ih hnm h
        · rename_i hname
          rw [hname]
          dsimp only [Option.map_none]
          split at h
          · cases h
          · rename_i hlevel
            rw [if_neg hlevel, openClass_append]
            split at h
            · rename_i hinner
              rw [ih hnm hinner]
              exact ih hnm h
            · cases h
      · rename_i hnil hclose hand hminus htilde hopen
        -- the parenthesis closes no class and doubles no operator
        split at h
        · rename_i s' left hrange
          have hleft : left ≠ ['-'] := by
            rintro rfl
            rw [readClass_hyphen] at h
            cases h
          rw [readClass]
          · rw [readRange_append hrange hleft]
            exact ih hnm h
          · simp
          · exact append_paren_ne_cons (by decide) hclose
          · exact append_paren_ne_cons_cons (by decide) hand
          · exact append_paren_ne_cons_cons (by decide) hminus
          · exact append_paren_ne_cons_cons (by decide) htilde
          · exact append_paren_ne_cons (by decide) hopen
        · cases h

/-! ### Groups and repetitions -/

theorem readFlags_stable (fl : Flags) (seen : List Char) (on : Bool) :
    Stable (readFlags fl seen on) := by
  intro cs opening rest h
  induction cs generalizing fl seen on with
  | nil => cases h
  | cons c cs ih =>
      rw [readFlags] at h
      rw [List.cons_append, readFlags]
      split at h
      · rename_i hend
        rw [if_pos hend]
        split at h
        · cases h
        · rename_i hminus
          rw [if_neg hminus]
          split at h
          · rename_i hcolon
            cases h
            rw [if_pos hcolon]
          · rename_i hcolon
            rw [if_neg hcolon]
            split at h
            · cases h
            · rename_i hseen
              cases h
              rw [if_neg hseen]
      · rename_i hend
        rw [if_neg hend]
        split at h
        · cases h
        · rename_i hseen
          rw [if_neg hseen]
          split at h
          · rename_i hminus
            rw [if_pos hminus]
            exact ih _ _ _ h
          · rename_i hminus
            rw [if_neg hminus]
            split at h
            · exact ih _ _ _ h
            · cases h

theorem readName_stable : Stable readName := by
  intro cs opening rest h
  unfold readName at h
  dsimp only at h
  split at h
  · rename_i hdrop
    simp only [readName, dropWhile_append_of_dropWhile hdrop, takeWhile_append_of_dropWhile hdrop]
    split at h
    · rename_i hname
      cases h
      rw [if_pos hname]
    · cases h
  · cases h

theorem readOpening_stable (fl : Flags) : Stable (readOpening fl) := by
  intro cs opening rest h
  unfold readOpening at h
  split at h
  case h_5 => exact readName_stable h
  case h_6 =>
    -- a name: what follows the bracket does not make it a look behind
    rename_i hahead hnot
    rw [List.cons_append, List.cons_append, readOpening]
    · exact readName_stable h
    · exact append_paren_ne_cons (by decide) hahead
    · exact append_paren_ne_cons (by decide) hnot
  case h_7 =>
    -- flags: they do not become a name or a look
    rename_i more hahead hnot _ _ hnamed hname
    have hname' : ∀ tail, more ++ [')'] ≠ '<' :: tail := append_paren_ne_cons (by decide) hname
    rw [List.cons_append, readOpening]
    · exact readFlags_stable fl [] true h
    · exact append_paren_ne_cons (by decide) hahead
    · exact append_paren_ne_cons (by decide) hnot
    · exact fun tail => hname' ('=' :: tail)
    · exact fun tail => hname' ('!' :: tail)
    · exact append_paren_ne_cons_cons (by decide) hnamed
    · exact hname'
  case h_8 =>
    rename_i hquestion
    cases h
    have hquestion' : ∀ tail, cs ++ [')'] ≠ '?' :: tail :=
      append_paren_ne_cons (by decide) hquestion
    rw [readOpening]
    · exact fun tail => hquestion' ('=' :: tail)
    · exact fun tail => hquestion' ('!' :: tail)
    · exact fun tail => hquestion' ('<' :: '=' :: tail)
    · exact fun tail => hquestion' ('<' :: '!' :: tail)
    · exact fun tail => hquestion' ('P' :: '<' :: tail)
    · exact fun tail => hquestion' ('<' :: tail)
    · exact hquestion'
  all_goals cases h

theorem readDecimal_stable : Stable readDecimal := by
  intro cs k rest h
  unfold readDecimal at h ⊢
  dsimp only at h ⊢
  rw [dropWhile_append_paren (by decide), takeWhile_append_paren (by decide),
    dropWhile_append_paren (by decide), dropWhile_append_paren (by decide)]
  split at h
  · cases h
  · rename_i hdigits
    cases h
    rw [if_neg hdigits]

theorem readBounds_stable : Stable readBounds := by
  intro cs bounds rest h
  unfold readBounds at h
  split at h
  · rename_i hcs
    cases h
    rw [readBounds, readDecimal_stable hcs]
    rfl
  · rename_i hcs
    cases h
    rw [readBounds, readDecimal_stable hcs]
    rfl
  · rename_i n more hne hcs
    have hne' : ∀ tail, more ++ [')'] ≠ '\x7d' :: tail := append_paren_ne_cons (by decide) hne
    split at h
    · rename_i hmore
      split at h
      · rename_i hle
        cases h
        rw [readBounds, readDecimal_stable hcs, List.cons_append]
        split
        · rename_i heq
          cases heq
        · rename_i heq
          simp only [Option.some.injEq, Prod.mk.injEq, List.cons.injEq, true_and] at heq
          exact absurd heq.2 (hne' _)
        · rename_i heq
          cases heq
          rw [readDecimal_stable hmore, List.cons_append]
          exact if_pos hle
        · rename_i hother
          exact absurd rfl (hother _ _)
      · cases h
    · cases h
  · cases h

theorem readOperator_append {cs : List Char} (h : readOperator cs ≠ some none) :
    readOperator (cs ++ [')']) =
      (readOperator cs).map (Option.map fun (bounds, rest) => (bounds, rest ++ [')'])) := by
  match cs with
  | [] => rfl
  | c :: cs =>
      by_cases hbrace : c = '\x7b'
      · subst hbrace
        cases hbounds : readBounds cs with
        | none => exact absurd (congrArg some hbounds) h
        | some result =>
            obtain ⟨bounds, rest⟩ := result
            rw [List.cons_append, readOperator, readOperator, readBounds_stable hbounds, hbounds]
            rfl
      · rw [List.cons_append]
        unfold readOperator
        split <;> simp_all

/-- Reads the question mark behind a repetition operator, if it stands there. -/
def readLazy (cs : List Char) : Bool × List Char :=
  match cs with
  | '?' :: more => (true, more)
  | _ => (false, cs)

theorem readLazy_append (cs : List Char) :
    readLazy (cs ++ [')']) = ((readLazy cs).1, (readLazy cs).2 ++ [')']) := by
  match cs with
  | [] => rfl
  | c :: cs =>
      by_cases hc : c = '?'
      · subst hc
        rfl
      · simp [readLazy, hc]

theorem readItem_stable (fl : Flags) : Stable (readItem fl) := by
  intro cs e rest h
  unfold readItem at h
  split at h
  · cases h
  · rw [List.cons_append, readItem]
    split at h
    · rename_i hescape
      cases h
      rw [readEscape_stable hescape]
    · rename_i hescape
      cases h
      rw [readEscape_stable hescape]
    · rename_i hescape
      cases h
      rw [readEscape_stable hescape]
    · cases h
  · rename_i more
    rw [List.cons_append, readItem, openClass_append]
    rcases hopen : openClass more with ⟨p, left⟩
    rw [hopen] at h
    obtain ⟨⟨s, rest⟩, hclass, heq⟩ := Option.map_eq_some_iff.1 h
    cases heq
    have hlength : left.length + 1 ≤ (left ++ [')']).length + 1 := by simp
    dsimp only
    rw [readClass_append hlength hclass]
    rfl
  · cases h
    rfl
  · cases h
    rfl
  · cases h
    rfl
  · cases h
    rw [List.cons_append, readItem] <;> assumption

/-- Reads a repetition operator or an item. -/
def readFactor (fl : Flags) (p : GroupPart) (cs : List Char) : Option (GroupPart × List Char) :=
  match readOperator cs with
  | some none => none
  | some (some ((min, max), rest)) =>
    (p.repeatLast? min max ((readLazy rest).1 == fl.swapGreed)).map (·, (readLazy rest).2)
  | none => (readItem fl cs).map fun (e, rest) => (p.add e, rest)

theorem readFactor_stable (fl : Flags) (p : GroupPart) : Stable (readFactor fl p) := by
  intro cs p' rest h
  unfold readFactor at h
  split at h
  · cases h
  · rename_i min max left hop
    obtain ⟨q, hq, heq⟩ := Option.map_eq_some_iff.1 h
    cases heq
    rw [readFactor, readOperator_append (by simp [hop]), hop]
    dsimp only [Option.map_some]
    rw [readLazy_append, hq]
    rfl
  · rename_i hop
    obtain ⟨⟨e, left⟩, he, heq⟩ := Option.map_eq_some_iff.1 h
    cases heq
    rw [readFactor, readOperator_append (by simp [hop]), hop]
    dsimp only [Option.map_none]
    rw [readItem_stable fl he]
    rfl

/-- The text goes on with neither a group nor the end of a branch. -/
structure StartsFactor (cs : List Char) : Prop where
  ne_nil : cs ≠ []
  ne_close : ∀ more, cs ≠ ')' :: more
  ne_bar : ∀ more, cs ≠ '|' :: more
  ne_open : ∀ more, cs ≠ '(' :: more

theorem startsFactor_or (cs : List Char) :
    cs = [] ∨ (∃ more, cs = ')' :: more) ∨ (∃ more, cs = '|' :: more) ∨
      (∃ more, cs = '(' :: more) ∨ StartsFactor cs := by
  by_cases h : StartsFactor cs
  · simp [h]
  · grind [StartsFactor]

theorem StartsFactor.append {cs : List Char} (h : StartsFactor cs) :
    StartsFactor (cs ++ [')']) where
  ne_nil := by simp
  ne_close := by
    obtain ⟨c, cs, rfl⟩ := List.exists_cons_of_ne_nil h.ne_nil
    intro more heq
    cases heq
    exact h.ne_close cs rfl
  ne_bar := append_paren_ne_cons (by decide) h.ne_bar
  ne_open := append_paren_ne_cons (by decide) h.ne_open

section Groups

variable {n m level level' : Nat} {fl : Flags} {names : List (List Char)} {p : GroupPart}
  {cs : List Char} {r r' : Reading}

theorem readGroup_factor (h : StartsFactor cs) :
    readGroup (n + 1) level fl names p cs =
      (readFactor fl p cs).bind fun (p, rest) => readGroup n level fl names p rest := by
  rw [readGroup]
  · rw [readFactor]
    cases readOperator cs with
    | none => cases readItem fl cs <;> rfl
    | some found =>
        cases found with
        | none => rfl
        | some result =>
            obtain ⟨⟨min, max⟩, rest⟩ := result
            dsimp only
            split
            · rename_i hrepeat
              change p.repeatLast? min max ((readLazy rest).1 == fl.swapGreed) = _ at hrepeat
              rw [hrepeat]
              rfl
            · rename_i hrepeat
              change p.repeatLast? min max ((readLazy rest).1 == fl.swapGreed) = _ at hrepeat
              rw [hrepeat]
              rfl
  · exact h.ne_nil
  · exact h.ne_close
  · exact h.ne_bar
  · exact h.ne_open

/-- A text that is read up to its end as a group is read in the same way up to a
parenthesis that is closed there, if it can be read at its place at all. -/
theorem readGroup_append (h : readGroup n level fl names p cs = some r)
    (h' : readGroup m level' fl names p (cs ++ [')']) = some r') :
    r' = ⟨r.expr, r.names, r.rest ++ [')']⟩ := by
  induction n generalizing m level level' fl names p cs r r' with
  | zero => cases h
  | succ n ih =>
      cases m with
      | zero => cases h'
      | succ m =>
          rcases startsFactor_or cs with rfl | ⟨more, rfl⟩ | ⟨more, rfl⟩ | ⟨more, rfl⟩ | hcs
          · cases h
            cases h'
            rfl
          · cases h
            cases h'
            rfl
          · exact ih (p := p.nextBranch) h h'
          · rw [readGroup] at h
            rw [List.cons_append, readGroup] at h'
            split at h
            case h_1 => cases h
            case h_2 hopening =>
              rw [readOpening_stable fl hopening] at h'
              exact ih h h'
            case h_3 hopening | h_4 hopening =>
              -- the inner group ends at a parenthesis of the text, in both readings
              rw [readOpening_stable fl hopening] at h'
              dsimp only at h'
              split at h
              · cases h
              · split at h'
                · cases h'
                · split at h
                  · rename_i hinner
                    split at h'
                    · rename_i hinner'
                      cases ih hinner hinner'
                      exact ih h h'
                    · cases h'
                  · cases h
          · rw [readGroup_factor hcs] at h
            rw [readGroup_factor hcs.append] at h'
            obtain ⟨⟨q, rest⟩, hq, h⟩ := Option.bind_eq_some_iff.1 h
            rw [readFactor_stable fl p hq] at h'
            exact ih h h'

end Groups

end Stencil.Regex
