import Stencil.Proofs.Soundness

/-!
Failures of the parser. Trial parses and operators that cannot be used are given up,
so that a rule fails only where its alternatives fail: where it was entered, or inside
its alternative if it has just one. Every failure leaves the stream at the token it
names.
-/

namespace Stencil

/-- The next token, as a failure names it. -/
def ParseFailure.found? : ParseFailure → Option String
  | .unexpectedToken _ found => some found
  | .noViableAlternative _ found => some found
  | .endless _ => none

/-- A failure leaves the stream somewhere in `ts`, and names the token there. -/
def Outcome.PointsInto {α : Type} (ts : List Token) (o : Outcome α) : Prop :=
  ∀ e rest, o = .fail e rest → rest <:+ ts ∧ e.found? = some (Token.nextDisplay rest)

theorem Outcome.cons_eq_fail {first : Outcome Tree} {more : List Token → Outcome (List Tree)}
    {e : ParseFailure} {rest : List Token} (h : first.cons more = .fail e rest) :
    first = .fail e rest ∨ ∃ child mid, first = .ok child mid ∧ more mid = .fail e rest := by
  unfold Outcome.cons at h
  split at h
  · cases h
    exact .inl rfl
  · cases h
  · rename_i child mid
    split at h
    · rename_i hfail
      cases h
      exact .inr ⟨child, mid, rfl, hfail⟩
    · cases h
    · cases h

theorem Outcome.PointsInto.cons {ts : List Token} {first : Outcome Tree}
    {more : List Token → Outcome (List Tree)} (hfirst : first.PointsInto ts)
    (hmore : ∀ {child mid}, first = .ok child mid → mid <:+ ts ∧ (more mid).PointsInto mid) :
    (first.cons more).PointsInto ts := by
  intro e rest h
  rcases cons_eq_fail h with hfail | ⟨child, mid, hchild, hfail⟩
  · exact hfirst e rest hfail
  · obtain ⟨hmid, hpoints⟩ := hmore hchild
    obtain ⟨hrest, hfound⟩ := hpoints e rest hfail
    exact ⟨hrest.trans hmid, hfound⟩

namespace Grammar

variable {g : Grammar} {sub : RuleParser} {r : RuleId} {minPrec prec : Nat}
  {ts rest : List Token} {tree : Tree} {children : List Tree} {e : ParseFailure}

/-! ### Symbols -/

theorem parseToken_eq_fail {t : TokenType} (h : g.parseToken t ts = .fail e rest) :
    ts.head?.map Token.kind ≠ some (.type t) ∧
      e = .unexpectedToken (g.showToken t) (Token.nextDisplay ts) ∧ rest = ts := by
  cases ts with
  | nil =>
      cases h
      exact ⟨by simp, rfl, rfl⟩
  | cons token ts =>
      rw [parseToken_cons] at h
      split at h
      · cases h
      · rename_i hkind
        cases h
        exact ⟨by simpa using hkind, rfl, rfl⟩

theorem parseToken_pointsInto (t : TokenType) : (g.parseToken t ts).PointsInto ts := by
  intro e rest h
  obtain ⟨_, rfl, rfl⟩ := parseToken_eq_fail h
  exact ⟨List.suffix_refl _, rfl⟩

section Members

variable (hsound : g.Sound sub) (hsub : ∀ k p ts, (sub k p ts).PointsInto ts)
include hsub

theorem parseSymbol_pointsInto (s : Symbol) : (g.parseSymbol sub s ts).PointsInto ts := by
  cases s with
  | token t => exact parseToken_pointsInto t
  | rule k => exact hsub k 0 ts

include hsound

theorem parseSymbols_pointsInto (ss : List Symbol) (ts : List Token) :
    (g.parseSymbols sub ss ts).PointsInto ts := by
  induction ss generalizing ts with
  | nil =>
      intro e rest h
      cases h
  | cons s ss ih =>
      rw [parseSymbols_cons]
      refine (parseSymbol_pointsInto hsub s).cons ?_
      intro child mid hchild
      exact ⟨suffix_of_parseSymbol hsound hchild, ih mid⟩

end Members

/-! ### Rules -/

theorem parseFirst_ne_fail (as : List (List Symbol)) : g.parseFirst sub as ts ≠ .fail e rest := by
  induction as with
  | nil => simp [parseFirst]
  | cons a as ih =>
      rw [parseFirst]
      split
      · simp
      · exact ih
      · simp

theorem parseOperator_ne_fail (operators : List (List Symbol)) :
    g.parseOperator sub r minPrec operators ts ≠ .fail e rest := by
  induction operators with
  | nil => simp [parseOperator]
  | cons op ops ih =>
      simp only [parseOperator_cons]
      split
      · simp
      · split
        · split
          · simp
          · exact ih
        · exact ih
        · simp

/-- A derivation can always be extended by no operator at all. -/
theorem extend_ne_fail (operators : List (List Symbol)) (fuel : Nat) :
    g.extend sub r minPrec operators fuel tree ts ≠ .fail e rest := by
  induction fuel generalizing tree ts with
  | zero => simp [extend]
  | succ n ih =>
      rw [extend_succ]
      split
      · simp
      · exact ih
      · rename_i hfail
        exact absurd hfail (parseOperator_ne_fail operators)
      · simp

/-- The alternatives of a rule fail where the rule was entered, unless there is just
one of them. -/
theorem parseAlternatives_eq_fail {rule : Rule}
    (h : g.parseAlternatives sub r rule ts = .fail e rest) :
    (∃ only, rule.primaries = [only] ∧ g.parseSymbols sub only ts = .fail e rest) ∨
      rule.primaries.length ≠ 1 ∧
        e = .noViableAlternative rule.name (Token.nextDisplay ts) ∧ rest = ts := by
  unfold parseAlternatives at h
  split at h
  · rename_i only hone
    split at h
    · cases h
    · rename_i hfail
      cases h
      exact .inl ⟨only, hone, hfail⟩
    · cases h
  · rename_i hseveral
    split at h
    · cases h
    · cases h
      refine .inr ⟨?_, rfl, rfl⟩
      intro hlength
      obtain ⟨only, hone⟩ := List.length_eq_one_iff.1 hlength
      exact hseveral only hone
    · rename_i hfail
      exact absurd hfail (parseFirst_ne_fail _)
    · cases h

/-- No alternative is found to be viable only if each of them was tried and failed. -/
theorem forall_fail_of_parseFirst {as : List (List Symbol)}
    (h : g.parseFirst sub as ts = .ok none rest) :
    ∀ a ∈ as, ∃ e left, g.parseSymbols sub a ts = .fail e left := by
  induction as with
  | nil => simp
  | cons a as ih =>
      rw [parseFirst] at h
      split at h
      · cases h
      · rename_i hfail
        exact List.forall_mem_cons.2 ⟨⟨_, _, hfail⟩, ih h⟩
      · cases h

theorem forall_fail_of_parseAlternatives {rule : Rule}
    (h : g.parseAlternatives sub r rule ts = .fail e rest) :
    ∀ a ∈ rule.primaries, ∃ e left, g.parseSymbols sub a ts = .fail e left := by
  rcases parseAlternatives_eq_fail h with ⟨only, hone, hfail⟩ | ⟨hlength, _⟩
  · rw [hone]
    exact List.forall_mem_singleton.2 ⟨e, rest, hfail⟩
  · unfold parseAlternatives at h
    split at h
    · rename_i only hone
      simp [hone] at hlength
    · split at h
      · cases h
      · rename_i hnone
        exact forall_fail_of_parseFirst hnone
      · rename_i hfail
        exact absurd hfail (parseFirst_ne_fail _)
      · cases h

/-- A rule fails if it does not exist, or if its alternatives fail. -/
theorem parseRule_eq_fail {n : Nat} (h : g.parseRule (n + 1) r minPrec ts = .fail e rest) :
    (g.rules[r]? = none ∧ e = .noViableAlternative (g.showRule r) (Token.nextDisplay ts) ∧
      rest = ts) ∨
    ∃ rule, g.rules[r]? = some rule ∧ ts.head?.map Token.kind ≠ some (.rule r) ∧
      g.parseAlternatives (g.parseRule n) r rule ts = .fail e rest := by
  rw [parseRule] at h
  split at h
  · rename_i hnone
    cases h
    exact .inl ⟨hnone, rfl, rfl⟩
  · rename_i rule hrule
    split at h
    · exact absurd h (extend_ne_fail _ _)
    · rename_i hfail
      cases h
      refine .inr ⟨rule, hrule, ?_⟩
      by_cases hhead : ts.head?.map Token.kind = some (.rule r)
      · obtain ⟨token, htoken, hkind⟩ := Option.map_eq_some_iff.1 hhead
        obtain ⟨tail, rfl⟩ := List.head?_eq_some_iff.1 htoken
        rw [parsePrimary_of_rule rule hkind] at hfail
        cases hfail
      · rw [parsePrimary_of_not_rule rule hhead] at hfail
        exact ⟨hhead, hfail⟩
    · cases h

theorem parseRule_pointsInto (n : Nat) (r : RuleId) (minPrec : Nat) (ts : List Token) :
    (g.parseRule n r minPrec ts).PointsInto ts := by
  induction n generalizing r minPrec ts with
  | zero =>
      intro e rest h
      cases h
  | succ n ih =>
      intro e rest h
      rcases parseRule_eq_fail h with ⟨_, rfl, rfl⟩ | ⟨rule, _, _, hfail⟩
      · exact ⟨List.suffix_refl _, rfl⟩
      · rcases parseAlternatives_eq_fail hfail with ⟨only, _, honly⟩ | ⟨_, rfl, rfl⟩
        · exact parseSymbols_pointsInto (parseRule_sound n) ih only ts _ _ honly
        · exact ⟨List.suffix_refl _, rfl⟩

/-- A parse that returns is not endless. -/
theorem fst_parse_ne_endless {s : TokenStream} (h : g.parseTokens r s.remaining ≠ .endless)
    (name : String) : (g.parse r s).1 ≠ .error (.endless name) := by
  rw [parse]
  split
  · simp
  · rename_i e rest hfail
    obtain ⟨_, hfound⟩ := parseRule_pointsInto _ _ _ _ _ _ hfail
    intro heq
    cases heq
    cases hfound
  · rename_i hendless
    exact absurd hendless h

end Grammar

end Stencil
