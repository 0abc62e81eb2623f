import Mathlib.Tactic.Positivity
import Stencil.Proofs.Adequacy
import Stencil.Proofs.Failures

/-!
Where a parse fails. A rule whose alternatives are tried fails where it was entered. A
rule with one alternative has committed itself to it, and fails as the first of its symbols
does that fails when they are parsed one after the other.

Inside a rule there is no stream but a list of tokens to come, and less depth for calls.
Neither shows: since the depth is always enough, a symbol inside a rule is parsed as it is
on its own.
-/

namespace Stencil

/-- The alternatives that do not begin with the rule itself, in the order in which they
are declared. -/
def notLeftRecursive (r : RuleId) (alternatives : List (List Symbol)) : List (List Symbol) :=
  alternatives.filter fun a => a.head? ≠ some (.rule r)

theorem GrammarDecl.primaries_makeRule {r : RuleId} {name : String}
    {alternatives : List (List Symbol)} :
    (makeRule r name alternatives).primaries = notLeftRecursive r alternatives := by
  apply List.filter_congr
  intro a _
  have hhead : (∃ op, suffix? r a = some op) ↔ a.head? = some (.rule r) := by
    simp only [suffix?_eq_some_iff, List.head?_eq_some_iff]
  cases hsuffix : suffix? r a <;> simp_all

namespace Grammar

/-- Parses one symbol of a stream on its own. -/
def parseNext (g : Grammar) (s : TokenStream) : Symbol → Except ParseFailure Tree × TokenStream
  | .rule k => g.parse k s
  | .token t =>
    match s.peek? with
    | some token =>
      if token.kind = .type t then (.ok (.leaf token), s.advance.2)
      else (.error (.unexpectedToken (g.showToken t) s.nextDisplay), s)
    | none => (.error (.unexpectedToken (g.showToken t) s.nextDisplay), s)

/-- The symbols can be parsed one after the other, and leave the stream where they end. -/
inductive Passes (g : Grammar) : List Symbol → TokenStream → TokenStream → Prop
  | nil {s : TokenStream} : Passes g [] s s
  | cons {s mid s' : TokenStream} {x : Symbol} {xs : List Symbol} {tree : Tree}
      (hfirst : g.parseNext s x = (.ok tree, mid)) (hrest : Passes g xs mid s') :
      Passes g (x :: xs) s s'

variable {g : Grammar} {r : RuleId} {n : Nat} {s s' : TokenStream} {x : Symbol}
  {tree : Tree} {e : ParseFailure} {rest : List Token}

/-! ### One symbol -/

theorem parse_of_parseRule_ok (h : g.parseRule n r 0 s.remaining = .ok tree rest) :
    g.parse r s = (.ok tree, s.seekLast rest.length) := by
  have hparse : g.parseTokens r s.remaining = g.parseRule n r 0 s.remaining :=
    parseTokens_of_parseRule (by simp [h])
  rw [parse, hparse, h]

theorem parse_of_parseRule_fail (h : g.parseRule n r 0 s.remaining = .fail e rest) :
    g.parse r s = (.error e, s.seekLast rest.length) := by
  have hparse : g.parseTokens r s.remaining = g.parseRule n r 0 s.remaining :=
    parseTokens_of_parseRule (by simp [h])
  rw [parse, hparse, h]

theorem seekLast_of_cons {token : Token} (h : s.remaining = token :: rest) :
    s.seekLast rest.length = s.advance.2 := by
  rw [s.seekLast_eq_seek (h ▸ List.suffix_cons token rest), h]
  simp [TokenStream.advance]

/-- A token is read on its own as it is among the tokens to come. -/
theorem parseNext_token_of_kind {t : TokenType} {token : Token} (h : s.remaining = token :: rest)
    (hkind : token.kind = .type t) :
    g.parseNext s (.token t) = (.ok (.leaf token), s.seekLast rest.length) := by
  have hpeek : s.peek? = some token := by rw [s.peek?_eq_head?, h, List.head?_cons]
  simp only [parseNext, hpeek, if_pos hkind, seekLast_of_cons h]

theorem parseNext_token_of_ne {t : TokenType}
    (h : s.remaining.head?.map Token.kind ≠ some (.type t)) :
    g.parseNext s (.token t) = (.error (.unexpectedToken (g.showToken t) s.nextDisplay), s) := by
  rw [← s.peek?_eq_head?] at h
  rw [parseNext]
  split
  · rename_i token hpeek
    rw [if_neg (by simpa [hpeek] using h)]
  · rfl

theorem parseNext_of_parseSymbol_ok
    (h : g.parseSymbol (g.parseRule n) x s.remaining = .ok tree rest) :
    g.parseNext s x = (.ok tree, s.seekLast rest.length) := by
  cases x with
  | rule k => exact parse_of_parseRule_ok h
  | token t =>
      obtain ⟨token, htokens, hkind, rfl⟩ := parseToken_eq_ok_iff.1 h
      exact parseNext_token_of_kind htokens hkind

theorem parseNext_of_parseSymbol_fail
    (h : g.parseSymbol (g.parseRule n) x s.remaining = .fail e rest) :
    g.parseNext s x = (.error e, s.seekLast rest.length) := by
  cases x with
  | rule k => exact parse_of_parseRule_fail h
  | token t =>
      obtain ⟨hne, rfl, rfl⟩ := parseToken_eq_fail h
      rw [parseNext_token_of_ne hne, s.seekLast_remaining]
      rfl

theorem parseSymbol_of_parseNext (h : g.parseNext s x = (.ok tree, s')) :
    ∃ n, g.parseSymbol (g.parseRule n) x s.remaining = .ok tree s'.remaining := by
  cases x with
  | rule k =>
      obtain ⟨rest, hparse, rfl⟩ := parseTokens_of_parse h
      have hrest := (parseRule_sound _ hparse).remaining_seekLast
      exact ⟨(g.entries + 1) * (s.remaining.length + 1), hrest.symm ▸ hparse⟩
  | token t =>
      by_cases hhead : s.remaining.head?.map Token.kind = some (.type t)
      · obtain ⟨token, htoken, hkind⟩ := Option.map_eq_some_iff.1 hhead
        obtain ⟨rest, hrest⟩ := List.head?_eq_some_iff.1 htoken
        rw [parseNext_token_of_kind hrest hkind] at h
        cases h
        refine ⟨0, ?_⟩
        rw [s.remaining_seekLast (hrest ▸ List.suffix_cons token rest), hrest]
        exact parseToken_of_kind hkind
      · rw [parseNext_token_of_ne hhead] at h
        cases h

/-! ### One symbol after the other -/

/-- The first symbol that fails inside a rule fails on its own. -/
theorem exists_first_failure {xs : List Symbol}
    (h : g.parseSymbols (g.parseRule n) xs s.remaining = .fail e rest) :
    ∃ before x after mid, xs = before ++ x :: after ∧ g.Passes before s mid ∧
      g.parseNext mid x = (.error e, s.seekLast rest.length) := by
  induction xs generalizing s with
  | nil => cases h
  | cons x xs ih =>
      rw [parseSymbols_cons] at h
      rcases Outcome.cons_eq_fail h with hx | ⟨tree, left, hx, hxs⟩
      · exact ⟨[], x, xs, s, rfl, .nil, parseNext_of_parseSymbol_fail hx⟩
      · have hleft : (s.seekLast left.length).remaining = left :=
          s.remaining_seekLast (suffix_of_parseSymbol (parseRule_sound n) hx)
        rw [← hleft] at hxs
        obtain ⟨before, y, after, mid, rfl, hbefore, hy⟩ := ih hxs
        exact ⟨x :: before, y, after, mid, rfl,
          .cons (parseNext_of_parseSymbol_ok hx) hbefore, hy⟩

/-- What can be parsed symbol by symbol can be parsed inside a rule, at some depth. -/
theorem Passes.exists_parseSymbols {xs : List Symbol} (h : g.Passes xs s s') :
    ∃ n children, g.parseSymbols (g.parseRule n) xs s.remaining = .ok children s'.remaining := by
  induction h with
  | nil => exact ⟨0, [], rfl⟩
  | @cons s mid s' x xs tree hfirst _ ih =>
      obtain ⟨m, hm⟩ := parseSymbol_of_parseNext hfirst
      obtain ⟨n, children, hn⟩ := ih
      -- the larger depth does for both
      refine ⟨max m n, tree :: children, ?_⟩
      rw [parseSymbols_cons, Outcome.cons_eq_ok_iff]
      refine ⟨tree, mid.remaining, children, ?_, ?_, rfl⟩
      · exact Outcome.eq_ok_of_le (parseSymbol_mono (belowOn_parseRule (Nat.le_max_left m n)) x) hm
      · exact Outcome.eq_ok_of_le (parseSymbols_mono (parseRule_sound n)
          (belowOn_parseRule (Nat.le_max_right m n)) xs) hn

/-- An alternative that can be parsed does not fail inside a rule, whatever the depth. -/
theorem Passes.parseSymbols_ne_fail {xs : List Symbol} (h : g.Passes xs s s') (n : Nat) :
    g.parseSymbols (g.parseRule n) xs s.remaining ≠ .fail e rest := by
  intro hfail
  obtain ⟨m, children, hok⟩ := h.exists_parseSymbols
  have hok' := Outcome.eq_ok_of_le (parseSymbols_mono (parseRule_sound m)
    (belowOn_parseRule (Nat.le_max_left m n)) xs) hok
  have hle : g.parseSymbols (g.parseRule n) xs s.remaining ≤
      g.parseSymbols (g.parseRule (max m n)) xs s.remaining :=
    parseSymbols_mono (parseRule_sound n) (belowOn_parseRule (Nat.le_max_right m n)) xs
  rw [hfail, hok'] at hle
  cases Outcome.eq_of_le hle (by simp)

/-! ### Rules -/

theorem parse_eq_error (h : g.parse r s = (.error e, s')) (hreturns : ∀ name, e ≠ .endless name) :
    ∃ rest, g.parseTokens r s.remaining = .fail e rest ∧ s' = s.seekLast rest.length := by
  rw [parse] at h
  split at h
  · cases h
  · rename_i rest hfail
    cases h
    exact ⟨rest, hfail, rfl⟩
  · cases h
    exact absurd rfl (hreturns _)

/-- Where a parse that fails has left the stream, and what it has to say of it. -/
theorem points_of_parseTokens (h : g.parseTokens r s.remaining = .fail e rest) :
    (s.seekLast rest.length).tokens = s.tokens ∧ s.pos ≤ (s.seekLast rest.length).pos ∧
      e.found? = some (s.seekLast rest.length).nextDisplay := by
  obtain ⟨hsuffix, hfound⟩ := parseRule_pointsInto _ _ _ _ _ _ h
  refine ⟨rfl, ?_, ?_⟩
  · have hpos := s.pos_le
    rw [s.seekLast_eq_seek hsuffix, TokenStream.pos_seek]
    omega
  · rw [hfound, TokenStream.nextDisplay, s.remaining_seekLast hsuffix]

theorem exists_parseRule_of_parseTokens {ts : List Token}
    (h : g.parseTokens r ts = .fail e rest) : ∃ n, g.parseRule (n + 1) r 0 ts = .fail e rest := by
  have hdepth : 0 < (g.entries + 1) * (ts.length + 1) := by positivity
  obtain ⟨n, hn⟩ := Nat.exists_eq_add_one.2 hdepth
  exact ⟨n, hn ▸ h⟩

theorem showRule_of_getElem? {rule : Rule} (h : g.rules[r]? = some rule) :
    g.showRule r = rule.name := by
  simp [showRule, Stencil.showRule, ruleName?, h]

/-- A rule that is not there fails as a rule without alternatives does. A rule that is
there fails as its alternatives do, and it does not fail at a placeholder for it. -/
theorem rule_of_parseTokens {d : GrammarDecl} (hg : d.build = .ok g)
    (h : g.parseTokens r s.remaining = .fail e rest) :
    (g.rules.length ≤ r ∧ notLeftRecursive r (d.alternatives r) = [] ∧
      e = .noViableAlternative (g.showRule r) s.nextDisplay ∧ rest = s.remaining) ∨
    ∃ rule n, g.showRule r = rule.name ∧
      rule.primaries = notLeftRecursive r (d.alternatives r) ∧
      s.peek?.map Token.kind ≠ some (.rule r) ∧
      g.parseAlternatives (g.parseRule n) r rule s.remaining = .fail e rest := by
  obtain ⟨n, hn⟩ := exists_parseRule_of_parseTokens h
  rcases parseRule_eq_fail hn with ⟨hnone, rfl, rfl⟩ | ⟨rule, hrule, hhead, hfail⟩
  · rcases GrammarDecl.getElem?_rules hg r with ⟨name, hsome⟩ | ⟨_, hnil⟩
    · rw [hnone] at hsome
      cases hsome
    · refine .inl ⟨List.getElem?_eq_none_iff.1 hnone, ?_, rfl, rfl⟩
      rw [hnil]
      rfl
  · rcases GrammarDecl.getElem?_rules hg r with ⟨name, hsome⟩ | ⟨hnone, _⟩
    · rw [hrule] at hsome
      cases hsome
      rw [← s.peek?_eq_head?] at hhead
      exact .inr ⟨_, n, showRule_of_getElem? hrule, GrammarDecl.primaries_makeRule, hhead, hfail⟩
    · rw [hrule] at hnone
      cases hnone

/-- Parse failures. A parse that fails leaves the tokens alone, does not move back, and
names the token it has stopped at. A rule of several alternatives, or of none, fails by
its own name and where it was entered; a rule of one alternative fails as the first
symbol of it does that fails when the symbols are parsed one after the other. No
alternative that can be parsed at all makes a rule fail, and no rule fails at a
placeholder for it. -/
theorem parse_failure {d : GrammarDecl} (hg : d.build = .ok g)
    (h : g.parse r s = (.error e, s')) (hreturns : ∀ name, e ≠ .endless name) :
    s'.tokens = s.tokens ∧ s.pos ≤ s'.pos ∧ e.found? = some s'.nextDisplay ∧
    ((notLeftRecursive r (d.alternatives r)).length ≠ 1 →
      e = .noViableAlternative (g.showRule r) s.nextDisplay ∧ s'.pos = s.pos) ∧
    (∀ only, notLeftRecursive r (d.alternatives r) = [only] →
      ∃ before x after mid, only = before ++ x :: after ∧ g.Passes before s mid ∧
        g.parseNext mid x = (.error e, s')) ∧
    (∀ a ∈ notLeftRecursive r (d.alternatives r), ∀ mid, ¬ g.Passes a s mid) ∧
    (r < g.rules.length → s.peek?.map Token.kind ≠ some (.rule r)) := by
  obtain ⟨rest, hparse, rfl⟩ := parse_eq_error h hreturns
  obtain ⟨htokens, hpos, hfound⟩ := points_of_parseTokens hparse
  refine ⟨htokens, hpos, hfound, ?_⟩
  rcases rule_of_parseTokens hg hparse with ⟨hr, hnil, rfl, rfl⟩ |
    ⟨rule, n, hname, hprimaries, hhead, hfail⟩
  · rw [hnil, s.seekLast_remaining]
    exact ⟨fun _ => ⟨rfl, rfl⟩, by simp, by simp, fun hlt => absurd hlt (Nat.not_lt.2 hr)⟩
  · rw [← hprimaries, hname]
    refine ⟨?_, ?_, ?_, fun _ => hhead⟩
    · intro hlength
      rcases parseAlternatives_eq_fail hfail with ⟨only, hone, _⟩ | ⟨_, rfl, rfl⟩
      · simp [hone] at hlength
      · rw [s.seekLast_remaining]
        exact ⟨rfl, rfl⟩
    · intro only hone
      rcases parseAlternatives_eq_fail hfail with ⟨only', hone', honly⟩ | ⟨hlength, _⟩
      · obtain rfl : only = only' := by simpa [hone] using hone'
        exact exists_first_failure honly
      · simp [hone] at hlength
    · intro a ha mid hpasses
      obtain ⟨e', left, ha⟩ := forall_fail_of_parseAlternatives hfail a ha
      exact hpasses.parseSymbols_ne_fail n ha

/-- Bindings of sums. -/
def bindings : GrammarDecl where
  name := "Bindings"
  rules := [⟨"binding", ["'let' value ';'"]⟩,
    ⟨"value", ["value '+' value", "'1'", "'(' value ')'"]⟩]
  tokens := []

def bindingGrammar : Grammar where
  name := "Bindings"
  rules := [⟨"binding", [[.token 1, .rule 1, .token 2]], []⟩,
    ⟨"value", [[.token 4], [.token 5, .rule 1, .token 6]], [[.token 3, .rule 1]]⟩]
  tokens := [.literal "let", .literal ";", .literal "+", .literal "1", .literal "(", .literal ")"]

/-- `let 1 + ( 1 ;`: the bracket is not closed, so that the sum is not read at all. -/
def unclosedBinding : TokenStream :=
  .ofList [.word 1 "let", .word 4 "1", .word 3 "+", .word 5 "(", .word 4 "1", .word 2 ";"]

/-- The failure is that of the last symbol of a binding, before the sum; the value of the
sum itself fails by its name. -/
theorem parse_failure_bindings :
    bindings.build = .ok bindingGrammar ∧
      (∃ before x after mid, [Symbol.token 1, .rule 1, .token 2] = before ++ x :: after ∧
        bindingGrammar.Passes before unclosedBinding mid ∧
        bindingGrammar.parseNext mid x =
          (.error (.unexpectedToken "';'" "'+'"), unclosedBinding.seek 2)) ∧
      bindingGrammar.parse 1 (unclosedBinding.seek 3) =
        (.error (.noViableAlternative "value" "'('"), unclosedBinding.seek 3) ∧
      (∀ mid, ¬ bindingGrammar.Passes [.token 5, .rule 1, .token 6] (unclosedBinding.seek 3) mid) ∧
      bindingGrammar.parse 7 (unclosedBinding.seek 9) =
        (.error (.noViableAlternative "rule7" "<EOF>"), unclosedBinding.seek 9) := by
  have hbuild : bindings.build = .ok bindingGrammar := rfl
  have hbinding : bindingGrammar.parse 0 unclosedBinding =
      (.error (.unexpectedToken "';'" "'+'"), unclosedBinding.seek 2) := rfl
  have hvalue : bindingGrammar.parse 1 (unclosedBinding.seek 3) =
      (.error (.noViableAlternative "value" "'('"), unclosedBinding.seek 3) := rfl
  obtain ⟨_, _, _, _, hfirst, _⟩ := parse_failure hbuild hbinding (by simp)
  obtain ⟨_, _, _, _, _, hnone, _⟩ := parse_failure hbuild hvalue (by simp)
  exact ⟨hbuild, hfirst _ rfl, hvalue, hnone _ (by decide), rfl⟩

end Grammar

end Stencil
