import Stencil.Grammar.Input

/-!
What the parts of the parser can return. For each part there is one lemma that
says exactly when it succeeds, in terms of the parts it calls; what a parse
preserves is then proved without looking at the parts again.
-/

namespace Stencil

/-- A first tree, and then more of them from where it ended. -/
def Outcome.cons (first : Outcome Tree) (more : List Token → Outcome (List Tree)) :
    Outcome (List Tree) :=
  match first with
  | .fail e rest => .fail e rest
  | .endless => .endless
  | .ok child rest =>
    match more rest with
    | .fail e rest => .fail e rest
    | .endless => .endless
    | .ok children rest => .ok (child :: children) rest

section Steps

variable (more : List Token → Outcome (List Tree))

@[simp] theorem Outcome.fail_cons (e : ParseFailure) (rest : List Token) :
    (Outcome.fail e rest).cons more = .fail e rest :=
  rfl

@[simp] theorem Outcome.endless_cons : Outcome.endless.cons more = .endless :=
  rfl

theorem Outcome.ok_cons (child : Tree) (rest : List Token) :
    (Outcome.ok child rest).cons more =
      match more rest with
      | .fail e rest => .fail e rest
      | .endless => .endless
      | .ok children rest => .ok (child :: children) rest :=
  rfl

end Steps

theorem Outcome.cons_eq_ok_iff {first : Outcome Tree} {more : List Token → Outcome (List Tree)}
    {children : List Tree} {rest : List Token} :
    first.cons more = .ok children rest ↔
      ∃ child mid tail, first = .ok child mid ∧ more mid = .ok tail rest ∧
        children = child :: tail := by
  cases first with
  | fail e mid => simp
  | endless => simp
  | ok child mid =>
      rw [Outcome.ok_cons]
      constructor
      · intro h
        cases htail : more mid with
        | fail e left =>
            rw [htail] at h
            cases h
        | endless =>
            rw [htail] at h
            cases h
        | ok tail left =>
            rw [htail] at h
            cases h
            exact ⟨child, mid, tail, rfl, htail, rfl⟩
      · rintro ⟨_, _, tail, heq, htail, rfl⟩
        cases heq
        rw [htail]

namespace Grammar

variable {g : Grammar} {sub : RuleParser} {r : RuleId} {minPrec prec : Nat}
  {ts rest : List Token} {tree : Tree} {children : List Tree}

section Steps

theorem parseToken_cons (t : TokenType) (token : Token) (ts : List Token) :
    g.parseToken t (token :: ts) =
      if token.kind = .type t then .ok (.leaf token) ts
      else
        .fail (.unexpectedToken (g.showToken t) (Token.nextDisplay (token :: ts))) (token :: ts) :=
  rfl

@[simp] theorem parseSymbol_token (t : TokenType) (ts : List Token) :
    g.parseSymbol sub (.token t) ts = g.parseToken t ts :=
  rfl

@[simp] theorem parseSymbol_rule (r : RuleId) (ts : List Token) :
    g.parseSymbol sub (.rule r) ts = sub r 0 ts :=
  rfl

theorem parseSymbols_cons (s : Symbol) (ss : List Symbol) (ts : List Token) :
    g.parseSymbols sub (s :: ss) ts = (g.parseSymbol sub s ts).cons (g.parseSymbols sub ss) :=
  rfl

@[simp] theorem parseFirst_nil (ts : List Token) : g.parseFirst sub [] ts = .ok none ts :=
  rfl

theorem parseFirst_cons (a : List Symbol) (as : List (List Symbol)) (ts : List Token) :
    g.parseFirst sub (a :: as) ts =
      match g.parseSymbols sub a ts with
      | .ok children rest => .ok (some children) rest
      | .fail _ _ => g.parseFirst sub as ts
      | .endless => .endless :=
  rfl

theorem parseOperator_cons (op : List Symbol) (ops : List (List Symbol)) (ts : List Token) :
    g.parseOperator sub r minPrec (op :: ops) ts =
      if ops.length + 1 < minPrec then .ok none ts
      else
        match g.parseOperands sub r (ops.length + 1) op ts with
        | .ok children rest =>
          if rest.length < ts.length then .ok (some children) rest
          else g.parseOperator sub r minPrec ops ts
        | .fail _ _ => g.parseOperator sub r minPrec ops ts
        | .endless => .endless :=
  rfl

theorem extend_succ (operators : List (List Symbol)) (n : Nat) (tree : Tree) (ts : List Token) :
    g.extend sub r minPrec operators (n + 1) tree ts =
      match g.parseOperator sub r minPrec operators ts with
      | .ok none _ => .ok tree ts
      | .ok (some children) rest =>
        g.extend sub r minPrec operators n (.node r (tree :: children)) rest
      | .fail e rest => .fail e rest
      | .endless => .endless :=
  rfl

end Steps

theorem parseToken_eq_ok_iff {t : TokenType} :
    g.parseToken t ts = .ok tree rest ↔
      ∃ token, ts = token :: rest ∧ token.kind = .type t ∧ tree = .leaf token := by
  cases ts with
  | nil =>
      constructor
      · intro h
        cases h
      · rintro ⟨_, heq, _⟩
        cases heq
  | cons token tail =>
      by_cases h : token.kind = .type t
      · simp only [parseToken_cons, h, if_true, Outcome.ok.injEq, List.cons.injEq]
        constructor
        · rintro ⟨rfl, rfl⟩
          exact ⟨token, ⟨rfl, rfl⟩, h, rfl⟩
        · rintro ⟨_, ⟨rfl, rfl⟩, _, rfl⟩
          exact ⟨rfl, rfl⟩
      · simp only [parseToken_cons, h, if_false, List.cons.injEq]
        constructor
        · intro h
          cases h
        · rintro ⟨_, ⟨rfl, rfl⟩, hkind, _⟩
          exact absurd hkind h

theorem parseToken_of_kind {t : TokenType} {token : Token} (h : token.kind = .type t) :
    g.parseToken t (token :: ts) = .ok (.leaf token) ts := by
  rw [parseToken_cons, if_pos h]

theorem parseToken_of_ne {t : TokenType} (h : ts.head?.map Token.kind ≠ some (.type t)) :
    ∃ failure, g.parseToken t ts = .fail failure ts := by
  cases ts with
  | nil => exact ⟨_, rfl⟩
  | cons token ts =>
      have hkind : token.kind ≠ .type t := by simpa using h
      rw [parseToken_cons, if_neg hkind]
      exact ⟨_, rfl⟩

theorem parseSymbols_of_ne {t : TokenType} (ss : List Symbol)
    (h : ts.head?.map Token.kind ≠ some (.type t)) :
    ∃ failure, g.parseSymbols sub (.token t :: ss) ts = .fail failure ts := by
  obtain ⟨failure, hfail⟩ := parseToken_of_ne (g := g) h
  refine ⟨failure, ?_⟩
  rw [parseSymbols_cons, parseSymbol_token, hfail, Outcome.fail_cons]

theorem parseSymbols_of_kind_fail {t : TokenType} {token : Token} {failure : ParseFailure}
    {ss : List Symbol} (h : token.kind = .type t)
    (hss : g.parseSymbols sub ss ts = .fail failure rest) :
    g.parseSymbols sub (.token t :: ss) (token :: ts) = .fail failure rest := by
  rw [parseSymbols_cons, parseSymbol_token, parseToken_of_kind h, Outcome.ok_cons, hss]

theorem parseSymbols_of_kind {t : TokenType} {token : Token} {children : List Tree}
    {ss : List Symbol} (h : token.kind = .type t)
    (hss : g.parseSymbols sub ss ts = .ok children rest) :
    g.parseSymbols sub (.token t :: ss) (token :: ts) = .ok (.leaf token :: children) rest := by
  rw [parseSymbols_cons, parseSymbol_token, parseToken_of_kind h, Outcome.cons_eq_ok_iff]
  exact ⟨_, _, _, rfl, hss, rfl⟩

theorem parseSymbols_rule {r : RuleId} {tree : Tree} {mid : List Token} {children : List Tree}
    {ss : List Symbol} (h : sub r 0 ts = .ok tree mid)
    (hss : g.parseSymbols sub ss mid = .ok children rest) :
    g.parseSymbols sub (.rule r :: ss) ts = .ok (tree :: children) rest := by
  rw [parseSymbols_cons, parseSymbol_rule, Outcome.cons_eq_ok_iff]
  exact ⟨_, _, _, h, hss, rfl⟩

/-- Parses one operand of an operator of rule `r`, given whether it is the last. -/
def parseOperand (g : Grammar) (sub : RuleParser) (r : RuleId) (prec : Nat) (last : Bool)
    (s : Symbol) (ts : List Token) : Outcome Tree :=
  if last ∧ s = .rule r then sub r (prec + 1) ts else g.parseSymbol sub s ts

theorem parseOperands_cons (s : Symbol) (ss : List Symbol) (ts : List Token) :
    g.parseOperands sub r prec (s :: ss) ts =
      (g.parseOperand sub r prec ss.isEmpty s ts).cons (g.parseOperands sub r prec ss) :=
  rfl

theorem parseOperands_of_ne {t : TokenType} (ss : List Symbol)
    (h : ts.head?.map Token.kind ≠ some (.type t)) :
    ∃ failure, g.parseOperands sub r prec (.token t :: ss) ts = .fail failure ts := by
  obtain ⟨failure, hfail⟩ := parseToken_of_ne (g := g) h
  refine ⟨failure, ?_⟩
  rw [parseOperands_cons, parseOperand, if_neg (by simp), parseSymbol_token, hfail,
    Outcome.fail_cons]

/-- The last operand of an operator that ends with its own rule is parsed with the
tighter operators only. -/
theorem parseOperands_getLast? {ss : List Symbol} (hlast : ss.getLast? = some (.rule r))
    (h : g.parseOperands sub r prec ss ts = .ok children rest) :
    ∃ last mid, children.getLast? = some last ∧ sub r (prec + 1) mid = .ok last rest := by
  induction ss generalizing ts children with
  | nil => cases hlast
  | cons s ss ih =>
      rw [parseOperands_cons, Outcome.cons_eq_ok_iff] at h
      obtain ⟨child, mid, tail, hchild, htail, rfl⟩ := h
      cases ss with
      | nil =>
          cases htail
          have hs : s = .rule r := by simpa using hlast
          rw [parseOperand, if_pos ⟨rfl, hs⟩] at hchild
          exact ⟨child, ts, rfl, hchild⟩
      | cons s' ss =>
          rw [List.getLast?_cons_cons] at hlast
          obtain ⟨last, mid', hlastChild, hsub⟩ := ih hlast htail
          exact ⟨last, mid', by rw [List.getLast?_cons, hlastChild]; rfl, hsub⟩

section Members

variable {P : Tree → Prop} (hleaf : ∀ token, P (.leaf token))
  (hsub : ∀ {k p ts tree rest}, sub k p ts = .ok tree rest → P tree)
include hleaf hsub

theorem forall_of_parseSymbol {s : Symbol} (h : g.parseSymbol sub s ts = .ok tree rest) :
    P tree := by
  cases s with
  | token t =>
      obtain ⟨token, _, _, rfl⟩ := parseToken_eq_ok_iff.1 h
      exact hleaf token
  | rule k => exact hsub h

/-- What holds of leaves and of what the parser for rules returns holds of all
children of a node. -/
theorem forall_mem_of_parseSymbols {ss : List Symbol}
    (h : g.parseSymbols sub ss ts = .ok children rest) : ∀ child ∈ children, P child := by
  induction ss generalizing ts children with
  | nil =>
      cases h
      simp
  | cons s ss ih =>
      rw [parseSymbols_cons, Outcome.cons_eq_ok_iff] at h
      obtain ⟨child, mid, tail, hchild, htail, rfl⟩ := h
      exact List.forall_mem_cons.2 ⟨forall_of_parseSymbol hleaf hsub hchild, ih htail⟩

theorem forall_mem_of_parseOperands {ss : List Symbol}
    (h : g.parseOperands sub r prec ss ts = .ok children rest) : ∀ child ∈ children, P child := by
  induction ss generalizing ts children with
  | nil =>
      cases h
      simp
  | cons s ss ih =>
      rw [parseOperands_cons, Outcome.cons_eq_ok_iff] at h
      obtain ⟨child, mid, tail, hchild, htail, rfl⟩ := h
      refine List.forall_mem_cons.2 ⟨?_, ih htail⟩
      unfold parseOperand at hchild
      split at hchild
      · exact hsub hchild
      · exact forall_of_parseSymbol hleaf hsub hchild

end Members

/-- The first alternative that can be parsed is the one that counts. -/
theorem parseFirst_eq_some_iff {as : List (List Symbol)} :
    g.parseFirst sub as ts = .ok (some children) rest ↔
      ∃ before a after, as = before ++ a :: after ∧
        (∀ b ∈ before, ∃ e left, g.parseSymbols sub b ts = .fail e left) ∧
        g.parseSymbols sub a ts = .ok children rest := by
  induction as with
  | nil => simp
  | cons a as ih =>
      rw [parseFirst_cons]
      constructor
      · intro h
        cases hfirst : g.parseSymbols sub a ts with
        | ok first left =>
            rw [hfirst] at h
            cases h
            exact ⟨[], a, as, rfl, by simp, hfirst⟩
        | fail e left =>
            rw [hfirst] at h
            obtain ⟨before, b, after, rfl, hbefore, hb⟩ := ih.1 h
            refine ⟨a :: before, b, after, rfl, ?_, hb⟩
            intro c hc
            rcases List.mem_cons.1 hc with rfl | hc
            · exact ⟨e, left, hfirst⟩
            · exact hbefore c hc
        | endless =>
            rw [hfirst] at h
            cases h
      · rintro ⟨before, b, after, hsplit, hbefore, hb⟩
        cases before with
        | nil =>
            rw [List.nil_append, List.cons.injEq] at hsplit
            rw [hsplit.1, hb]
        | cons c before =>
            rw [List.cons_append, List.cons.injEq] at hsplit
            obtain ⟨e, left, hc⟩ := hbefore c List.mem_cons_self
            rw [hsplit.1, hc]
            exact ih.2 ⟨before, b, after, hsplit.2,
              fun d hd => hbefore d (List.mem_cons_of_mem _ hd), hb⟩

/-- Parses a rule by its primary alternatives, without looking for a placeholder. -/
def parseAlternatives (g : Grammar) (sub : RuleParser) (r : RuleId) (rule : Rule)
    (ts : List Token) : Outcome Tree :=
  match rule.primaries with
  | [only] =>
    match g.parseSymbols sub only ts with
    | .ok children rest => .ok (.node r children) rest
    | .fail e rest => .fail e rest
    | .endless => .endless
  | several =>
    match g.parseFirst sub several ts with
    | .ok (some children) rest => .ok (.node r children) rest
    | .ok none _ => .fail (.noViableAlternative rule.name (Token.nextDisplay ts)) ts
    | .fail e rest => .fail e rest
    | .endless => .endless

theorem parsePrimary_of_rule (rule : Rule) {token : Token} (h : token.kind = .rule r) :
    g.parsePrimary sub r rule (token :: ts) = .ok (.node r [.leaf token]) ts := by
  simp [parsePrimary, h]

theorem parsePrimary_of_not_rule (rule : Rule) (h : ts.head?.map Token.kind ≠ some (.rule r)) :
    g.parsePrimary sub r rule ts = g.parseAlternatives sub r rule ts := by
  cases ts with
  | nil => rfl
  | cons token ts =>
      have hkind : token.kind ≠ .rule r := by simpa using h
      rw [parsePrimary, if_neg hkind]
      rfl

theorem parseAlternatives_eq_ok_iff {rule : Rule} :
    g.parseAlternatives sub r rule ts = .ok tree rest ↔
      ∃ children, g.parseFirst sub rule.primaries ts = .ok (some children) rest ∧
        tree = .node r children := by
  rw [parseAlternatives]
  split
  · rename_i only hone
    rw [hone]
    cases h : g.parseSymbols sub only ts <;> grind [parseFirst_cons, parseFirst_nil]
  · cases g.parseFirst sub rule.primaries ts with
    | fail e left => simp
    | endless => simp
    | ok found left => cases found <;> grind

theorem parsePrimary_of_parseFirst {rule : Rule} (hhead : ts.head?.map Token.kind ≠ some (.rule r))
    (h : g.parseFirst sub rule.primaries ts = .ok (some children) rest) :
    g.parsePrimary sub r rule ts = .ok (.node r children) rest := by
  rw [parsePrimary_of_not_rule rule hhead]
  exact parseAlternatives_eq_ok_iff.2 ⟨children, h, rfl⟩

theorem parseFirst_eq_none {as : List (List Symbol)}
    (h : ∀ a ∈ as, ∃ e left, g.parseSymbols sub a ts = .fail e left) :
    g.parseFirst sub as ts = .ok none ts := by
  induction as with
  | nil => rfl
  | cons a as ih =>
      obtain ⟨e, left, ha⟩ := h a List.mem_cons_self
      rw [parseFirst_cons, ha]
      exact ih fun b hb => h b (List.mem_cons_of_mem _ hb)

/-- If all alternatives fail, the rule fails, with a failure of its own unless there
is just one of them. -/
theorem parseAlternatives_of_fail {rule : Rule}
    (h : ∀ a ∈ rule.primaries, ∃ e left, g.parseSymbols sub a ts = .fail e left) :
    ∃ e left, g.parseAlternatives sub r rule ts = .fail e left := by
  rw [parseAlternatives]
  split
  · rename_i only hone
    obtain ⟨e, left, hfail⟩ := h only (by simp [hone])
    rw [hfail]
    exact ⟨e, left, rfl⟩
  · rw [parseFirst_eq_none h]
    exact ⟨_, _, rfl⟩

/-- A placeholder for the rule is always taken; only without one are the
alternatives looked at. -/
theorem parsePrimary_eq_ok {rule : Rule} (h : g.parsePrimary sub r rule ts = .ok tree rest) :
    (∃ token, ts = token :: rest ∧ token.kind = .rule r ∧ tree = .node r [.leaf token]) ∨
      ∃ a ∈ rule.primaries, ∃ children, g.parseSymbols sub a ts = .ok children rest ∧
        tree = .node r children := by
  by_cases hhead : ts.head?.map Token.kind = some (.rule r)
  · obtain ⟨token, htoken, hkind⟩ := Option.map_eq_some_iff.1 hhead
    obtain ⟨tail, rfl⟩ := List.head?_eq_some_iff.1 htoken
    rw [parsePrimary_of_rule rule hkind] at h
    cases h
    exact .inl ⟨token, rfl, hkind, rfl⟩
  · rw [parsePrimary_of_not_rule rule hhead, parseAlternatives_eq_ok_iff] at h
    obtain ⟨children, hfirst, rfl⟩ := h
    obtain ⟨before, a, after, hsplit, _, ha⟩ := parseFirst_eq_some_iff.1 hfirst
    exact .inr ⟨a, by simp [hsplit], children, ha, rfl⟩

/-- An operator that extends a derivation is tight enough and reads a token. Its
precedence is the number of operators from it on. -/
theorem parseOperator_eq_some {operators : List (List Symbol)}
    (h : g.parseOperator sub r minPrec operators ts = .ok (some children) rest) :
    ∃ before op after, operators = before ++ op :: after ∧ minPrec ≤ after.length + 1 ∧
      g.parseOperands sub r (after.length + 1) op ts = .ok children rest ∧
      rest.length < ts.length := by
  induction operators with
  | nil => cases h
  | cons op ops ih =>
      have later (h : g.parseOperator sub r minPrec ops ts = .ok (some children) rest) :
          ∃ before b after, op :: ops = before ++ b :: after ∧ minPrec ≤ after.length + 1 ∧
            g.parseOperands sub r (after.length + 1) b ts = .ok children rest ∧
            rest.length < ts.length := by
        obtain ⟨before, b, after, rfl, hb⟩ := ih h
        exact ⟨op :: before, b, after, rfl, hb⟩
      simp only [parseOperator_cons] at h
      split at h
      · cases h
      · rename_i hprec
        cases hop : g.parseOperands sub r (ops.length + 1) op ts with
        | ok first left =>
            simp only [hop] at h
            split at h
            · rename_i hlt
              cases h
              exact ⟨[], op, ops, rfl, by omega, hop, hlt⟩
            · exact later h
        | fail e left =>
            simp only [hop] at h
            exact later h
        | endless =>
            simp only [hop] at h
            cases h

/-- If no operator extends a derivation, those that are tight enough fail or read
nothing. -/
theorem not_lt_of_parseOperator_none {before after : List (List Symbol)} {op : List Symbol}
    {left : List Token}
    (h : g.parseOperator sub r minPrec (before ++ op :: after) ts = .ok none left)
    (hprec : minPrec ≤ after.length + 1)
    (hop : g.parseOperands sub r (after.length + 1) op ts = .ok children rest) :
    ¬ rest.length < ts.length := by
  induction before with
  | nil =>
      intro hlt
      rw [List.nil_append, parseOperator_cons, if_neg (by omega)] at h
      simp only [hop, if_pos hlt] at h
      cases h
  | cons b before ih =>
      have hlength : (before ++ op :: after).length = before.length + (after.length + 1) := by simp
      rw [List.cons_append, parseOperator_cons, if_neg (by omega)] at h
      refine ih ?_
      split at h
      · split at h
        · cases h
        · exact h
      · exact h
      · cases h

theorem extend_of_none {operators : List (List Symbol)} {fuel : Nat}
    (h : g.parseOperator sub r minPrec operators ts = .ok none rest) (hfuel : 0 < fuel) :
    g.extend sub r minPrec operators fuel tree ts = .ok tree ts := by
  obtain ⟨n, rfl⟩ := Nat.exists_eq_add_of_lt hfuel
  rw [Nat.zero_add, extend_succ, h]

/-- The rule for the loop: what every use of an operator preserves holds when the
loop ends, and it ends where no operator can be used. -/
theorem extend_induct {operators : List (List Symbol)} {P : Tree → List Token → Prop}
    (hstep : ∀ {first ts children rest}, P first ts →
      g.parseOperator sub r minPrec operators ts = .ok (some children) rest →
      P (.node r (first :: children)) rest)
    {fuel : Nat} {first : Tree} (hfirst : P first ts)
    (h : g.extend sub r minPrec operators fuel first ts = .ok tree rest) :
    P tree rest ∧ ∃ left, g.parseOperator sub r minPrec operators rest = .ok none left := by
  induction fuel generalizing first ts with
  | zero => cases h
  | succ n ih =>
      rw [extend_succ] at h
      split at h
      · rename_i left hnone
        cases h
        exact ⟨hfirst, left, hnone⟩
      · rename_i hsome
        exact ih (hstep hfirst hsome) h
      · cases h
      · cases h

theorem parseRule_of_rule {rule : Rule} (hrule : g.rules[r]? = some rule) (n : Nat) :
    g.parseRule (n + 1) r minPrec ts =
      match g.parsePrimary (g.parseRule n) r rule ts with
      | .ok tree rest =>
        g.extend (g.parseRule n) r minPrec rule.operators (rest.length + 1) tree rest
      | .fail e rest => .fail e rest
      | .endless => .endless := by
  cases h : g.parsePrimary (g.parseRule n) r rule ts <;> simp [parseRule, hrule, h]

theorem parseRule_eq_ok {n : Nat} (h : g.parseRule (n + 1) r minPrec ts = .ok tree rest) :
    ∃ rule first mid, g.rules[r]? = some rule ∧
      g.parsePrimary (g.parseRule n) r rule ts = .ok first mid ∧
      g.extend (g.parseRule n) r minPrec rule.operators (mid.length + 1) first mid =
        .ok tree rest := by
  cases hrule : g.rules[r]? with
  | none =>
      rw [parseRule, hrule] at h
      cases h
  | some rule =>
      rw [parseRule_of_rule hrule] at h
      split at h
      · rename_i first mid hfirst
        exact ⟨rule, first, mid, rfl, hfirst, h⟩
      · cases h
      · cases h

theorem parseRule_of_parsePrimary {rule : Rule} (hrule : g.rules[r]? = some rule) {n : Nat}
    (h : g.parsePrimary (g.parseRule n) r rule ts = .ok tree rest) :
    g.parseRule (n + 1) r minPrec ts =
      g.extend (g.parseRule n) r minPrec rule.operators (rest.length + 1) tree rest := by
  rw [parseRule_of_rule hrule, h]

theorem parseRule_of_fail {rule : Rule} (hrule : g.rules[r]? = some rule) {n : Nat}
    (hhead : ts.head?.map Token.kind ≠ some (.rule r))
    (h : ∀ a ∈ rule.primaries, ∃ e left, g.parseSymbols (g.parseRule n) a ts = .fail e left) :
    ∃ e left, g.parseRule (n + 1) r minPrec ts = .fail e left := by
  obtain ⟨e, left, hfail⟩ := parseAlternatives_of_fail (r := r) h
  rw [← parsePrimary_of_not_rule rule hhead] at hfail
  refine ⟨e, left, ?_⟩
  rw [parseRule_of_rule hrule, hfail]

theorem lt_length_of_parseRule {n : Nat} (h : g.parseRule n r minPrec ts = .ok tree rest) :
    r < g.rules.length := by
  cases n with
  | zero => cases h
  | succ n =>
      obtain ⟨rule, _, _, hrule, _⟩ := parseRule_eq_ok h
      exact (List.getElem?_eq_some_iff.1 hrule).1

theorem parseTokens_of_parse {s s' : TokenStream} (h : g.parse r s = (.ok tree, s')) :
    ∃ rest, g.parseTokens r s.remaining = .ok tree rest ∧ s' = s.seekLast rest.length := by
  unfold parse at h
  split at h
  · rename_i tree' rest hparse
    cases h
    exact ⟨rest, hparse, rfl⟩
  · cases h
  · cases h

end Grammar

end Stencil
