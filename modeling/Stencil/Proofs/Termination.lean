import Stencil.Proofs.Depth
import Stencil.Proofs.Failures

/-!
Termination of the parser. A rule can call itself forever only if it does so without
reading a token in between. Which rules can be entered where a rule was entered is
read off the grammar: those that stand in its alternatives behind nothing but rules
that may read no token.

Main statement: if no rule can be entered again in this way, every parse returns. From
one call to the next either a token is read or the rank of the rule goes down, and this
bounds the depth of the calls.
-/

namespace Stencil

theorem Outcome.cons_ne_endless {first : Outcome Tree}
    {more : List Token → Outcome (List Tree)} (hfirst : first ≠ .endless)
    (hmore : ∀ {child mid}, first = .ok child mid → more mid ≠ .endless) :
    first.cons more ≠ .endless := by
  unfold Outcome.cons
  split
  · simp
  · exact absurd rfl hfirst
  · rename_i child mid
    have hmid := hmore rfl
    split
    · simp
    · rename_i hendless
      exact absurd hendless hmid
    · simp

namespace Grammar

/-- The rule can be derived without reading a token: one of its primary alternatives
consists of such rules only. -/
inductive Nullable (g : Grammar) : RuleId → Prop
  | intro {r : RuleId} {rule : Rule} {ks : List RuleId} (hrule : g.rules[r]? = some rule)
      (hmem : ks.map Symbol.rule ∈ rule.primaries) (hks : ∀ k ∈ ks, Nullable g k) : Nullable g r

/-- The symbols are read from where the rule was entered: they are a primary
alternative, or an operator whose first operand may read nothing. -/
def OpensWith (g : Grammar) (r : RuleId) (a : List Symbol) : Prop :=
  ∃ rule, g.rules[r]? = some rule ∧ (a ∈ rule.primaries ∨ g.Nullable r ∧ a ∈ rule.operators)

/-- Rule `k` can be entered where rule `r` was entered: nothing but rules that may
read no token stand before it. -/
def Descends (g : Grammar) (r k : RuleId) : Prop :=
  ∃ (ks : List RuleId) (rest : List Symbol),
    g.OpensWith r (ks.map .rule ++ .rule k :: rest) ∧ ∀ j ∈ ks, g.Nullable j

variable {g : Grammar} {sub : RuleParser} {r k : RuleId} {minPrec prec : Nat}
  {ts mid rest : List Token} {tree : Tree} {children : List Tree}

/-! ### Derivations without leaves -/

theorem exists_nullable_of_spells {a : List Symbol} {cs : List Tree} (hspells : Spells a cs)
    (hleaves : ∀ c ∈ cs, c.leaves = [])
    (hnullable : ∀ c ∈ cs, ∀ k, c.rule? = some k → g.Nullable k) :
    ∃ ks : List RuleId, a = ks.map .rule ∧ ∀ k ∈ ks, g.Nullable k := by
  induction hspells with
  | nil => exact ⟨[], rfl, by simp⟩
  | @cons s c ss cs hfits _ ih =>
      obtain ⟨ks, rfl, hks⟩ := ih (fun c hc => hleaves c (List.mem_cons_of_mem _ hc))
        (fun c hc => hnullable c (List.mem_cons_of_mem _ hc))
      cases s with
      | token t =>
          obtain ⟨token, rfl, _⟩ := Symbol.fits_token_iff.1 hfits
          cases hleaves _ List.mem_cons_self
      | rule k =>
          have hk := hnullable c List.mem_cons_self k (Symbol.fits_rule_iff.1 hfits)
          exact ⟨k :: ks, rfl, List.forall_mem_cons.2 ⟨hk, hks⟩⟩

/-- Only a rule that can be derived without reading a token is. -/
theorem nullable_of_leaves_eq_nil (h : tree.IsDerivation g.HasAlternative)
    (hroot : tree.rule? = some r) (hleaves : tree.leaves = []) : g.Nullable r := by
  induction tree using Tree.inductionOn generalizing r with
  | leaf token => cases hroot
  | node k cs ih =>
      obtain rfl : k = r := by simpa [Tree.rule?] using hroot
      obtain ⟨hnode, hchildren⟩ := Tree.IsDerivation.node_iff.1 h
      rw [Tree.leaves_node, List.flatMap_eq_nil_iff] at hleaves
      rcases hnode with ⟨token, rfl, _⟩ | ⟨a, ⟨rule, hrule, ha⟩, hspells⟩
      · cases hleaves _ List.mem_cons_self
      · rcases ha with ha | ⟨op, _, rfl⟩
        · obtain ⟨ks, rfl, hks⟩ := exists_nullable_of_spells hspells hleaves
            fun c hc j hj => ih c hc (hchildren c hc) hj (hleaves c hc)
          exact .intro hrule ha hks
        · -- the first operand is a derivation of the same rule
          obtain ⟨c, cs, hc, _, rfl⟩ := spells_rule_cons_iff.1 hspells
          exact ih c List.mem_cons_self (hchildren c List.mem_cons_self) hc
            (hleaves c List.mem_cons_self)

theorem Reads.length_lt_or_nullable (h : g.Reads r tree ts rest) :
    rest.length < ts.length ∨ rest.length = ts.length ∧ g.Nullable r := by
  have hlength := congrArg List.length h.leaves
  rw [List.length_append] at hlength
  by_cases hleaves : tree.leaves = []
  · rw [hleaves, List.length_nil, Nat.zero_add] at hlength
    exact .inr ⟨hlength, nullable_of_leaves_eq_nil h.derivation h.root hleaves⟩
  · have hpos := List.length_pos_iff.2 hleaves
    exact .inl (by omega)

/-! ### What is left of an alternative -/

/-- Rule `r` was entered with `n` tokens to come, and `ss` is what is left of one of
its alternatives: a token has been read since, or only rules that may read none stand
before it. -/
def Pending (g : Grammar) (r : RuleId) (n : Nat) (ss : List Symbol) (ts : List Token) : Prop :=
  ts.length < n ∨
    ts.length = n ∧ ∃ ks : List RuleId, g.OpensWith r (ks.map .rule ++ ss) ∧ ∀ k ∈ ks, g.Nullable k

theorem Pending.of_opensWith {ss : List Symbol} (h : g.OpensWith r ss) :
    g.Pending r ts.length ss ts :=
  .inr ⟨rfl, [], h, by simp⟩

theorem Pending.step_token {n : Nat} {t : TokenType} {ss : List Symbol} {token : Token}
    (h : g.Pending r n (.token t :: ss) (token :: ts)) : g.Pending r n ss ts := by
  rcases h with hlt | ⟨heq, _⟩
  · exact .inl (Nat.lt_of_succ_lt hlt)
  · exact .inl (heq ▸ Nat.lt_succ_self _)

theorem Pending.step_rule {n : Nat} {ss : List Symbol} (h : g.Pending r n (.rule k :: ss) ts)
    (hreads : g.Reads k tree ts mid) : g.Pending r n ss mid := by
  rcases hreads.length_lt_or_nullable with hlt | ⟨hlength, hnullable⟩
  · rcases h with hlt' | ⟨rfl, _⟩
    · exact .inl (hlt.trans hlt')
    · exact .inl hlt
  · rw [Pending, hlength]
    refine h.imp_right ?_
    rintro ⟨rfl, ks, hopens, hks⟩
    refine ⟨rfl, ks ++ [k], by simpa using hopens, ?_⟩
    intro j hj
    rcases List.mem_append.1 hj with hj | hj
    · exact hks j hj
    · exact List.mem_singleton.1 hj ▸ hnullable

theorem Pending.step (hsound : g.Sound sub) {n : Nat} {s : Symbol} {ss : List Symbol}
    (h : g.Pending r n (s :: ss) ts) (hs : g.parseSymbol sub s ts = .ok tree mid) :
    g.Pending r n ss mid := by
  cases s with
  | token t =>
      obtain ⟨token, rfl, _, _⟩ := parseToken_eq_ok_iff.1 hs
      exact h.step_token
  | rule k => exact h.step_rule (hsound hs)

/-! ### The depth of calls -/

/-- What the depth of calls for a rule is bounded by, with `n` tokens to come: reading
a token counts more than any rank. -/
def callCost (g : Grammar) (rank : RuleId → Nat) (r : RuleId) (n : Nat) : Nat :=
  n * (g.rules.length + 1) + rank r

section Ranked

variable {rank : RuleId → Nat} (hbound : ∀ r, rank r ≤ g.rules.length)
  (hrank : ∀ r k, g.Descends r k → rank k < rank r)

include hbound in
theorem callCost_lt_of_lt {m n : Nat} (h : m < n) : g.callCost rank k m < g.callCost rank r n := by
  have hk := hbound k
  calc m * (g.rules.length + 1) + rank k
      < m * (g.rules.length + 1) + (g.rules.length + 1) := by omega
    _ = (m + 1) * (g.rules.length + 1) := by rw [Nat.add_mul, Nat.one_mul]
    _ ≤ n * (g.rules.length + 1) := Nat.mul_le_mul_right _ h
    _ ≤ n * (g.rules.length + 1) + rank r := Nat.le_add_right _ _

include hbound hrank in
/-- A call of a rule costs less than the call it is made from. -/
theorem Pending.callCost_lt {n : Nat} {ss : List Symbol} (h : g.Pending r n (.rule k :: ss) ts) :
    g.callCost rank k ts.length < g.callCost rank r n := by
  rcases h with hlt | ⟨rfl, ks, hopens, hks⟩
  · exact callCost_lt_of_lt hbound hlt
  · exact Nat.add_lt_add_left (hrank r k ⟨ks, ss, hopens, hks⟩) _

/-- The parser for rules returns on all calls below some cost. -/
def ReturnsBelow (g : Grammar) (rank : RuleId → Nat) (cost : Nat) (sub : RuleParser) : Prop :=
  ∀ {k minPrec ts}, g.callCost rank k ts.length < cost → sub k minPrec ts ≠ .endless

theorem parseToken_ne_endless (t : TokenType) : g.parseToken t ts ≠ .endless := by
  cases ts with
  | nil => simp [parseToken]
  | cons token ts =>
      rw [parseToken_cons]
      split <;> simp

section Parts

variable {n : Nat} (hsound : g.Sound sub) (hsub : g.ReturnsBelow rank (g.callCost rank r n) sub)
include hbound hrank hsub

theorem parseSymbol_ne_endless {s : Symbol} {ss : List Symbol} (h : g.Pending r n (s :: ss) ts) :
    g.parseSymbol sub s ts ≠ .endless := by
  cases s with
  | token t => exact parseToken_ne_endless t
  | rule k => exact hsub (h.callCost_lt hbound hrank)

include hsound

theorem parseSymbols_ne_endless {ss : List Symbol} (h : g.Pending r n ss ts) :
    g.parseSymbols sub ss ts ≠ .endless := by
  induction ss generalizing ts with
  | nil => simp [parseSymbols]
  | cons s ss ih =>
      rw [parseSymbols_cons]
      refine Outcome.cons_ne_endless (parseSymbol_ne_endless hbound hrank hsub h) ?_
      intro child mid hchild
      exact ih (h.step hsound hchild)

/-- The last operand may be the rule itself, entered with another precedence; that
does not matter for the cost. -/
theorem parseOperands_ne_endless {ss : List Symbol} (h : g.Pending r n ss ts) :
    g.parseOperands sub r prec ss ts ≠ .endless := by
  induction ss generalizing ts with
  | nil => simp [parseOperands]
  | cons s ss ih =>
      rw [parseOperands_cons, parseOperand]
      split
      · rename_i hlast
        obtain ⟨_, rfl⟩ := hlast
        refine Outcome.cons_ne_endless (hsub (h.callCost_lt hbound hrank)) ?_
        intro child mid hchild
        exact ih (h.step_rule (hsound hchild))
      · refine Outcome.cons_ne_endless (parseSymbol_ne_endless hbound hrank hsub h) ?_
        intro child mid hchild
        exact ih (h.step hsound hchild)

/-- The operators are tried where a token has been read since the rule was entered, or
where the rule may have read none. -/
theorem parseOperator_ne_endless {rule : Rule} (hrule : g.rules[r]? = some rule)
    {operators : List (List Symbol)} (hmem : ∀ op ∈ operators, op ∈ rule.operators)
    (h : ts.length < n ∨ ts.length = n ∧ g.Nullable r) :
    g.parseOperator sub r minPrec operators ts ≠ .endless := by
  induction operators with
  | nil => simp [parseOperator]
  | cons op ops ih =>
      have hop : g.Pending r n op ts := by
        refine h.imp_right ?_
        rintro ⟨heq, hnullable⟩
        exact ⟨heq, [], ⟨rule, hrule, .inr ⟨hnullable, hmem op List.mem_cons_self⟩⟩, by simp⟩
      have hlater := ih fun op hop => hmem op (List.mem_cons_of_mem _ hop)
      have hreturns : g.parseOperands sub r (ops.length + 1) op ts ≠ .endless :=
        parseOperands_ne_endless hbound hrank hsound hsub hop
      simp only [parseOperator_cons]
      split
      · simp
      · split
        · split
          · simp
          · exact hlater
        · exact hlater
        · rename_i hendless
          exact absurd hendless hreturns

/-- The loop ends because every use of an operator reads a token. -/
theorem extend_ne_endless {rule : Rule} (hrule : g.rules[r]? = some rule) {fuel : Nat}
    (hfuel : ts.length < fuel) (h : ts.length < n ∨ ts.length = n ∧ g.Nullable r) :
    g.extend sub r minPrec rule.operators fuel tree ts ≠ .endless := by
  induction fuel generalizing tree ts with
  | zero => exact absurd hfuel (Nat.not_lt_zero _)
  | succ fuel ih =>
      rw [extend_succ]
      split
      · simp
      · rename_i children rest hsome
        obtain ⟨_, _, _, _, _, _, hlt⟩ := parseOperator_eq_some hsome
        exact ih (by omega) (.inl (by omega))
      · simp
      · rename_i hendless
        exact absurd hendless
          (parseOperator_ne_endless hbound hrank hsound hsub hrule (fun _ hop => hop) h)

end Parts

include hbound hrank

theorem parseAlternatives_ne_endless (hsound : g.Sound sub)
    (hsub : g.ReturnsBelow rank (g.callCost rank r ts.length) sub) {rule : Rule}
    (hrule : g.rules[r]? = some rule) : g.parseAlternatives sub r rule ts ≠ .endless := by
  have hreturns : ∀ a ∈ rule.primaries, g.parseSymbols sub a ts ≠ .endless := by
    intro a ha
    exact parseSymbols_ne_endless hbound hrank hsound hsub (.of_opensWith ⟨rule, hrule, .inl ha⟩)
  have hfirst {as : List (List Symbol)} (has : ∀ a ∈ as, a ∈ rule.primaries) :
      g.parseFirst sub as ts ≠ .endless := by
    induction as with
    | nil => simp [parseFirst]
    | cons a as ih =>
        rw [parseFirst]
        split
        · simp
        · exact ih fun a ha => has a (List.mem_cons_of_mem _ ha)
        · rename_i hendless
          exact absurd hendless (hreturns a (has a List.mem_cons_self))
  unfold parseAlternatives
  split
  · rename_i only hone
    have honly := hreturns only (by simp [hone])
    split
    · simp
    · simp
    · rename_i hendless
      exact absurd hendless honly
  · split
    · simp
    · simp
    · simp
    · rename_i hendless
      exact absurd hendless (hfirst fun _ ha => ha)

/-- The depth that is allowed to a call has to be more than its cost. -/
theorem parseRule_ne_endless {n : Nat} (h : g.callCost rank r ts.length < n) :
    g.parseRule n r minPrec ts ≠ .endless := by
  induction n generalizing r minPrec ts with
  | zero => exact absurd h (Nat.not_lt_zero _)
  | succ n ih =>
      have hsound : g.Sound (g.parseRule n) := parseRule_sound n
      have hsub : g.ReturnsBelow rank (g.callCost rank r ts.length) (g.parseRule n) := by
        intro k p ts' hlt
        exact ih (by omega)
      rw [parseRule]
      split
      · simp
      · rename_i rule hrule
        have hprimary : g.parsePrimary (g.parseRule n) r rule ts ≠ .endless := by
          by_cases hhead : ts.head?.map Token.kind = some (.rule r)
          · obtain ⟨token, htoken, hkind⟩ := Option.map_eq_some_iff.1 hhead
            obtain ⟨tail, rfl⟩ := List.head?_eq_some_iff.1 htoken
            simp [parsePrimary_of_rule rule hkind]
          · rw [parsePrimary_of_not_rule rule hhead]
            exact parseAlternatives_ne_endless hbound hrank hsound hsub hrule
        split
        · rename_i first mid hfirst
          exact extend_ne_endless hbound hrank hsound hsub hrule (Nat.lt_succ_self _)
            (parsePrimary_sound hsound hrule hfirst).length_lt_or_nullable
        · simp
        · rename_i hendless
          exact absurd hendless hprimary

end Ranked

/-- If no rule can be entered again before a token is read, every parse returns, on
every stream and from every position and rule. The depth of the calls is bounded by the
numbers of rules and of tokens to come, and from there on it does not matter. -/
theorem parse_returns (hacyclic : ∀ r, ¬ Relation.TransGen g.Descends r r) (r : RuleId)
    (s : TokenStream) :
    (∀ name, (g.parse r s).1 ≠ .error (.endless name)) ∧
      ∀ depth, (g.rules.length + 1) * (s.remaining.length + 1) ≤ depth →
        (∀ minPrec, g.parseRule depth r minPrec s.remaining ≠ .endless) ∧
        g.parseRule depth r 0 s.remaining = g.parseTokens r s.remaining := by
  have hrange : ∀ r k, g.Descends r k → r < g.rules.length := by
    rintro r k ⟨ks, rest, ⟨rule, hrule, _⟩, _⟩
    exact (List.getElem?_eq_some_iff.1 hrule).1
  obtain ⟨rank, hbound, hrank⟩ := exists_rank hacyclic hrange
  have hreturns {n : Nat} (minPrec : Nat)
      (hn : (g.rules.length + 1) * (s.remaining.length + 1) ≤ n) :
      g.parseRule n r minPrec s.remaining ≠ .endless := by
    refine parseRule_ne_endless hbound hrank (Nat.lt_of_lt_of_le ?_ hn)
    have hr := hbound r
    calc s.remaining.length * (g.rules.length + 1) + rank r
        < s.remaining.length * (g.rules.length + 1) + 1 * (g.rules.length + 1) := by omega
      _ = (g.rules.length + 1) * (s.remaining.length + 1) := by rw [← Nat.add_mul, Nat.mul_comm]
  have hfuel : (g.rules.length + 1) * (s.remaining.length + 1) ≤
      (g.entries + 1) * (s.remaining.length + 1) :=
    Nat.mul_le_mul_right _ (Nat.succ_le_succ g.length_rules_le_entries)
  refine ⟨fst_parse_ne_endless (hreturns 0 hfuel), ?_⟩
  intro depth hdepth
  refine ⟨fun minPrec => hreturns minPrec hdepth, ?_⟩
  -- both are the outcome at the least of these depths
  have hleast := hreturns 0 (Nat.le_refl _)
  rw [parseTokens, Outcome.eq_of_le (g.parseRule_mono hdepth r 0 s.remaining) hleast,
    Outcome.eq_of_le (g.parseRule_mono hfuel r 0 s.remaining) hleast]

-- A first operand that may read nothing, before an operator that begins with its own rule.
example : ((⟨"Pairs", [⟨"pair", [[]], [[.rule 0, .token 1]]⟩], [.literal "x"]⟩ : Grammar).parse 0
    (.ofList [])).1 = .error (.endless "pair") := rfl

/-- Sequences of signed numbers and of sequences in brackets. -/
def sequences : GrammarDecl where
  name := "Sequences"
  rules := [⟨"items", ["items item", ""]⟩, ⟨"item", ["sign '1'", "sign '(' items ')'"]⟩,
    ⟨"sign", ["'-'", ""]⟩]
  tokens := []

def sequenceGrammar : Grammar where
  name := "Sequences"
  rules := [⟨"items", [[]], [[.rule 1]]⟩,
    ⟨"item", [[.rule 2, .token 1], [.rule 2, .token 2, .rule 0, .token 3]], []⟩,
    ⟨"sign", [[.token 4], []], []⟩]
  tokens := [.literal "1", .literal "(", .literal ")", .literal "-"]

/-- Items are entered where a sequence is, and signs where an item is. -/
theorem lt_of_descends_sequences {r k : RuleId} (h : sequenceGrammar.Descends r k) : r < k := by
  obtain ⟨ks, rest, ⟨rule, hrule, h⟩, _⟩ := h
  match r with
  | 0 | 1 | 2 =>
      cases hrule
      rcases ks with _ | ⟨j, _ | ⟨j', ks⟩⟩ <;> grind
  | r + 3 => cases hrule

/-- `- ( 1 ) <item> )`, from the second token on: the last bracket is not read. -/
def sequenceStream : TokenStream :=
  (TokenStream.ofList [.word 4 "-", .word 2 "(", .word 1 "1", .word 3 ")",
    .rulePlaceholder 1 ⟨"item", none⟩, .word 3 ")"]).seek 1

theorem parse_returns_sequences :
    sequences.build = .ok sequenceGrammar ∧ sequenceGrammar.Nullable 0 ∧
      (∀ r, ¬ Relation.TransGen sequenceGrammar.Descends r r) ∧
      (∀ name, (sequenceGrammar.parse 0 sequenceStream).1 ≠ .error (.endless name)) ∧
      sequenceGrammar.parseRule 24 0 0 sequenceStream.remaining =
        sequenceGrammar.parseTokens 0 sequenceStream.remaining ∧
      (sequenceGrammar.parse 0 sequenceStream).2.pos = 5 := by
  have hacyclic : ∀ r, ¬ Relation.TransGen sequenceGrammar.Descends r r := by
    intro r h
    have hlt : Relation.TransGen sequenceGrammar.Descends ≤ (· < ·) :=
      Relation.transGen_minimal fun _ _ => lt_of_descends_sequences
    exact Nat.lt_irrefl r (hlt r r h)
  obtain ⟨hreturns, hdepth⟩ := parse_returns hacyclic 0 sequenceStream
  obtain ⟨_, hsame⟩ := hdepth 24 (by decide)
  exact ⟨rfl, @Nullable.intro _ 0 _ [] rfl (by simp) (by simp), hacyclic, hreturns, hsame, rfl⟩

end Grammar

end Stencil
