import Mathlib.Data.List.Nodup
import Stencil.Proofs.Derivation
import Stencil.Proofs.Parsing

/-!
Operator expressions. A rule of expressions has binary operators, atoms that are
single tokens, and brackets around an expression. The tokens of an expression
can be grouped in many ways, and the normal one is that of the precedences.

Main statements: the parser finds the normal tree of the tokens it reads, and
every derivation has the leaves of a normal tree.
-/

namespace Stencil

/-- An alternative of a rule of expressions that does not begin with the rule. -/
inductive Operand where
  | atom (t : TokenType)
  | bracket (opening closing : TokenType)

namespace Operand

def symbols (e : RuleId) : Operand → List Symbol
  | .atom t => [.token t]
  | .bracket opening closing => [.token opening, .rule e, .token closing]

def types : Operand → List TokenType
  | .atom t => [t]
  | .bracket opening closing => [opening, closing]

def first : Operand → TokenType
  | .atom t => t
  | .bracket opening _ => opening

theorem first_mem_types (p : Operand) : p.first ∈ p.types := by
  cases p <;> simp [first, types]

theorem symbols_eq_cons (e : RuleId) (p : Operand) :
    ∃ rest, p.symbols e = .token p.first :: rest := by
  cases p with
  | atom t => exact ⟨[], rfl⟩
  | bracket opening closing => exact ⟨[.rule e, .token closing], rfl⟩

end Operand

/-- Rule `e` has the operators `e op e`, the tightest first, and the operands. All
the token types in them are different. -/
structure Grammar.HasExpressions (g : Grammar) (e : RuleId) (ops : List TokenType)
    (operands : List Operand) : Prop where
  rule : ∃ name, g.rules[e]? =
    some ⟨name, operands.map (Operand.symbols e), ops.map fun t => [.token t, .rule e]⟩
  nodup : (ops ++ operands.flatMap Operand.types).Nodup

/-- An expression in which no operator at the top has a precedence below `m`. An
operator of precedence `p` has operators of at least this precedence at the top
of its left operand, and only tighter ones at the top of its right operand. -/
inductive Normal (e : RuleId) (ops : List TokenType) (operands : List Operand) :
    (m : Nat) → Tree → Prop
  | placeholder {m : Nat} {token : Token} (hkind : token.kind = .rule e) :
      Normal e ops operands m (.node e [.leaf token])
  | atom {m : Nat} {t : TokenType} {token : Token} (hmem : .atom t ∈ operands)
      (hkind : token.kind = .type t) : Normal e ops operands m (.node e [.leaf token])
  | bracket {m : Nat} {opening closing : TokenType} {a b : Token} {inner : Tree}
      (hmem : .bracket opening closing ∈ operands) (ha : a.kind = .type opening)
      (hinner : Normal e ops operands 0 inner) (hb : b.kind = .type closing) :
      Normal e ops operands m (.node e [.leaf a, inner, .leaf b])
  | binary {m i : Nat} {t : TokenType} {op : Token} {l r : Tree} (ht : ops[i]? = some t)
      (hm : m ≤ ops.length - i) (hop : op.kind = .type t)
      (hl : Normal e ops operands (ops.length - i) l)
      (hr : Normal e ops operands (ops.length - i + 1) r) :
      Normal e ops operands m (.node e [l, .leaf op, r])

/-- The tokens do not begin with an operator of precedence `m` or more. -/
def EndsBefore (ops : List TokenType) (m : Nat) (ts : List Token) : Prop :=
  ∀ i t, ops[i]? = some t → m ≤ ops.length - i → ts.head?.map Token.kind ≠ some (.type t)

/-! ### Parsing normal trees -/

namespace Grammar

variable {g : Grammar} {sub : RuleParser} {e : RuleId} {ops : List TokenType}
  {operands : List Operand} {minPrec : Nat} {ts rest : List Token}

/-- The operators that are looked at cannot be used. -/
theorem parseOperator_eq_none (h : EndsBefore ops minPrec ts) :
    g.parseOperator sub e minPrec (ops.map fun t => [.token t, .rule e]) ts = .ok none ts := by
  induction ops with
  | nil => rfl
  | cons t ops ih =>
      rw [List.map_cons, parseOperator_cons, List.length_map]
      by_cases hprec : ops.length + 1 < minPrec
      · rw [if_pos hprec]
      · rw [if_neg hprec]
        have hhead := h 0 t rfl (by simpa using hprec)
        obtain ⟨failure, hfail⟩ := parseOperands_of_ne (g := g) [.rule e] hhead
        rw [hfail]
        refine ih ?_
        intro i u hu hm
        exact h (i + 1) u hu (by simpa using hm)

/-- The operator that stands first is used, if it is tight enough: the operators
before it fail at once. -/
theorem parseOperator_eq_some_of {i : Nat} {t : TokenType} {op : Token} {r : Tree}
    (hnodup : ops.Nodup) (ht : ops[i]? = some t) (hmin : minPrec ≤ ops.length - i)
    (hop : op.kind = .type t) (hr : sub e (ops.length - i + 1) ts = .ok r rest)
    (hle : rest.length ≤ ts.length) :
    g.parseOperator sub e minPrec (ops.map fun t => [.token t, .rule e]) (op :: ts) =
      .ok (some [.leaf op, r]) rest := by
  induction ops generalizing i with
  | nil => cases ht
  | cons u ops ih =>
      rw [List.length_cons] at hmin hr
      have hprec : ¬ ops.length + 1 < minPrec := by omega
      rw [List.map_cons, parseOperator_cons, List.length_map, if_neg hprec]
      cases i with
      | zero =>
          cases ht
          have hops : g.parseOperands sub e (ops.length + 1) [.token t, .rule e] (op :: ts) =
              .ok [.leaf op, r] rest := by
            rw [parseOperands_cons, parseOperand, if_neg (by simp), parseSymbol,
              parseToken_of_kind hop, Outcome.cons, parseOperands_cons, parseOperand,
              if_pos (by simp)]
            rw [Nat.sub_zero] at hr
            rw [hr]
            rfl
          rw [hops]
          exact if_pos (Nat.lt_succ_of_le hle)
      | succ i =>
          have hmem : t ∈ ops := List.mem_of_getElem? ht
          have hne : (op :: ts).head?.map Token.kind ≠ some (.type u) := by
            intro heq
            have htu : t = u := by simpa [hop] using heq
            exact (List.nodup_cons.1 hnodup).1 (htu ▸ hmem)
          obtain ⟨failure, hfail⟩ := parseOperands_of_ne (g := g) [.rule e] hne
          rw [hfail]
          rw [Nat.add_sub_add_right] at hmin hr
          exact ih (List.nodup_cons.1 hnodup).2 ht hmin hr

theorem parseRule_eq_ok_of_extend {n : Nat} {tree : Tree} (hrest : EndsBefore ops minPrec rest)
    (h : ∃ fuel, rest.length < fuel ∧ g.parseRule (n + 1) e minPrec ts =
      g.extend (g.parseRule n) e minPrec (ops.map fun t => [.token t, .rule e]) fuel tree rest) :
    g.parseRule (n + 1) e minPrec ts = .ok tree rest := by
  obtain ⟨fuel, hfuel, hextend⟩ := h
  rw [hextend, extend_of_none (parseOperator_eq_none hrest) (Nat.zero_lt_of_lt hfuel)]

namespace HasExpressions

variable (hg : g.HasExpressions e ops operands)
include hg

theorem first_ne {before after : List Operand} {p q : Operand}
    (hsplit : operands = before ++ p :: after) (hq : q ∈ before) : q.first ≠ p.first := by
  have hnodup := hg.nodup.of_append_right
  rw [hsplit, List.nodup_flatMap, List.pairwise_append] at hnodup
  have hdisjoint := hnodup.2.2.2 q hq p List.mem_cons_self
  intro heq
  exact hdisjoint q.first_mem_types (heq ▸ p.first_mem_types)

/-- The operand that begins with the first token is used: the operands before it
fail at once. -/
theorem parseRule_of_operand {n : Nat} {p : Operand} {token : Token} {children : List Tree}
    (hp : p ∈ operands) (htoken : token.kind = .type p.first)
    (h : g.parseSymbols (g.parseRule n) (p.symbols e) (token :: ts) = .ok children rest) :
    g.parseRule (n + 1) e minPrec (token :: ts) =
      g.extend (g.parseRule n) e minPrec (ops.map fun t => [.token t, .rule e])
        (rest.length + 1) (.node e children) rest := by
  obtain ⟨name, hrule⟩ := hg.rule
  obtain ⟨before, after, hsplit⟩ := List.append_of_mem hp
  have hbefore : ∀ a ∈ before.map (Operand.symbols e), ∃ failure left,
      g.parseSymbols (g.parseRule n) a (token :: ts) = .fail failure left := by
    intro a ha
    obtain ⟨q, hq, rfl⟩ := List.mem_map.1 ha
    obtain ⟨ss, hss⟩ := q.symbols_eq_cons e
    have hne : (token :: ts).head?.map Token.kind ≠ some (.type q.first) := by
      simpa [htoken] using (hg.first_ne hsplit hq).symm
    rw [hss]
    obtain ⟨failure, hfail⟩ := parseSymbols_of_ne (g := g) ss hne
    exact ⟨failure, _, hfail⟩
  have hfirst : g.parseFirst (g.parseRule n) (operands.map (Operand.symbols e)) (token :: ts) =
      .ok (some children) rest :=
    parseFirst_eq_some_iff.2 ⟨_, _, _, by rw [hsplit, List.map_append, List.map_cons], hbefore, h⟩
  have hhead : (token :: ts).head?.map Token.kind ≠ some (.rule e) := by simp [htoken]
  exact parseRule_of_parsePrimary hrule (parsePrimary_of_parseFirst hhead hfirst)

theorem parseRule_of_placeholder {n : Nat} {token : Token} (hkind : token.kind = .rule e) :
    g.parseRule (n + 1) e minPrec (token :: ts) =
      g.extend (g.parseRule n) e minPrec (ops.map fun t => [.token t, .rule e])
        (ts.length + 1) (.node e [.leaf token]) ts := by
  obtain ⟨name, hrule⟩ := hg.rule
  exact parseRule_of_parsePrimary hrule (parsePrimary_of_rule _ hkind)

/-- The closing token of a bracket is no operator. -/
theorem endsBefore_closing {opening closing : TokenType} {token : Token}
    (hmem : .bracket opening closing ∈ operands) (hkind : token.kind = .type closing) :
    EndsBefore ops minPrec (token :: ts) := by
  intro i t ht _ hhead
  have hclosing : closing ∈ operands.flatMap Operand.types :=
    List.mem_flatMap.2 ⟨_, hmem, by simp [Operand.types]⟩
  have heq : closing = t := by simpa [hkind] using hhead
  exact List.disjoint_of_nodup_append hg.nodup (List.mem_of_getElem? ht) (heq ▸ hclosing)

/-- No operator is tighter than itself. -/
theorem endsBefore_operator {i : Nat} {t : TokenType} {token : Token} (ht : ops[i]? = some t)
    (hkind : token.kind = .type t) : EndsBefore ops (ops.length - i + 1) (token :: ts) := by
  intro j u hu hm hhead
  have heq : t = u := by simpa [hkind] using hhead
  have hi : i < ops.length := (List.getElem?_eq_some_iff.1 ht).1
  have hij : i = j := (List.getElem?_inj hi hg.nodup.of_append_left).1 (by rw [ht, hu, heq])
  omega

end HasExpressions

end Grammar

theorem EndsBefore.mono {ops : List TokenType} {m n : Nat} {ts : List Token}
    (h : EndsBefore ops m ts) (hle : m ≤ n) : EndsBefore ops n ts :=
  fun i t ht hm => h i t ht (Nat.le_trans hle hm)

namespace Normal

variable {g : Grammar} {e : RuleId} {ops : List TokenType} {operands : List Operand} {m : Nat}
  {tree : Tree}

theorem mono (h : Normal e ops operands m tree) {n : Nat} (hle : n ≤ m) :
    Normal e ops operands n tree := by
  cases h with
  | placeholder hkind => exact .placeholder hkind
  | atom hmem hkind => exact .atom hmem hkind
  | bracket hmem ha hinner hb => exact .bracket hmem ha hinner hb
  | binary ht hm hop hl hr => exact .binary ht (Nat.le_trans hle hm) hop hl hr

/-- The leaves are placeholders for the rule and tokens of its alternatives. -/
theorem kind_of_mem_leaves (h : Normal e ops operands m tree) {token : Token}
    (htoken : token ∈ tree.leaves) :
    token.kind = .rule e ∨ ∃ t ∈ ops ++ operands.flatMap Operand.types, token.kind = .type t := by
  have hoperand {p : Operand} (hp : p ∈ operands) {t : TokenType} (ht : t ∈ p.types) :
      t ∈ ops ++ operands.flatMap Operand.types :=
    List.mem_append_right _ (List.mem_flatMap.2 ⟨p, hp, ht⟩)
  induction h with
  | placeholder hkind =>
      cases List.mem_singleton.1 htoken
      exact .inl hkind
  | atom hmem hkind =>
      cases List.mem_singleton.1 htoken
      exact .inr ⟨_, hoperand hmem (by simp [Operand.types]), hkind⟩
  | bracket hmem ha hinner hb ih =>
      simp only [Tree.leaves_node, List.flatMap_cons, List.flatMap_nil, Tree.leaves_leaf,
        List.mem_append, List.mem_singleton, List.not_mem_nil, or_false] at htoken
      rcases htoken with rfl | hinner | rfl
      · exact .inr ⟨_, hoperand hmem (by simp [Operand.types]), ha⟩
      · exact ih hinner
      · exact .inr ⟨_, hoperand hmem (by simp [Operand.types]), hb⟩
  | binary ht hm hop hl hr ihl ihr =>
      simp only [Tree.leaves_node, List.flatMap_cons, List.flatMap_nil, Tree.leaves_leaf,
        List.mem_append, List.mem_singleton, List.not_mem_nil, or_false] at htoken
      rcases htoken with hl | rfl | hr
      · exact ihl hl
      · exact .inr ⟨_, List.mem_append_left _ (List.mem_of_getElem? ht), hop⟩
      · exact ihr hr

theorem leaves_ne_nil (h : Normal e ops operands m tree) : tree.leaves ≠ [] := by
  cases h <;> simp

/-- On its way through the leaves of a normal tree, the parser comes to the point
where it holds the whole tree and looks for more operators. -/
theorem parseRule_eq_extend (hg : g.HasExpressions e ops operands)
    (h : Normal e ops operands m tree) {minPrec n : Nat} (hmin : minPrec ≤ m)
    (hn : tree.leaves.length ≤ n) {rest : List Token} (hrest : EndsBefore ops (m + 1) rest) :
    ∃ fuel, rest.length < fuel ∧ g.parseRule (n + 1) e minPrec (tree.leaves ++ rest) =
      g.extend (g.parseRule n) e minPrec (ops.map fun t => [.token t, .rule e]) fuel tree rest := by
  induction h generalizing minPrec n rest with
  | placeholder hkind => exact ⟨_, Nat.lt_succ_self _, hg.parseRule_of_placeholder hkind⟩
  | atom hmem hkind =>
      refine ⟨_, Nat.lt_succ_self _, hg.parseRule_of_operand hmem hkind ?_⟩
      exact Grammar.parseSymbols_of_kind hkind rfl
  | @bracket m opening closing a b inner hmem ha hinner hb ih =>
      obtain ⟨n, rfl⟩ : ∃ k, n = k + 1 := ⟨n - 1, by simp at hn; omega⟩
      have hinnerLength : inner.leaves.length ≤ n := by
        simp at hn
        omega
      -- inside brackets all operators may be used again
      have hparse : g.parseRule (n + 1) e 0 (inner.leaves ++ b :: rest) = .ok inner (b :: rest) :=
        Grammar.parseRule_eq_ok_of_extend (hg.endsBefore_closing hmem hb)
          (ih (Nat.le_refl 0) hinnerLength (hg.endsBefore_closing hmem hb))
      have hsymbols : g.parseSymbols (g.parseRule (n + 1))
          (Operand.symbols e (.bracket opening closing)) (a :: (inner.leaves ++ b :: rest)) =
            .ok [.leaf a, inner, .leaf b] rest :=
        Grammar.parseSymbols_of_kind ha
          (Grammar.parseSymbols_rule hparse (Grammar.parseSymbols_of_kind hb rfl))
      have hleaves : (Tree.node e [.leaf a, inner, .leaf b]).leaves ++ rest =
          a :: (inner.leaves ++ b :: rest) := by simp
      rw [hleaves]
      exact ⟨_, Nat.lt_succ_self _, hg.parseRule_of_operand hmem ha hsymbols⟩
  | @binary m i t op l r ht hm hop hl hr ihl ihr =>
      have hleaves : (Tree.node e [l, .leaf op, r]).leaves ++ rest =
          l.leaves ++ op :: (r.leaves ++ rest) := by simp
      have hlength : (Tree.node e [l, .leaf op, r]).leaves.length =
          l.leaves.length + 1 + r.leaves.length := by simp; omega
      rw [hlength] at hn
      obtain ⟨n, rfl⟩ : ∃ k, n = k + 1 := ⟨n - 1, by omega⟩
      -- the left operand is held when the operator comes up
      have hnext : EndsBefore ops (ops.length - i + 1) (op :: (r.leaves ++ rest)) :=
        hg.endsBefore_operator ht hop
      obtain ⟨fuel, hfuel, hleft⟩ := ihl (Nat.le_trans hmin hm) (n := n + 1) (by omega) hnext
      -- the right operand ends where the whole tree ends
      have hrest' : EndsBefore ops (ops.length - i + 1) rest := hrest.mono (by omega)
      have hright : g.parseRule (n + 1) e (ops.length - i + 1) (r.leaves ++ rest) = .ok r rest :=
        Grammar.parseRule_eq_ok_of_extend hrest'
          (ihr (Nat.le_refl _) (by omega) (hrest'.mono (Nat.le_succ _)))
      have hstep := Grammar.parseOperator_eq_some_of (g := g) hg.nodup.of_append_left ht
        (Nat.le_trans hmin hm) hop hright (by simp)
      obtain ⟨fuel, rfl⟩ : ∃ k, fuel = k + 1 := ⟨fuel - 1, by omega⟩
      refine ⟨fuel, ?_, ?_⟩
      · simp at hfuel
        omega
      · rw [hleaves, hleft, Grammar.extend, hstep]

/-- The parser finds a normal tree from its leaves, and leaves what follows them. -/
theorem parseRule_eq_ok (hg : g.HasExpressions e ops operands) (h : Normal e ops operands m tree)
    {n : Nat} (hn : tree.leaves.length ≤ n) {rest : List Token} (hrest : EndsBefore ops m rest) :
    g.parseRule (n + 1) e m (tree.leaves ++ rest) = .ok tree rest :=
  Grammar.parseRule_eq_ok_of_extend hrest
    (h.parseRule_eq_extend hg (Nat.le_refl m) hn (hrest.mono (Nat.le_succ m)))

end Normal

/-! ### Every expression is the yield of a normal tree -/

namespace Normal

variable {g : Grammar} {e : RuleId} {ops : List TokenType} {operands : List Operand} {m i : Nat}
  {t : TokenType} {op : Token} {tree first operand : Tree}

/-- An operator and an operand without an operator of its own are put behind a
normal tree: below the operators at its right edge that are looser. -/
theorem exists_push (h : Normal e ops operands m tree) (ht : ops[i]? = some t)
    (hop : op.kind = .type t) (hoperand : ∀ m, Normal e ops operands m operand) :
    ∃ tree', tree'.leaves = tree.leaves ++ op :: operand.leaves ∧
      Normal e ops operands (min m (ops.length - i)) tree' := by
  have hnode {first : Tree} (hfirst : Normal e ops operands (ops.length - i) first) :
      ∃ tree', tree'.leaves = first.leaves ++ op :: operand.leaves ∧
        Normal e ops operands (ops.length - i) tree' :=
    ⟨.node e [first, .leaf op, operand], by simp,
      .binary ht (Nat.le_refl _) hop hfirst (hoperand _)⟩
  induction h with
  | @placeholder m token hkind =>
      obtain ⟨tree', hleaves, hnormal⟩ := hnode (.placeholder hkind)
      exact ⟨tree', hleaves, hnormal.mono (Nat.min_le_right _ _)⟩
  | atom hmem hkind =>
      obtain ⟨tree', hleaves, hnormal⟩ := hnode (.atom hmem hkind)
      exact ⟨tree', hleaves, hnormal.mono (Nat.min_le_right _ _)⟩
  | bracket hmem ha hinner hb =>
      obtain ⟨tree', hleaves, hnormal⟩ := hnode (.bracket hmem ha hinner hb)
      exact ⟨tree', hleaves, hnormal.mono (Nat.min_le_right _ _)⟩
  | @binary m j u op' l r hu hm hop' hl hr _ ihr =>
      by_cases htight : ops.length - i ≤ ops.length - j
      · -- the whole tree becomes the left operand
        obtain ⟨tree', hleaves, hnormal⟩ := hnode (.binary hu htight hop' hl hr)
        exact ⟨tree', hleaves, hnormal.mono (Nat.min_le_right _ _)⟩
      · -- only the right operand does
        obtain ⟨r', hleaves, hr'⟩ := ihr
        refine ⟨.node e [l, .leaf op', r'], by simp [hleaves], ?_⟩
        exact .binary hu (Nat.le_trans (Nat.min_le_left _ _) hm) hop' hl (hr'.mono (by omega))

/-- Two normal trees with an operator between them, whatever its precedence. The
operands of the second tree are put behind the first one by one. -/
theorem exists_join (hfirst : Normal e ops operands 0 first) (ht : ops[i]? = some t)
    (hop : op.kind = .type t) (h : Normal e ops operands m tree) :
    ∃ tree', tree'.leaves = first.leaves ++ op :: tree.leaves ∧
      Normal e ops operands 0 tree' := by
  induction h generalizing first i t op with
  | placeholder hkind => simpa using hfirst.exists_push ht hop fun m => .placeholder hkind
  | atom hmem hkind => simpa using hfirst.exists_push ht hop fun m => .atom hmem hkind
  | bracket hmem ha hinner hb =>
      simpa using hfirst.exists_push ht hop fun m => .bracket hmem ha hinner hb
  | @binary m j u op' l r hu hm hop' hl hr ihl ihr =>
      obtain ⟨front, hfront, hnormal⟩ := ihl hfirst ht hop
      obtain ⟨tree', hleaves, hnormal'⟩ := ihr hnormal hu hop'
      exact ⟨tree', by simp [hleaves, hfront], hnormal'⟩

end Normal

namespace Grammar.HasExpressions

variable {g : Grammar} {e : RuleId} {ops : List TokenType} {operands : List Operand}
  (hg : g.HasExpressions e ops operands)
include hg

theorem hasAlternative_iff {a : List Symbol} :
    g.HasAlternative e a ↔
      (∃ p ∈ operands, a = p.symbols e) ∨ ∃ t ∈ ops, a = [.rule e, .token t, .rule e] := by
  obtain ⟨name, hrule⟩ := hg.rule
  simp [HasAlternative, hrule, eq_comm]

theorem exists_normal {tree : Tree} (h : tree.IsDerivation g.HasAlternative)
    (hroot : tree.rule? = some e) :
    ∃ tree', tree'.leaves = tree.leaves ∧ Normal e ops operands 0 tree' := by
  induction tree using Tree.inductionOn with
  | leaf token => cases hroot
  | node r cs ih =>
      cases hroot
      obtain ⟨hnode, hchildren⟩ := Tree.IsDerivation.node_iff.1 h
      rcases hnode with ⟨token, rfl, hkind⟩ | ⟨a, ha, hspells⟩
      · exact ⟨_, rfl, .placeholder hkind⟩
      · rcases hg.hasAlternative_iff.1 ha with ⟨p, hp, rfl⟩ | ⟨t, ht, rfl⟩
        · cases p with
          | atom t =>
              obtain ⟨token, _, hkind, hnil, rfl⟩ := spells_token_cons_iff.1 hspells
              cases spells_nil_iff.1 hnil
              exact ⟨_, rfl, .atom hp hkind⟩
          | bracket opening closing =>
              obtain ⟨a, _, ha, htail, rfl⟩ := spells_token_cons_iff.1 hspells
              obtain ⟨inner, _, hinner, hlast, rfl⟩ := spells_rule_cons_iff.1 htail
              obtain ⟨b, _, hb, hnil, rfl⟩ := spells_token_cons_iff.1 hlast
              cases spells_nil_iff.1 hnil
              obtain ⟨inner', hleaves, hnormal⟩ :=
                ih inner (by simp) (hchildren inner (by simp)) hinner
              exact ⟨.node e [.leaf a, inner', .leaf b], by simp [hleaves],
                .bracket hp ha hnormal hb⟩
        · obtain ⟨left, _, hleft, htail, rfl⟩ := spells_rule_cons_iff.1 hspells
          obtain ⟨op, _, hop, hlast, rfl⟩ := spells_token_cons_iff.1 htail
          obtain ⟨right, _, hright, hnil, rfl⟩ := spells_rule_cons_iff.1 hlast
          cases spells_nil_iff.1 hnil
          obtain ⟨i, hi⟩ := List.mem_iff_getElem?.1 ht
          obtain ⟨left', hleaves, hnormal⟩ := ih left (by simp) (hchildren left (by simp)) hleft
          obtain ⟨right', hleaves', hnormal'⟩ :=
            ih right (by simp) (hchildren right (by simp)) hright
          obtain ⟨tree', hjoin, hnormal''⟩ := hnormal.exists_join hi hop hnormal'
          exact ⟨tree', by simp [hjoin, hleaves, hleaves'], hnormal''⟩

end Grammar.HasExpressions

end Stencil
