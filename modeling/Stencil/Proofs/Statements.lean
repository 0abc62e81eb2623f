import Stencil.Proofs.Expressions
import Stencil.Proofs.Repetition
import Stencil.Proofs.Soundness
import Stencil.Statements

/-!
Statement trees. The grammar of statements is built without an error, and its
expressions are operator expressions.

Main statement: the trees the parser returns for whole texts are the normal ones,
and each of them is found again from its leaves.
-/

namespace Stencil

namespace Statement

/-- The characters an identifier begins with. -/
def letters : Regex.CharSet := ⟨[(65, 90), (95, 95), (97, 122)]⟩

/-- The characters an identifier goes on with. -/
def wordChars : Regex.CharSet := ⟨[(48, 57), (65, 90), (95, 95), (97, 122)]⟩

def digits : Regex.CharSet := ⟨[(48, 57)]⟩

def blanks : Regex.CharSet := ⟨[(9, 10), (13, 13), (32, 32)]⟩

def grammar : Grammar where
  name := "Statements"
  rules :=
    [⟨"stat", [[.token 7, .token 1, .rule 1, .token 2], [.rule 1, .token 2]], []⟩,
     ⟨"expr", [[.token 5, .rule 1, .token 6], [.token 7], [.token 8]],
       [[.token 3, .rule 1], [.token 4, .rule 1]]⟩]
  tokens :=
    [.literal "=", .literal ";", .literal "*", .literal "+", .literal "(", .literal ")",
     .named "ID" .emit (.leading letters wordChars),
     .named "INT" .emit (.repeating digits),
     .named "WS" .hide (.repeating blanks)]

theorem build_statements : statements.build = .ok grammar := by
  decide

/-- The operators are `*` and `+`, and the operands are expressions in parentheses,
identifiers and numbers. -/
abbrev IsExpression (m : Nat) (tree : Tree) : Prop :=
  Normal 1 [3, 4] [.bracket 5 6, .atom 7, .atom 8] m tree

theorem hasExpressions : grammar.HasExpressions 1 [3, 4] [.bracket 5 6, .atom 7, .atom 8] :=
  ⟨⟨"expr", rfl⟩, by decide⟩

/-- The trees of whole texts. -/
inductive IsNormal : (start : RuleId) → Tree → Prop
  | placeholder {token : Token} (hkind : token.kind = .rule 0) : IsNormal 0 (.node 0 [.leaf token])
  | assignment {name equals stop : Token} {value : Tree} (hname : name.kind = .type 7)
      (hequals : equals.kind = .type 1) (hvalue : IsExpression 0 value)
      (hstop : stop.kind = .type 2) :
      IsNormal 0 (.node 0 [.leaf name, .leaf equals, value, .leaf stop])
  | evaluation {stop : Token} {value : Tree} (hvalue : IsExpression 0 value)
      (hstop : stop.kind = .type 2) : IsNormal 0 (.node 0 [value, .leaf stop])
  | expression {tree : Tree} (h : IsExpression 0 tree) : IsNormal 1 tree

/-! ### Parsing -/

variable {n : Nat} {ts rest : List Token} {children : List Tree} {value tree : Tree}

/-- Statements have no operators. -/
theorem parseRule_of_parsePrimary (h : grammar.parsePrimary (grammar.parseRule n) 0
      ⟨"stat", [[.token 7, .token 1, .rule 1, .token 2], [.rule 1, .token 2]], []⟩ ts =
        .ok tree rest) :
    grammar.parseRule (n + 1) 0 0 ts = .ok tree rest := by
  rw [Grammar.parseRule_of_parsePrimary rfl h]
  exact Grammar.extend_of_none rfl (Nat.succ_pos _)

theorem endsBefore_stop {stop : Token} {m : Nat} (hstop : stop.kind = .type 2) :
    EndsBefore [3, 4] m [stop] := by
  intro i t ht _ hhead
  have heq : t = 2 := by simpa [hstop, eq_comm] using hhead
  have hmem := List.mem_of_getElem? ht
  simp [heq] at hmem

/-- An expression and what ends it. -/
theorem parseSymbols_expression {stop : Token} (hvalue : IsExpression 0 value)
    (hn : value.leaves.length ≤ n) (hstop : stop.kind = .type 2) :
    grammar.parseSymbols (grammar.parseRule (n + 1)) [.rule 1, .token 2]
      (value.leaves ++ [stop]) = .ok [value, .leaf stop] [] :=
  Grammar.parseSymbols_rule (hvalue.parseRule_eq_ok hasExpressions hn (endsBefore_stop hstop))
    (Grammar.parseSymbols_of_kind hstop rfl)

/-- There is no equals sign in an expression. -/
theorem kind_ne_equals {token : Token} (h : IsExpression 0 value) (htoken : token ∈ value.leaves) :
    token.kind ≠ .type 1 := by
  intro hkind
  rcases h.kind_of_mem_leaves htoken with hrule | ⟨t, ht, htype⟩
  · rw [hkind] at hrule
    cases hrule
  · rw [hkind] at htype
    cases htype
    simp [Operand.types] at ht

/-- The first alternative of a statement fails on an expression. -/
theorem parseSymbols_assignment_fail {sub : Grammar.RuleParser} {stop : Token}
    (hvalue : IsExpression 0 value) (hstop : stop.kind = .type 2) :
    ∃ failure left, grammar.parseSymbols sub [.token 7, .token 1, .rule 1, .token 2]
      (value.leaves ++ [stop]) = .fail failure left := by
  obtain ⟨token, tail, hleaves⟩ := List.exists_cons_of_ne_nil hvalue.leaves_ne_nil
  rw [hleaves, List.cons_append]
  by_cases hname : token.kind = .type 7
  · have hsecond : (tail ++ [stop]).head?.map Token.kind ≠ some (.type 1) := by
      cases tail with
      | nil => simp [hstop]
      | cons second tail =>
          have hmem : second ∈ value.leaves := by simp [hleaves]
          simpa using kind_ne_equals hvalue hmem
    obtain ⟨failure, hfail⟩ := Grammar.parseSymbols_of_ne (g := grammar)
      [.rule 1, .token 2] hsecond
    exact ⟨failure, _, Grammar.parseSymbols_of_kind_fail hname hfail⟩
  · have hfirst : (token :: (tail ++ [stop])).head?.map Token.kind ≠ some (.type 7) := by
      simpa using hname
    obtain ⟨failure, hfail⟩ := Grammar.parseSymbols_of_ne (g := grammar)
      [.token 1, .rule 1, .token 2] hfirst
    exact ⟨failure, _, hfail⟩

theorem head?_leaves_ne {stop : Token} (hvalue : IsExpression 0 value) :
    (value.leaves ++ [stop]).head?.map Token.kind ≠ some (.rule 0) := by
  obtain ⟨token, tail, hleaves⟩ := List.exists_cons_of_ne_nil hvalue.leaves_ne_nil
  intro hhead
  have hkind : token.kind = .rule 0 := by simpa [hleaves] using hhead
  have hmem : token ∈ value.leaves := by simp [hleaves]
  rcases hvalue.kind_of_mem_leaves hmem with hrule | ⟨t, _, htype⟩
  · rw [hkind] at hrule
    cases hrule
  · rw [hkind] at htype
    cases htype

theorem IsNormal.parseRule_eq_ok {start : RuleId} (h : IsNormal start tree)
    (hn : tree.leaves.length ≤ n) :
    grammar.parseRule (n + 2) start 0 tree.leaves = .ok tree [] := by
  cases h with
  | placeholder hkind =>
      exact parseRule_of_parsePrimary (Grammar.parsePrimary_of_rule _ hkind)
  | @assignment name equals stop value hname hequals hvalue hstop =>
      have hleaves : (Tree.node 0 [.leaf name, .leaf equals, value, .leaf stop]).leaves =
          name :: equals :: (value.leaves ++ [stop]) := by simp
      rw [hleaves] at hn ⊢
      have hlength : value.leaves.length ≤ n := by
        simp at hn
        omega
      have hsymbols := Grammar.parseSymbols_of_kind hname (Grammar.parseSymbols_of_kind hequals
        (parseSymbols_expression hvalue hlength hstop))
      have hhead : (name :: equals :: (value.leaves ++ [stop])).head?.map Token.kind ≠
          some (.rule 0) := by simp [hname]
      exact parseRule_of_parsePrimary (Grammar.parsePrimary_of_parseFirst hhead
        (Grammar.parseFirst_eq_some_iff.2 ⟨[], _, _, rfl, by simp, hsymbols⟩))
  | @evaluation stop value hvalue hstop =>
      have hleaves : (Tree.node 0 [value, .leaf stop]).leaves = value.leaves ++ [stop] := by simp
      rw [hleaves] at hn ⊢
      have hlength : value.leaves.length ≤ n := by
        simp at hn
        omega
      have hbefore : ∀ a ∈ [[Symbol.token 7, .token 1, .rule 1, .token 2]], ∃ failure left,
          grammar.parseSymbols (grammar.parseRule (n + 1)) a (value.leaves ++ [stop]) =
            .fail failure left := by
        intro a ha
        cases List.mem_singleton.1 ha
        exact parseSymbols_assignment_fail hvalue hstop
      exact parseRule_of_parsePrimary (Grammar.parsePrimary_of_parseFirst (head?_leaves_ne hvalue)
        (Grammar.parseFirst_eq_some_iff.2 ⟨_, _, _, rfl, hbefore,
          parseSymbols_expression hvalue hlength hstop⟩))
  | expression h =>
      have hend : EndsBefore [3, 4] 0 [] := fun _ _ _ _ => by simp
      have hparse := h.parseRule_eq_ok hasExpressions (n := n + 1) (by omega) hend
      rwa [List.append_nil] at hparse

/-! ### The trees of whole texts are normal -/

theorem IsNormal.parse_eq {start : RuleId} (h : IsNormal start tree) :
    grammar.parse start (.ofList tree.leaves) =
      (.ok tree, (TokenStream.ofList tree.leaves).seekLast 0) := by
  have hentries : grammar.entries = 4 := rfl
  have hparse := h.parseRule_eq_ok (n := 5 * tree.leaves.length + 3) (by omega)
  rw [Grammar.parse, Grammar.parseTokens, TokenStream.remaining_ofList, hentries,
    show (4 + 1) * (tree.leaves.length + 1) = 5 * tree.leaves.length + 3 + 2 by omega, hparse]
  rfl

theorem hasAlternative_stat_iff {a : List Symbol} :
    grammar.HasAlternative 0 a ↔
      a = [.token 7, .token 1, .rule 1, .token 2] ∨ a = [.rule 1, .token 2] := by
  simp [Grammar.HasAlternative, grammar]

/-- Every derivation has the leaves of a normal tree. -/
theorem exists_isNormal {start : RuleId} (hstart : start = 0 ∨ start = 1)
    (h : tree.IsDerivation grammar.HasAlternative) (hroot : tree.rule? = some start) :
    ∃ tree', tree'.leaves = tree.leaves ∧ IsNormal start tree' := by
  rcases hstart with rfl | rfl
  · cases tree with
    | leaf token => cases hroot
    | node r cs =>
        cases hroot
        obtain ⟨hnode, hchildren⟩ := Tree.IsDerivation.node_iff.1 h
        rcases hnode with ⟨token, rfl, hkind⟩ | ⟨a, ha, hspells⟩
        · exact ⟨_, rfl, .placeholder hkind⟩
        · rcases hasAlternative_stat_iff.1 ha with rfl | rfl
          · obtain ⟨name, _, hname, htail, rfl⟩ := spells_token_cons_iff.1 hspells
            obtain ⟨equals, _, hequals, hbody, rfl⟩ := spells_token_cons_iff.1 htail
            obtain ⟨value, _, hvalue, hlast, rfl⟩ := spells_rule_cons_iff.1 hbody
            obtain ⟨stop, _, hstop, hnil, rfl⟩ := spells_token_cons_iff.1 hlast
            cases spells_nil_iff.1 hnil
            obtain ⟨value', hleaves, hnormal⟩ :=
              hasExpressions.exists_normal (hchildren value (by simp)) hvalue
            exact ⟨.node 0 [.leaf name, .leaf equals, value', .leaf stop], by simp [hleaves],
              .assignment hname hequals hnormal hstop⟩
          · obtain ⟨value, _, hvalue, hlast, rfl⟩ := spells_rule_cons_iff.1 hspells
            obtain ⟨stop, _, hstop, hnil, rfl⟩ := spells_token_cons_iff.1 hlast
            cases spells_nil_iff.1 hnil
            obtain ⟨value', hleaves, hnormal⟩ :=
              hasExpressions.exists_normal (hchildren value (by simp)) hvalue
            exact ⟨.node 0 [value', .leaf stop], by simp [hleaves], .evaluation hnormal hstop⟩
  · obtain ⟨tree', hleaves, hnormal⟩ := hasExpressions.exists_normal h hroot
    exact ⟨tree', hleaves, .expression hnormal⟩

/-- A tree that is parsed from all tokens is normal: its leaves are those of a
normal tree, and the parser finds that one. -/
theorem isNormal_of_parse {start : RuleId} (hstart : start = 0 ∨ start = 1) {s : TokenStream}
    (h : grammar.parse start (.ofList ts) = (.ok tree, s)) (hend : s.remaining = []) :
    IsNormal start tree := by
  obtain ⟨rest, hreads, _⟩ := Grammar.parse_eq_ok h
  obtain ⟨tree', hleaves, hnormal⟩ := exists_isNormal hstart hreads.derivation hreads.root
  -- the same tokens cannot be parsed as two trees
  have hparse := hnormal.parse_eq
  rw [hleaves, Grammar.leaves_of_parse h hend, h] at hparse
  cases hparse
  exact hnormal

end Statement

end Stencil
