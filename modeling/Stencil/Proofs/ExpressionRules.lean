import Stencil.Proofs.Expressions
import Stencil.Proofs.Precedence

/-!
Rules of expressions as they are declared: the binary operators, the atoms and the
brackets stand in any order among the alternatives.

Main statement: the parser finds every derivation that respects the precedences
from its leaves, and whatever can be derived from such a rule has the leaves of
exactly one derivation of this kind.
-/

namespace Stencil

/-- An alternative of a rule of expressions. -/
inductive ExpressionAlternative where
  | binary (op : TokenType)
  | operand (p : Operand)

namespace ExpressionAlternative

def symbols (e : RuleId) : ExpressionAlternative → List Symbol
  | .binary op => [.rule e, .token op, .rule e]
  | .operand p => p.symbols e

def types : ExpressionAlternative → List TokenType
  | .binary op => [op]
  | .operand p => p.types

def operator? : ExpressionAlternative → Option TokenType
  | .binary op => some op
  | .operand _ => none

def operand? : ExpressionAlternative → Option Operand
  | .binary _ => none
  | .operand p => some p

/-- The operators of some alternatives, the tightest first. -/
def operators (alts : List ExpressionAlternative) : List TokenType :=
  alts.filterMap operator?

def operands (alts : List ExpressionAlternative) : List Operand :=
  alts.filterMap operand?

@[simp] theorem operators_binary (op : TokenType) (alts : List ExpressionAlternative) :
    operators (.binary op :: alts) = op :: operators alts := rfl

@[simp] theorem operators_operand (p : Operand) (alts : List ExpressionAlternative) :
    operators (.operand p :: alts) = operators alts := rfl

@[simp] theorem operands_binary (op : TokenType) (alts : List ExpressionAlternative) :
    operands (.binary op :: alts) = operands alts := rfl

@[simp] theorem operands_operand (p : Operand) (alts : List ExpressionAlternative) :
    operands (.operand p :: alts) = p :: operands alts := rfl

theorem perm_types (alts : List ExpressionAlternative) :
    (operators alts ++ (operands alts).flatMap Operand.types).Perm (alts.flatMap types) := by
  induction alts with
  | nil => exact .refl _
  | cons alt alts ih =>
      cases alt with
      | binary op => exact ih.cons op
      | operand p =>
          have hmove := List.perm_append_comm_assoc (operators alts) p.types
            ((operands alts).flatMap Operand.types)
          exact hmove.trans (ih.append_left p.types)

/-- An operand does not begin with the rule itself. -/
theorem suffix?_operand (e : RuleId) (p : Operand) :
    GrammarDecl.suffix? e (p.symbols e) = none := by
  cases p <;> rfl

theorem suffix?_binary (e : RuleId) (op : TokenType) :
    GrammarDecl.suffix? e [.rule e, .token op, .rule e] = some [.token op, .rule e] :=
  GrammarDecl.suffix?_eq_some_iff.2 rfl

theorem filterMap_suffix?_symbols (e : RuleId) (alts : List ExpressionAlternative) :
    (alts.map (symbols e)).filterMap (GrammarDecl.suffix? e) =
      (operators alts).map fun t => [.token t, .rule e] := by
  induction alts with
  | nil => rfl
  | cons alt alts ih =>
      cases alt with
      | binary op => simp [symbols, suffix?_binary, ih]
      | operand p => simp [symbols, suffix?_operand, ih]

theorem leftRecursive_symbols (e : RuleId) (alts : List ExpressionAlternative) :
    leftRecursive e (alts.map (symbols e)) =
      (operators alts).map fun t => [.rule e, .token t, .rule e] := by
  rw [← map_filterMap_suffix?, filterMap_suffix?_symbols, List.map_map]
  rfl

theorem getElem?_leftRecursive_symbols {e : RuleId} {alts : List ExpressionAlternative} {i : Nat}
    {t : TokenType} (ht : (operators alts)[i]? = some t) :
    (leftRecursive e (alts.map (symbols e)))[i]? = some [.rule e, .token t, .rule e] := by
  rw [leftRecursive_symbols, List.getElem?_map, ht]
  rfl

/-- The alternatives are told apart by their first symbol. -/
theorem makeRule_symbols (e : RuleId) (name : String) (alts : List ExpressionAlternative) :
    GrammarDecl.makeRule e name (alts.map (symbols e)) =
      ⟨name, (operands alts).map (Operand.symbols e),
        (operators alts).map fun t => [.token t, .rule e]⟩ := by
  have hprimaries : (alts.map (symbols e)).filter (fun a => (GrammarDecl.suffix? e a).isNone) =
      (operands alts).map (Operand.symbols e) := by
    induction alts with
    | nil => rfl
    | cons alt alts ih =>
        cases alt with
        | binary op => simp [symbols, suffix?_binary, ih]
        | operand p => simp [symbols, suffix?_operand, ih]
  rw [GrammarDecl.makeRule, hprimaries, filterMap_suffix?_symbols]

end ExpressionAlternative

open ExpressionAlternative

namespace Grammar

variable {d : GrammarDecl} {g : Grammar} {e : RuleId} {alts : List ExpressionAlternative}

theorem hasExpressions_of_build (hg : d.build = .ok g) (he : e < g.rules.length)
    (halts : d.alternatives e = alts.map (symbols e)) (hdistinct : (alts.flatMap types).Nodup) :
    g.HasExpressions e (operators alts) (operands alts) where
  rule := by
    rcases GrammarDecl.getElem?_rules hg e with ⟨name, hrule⟩ | ⟨hnone, _⟩
    · rw [halts, makeRule_symbols] at hrule
      exact ⟨name, hrule⟩
    · rw [List.getElem?_eq_none_iff] at hnone
      exact absurd he (Nat.not_lt.2 hnone)
  nodup := (perm_types alts).nodup_iff.2 hdistinct

end Grammar

namespace Normal

variable {g : Grammar} {e : RuleId} {ops : List TokenType} {operands : List Operand} {m : Nat}
  {tree : Tree}

theorem rule?_eq (h : Normal e ops operands m tree) : tree.rule? = some e := by
  cases h <;> rfl

/-- A tree is normal with tighter operators only, if the one at its top is such. -/
theorem raise (h : Normal e ops operands 0 tree) (htop : ∀ i t, ops[i]? = some t →
      BuiltBy e [.rule e, .token t, .rule e] tree → m ≤ ops.length - i) :
    Normal e ops operands m tree := by
  cases h with
  | placeholder hkind => exact .placeholder hkind
  | atom hmem hkind => exact .atom hmem hkind
  | bracket hmem ha hinner hb => exact .bracket hmem ha hinner hb
  | @binary _ i t op l r ht _ hop hl hr =>
      have hspells : Spells [.rule e, .token t, .rule e] [l, .leaf op, r] := by
        simp [Spells, hl.rule?_eq, hr.rule?_eq, hop]
      exact .binary ht (htop i t ht ⟨_, rfl, hspells⟩) hop hl hr

/-- A stream that goes on with the leaves of a normal tree is read up to the end of
the tree. -/
theorem parse_eq (hg : g.HasExpressions e ops operands) (h : Normal e ops operands 0 tree)
    {rest : List Token} (hrest : EndsBefore ops 0 rest) {s : TokenStream}
    (hs : s.remaining = tree.leaves ++ rest) :
    g.parse e s = (.ok tree, s.seekLast rest.length) ∧
      (s.seekLast rest.length).remaining = rest := by
  have hparse := h.parseRule_eq_ok hg (Nat.le_refl _) hrest
  rw [← hs] at hparse
  refine Grammar.parse_of_parseRule ?_ hparse
  have hlength : s.remaining.length = tree.leaves.length + rest.length := by
    rw [hs, List.length_append]
  calc tree.leaves.length + 1 ≤ s.remaining.length + 1 := by omega
    _ ≤ (g.entries + 1) * (s.remaining.length + 1) := Nat.le_mul_of_pos_left _ (Nat.succ_pos _)

theorem endsBefore_nil (ops : List TokenType) (m : Nat) : EndsBefore ops m [] :=
  fun _ _ _ _ => by simp

/-- The parser cannot find two trees for the same tokens. -/
theorem eq_of_leaves_eq (hg : g.HasExpressions e ops operands) {tree' : Tree}
    (h : Normal e ops operands 0 tree) (h' : Normal e ops operands 0 tree')
    (hleaves : tree'.leaves = tree.leaves) : tree' = tree := by
  have hparse := h.parseRule_eq_ok hg (Nat.le_refl _) (endsBefore_nil ops 0)
  have hparse' := h'.parseRule_eq_ok hg (Nat.le_refl _) (endsBefore_nil ops 0)
  rw [hleaves, hparse] at hparse'
  cases hparse'
  rfl

end Normal

/-! ### Normal trees and precedences -/

/-- A derivation of rule `e` that respects its precedences: the right operand of an
operator is a placeholder, an atom, a bracket or an expression with a tighter
operator, and the left operand has no looser operator. -/
structure GrammarDecl.IsNormal (d : GrammarDecl) (e : RuleId) (tree : Tree) : Prop where
  derivation : tree.IsDerivation d.Declares
  root : tree.rule? = some e
  respects : tree.RespectsPrecedence e (d.alternatives e)

namespace Grammar

variable {d : GrammarDecl} {g : Grammar} {e : RuleId} {alts : List ExpressionAlternative}
  {tree : Tree}

/-- What is built by an operator has, in a grouped node, the index that is allowed
for it. -/
theorem lt_of_isPrimary_or (hdistinct : (leftRecursive e (alts.map (symbols e))).Nodup)
    {i j : Nat} {t : TokenType}
    (hoperand : IsPrimary e (alts.map (symbols e)) tree ∨ ∃ j b, j < i ∧
      (leftRecursive e (alts.map (symbols e)))[j]? = some b ∧ BuiltBy e b tree)
    (ht : (operators alts)[j]? = some t) (hbuilt : BuiltBy e [.rule e, .token t, .rule e] tree) :
    j < i := by
  have hget := getElem?_leftRecursive_symbols (e := e) ht
  rcases hoperand with hprimary | ⟨k, b, hlt, hb, hbuilt'⟩
  · exact absurd hbuilt (hprimary.not_builtBy (List.mem_of_getElem? hget))
  · cases hbuilt.unique hbuilt'
    exact getElem?_leftRecursive_inj hdistinct hb hget ▸ hlt

theorem nodup_leftRecursive (hg : g.HasExpressions e (operators alts) (operands alts)) :
    (leftRecursive e (alts.map (symbols e))).Nodup := by
  rw [leftRecursive_symbols]
  exact hg.nodup.of_append_left.map fun t u heq => by simpa using heq

theorem normal_of_respectsPrecedence (hg : g.HasExpressions e (operators alts) (operands alts))
    (h : tree.IsDerivation g.HasAlternative) (hroot : tree.rule? = some e)
    (hrespects : tree.RespectsPrecedence e (alts.map (symbols e))) :
    Normal e (operators alts) (operands alts) 0 tree := by
  induction tree using Tree.inductionOn with
  | leaf token => cases hroot
  | node r cs ih =>
      cases hroot
      obtain ⟨hnode, hchildren⟩ := Tree.IsDerivation.node_iff.1 h
      have hnormal {c : Tree} (hc : c ∈ cs) (hroot : c.rule? = some e) :=
        ih c hc (hchildren c hc) hroot (hrespects.child hc)
      rcases hnode with ⟨token, rfl, hkind⟩ | ⟨a, ha, hspells⟩
      · exact .placeholder hkind
      · rcases hg.hasAlternative_iff.1 ha with ⟨p, hp, rfl⟩ | ⟨t, ht, rfl⟩
        · cases p with
          | atom t =>
              obtain ⟨token, _, hkind, hnil, rfl⟩ := spells_token_cons_iff.1 hspells
              cases spells_nil_iff.1 hnil
              exact .atom hp hkind
          | bracket opening closing =>
              obtain ⟨a, _, ha, htail, rfl⟩ := spells_token_cons_iff.1 hspells
              obtain ⟨inner, _, hinner, hlast, rfl⟩ := spells_rule_cons_iff.1 htail
              obtain ⟨b, _, hb, hnil, rfl⟩ := spells_token_cons_iff.1 hlast
              cases spells_nil_iff.1 hnil
              exact .bracket hp ha (hnormal (by simp) hinner) hb
        · obtain ⟨i, hi⟩ := List.mem_iff_getElem?.1 ht
          have hgrouped := hrespects cs i _ (Tree.self_mem_subtrees _)
            (getElem?_leftRecursive_symbols hi) hspells
          obtain ⟨left, _, hleft, htail, rfl⟩ := spells_rule_cons_iff.1 hspells
          obtain ⟨op, _, hop, hlast, rfl⟩ := spells_token_cons_iff.1 htail
          obtain ⟨right, _, hright, hnil, rfl⟩ := spells_rule_cons_iff.1 hlast
          cases spells_nil_iff.1 hnil
          have hilt : i < (operators alts).length := (List.getElem?_eq_some_iff.1 hi).1
          refine .binary hi (Nat.zero_le _) hop ((hnormal (by simp) hleft).raise ?_)
            ((hnormal (by simp) hright).raise ?_)
          · intro j u hu hbuilt
            have hle := hgrouped.first left j _ rfl (getElem?_leftRecursive_symbols hu) hbuilt rfl
            omega
          · intro j u hu hbuilt
            obtain ⟨operand, heq, hoperand⟩ := hgrouped.last rfl
            cases heq
            have hlt := lt_of_isPrimary_or (nodup_leftRecursive hg) hoperand hu hbuilt
            omega

/-- The normal trees are the derivations that respect the precedences: the parser
returns nothing else. -/
theorem isNormal_iff (hg : d.build = .ok g) (he : e < g.rules.length)
    (halts : d.alternatives e = alts.map (symbols e)) (hdistinct : (alts.flatMap types).Nodup) :
    d.IsNormal e tree ↔ Normal e (operators alts) (operands alts) 0 tree := by
  have hexpr := hasExpressions_of_build hg he halts hdistinct
  constructor
  · rintro ⟨hderivation, hroot, hrespects⟩
    rw [halts] at hrespects
    exact normal_of_respectsPrecedence hexpr
      (hderivation.mono fun k a => (GrammarDecl.hasAlternative_iff_declares hg).2) hroot hrespects
  · intro hnormal
    have hparse := hnormal.parseRule_eq_ok hexpr (Nat.le_refl _) (Normal.endsBefore_nil _ 0)
    have hreads := parseRule_sound _ hparse
    obtain ⟨name, hrule⟩ : ∃ name, g.rules[e]? = some
        (GrammarDecl.makeRule e name (d.alternatives e)) := by
      obtain ⟨name, hrule⟩ := hexpr.rule
      exact ⟨name, by rw [hrule, halts, makeRule_symbols]⟩
    have hoperators : (leftRecursive e (d.alternatives e)).Nodup := by
      rw [halts]
      exact nodup_leftRecursive hexpr
    exact ⟨hreads.derivation.mono fun k a => (GrammarDecl.hasAlternative_iff_declares hg).1,
      hreads.root, (climbs_parseRule hrule hoperators _).respects hparse⟩

/-- Parsing and taking the leaves are inverse to each other on the normal trees of a
rule of expressions, whatever follows that does not begin with an operator. Every
derivation has the leaves of exactly one normal tree, so all of them are accepted. -/
theorem parse_inverts_leaves (hg : d.build = .ok g) (he : e < g.rules.length)
    (halts : d.alternatives e = alts.map (symbols e)) (hdistinct : (alts.flatMap types).Nodup) :
    (∀ tree, d.IsNormal e tree → ∀ (rest : List Token) (s : TokenStream),
      (∀ token ∈ rest.head?, ∀ t ∈ operators alts, token.kind ≠ .type t) →
      s.remaining = tree.leaves ++ rest →
      g.parse e s = (.ok tree, s.seekLast rest.length) ∧
        (s.seekLast rest.length).remaining = rest) ∧
    ∀ tree : Tree, tree.IsDerivation d.Declares → tree.rule? = some e →
      (∃! tree', d.IsNormal e tree' ∧ tree'.leaves = tree.leaves) ∧
      ∀ s : TokenStream, s.remaining = tree.leaves → ∃ tree' s', g.parse e s = (.ok tree', s') ∧
        tree'.leaves = tree.leaves ∧ s'.remaining = [] := by
  have hexpr := hasExpressions_of_build hg he halts hdistinct
  have hiff (tree : Tree) : d.IsNormal e tree ↔ Normal e (operators alts) (operands alts) 0 tree :=
    isNormal_iff hg he halts hdistinct
  constructor
  · intro tree htree rest s hrest hs
    refine ((hiff tree).1 htree).parse_eq hexpr ?_ hs
    intro i t ht _ hhead
    obtain ⟨token, htoken, hkind⟩ := Option.map_eq_some_iff.1 hhead
    exact hrest token htoken t (List.mem_of_getElem? ht) hkind
  · intro tree htree hroot
    have hderivation : tree.IsDerivation g.HasAlternative :=
      htree.mono fun k a => (GrammarDecl.hasAlternative_iff_declares hg).2
    obtain ⟨normal, hleaves, hnormal⟩ := hexpr.exists_normal hderivation hroot
    constructor
    · refine ⟨normal, ⟨(hiff normal).2 hnormal, hleaves⟩, ?_⟩
      rintro tree' ⟨hnormal', hleaves'⟩
      exact hnormal.eq_of_leaves_eq hexpr ((hiff tree').1 hnormal') (hleaves'.trans hleaves.symm)
    · intro s hs
      rw [← hleaves, ← List.append_nil normal.leaves] at hs
      obtain ⟨hparse, hrest⟩ := hnormal.parse_eq hexpr (Normal.endsBefore_nil _ 0) hs
      exact ⟨normal, _, hparse, hleaves, hrest⟩

/-- Products and sums of ones, with brackets. -/
def arithmetic : GrammarDecl where
  name := "Arithmetic"
  rules := [⟨"expr", ["expr '*' expr", "'1'", "expr '+' expr", "'(' expr ')'"]⟩]
  tokens := []

def arithmeticGrammar : Grammar where
  name := "Arithmetic"
  rules := [⟨"expr", [[.token 2], [.token 4, .rule 0, .token 5]],
    [[.token 1, .rule 0], [.token 3, .rule 0]]⟩]
  tokens := [.literal "*", .literal "1", .literal "+", .literal "(", .literal ")"]

def arithmeticAlternatives : List ExpressionAlternative :=
  [.binary 1, .operand (.atom 2), .binary 3, .operand (.bracket 4 5)]

def one : Tree :=
  .node 0 [.leaf (.word 2 "1")]

/-- `( 1 + <expr> ) * 1` -/
def bracketedProduct : Tree :=
  .node 0 [.node 0 [.leaf (.word 4 "("),
      .node 0 [one, .leaf (.word 3 "+"), .node 0 [.leaf (.rulePlaceholder 0 ⟨"expr", none⟩)]],
      .leaf (.word 5 ")")],
    .leaf (.word 1 "*"), one]

/-- `1 * 1 + 1`, with the sum as an operand of the product. -/
def sumInProduct : Tree :=
  .node 0 [one, .leaf (.word 1 "*"), .node 0 [one, .leaf (.word 3 "+"), one]]

theorem parse_inverts_leaves_arithmetic :
    arithmetic.build = .ok arithmeticGrammar ∧ 0 < arithmeticGrammar.rules.length ∧
      arithmetic.alternatives 0 = arithmeticAlternatives.map (symbols 0) ∧
      (arithmeticAlternatives.flatMap types).Nodup ∧ arithmetic.IsNormal 0 bracketedProduct ∧
      (arithmeticGrammar.parse 0 (.ofList (bracketedProduct.leaves ++ [.word 5 ")"]))).1 =
        .ok bracketedProduct ∧
      sumInProduct.IsDerivation arithmetic.Declares ∧
      ∃! tree, arithmetic.IsNormal 0 tree ∧ tree.leaves = sumInProduct.leaves := by
  have hbuild : arithmetic.build = .ok arithmeticGrammar := rfl
  have hrule : 0 < arithmeticGrammar.rules.length := by decide
  have halts : arithmetic.alternatives 0 = arithmeticAlternatives.map (symbols 0) := rfl
  have hdistinct : (arithmeticAlternatives.flatMap types).Nodup := by decide
  have hproduct : arithmetic.IsNormal 0 bracketedProduct := by
    refine (isNormal_iff hbuild hrule halts hdistinct).2 ?_
    have hbracket : .bracket 4 5 ∈ operands arithmeticAlternatives :=
      List.mem_cons_of_mem _ List.mem_cons_self
    refine .binary (i := 0) rfl (Nat.zero_le _) rfl (.bracket hbracket rfl ?_ rfl)
      (.atom List.mem_cons_self rfl)
    exact .binary (i := 1) rfl (Nat.zero_le _) rfl (.atom List.mem_cons_self rfl)
      (.placeholder rfl)
  have hderivation : sumInProduct.IsDerivation arithmetic.Declares := by
    have hone : one.IsDerivation arithmetic.Declares :=
      GrammarDecl.isDerivation_node (a := [.token 2]) hbuild (by decide)
        (by simp [Spells, Token.word]) (by simp)
    have hsum : (Tree.node 0 [one, .leaf (.word 3 "+"), one]).IsDerivation arithmetic.Declares :=
      GrammarDecl.isDerivation_node (a := [.rule 0, .token 3, .rule 0]) hbuild (by decide)
        (by simp [Spells, one, Tree.rule?, Token.word]) (by simp [hone])
    exact GrammarDecl.isDerivation_node (a := [.rule 0, .token 1, .rule 0]) hbuild (by decide)
      (by simp [Spells, one, Tree.rule?, Token.word]) (by simp [hone, hsum])
  obtain ⟨hnormal, hderived⟩ := parse_inverts_leaves hbuild hrule halts hdistinct
  obtain ⟨hparse, _⟩ := hnormal bracketedProduct hproduct [.word 5 ")"] (.ofList _) (by decide) rfl
  refine ⟨hbuild, hrule, halts, hdistinct, hproduct, by rw [hparse], hderivation, ?_⟩
  exact (hderived sumInProduct hderivation rfl).1

end Grammar

end Stencil
