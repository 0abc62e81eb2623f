import Mathlib.Data.List.Forall2
import Stencil.Grammar.Build
import Stencil.Match

/-!
Derivation trees. A tree is a derivation when each of its nodes either holds
nothing but a placeholder for its own rule, or has children that spell an
alternative of its rule.

The alternatives a grammar keeps, with the rule itself put back in front of an
operator, are those that were declared.
-/

namespace Stencil

/-! ### Trees -/

/-- Induction over trees, with a hypothesis for every child of a node. -/
@[elab_as_elim]
theorem Tree.inductionOn {motive : Tree → Prop} (leaf : ∀ t, motive (.leaf t))
    (node : ∀ r cs, (∀ c ∈ cs, motive c) → motive (.node r cs)) : (t : Tree) → motive t
  | .leaf t => leaf t
  | .node r cs => node r cs fun c _ => Tree.inductionOn leaf node c

namespace Tree

theorem textList_eq (cs : List Tree) : textList cs = String.join (cs.map text) := by
  induction cs with
  | nil => rfl
  | cons c cs ih => rw [textList, ih, List.map_cons, String.join_cons]

/-- The text of a tree is the text of its leaves. -/
theorem text_eq_join_leaves (t : Tree) : t.text = String.join (t.leaves.map Token.text) := by
  induction t using Tree.inductionOn with
  | leaf t => simp [text]
  | node r cs ih =>
      rw [text, textList_eq, leaves_node]
      induction cs with
      | nil => rfl
      | cons c cs ihcs =>
          rw [List.map_cons, String.join_cons, ih c List.mem_cons_self,
            ihcs fun c hc => ih c (List.mem_cons_of_mem _ hc), List.flatMap_cons, List.map_append,
            String.join_append]

theorem self_mem_subtrees (t : Tree) : t ∈ t.subtrees := by
  cases t <;> simp

end Tree

/-! ### Spelling an alternative -/

/-- The tree stands for the symbol: a leaf of its type, or a node of its rule. -/
def Symbol.Fits : Symbol → Tree → Prop
  | .token t, .leaf word => word.kind = .type t
  | .rule r, .node k _ => k = r
  | _, _ => False

@[simp] theorem Symbol.fits_token_iff {t : TokenType} {tree : Tree} :
    (Symbol.token t).Fits tree ↔ ∃ token, tree = .leaf token ∧ token.kind = .type t := by
  cases tree <;> simp [Symbol.Fits]

@[simp] theorem Symbol.fits_rule_iff {r : RuleId} {tree : Tree} :
    (Symbol.rule r).Fits tree ↔ tree.rule? = some r := by
  cases tree <;> simp [Symbol.Fits, Tree.rule?]

/-- The trees stand for the symbols, one for one. -/
def Spells (alternative : List Symbol) (trees : List Tree) : Prop :=
  List.Forall₂ Symbol.Fits alternative trees

@[simp] theorem spells_nil_iff {trees : List Tree} : Spells [] trees ↔ trees = [] :=
  List.forall₂_nil_left_iff

theorem spells_token_cons_iff {t : TokenType} {ss : List Symbol} {trees : List Tree} :
    Spells (.token t :: ss) trees ↔
      ∃ token rest, token.kind = .type t ∧ Spells ss rest ∧ trees = .leaf token :: rest := by
  simp [Spells, List.forall₂_cons_left_iff]

theorem spells_rule_cons_iff {r : RuleId} {ss : List Symbol} {trees : List Tree} :
    Spells (.rule r :: ss) trees ↔
      ∃ tree rest, tree.rule? = some r ∧ Spells ss rest ∧ trees = tree :: rest := by
  simp [Spells, List.forall₂_cons_left_iff]

theorem Symbol.Fits.eq_rule {s : Symbol} {tree : Tree} (h : s.Fits tree) {r : RuleId}
    (hroot : tree.rule? = some r) : s = .rule r := by
  cases s with
  | token t =>
      obtain ⟨token, rfl, _⟩ := Symbol.fits_token_iff.1 h
      cases hroot
  | rule k =>
      rw [Symbol.fits_rule_iff, hroot, Option.some.injEq] at h
      rw [h]

theorem Spells.rule_mem {alternative : List Symbol} {trees : List Tree}
    (h : Spells alternative trees) {tree : Tree} (htree : tree ∈ trees) {r : RuleId}
    (hroot : tree.rule? = some r) : .rule r ∈ alternative := by
  induction h with
  | nil => cases htree
  | cons hfits _ ih =>
      rcases List.mem_cons.1 htree with rfl | htree
      · rw [hfits.eq_rule hroot]
        exact List.mem_cons_self
      · exact List.mem_cons_of_mem _ (ih htree)

/-- A reference to a rule spells nothing. -/
theorem Spells.kind_ne_rule {alternative : List Symbol} {trees : List Tree}
    (h : Spells alternative trees) {token : Token} (hmem : Tree.leaf token ∈ trees) (k : RuleId) :
    token.kind ≠ .rule k := by
  induction h with
  | nil => cases hmem
  | @cons s t ss ts hfit _ ih =>
      rcases List.mem_cons.1 hmem with rfl | hmem
      · cases s with
        | token t => simp_all [Symbol.Fits]
        | rule r => exact hfit.elim
      · exact ih hmem

/-- The children of a node of rule `r` that holds nothing but its own placeholder. -/
def IsPlaceholder (r : RuleId) (children : List Tree) : Prop :=
  ∃ token, children = [.leaf token] ∧ token.kind = .rule r

/-- Every node is a placeholder or spells one of the alternatives of its rule. -/
def Tree.IsDerivation (alternatives : RuleId → List Symbol → Prop) (tree : Tree) : Prop :=
  ∀ k cs, .node k cs ∈ tree.subtrees →
    IsPlaceholder k cs ∨ ∃ a, alternatives k a ∧ Spells a cs

namespace Tree.IsDerivation

variable {alternatives alternatives' : RuleId → List Symbol → Prop}

@[simp] theorem leaf (t : Token) : (Tree.leaf t).IsDerivation alternatives := by
  intro k cs h
  simp at h

theorem node_iff {r : RuleId} {children : List Tree} :
    (Tree.node r children).IsDerivation alternatives ↔
      (IsPlaceholder r children ∨ ∃ a, alternatives r a ∧ Spells a children) ∧
        ∀ c ∈ children, c.IsDerivation alternatives := by
  constructor
  · intro h
    refine ⟨h r children (Tree.self_mem_subtrees _), ?_⟩
    intro c hc k cs hk
    refine h k cs ?_
    rw [subtrees_node]
    exact List.mem_cons_of_mem _ (List.mem_flatMap.2 ⟨c, hc, hk⟩)
  · rintro ⟨hroot, hchildren⟩ k cs hk
    rw [subtrees_node] at hk
    rcases List.mem_cons.1 hk with heq | hk
    · cases heq
      exact hroot
    · obtain ⟨c, hc, hk⟩ := List.mem_flatMap.1 hk
      exact hchildren c hc k cs hk

theorem mono {tree : Tree} (h : tree.IsDerivation alternatives)
    (hle : ∀ k a, alternatives k a → alternatives' k a) : tree.IsDerivation alternatives' := by
  intro k cs hk
  rcases h k cs hk with hp | ⟨a, ha, hs⟩
  · exact .inl hp
  · exact .inr ⟨a, hle k a ha, hs⟩

/-- A reference to a rule is the only child of a node of that rule. -/
theorem rule_leaf {tree : Tree} (h : tree.IsDerivation alternatives) {k j : RuleId}
    {cs : List Tree} {token : Token} (hnode : .node k cs ∈ tree.subtrees)
    (hleaf : .leaf token ∈ cs) (hkind : token.kind = .rule j) : cs = [.leaf token] ∧ j = k := by
  rcases h k cs hnode with ⟨token', rfl, hkind'⟩ | ⟨a, _, hs⟩
  · cases List.mem_singleton.1 hleaf
    rw [hkind] at hkind'
    cases hkind'
    exact ⟨rfl, rfl⟩
  · exact absurd hkind (hs.kind_ne_rule hleaf j)

end Tree.IsDerivation

/-! ### The alternatives of a grammar -/

/-- The alternatives of a rule: the primary ones, and the operators with the rule
itself as their first operand. -/
def Grammar.HasAlternative (g : Grammar) (r : RuleId) (a : List Symbol) : Prop :=
  ∃ rule, g.rules[r]? = some rule ∧
    (a ∈ rule.primaries ∨ ∃ op ∈ rule.operators, a = .rule r :: op)

theorem tryMap_eq_ok_iff {α β ε : Type} {f : α → Except ε β} {as : List α} {bs : List β} :
    tryMap f as = .ok bs ↔ as.map f = bs.map .ok := by
  induction as generalizing bs with
  | nil => simp [tryMap, eq_comm]
  | cons a as ih =>
      rw [tryMap, List.map_cons]
      cases bs with
      | nil =>
          cases f a with
          | error e => simp
          | ok b => cases tryMap f as <;> simp
      | cons b bs =>
          rw [List.map_cons, List.cons.injEq, ← ih]
          cases f a with
          | error e => simp
          | ok b' => cases tryMap f as <;> simp

theorem mem_tryMap_iff {α β ε : Type} {f : α → Except ε β} {as : List α} {bs : List β}
    (h : tryMap f as = .ok bs) {b : β} : b ∈ bs ↔ ∃ a ∈ as, f a = .ok b := by
  have hmem : b ∈ bs ↔ Except.ok b ∈ bs.map (Except.ok : β → Except ε β) := by simp
  rw [hmem, ← tryMap_eq_ok_iff.1 h, List.mem_map]

namespace GrammarDecl

/-- The alternative, with its names and literals resolved, is one of those
declared for the rule with index `r`. -/
def Declares (d : GrammarDecl) (r : RuleId) (a : List Symbol) : Prop :=
  ∃ raws raw symbols, tryMap d.readRule d.rules = .ok raws ∧ raws[r]? = some raw ∧
    symbols ∈ raw.alternatives ∧ tryMap (d.resolve (literals raws) raw.name) symbols = .ok a

/-- The alternatives declared for the rule with index `r`, in order, with their
names and literals resolved; none if they cannot be read or resolved. -/
def alternatives (d : GrammarDecl) (r : RuleId) : List (List Symbol) :=
  match tryMap d.readRule d.rules with
  | .error _ => []
  | .ok raws =>
    match raws[r]? with
    | none => []
    | some raw =>
      match tryMap (tryMap (d.resolve (literals raws) raw.name)) raw.alternatives with
      | .error _ => []
      | .ok alternatives => alternatives

theorem build_eq_ok_iff {d : GrammarDecl} {g : Grammar} :
    d.build = .ok g ↔ firstRepeated? [] d.names = none ∧
      ∃ raws named rules, tryMap d.readRule d.rules = .ok raws ∧
        tryMap compileToken d.tokens = .ok named ∧
        d.resolveRules (literals raws) 0 raws = .ok rules ∧
        g = ⟨d.name, rules, (literals raws).map .literal ++ named⟩ := by
  unfold build
  cases firstRepeated? [] d.names with
  | some name => simp
  | none =>
      cases tryMap d.readRule d.rules with
      | error e => simp [bind, Except.bind]
      | ok raws =>
          cases tryMap compileToken d.tokens with
          | error e => simp [bind, Except.bind]
          | ok named =>
              cases hrules : d.resolveRules (literals raws) 0 raws with
              | error e => simp [bind, Except.bind, hrules]
              | ok rules =>
                  simp [bind, Except.bind, hrules, pure, Except.pure, eq_comm]

theorem suffix?_eq_some_iff {r : RuleId} {a op : List Symbol} :
    suffix? r a = some op ↔ a = .rule r :: op := by
  unfold suffix?
  split
  · rename_i k rest
    by_cases hk : k = r
    · simp [hk]
    · simp [hk]
  · rename_i hne
    constructor
    · intro h
      cases h
    · rintro rfl
      exact absurd rfl (hne r op)

/-- Parting the alternatives of a rule loses none of them. -/
theorem mem_makeRule_iff {r : RuleId} {name : String} {alternatives : List (List Symbol)}
    {a : List Symbol} :
    (a ∈ (makeRule r name alternatives).primaries ∨
      ∃ op ∈ (makeRule r name alternatives).operators, a = .rule r :: op) ↔ a ∈ alternatives := by
  simp only [makeRule, List.mem_filter, List.mem_filterMap, suffix?_eq_some_iff]
  constructor
  · rintro (⟨ha, _⟩ | ⟨op, ⟨a', ha', rfl⟩, rfl⟩)
    · exact ha
    · exact ha'
  · intro ha
    cases hs : suffix? r a with
    | none => exact .inl ⟨ha, rfl⟩
    | some op =>
        rw [suffix?_eq_some_iff] at hs
        exact .inr ⟨op, ⟨a, ha, hs⟩, hs⟩

theorem resolveRule_eq_ok_iff {d : GrammarDecl} {lits : List String} {r : RuleId}
    {raw : RawRule} {rule : Rule} :
    d.resolveRule lits r raw = .ok rule ↔
      ∃ alternatives, tryMap (tryMap (d.resolve lits raw.name)) raw.alternatives =
        .ok alternatives ∧ makeRule r raw.name alternatives = rule := by
  unfold resolveRule
  cases tryMap (tryMap (d.resolve lits raw.name)) raw.alternatives <;> simp

theorem getElem?_resolveRules {d : GrammarDecl} {lits : List String} {r : RuleId}
    {raws : List RawRule} {rules : List Rule} (h : d.resolveRules lits r raws = .ok rules)
    (i : Nat) : rules[i]?.map .ok = raws[i]?.map (d.resolveRule lits (r + i)) := by
  induction raws generalizing r rules i with
  | nil =>
      cases h
      simp
  | cons raw raws ih =>
      simp only [resolveRules, bind, Except.bind, pure, Except.pure] at h
      cases hrule : d.resolveRule lits r raw with
      | error e => simp [hrule] at h
      | ok first =>
          cases hrest : d.resolveRules lits (r + 1) raws with
          | error e => simp [hrule, hrest] at h
          | ok rest =>
              simp only [hrule, hrest, Except.ok.injEq] at h
              subst h
              cases i with
              | zero => simp [hrule]
              | succ i =>
                  rw [List.getElem?_cons_succ, List.getElem?_cons_succ, ih hrest i,
                    Nat.add_assoc, Nat.add_comm 1 i]

/-- A built grammar has the alternatives that were declared, and no others. -/
theorem hasAlternative_iff_declares {d : GrammarDecl} {g : Grammar} (hg : d.build = .ok g)
    {r : RuleId} {a : List Symbol} : g.HasAlternative r a ↔ d.Declares r a := by
  obtain ⟨_, raws, named, rules, hraws, _, hrules, rfl⟩ := build_eq_ok_iff.1 hg
  have hget := getElem?_resolveRules hrules r
  rw [Nat.zero_add] at hget
  constructor
  · rintro ⟨rule, hrule, ha⟩
    change rules[r]? = some rule at hrule
    rw [hrule, Option.map_some, eq_comm, Option.map_eq_some_iff] at hget
    obtain ⟨raw, hraw, hres⟩ := hget
    obtain ⟨alternatives, halts, rfl⟩ := resolveRule_eq_ok_iff.1 hres
    rw [mem_makeRule_iff, mem_tryMap_iff halts] at ha
    obtain ⟨symbols, hsymbols, ha⟩ := ha
    exact ⟨raws, raw, symbols, hraws, hraw, hsymbols, ha⟩
  · rintro ⟨raws', raw, symbols, hraws', hraw, hsymbols, ha⟩
    rw [hraws] at hraws'
    cases hraws'
    rw [hraw, Option.map_some, Option.map_eq_some_iff] at hget
    obtain ⟨rule, hrule, hres⟩ := hget
    obtain ⟨alternatives, halts, rfl⟩ := resolveRule_eq_ok_iff.1 hres.symm
    refine ⟨_, hrule, ?_⟩
    rw [mem_makeRule_iff, mem_tryMap_iff halts]
    exact ⟨symbols, hsymbols, ha⟩

/-- The rules of a built grammar are made of the declared alternatives. -/
theorem getElem?_rules {d : GrammarDecl} {g : Grammar} (hg : d.build = .ok g) (r : RuleId) :
    (∃ name, g.rules[r]? = some (makeRule r name (d.alternatives r))) ∨
      g.rules[r]? = none ∧ d.alternatives r = [] := by
  obtain ⟨_, raws, named, rules, hraws, _, hrules, rfl⟩ := build_eq_ok_iff.1 hg
  have hget := getElem?_resolveRules hrules r
  rw [Nat.zero_add] at hget
  cases hraw : raws[r]? with
  | none =>
      rw [hraw, Option.map_none, Option.map_eq_none_iff] at hget
      exact .inr ⟨hget, by simp [alternatives, hraws, hraw]⟩
  | some raw =>
      rw [hraw, Option.map_some, Option.map_eq_some_iff] at hget
      obtain ⟨rule, hrule, hres⟩ := hget
      obtain ⟨alts, halts, rfl⟩ := resolveRule_eq_ok_iff.1 hres.symm
      have heq : d.alternatives r = alts := by simp [alternatives, hraws, hraw, halts]
      exact .inl ⟨raw.name, by rw [heq]; exact hrule⟩

theorem mem_alternatives_iff {d : GrammarDecl} {g : Grammar} (hg : d.build = .ok g) {r : RuleId}
    {a : List Symbol} : a ∈ d.alternatives r ↔ d.Declares r a := by
  rw [← hasAlternative_iff_declares hg, Grammar.HasAlternative]
  rcases getElem?_rules hg r with ⟨name, hrule⟩ | ⟨hrule, hnil⟩
  · simp [hrule, mem_makeRule_iff]
  · simp [hrule, hnil]

theorem isDerivation_node {d : GrammarDecl} {g : Grammar} (hg : d.build = .ok g) {r : RuleId}
    {a : List Symbol} {cs : List Tree} (ha : a ∈ d.alternatives r) (hspells : Spells a cs)
    (hchildren : ∀ c ∈ cs, c.IsDerivation d.Declares) :
    (Tree.node r cs).IsDerivation d.Declares :=
  Tree.IsDerivation.node_iff.2 ⟨.inr ⟨a, (mem_alternatives_iff hg).1 ha, hspells⟩, hchildren⟩

theorem length_rules {d : GrammarDecl} {g : Grammar} (hg : d.build = .ok g) :
    g.rules.length = d.rules.length := by
  obtain ⟨_, raws, named, rules, hraws, _, hrules, rfl⟩ := build_eq_ok_iff.1 hg
  have hlength : d.rules.length = raws.length := by
    simpa using congrArg List.length (tryMap_eq_ok_iff.1 hraws)
  have hget (i : Nat) : rules.length ≤ i ↔ raws.length ≤ i := by
    rw [← List.getElem?_eq_none_iff, ← List.getElem?_eq_none_iff,
      ← Option.map_eq_none_iff (f := Except.ok), getElem?_resolveRules hrules,
      Option.map_eq_none_iff]
  have hle := (hget rules.length).1 (Nat.le_refl _)
  have hge := (hget raws.length).2 (Nat.le_refl _)
  change rules.length = d.rules.length
  omega

/-- The rules in an alternative are rules of the grammar. -/
theorem lt_length_of_mem_alternatives {d : GrammarDecl} {g : Grammar} (hg : d.build = .ok g)
    {r k : RuleId} {a : List Symbol} (ha : a ∈ d.alternatives r) (hk : .rule k ∈ a) :
    k < g.rules.length := by
  obtain ⟨raws, raw, symbols, _, _, _, hresolve⟩ := (mem_alternatives_iff hg).1 ha
  obtain ⟨symbol, _, hsymbol⟩ := (mem_tryMap_iff hresolve).1 hk
  rw [length_rules hg]
  unfold resolve at hsymbol
  split at hsymbol
  · cases hsymbol
  · split at hsymbol
    · rename_i hfound
      cases hsymbol
      exact (List.findIdx?_eq_some_iff_getElem.1 hfound).1
    · split at hsymbol
      · cases hsymbol
      · cases hsymbol

/-- Only the rules of the grammar have alternatives. -/
theorem lt_length_of_alternatives_ne_nil {d : GrammarDecl} {g : Grammar} (hg : d.build = .ok g)
    {r : RuleId} (hne : d.alternatives r ≠ []) : r < g.rules.length := by
  rcases getElem?_rules hg r with ⟨name, hrule⟩ | ⟨_, hnil⟩
  · exact (List.getElem?_eq_some_iff.1 hrule).1
  · exact absurd hnil hne

end GrammarDecl

end Stencil
