import Stencil.Proofs.Depth
import Stencil.Proofs.Soundness

/-!
Precedence and associativity. The alternatives of a rule that begin with the rule
itself are its operators, and an operator binds tighter than the operators declared
after it.

Main statement: in every tree the parser returns, the last operand of an operator
has only tighter operators at its top, and a looser operator with an operand at its
end is never the first operand of a tighter one.
-/

namespace Stencil

/-! ### How a node is built -/

/-- The tree is a node of rule `r` whose children spell the alternative. -/
def BuiltBy (r : RuleId) (a : List Symbol) (tree : Tree) : Prop :=
  ∃ cs, tree = .node r cs ∧ Spells a cs

/-- The tree is a placeholder for rule `r`, or built by an alternative that does not
begin with the rule itself. -/
def IsPrimary (r : RuleId) (alternatives : List (List Symbol)) (tree : Tree) : Prop :=
  (∃ cs, tree = .node r cs ∧ IsPlaceholder r cs) ∨
    ∃ a ∈ alternatives, a.head? ≠ some (.rule r) ∧ BuiltBy r a tree

/-- The alternatives that begin with the rule itself, in the order in which they are
declared. -/
def leftRecursive (r : RuleId) (alternatives : List (List Symbol)) : List (List Symbol) :=
  alternatives.filter fun a => a.head? = some (.rule r)

theorem Symbol.Fits.unique {s s' : Symbol} {tree : Tree} (h : s.Fits tree) (h' : s'.Fits tree) :
    s = s' := by
  cases s <;> cases s' <;> cases tree <;> simp_all [Symbol.Fits]

/-- Children spell one alternative only. -/
theorem Spells.unique {a b : List Symbol} {cs : List Tree} (h : Spells a cs) (h' : Spells b cs) :
    a = b := by
  have hunique : Relator.LeftUnique Symbol.Fits := fun _ _ _ => Symbol.Fits.unique
  exact List.left_unique_forall₂' hunique h h'

theorem BuiltBy.unique {r : RuleId} {a b : List Symbol} {tree : Tree} (h : BuiltBy r a tree)
    (h' : BuiltBy r b tree) : a = b := by
  obtain ⟨cs, rfl, hspells⟩ := h
  obtain ⟨_, heq, hspells'⟩ := h'
  cases heq
  exact hspells.unique hspells'

section LeftRecursive

variable {r : RuleId} {alternatives : List (List Symbol)}

/-- The operators of a rule are its left-recursive alternatives without their first
symbol. -/
theorem map_filterMap_suffix? :
    (alternatives.filterMap (GrammarDecl.suffix? r)).map (.rule r :: ·) =
      leftRecursive r alternatives := by
  induction alternatives with
  | nil => rfl
  | cons a as ih =>
      have hcons : leftRecursive r (a :: as) =
          if a.head? = some (.rule r) then a :: leftRecursive r as else leftRecursive r as := by
        simp [leftRecursive, List.filter_cons]
      rw [hcons]
      cases hsuffix : GrammarDecl.suffix? r a with
      | some op =>
          rw [List.filterMap_cons_some hsuffix]
          rw [GrammarDecl.suffix?_eq_some_iff] at hsuffix
          simp [hsuffix, ih]
      | none =>
          have hhead : a.head? ≠ some (.rule r) := by
            intro hhead
            obtain ⟨op, rfl⟩ := List.head?_eq_some_iff.1 hhead
            rw [GrammarDecl.suffix?_eq_some_iff.2 rfl] at hsuffix
            cases hsuffix
          rw [List.filterMap_cons_none hsuffix, if_neg hhead, ih]

section Split

variable {before after : List (List Symbol)} {op : List Symbol}
  (hsplit : alternatives.filterMap (GrammarDecl.suffix? r) = before ++ op :: after)
include hsplit

theorem length_leftRecursive_of_split :
    (leftRecursive r alternatives).length = before.length + (after.length + 1) := by
  rw [← map_filterMap_suffix?, hsplit]
  simp

theorem getElem?_leftRecursive_of_split :
    (leftRecursive r alternatives)[before.length]? = some (.rule r :: op) := by
  rw [← map_filterMap_suffix?, hsplit]
  simp

end Split

theorem getElem?_leftRecursive_inj (hdistinct : (leftRecursive r alternatives).Nodup) {i j : Nat}
    {a : List Symbol} (hi : (leftRecursive r alternatives)[i]? = some a)
    (hj : (leftRecursive r alternatives)[j]? = some a) : i = j :=
  (List.getElem?_inj (List.getElem?_eq_some_iff.1 hi).1 hdistinct).1 (hi.trans hj.symm)

theorem head?_of_mem_leftRecursive {a : List Symbol} (h : a ∈ leftRecursive r alternatives) :
    a.head? = some (.rule r) := by
  simpa using (List.mem_filter.1 h).2

/-- A primary node is built by no operator. -/
theorem IsPrimary.not_builtBy {a : List Symbol} {tree : Tree} (h : IsPrimary r alternatives tree)
    (ha : a ∈ leftRecursive r alternatives) : ¬ BuiltBy r a tree := by
  intro hbuilt
  have hhead := head?_of_mem_leftRecursive ha
  rcases h with ⟨cs, rfl, token, rfl, _⟩ | ⟨b, _, hb, hprimary⟩
  · obtain ⟨_, heq, hspells⟩ := hbuilt
    obtain ⟨op, rfl⟩ := List.head?_eq_some_iff.1 hhead
    cases heq
    obtain ⟨tree, _, hroot, _, hchildren⟩ := spells_rule_cons_iff.1 hspells
    cases hchildren
    cases hroot
  · rw [hbuilt.unique hprimary] at hhead
    exact hb hhead

theorem IsPrimary.rule?_eq {tree : Tree} (h : IsPrimary r alternatives tree) :
    tree.rule? = some r := by
  rcases h with ⟨cs, rfl, _⟩ | ⟨_, _, _, cs, rfl, _⟩
  · rfl
  · rfl

end LeftRecursive

/-! ### Trees that respect precedences -/

/-- What precedences ask of a node that is built by the alternative `a`, which has
index `i` among the left-recursive ones of rule `r`. -/
structure Grouped (r : RuleId) (alternatives : List (List Symbol)) (i : Nat) (a : List Symbol)
    (cs : List Tree) : Prop where
  /-- The last operand has only tighter operators at its top. -/
  last : a.getLast? = some (.rule r) → ∃ operand, cs.getLast? = some operand ∧
    (IsPrimary r alternatives operand ∨
      ∃ j b, j < i ∧ (leftRecursive r alternatives)[j]? = some b ∧ BuiltBy r b operand)
  /-- The first operand has no looser operator at its top that ends with an operand. -/
  first : ∀ operand j b, cs.head? = some operand → (leftRecursive r alternatives)[j]? = some b →
    BuiltBy r b operand → b.getLast? = some (.rule r) → j ≤ i

/-- The nodes of rule `r` in the tree are grouped as its precedences ask. -/
def Tree.RespectsPrecedence (r : RuleId) (alternatives : List (List Symbol)) (tree : Tree) : Prop :=
  ∀ cs i a, .node r cs ∈ tree.subtrees → (leftRecursive r alternatives)[i]? = some a →
    Spells a cs → Grouped r alternatives i a cs

namespace Tree.RespectsPrecedence

variable {r k : RuleId} {alternatives : List (List Symbol)} {cs : List Tree}

theorem leaf (token : Token) : (Tree.leaf token).RespectsPrecedence r alternatives := by
  intro cs i a h
  simp at h

theorem node (hroot : k = r → ∀ i a, (leftRecursive r alternatives)[i]? = some a →
      Spells a cs → Grouped r alternatives i a cs)
    (hchildren : ∀ c ∈ cs, c.RespectsPrecedence r alternatives) :
    (Tree.node k cs).RespectsPrecedence r alternatives := by
  intro ds i a hmem ha hspells
  rw [subtrees_node] at hmem
  rcases List.mem_cons.1 hmem with heq | hmem
  · cases heq
    exact hroot rfl i a ha hspells
  · obtain ⟨c, hc, hmem⟩ := List.mem_flatMap.1 hmem
    exact hchildren c hc ds i a hmem ha hspells

theorem child (h : (Tree.node k cs).RespectsPrecedence r alternatives) {c : Tree} (hc : c ∈ cs) :
    c.RespectsPrecedence r alternatives := by
  intro ds i a hmem ha hspells
  refine h ds i a ?_ ha hspells
  rw [subtrees_node]
  exact List.mem_cons_of_mem _ (List.mem_flatMap.2 ⟨c, hc, hmem⟩)

end Tree.RespectsPrecedence

/-! ### The loop over the operators -/

namespace Grammar

/-- What the parser for rules is known to do with rule `r`. -/
structure Climbs (g : Grammar) (r : RuleId) (alternatives : List (List Symbol))
    (sub : RuleParser) : Prop where
  respects : ∀ {k minPrec ts tree rest}, sub k minPrec ts = .ok tree rest →
    tree.RespectsPrecedence r alternatives
  /-- The operator at the top is tight enough. -/
  top : ∀ {minPrec ts tree rest}, sub r minPrec ts = .ok tree rest →
    IsPrimary r alternatives tree ∨ ∃ j b, (leftRecursive r alternatives)[j]? = some b ∧
      BuiltBy r b tree ∧ minPrec ≤ (leftRecursive r alternatives).length - j
  /-- Where the parser stops, no operator that it may use can be parsed. -/
  ended : ∀ {minPrec ts tree rest}, sub r minPrec ts = .ok tree rest →
    ∃ left, g.parseOperator sub r minPrec (alternatives.filterMap (GrammarDecl.suffix? r)) rest =
      .ok none left

/-- What the loop holds when it has come to the tokens `ts`. -/
structure Holds (g : Grammar) (r : RuleId) (alternatives : List (List Symbol)) (sub : RuleParser)
    (minPrec : Nat) (tree : Tree) (ts : List Token) : Prop where
  respects : tree.RespectsPrecedence r alternatives
  /-- The last operand, if there is one at the end, could not be extended any further. -/
  top : IsPrimary r alternatives tree ∨ ∃ j b, (leftRecursive r alternatives)[j]? = some b ∧
    BuiltBy r b tree ∧ minPrec ≤ (leftRecursive r alternatives).length - j ∧
    (b.getLast? = some (.rule r) → ∃ left, g.parseOperator sub r
      ((leftRecursive r alternatives).length - j + 1)
      (alternatives.filterMap (GrammarDecl.suffix? r)) ts = .ok none left)

variable {g : Grammar} {r : RuleId} {alternatives : List (List Symbol)} {sub : RuleParser}
  {minPrec : Nat} {ts rest : List Token} {tree : Tree} {children : List Tree}

theorem Holds.rule?_eq (h : g.Holds r alternatives sub minPrec tree ts) :
    tree.rule? = some r := by
  rcases h.top with hprimary | ⟨_, _, _, ⟨cs, rfl, _⟩, _⟩
  · exact hprimary.rule?_eq
  · rfl

/-- The last operand of an operator that reads a token is not the first one. -/
theorem exists_last_of_parseOperands {op : List Symbol} {prec : Nat}
    (hends : (Symbol.rule r :: op).getLast? = some (.rule r))
    (hop : g.parseOperands sub r prec op ts = .ok children rest) (hlt : rest.length < ts.length) :
    ∃ operand mid, children.getLast? = some operand ∧
      sub r (prec + 1) mid = .ok operand rest := by
  cases op with
  | nil =>
      cases hop
      exact absurd hlt (Nat.lt_irrefl _)
  | cons s ss =>
      rw [List.getLast?_cons_cons] at hends
      exact parseOperands_getLast? hends hop

section Step

variable (hsub : g.Climbs r alternatives sub) (hdistinct : (leftRecursive r alternatives).Nodup)
include hsub hdistinct

/-- The operator that is used groups as it should. One that is tighter than the
operator at the top would have been used for the last operand of that one already. -/
theorem Holds.grouped (h : g.Holds r alternatives sub minPrec tree ts)
    {before after : List (List Symbol)} {op : List Symbol}
    (hsplit : alternatives.filterMap (GrammarDecl.suffix? r) = before ++ op :: after)
    (hop : g.parseOperands sub r (after.length + 1) op ts = .ok children rest)
    (hlt : rest.length < ts.length) :
    Grouped r alternatives before.length (.rule r :: op) (tree :: children) := by
  have hlength := length_leftRecursive_of_split hsplit
  constructor
  · intro hends
    obtain ⟨operand, mid, hoperand, hparsed⟩ := exists_last_of_parseOperands hends hop hlt
    refine ⟨operand, by rw [List.getLast?_cons, hoperand]; rfl, ?_⟩
    rcases hsub.top hparsed with hprimary | ⟨j, b, hb, hbuilt, hprec⟩
    · exact .inl hprimary
    · exact .inr ⟨j, b, by omega, hb, hbuilt⟩
  · intro operand j b hfirst hb hbuilt hends
    cases hfirst
    rcases h.top with hprimary | ⟨j', b', hb', hbuilt', _, hended⟩
    · exact absurd hbuilt (hprimary.not_builtBy (List.mem_of_getElem? hb))
    · cases hbuilt.unique hbuilt'
      cases getElem?_leftRecursive_inj hdistinct hb hb'
      by_contra hlooser
      obtain ⟨left, hnone⟩ := hended hends
      rw [hsplit] at hnone
      exact not_lt_of_parseOperator_none hnone (by omega) hop hlt

/-- Using an operator: the derivation so far becomes its first operand. -/
theorem Holds.step (hsound : g.Sound sub) (h : g.Holds r alternatives sub minPrec tree ts)
    (hparse : g.parseOperator sub r minPrec (alternatives.filterMap (GrammarDecl.suffix? r)) ts =
      .ok (some children) rest) :
    g.Holds r alternatives sub minPrec (.node r (tree :: children)) rest := by
  -- the operator has index `before.length` and precedence `after.length + 1`
  obtain ⟨before, op, after, hsplit, hmin, hop, hlt⟩ := parseOperator_eq_some hparse
  have hlength := length_leftRecursive_of_split hsplit
  have hget := getElem?_leftRecursive_of_split hsplit
  have hspells : Spells (.rule r :: op) (tree :: children) :=
    .cons (Symbol.fits_rule_iff.2 h.rule?_eq) (parseOperands_sound hsound hop).spells
  constructor
  · refine Tree.RespectsPrecedence.node ?_ ?_
    · intro _ i a ha hspells'
      cases hspells'.unique hspells
      cases getElem?_leftRecursive_inj hdistinct ha hget
      exact h.grouped hsub hdistinct hsplit hop hlt
    · refine List.forall_mem_cons.2 ⟨h.respects, ?_⟩
      exact forall_mem_of_parseOperands Tree.RespectsPrecedence.leaf hsub.respects hop
  · refine .inr ⟨before.length, .rule r :: op, hget, ⟨_, rfl, hspells⟩, by omega, ?_⟩
    intro hends
    obtain ⟨operand, mid, _, hparsed⟩ := exists_last_of_parseOperands hends hop hlt
    have hprec : (leftRecursive r alternatives).length - before.length + 1 =
        after.length + 1 + 1 := by omega
    rw [hprec]
    exact hsub.ended hparsed

end Step

section Rule

variable {name : String} (hrule : g.rules[r]? = some (GrammarDecl.makeRule r name alternatives))
  {n : Nat}

theorem isPrimary_of_parsePrimary (hsound : g.Sound sub)
    (h : g.parsePrimary sub r (GrammarDecl.makeRule r name alternatives) ts = .ok tree rest) :
    IsPrimary r alternatives tree := by
  rcases parsePrimary_eq_ok h with ⟨token, _, hkind, rfl⟩ | ⟨a, ha, children, hchildren, rfl⟩
  · exact .inl ⟨_, rfl, token, rfl, hkind⟩
  · obtain ⟨hmem, hsuffix⟩ := List.mem_filter.1 ha
    refine .inr ⟨a, hmem, ?_, _, rfl, (parseSymbols_sound hsound hchildren).spells⟩
    intro hhead
    obtain ⟨op, rfl⟩ := List.head?_eq_some_iff.1 hhead
    simp [GrammarDecl.suffix?] at hsuffix

/-- A node that is built without an operator. -/
theorem respects_of_parsePrimary {k : RuleId} {rule : Rule}
    (hsub : g.Climbs r alternatives sub)
    (hprimary : k = r → IsPrimary r alternatives tree)
    (h : g.parsePrimary sub k rule ts = .ok tree rest) :
    tree.RespectsPrecedence r alternatives := by
  have hroot {cs : List Tree} (heq : tree = .node k cs) : k = r → ∀ i a,
      (leftRecursive r alternatives)[i]? = some a → Spells a cs →
        Grouped r alternatives i a cs := by
    rintro rfl i a ha hspells
    exact absurd ⟨cs, heq, hspells⟩ ((hprimary rfl).not_builtBy (List.mem_of_getElem? ha))
  rcases parsePrimary_eq_ok h with ⟨token, _, _, rfl⟩ | ⟨a, _, children, hchildren, rfl⟩
  · exact .node (hroot rfl) (by simp [Tree.RespectsPrecedence.leaf])
  · exact .node (hroot rfl)
      (forall_mem_of_parseSymbols Tree.RespectsPrecedence.leaf hsub.respects hchildren)

include hrule in
/-- The loop of rule `r`, from its beginning to its end. -/
theorem holds_of_parseRule (hsub : g.Climbs r alternatives (g.parseRule n))
    (hdistinct : (leftRecursive r alternatives).Nodup)
    (h : g.parseRule (n + 1) r minPrec ts = .ok tree rest) :
    g.Holds r alternatives (g.parseRule n) minPrec tree rest ∧
      ∃ left, g.parseOperator (g.parseRule n) r minPrec
        (alternatives.filterMap (GrammarDecl.suffix? r)) rest = .ok none left := by
  obtain ⟨rule, first, mid, hget, hfirst, hextend⟩ := parseRule_eq_ok h
  rw [hrule] at hget
  cases hget
  have hprimary := isPrimary_of_parsePrimary (parseRule_sound n) hfirst
  have hstart : g.Holds r alternatives (g.parseRule n) minPrec first mid :=
    ⟨respects_of_parsePrimary hsub (fun _ => hprimary) hfirst, .inl hprimary⟩
  exact extend_induct (fun hholds hop => hholds.step hsub hdistinct (parseRule_sound n) hop)
    hstart hextend

/-- In the trees of other rules only the nodes below the root matter. -/
theorem respects_of_parseRule_ne {k : RuleId} (hk : k ≠ r)
    (hsub : g.Climbs r alternatives (g.parseRule n))
    (h : g.parseRule (n + 1) k minPrec ts = .ok tree rest) :
    tree.RespectsPrecedence r alternatives := by
  obtain ⟨rule, first, mid, _, hfirst, hextend⟩ := parseRule_eq_ok h
  have hstart := respects_of_parsePrimary hsub (fun heq => absurd heq hk) hfirst
  refine (extend_induct (P := fun tree _ => tree.RespectsPrecedence r alternatives) ?_ hstart
    hextend).1
  intro first ts children rest hrespects hop
  obtain ⟨_, op, _, _, _, hoperands, _⟩ := parseOperator_eq_some hop
  refine .node (fun heq => absurd heq hk) (List.forall_mem_cons.2 ⟨hrespects, ?_⟩)
  exact forall_mem_of_parseOperands Tree.RespectsPrecedence.leaf hsub.respects hoperands

include hrule in
theorem climbs_parseRule (hdistinct : (leftRecursive r alternatives).Nodup) (n : Nat) :
    g.Climbs r alternatives (g.parseRule n) := by
  induction n with
  | zero => constructor <;> (intros; contradiction)
  | succ n ih =>
      constructor
      · intro k minPrec ts tree rest h
        by_cases hk : k = r
        · subst hk
          exact (holds_of_parseRule hrule ih hdistinct h).1.respects
        · exact respects_of_parseRule_ne hk ih h
      · intro minPrec ts tree rest h
        rcases (holds_of_parseRule hrule ih hdistinct h).1.top with hprimary |
          ⟨j, b, hb, hbuilt, hprec, _⟩
        · exact .inl hprimary
        · exact .inr ⟨j, b, hb, hbuilt, hprec⟩
      · intro minPrec ts tree rest h
        obtain ⟨_, left, hnone⟩ := holds_of_parseRule hrule ih hdistinct h
        -- what could not be parsed cannot be parsed at a larger depth either
        exact ⟨left, Outcome.eq_ok_of_le
          (parseOperator_mono (parseRule_sound n) hrule (belowOn_parseRule (Nat.le_succ n))
            (List.suffix_refl _)) hnone⟩

end Rule

/-- The trees a parser returns are grouped by the precedences of every rule whose
left-recursive alternatives are all different. -/
theorem parse_respectsPrecedence {d : GrammarDecl} (hg : d.build = .ok g)
    (hdistinct : (leftRecursive r (d.alternatives r)).Nodup) {start : RuleId}
    {s s' : TokenStream} (h : g.parse start s = (.ok tree, s')) :
    tree.RespectsPrecedence r (d.alternatives r) := by
  rcases GrammarDecl.getElem?_rules hg r with ⟨name, hrule⟩ | ⟨_, hnil⟩
  · obtain ⟨rest, hparse, _⟩ := parseTokens_of_parse h
    exact (climbs_parseRule hrule hdistinct _).respects hparse
  · intro cs i a _ ha
    simp [hnil, leftRecursive] at ha

/-- Products, sums and factorials of ones. -/
def terms : GrammarDecl where
  name := "Terms"
  rules := [⟨"term", ["term '*' term", "term '+' term", "term '!'", "'1'"]⟩]
  tokens := []

def termGrammar : Grammar where
  name := "Terms"
  rules := [⟨"term", [[.token 4]], [[.token 1, .rule 0], [.token 2, .rule 0], [.token 3]]⟩]
  tokens := [.literal "*", .literal "+", .literal "!", .literal "1"]

/-- `1 + 1 * <term> + 1 !` -/
def termStream : TokenStream :=
  .ofList [.word 4 "1", .word 2 "+", .word 4 "1", .word 1 "*", .rulePlaceholder 0 ⟨"term", none⟩,
    .word 2 "+", .word 4 "1", .word 3 "!"]

/-- The children of the second sum. -/
def sumChildren : List Tree :=
  [.node 0 [.node 0 [.leaf (.word 4 "1")], .leaf (.word 2 "+"),
      .node 0 [.node 0 [.leaf (.word 4 "1")], .leaf (.word 1 "*"),
        .node 0 [.leaf (.rulePlaceholder 0 ⟨"term", none⟩)]]],
    .leaf (.word 2 "+"), .node 0 [.leaf (.word 4 "1")]]

theorem parse_respectsPrecedence_terms :
    terms.build = .ok termGrammar ∧ (leftRecursive 0 (terms.alternatives 0)).Nodup ∧
      termGrammar.parse 0 termStream =
        (.ok (.node 0 [.node 0 sumChildren, .leaf (.word 3 "!")]), termStream.seek 8) ∧
      Grouped 0 (terms.alternatives 0) 1 [.rule 0, .token 2, .rule 0] sumChildren := by
  have hbuild : terms.build = .ok termGrammar := rfl
  have hdistinct : (leftRecursive 0 (terms.alternatives 0)).Nodup := by decide
  have hparse : termGrammar.parse 0 termStream =
      (.ok (.node 0 [.node 0 sumChildren, .leaf (.word 3 "!")]), termStream.seek 8) := rfl
  refine ⟨hbuild, hdistinct, hparse, ?_⟩
  refine parse_respectsPrecedence hbuild hdistinct hparse sumChildren 1 _ ?_ rfl ?_
  · simp
  · simp [Spells, sumChildren, Tree.rule?, Token.word]

end Grammar

end Stencil
