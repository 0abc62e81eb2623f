import Mathlib.Data.Finset.Card
import Mathlib.Logic.Relation
import Mathlib.Order.Monotone.Basic
import Stencil.Proofs.Soundness

/-!
The depth of calls. An outcome that is reached within a bound on the depth is
reached within every larger bound: the parts of the parser are monotone in the
parser for the rules in them, when an outcome counts as more than no end of calls.
-/

namespace Stencil

/-! ### Outcomes in order -/

namespace Outcome

variable {α : Type}

/-- No end of calls is less than any other outcome, and those are not compared. -/
instance : PartialOrder (Outcome α) where
  le o o' := o = .endless ∨ o = o'
  le_refl _ := .inr rfl
  le_trans := by
    rintro a b c (rfl | rfl) hbc
    · exact .inl rfl
    · exact hbc
  le_antisymm := by
    rintro a b (rfl | rfl) hba
    · rcases hba with rfl | rfl <;> rfl
    · rfl

theorem le_iff {o o' : Outcome α} : o ≤ o' ↔ o = .endless ∨ o = o' :=
  Iff.rfl

theorem endless_le (o : Outcome α) : .endless ≤ o :=
  .inl rfl

theorem eq_of_le {o o' : Outcome α} (h : o ≤ o') (hne : o ≠ .endless) : o' = o :=
  (h.resolve_left hne).symm

theorem eq_ok_of_le {o o' : Outcome α} (h : o ≤ o') {a : α} {rest : List Token}
    (hok : o = .ok a rest) : o' = .ok a rest := by
  rw [← hok]
  exact eq_of_le h (by simp [hok])

theorem cons_mono {first first' : Outcome Tree} {more more' : List Token → Outcome (List Tree)}
    (hfirst : first ≤ first')
    (hmore : ∀ {child rest}, first = .ok child rest → more rest ≤ more' rest) :
    first.cons more ≤ first'.cons more' := by
  rcases le_iff.1 hfirst with rfl | rfl
  · exact endless_le _
  · cases first with
    | fail e rest => exact le_refl _
    | endless => exact le_refl _
    | ok child rest =>
        rcases le_iff.1 (hmore rfl) with hend | heq
        · simp only [cons, hend]
          exact endless_le _
        · simp only [cons, heq]
          exact le_refl _

end Outcome

/-! ### The parts of the parser

The parts are monotone in the calls they make. A rule is called with all of its
operators or with those tighter than one of them, and on the last of the tokens. -/

namespace Grammar

/-- The ways in which a rule is entered. -/
def Enters (g : Grammar) (r : RuleId) (minPrec : Nat) : Prop :=
  minPrec = 0 ∨ ∃ rule, g.rules[r]? = some rule ∧ 2 ≤ minPrec ∧
    minPrec ≤ rule.operators.length + 1

/-- On every call made on the way through `ts`, the second parser for rules returns
what the first returns. -/
def BelowOn (g : Grammar) (ts : List Token) (sub sub' : RuleParser) : Prop :=
  ∀ ⦃k p mid⦄, g.Enters k p → mid <:+ ts → sub k p mid ≤ sub' k p mid

variable {g : Grammar} {sub sub' : RuleParser} {r : RuleId} {minPrec prec : Nat}
  {ts mid : List Token}

theorem BelowOn.of_suffix (h : g.BelowOn ts sub sub') (hmid : mid <:+ ts) :
    g.BelowOn mid sub sub' :=
  fun _ _ _ hp hsuffix => h hp (hsuffix.trans hmid)

theorem parseSymbol_mono (h : g.BelowOn ts sub sub') (s : Symbol) :
    g.parseSymbol sub s ts ≤ g.parseSymbol sub' s ts := by
  cases s with
  | token t => exact le_refl _
  | rule k => exact h (.inl rfl) (List.suffix_refl ts)

section Parts

variable (hsound : g.Sound sub)
include hsound

theorem parseSymbols_mono (h : g.BelowOn ts sub sub') (ss : List Symbol) :
    g.parseSymbols sub ss ts ≤ g.parseSymbols sub' ss ts := by
  induction ss generalizing ts with
  | nil => exact le_refl _
  | cons s ss ih =>
      rw [parseSymbols_cons, parseSymbols_cons]
      refine Outcome.cons_mono (parseSymbol_mono h s) ?_
      intro child mid hchild
      exact ih (h.of_suffix (suffix_of_parseSymbol hsound hchild))

theorem parseOperands_mono (h : g.BelowOn ts sub sub') (hprec : g.Enters r (prec + 1))
    (ss : List Symbol) : g.parseOperands sub r prec ss ts ≤ g.parseOperands sub' r prec ss ts := by
  induction ss generalizing ts with
  | nil => exact le_refl _
  | cons s ss ih =>
      rw [parseOperands_cons, parseOperands_cons, parseOperand, parseOperand]
      split
      · refine Outcome.cons_mono (h hprec (List.suffix_refl ts)) ?_
        intro child mid hchild
        exact ih (h.of_suffix (hsound hchild).suffix)
      · refine Outcome.cons_mono (parseSymbol_mono h s) ?_
        intro child mid hchild
        exact ih (h.of_suffix (suffix_of_parseSymbol hsound hchild))

theorem parseFirst_mono (h : g.BelowOn ts sub sub') (as : List (List Symbol)) :
    g.parseFirst sub as ts ≤ g.parseFirst sub' as ts := by
  induction as with
  | nil => exact le_refl _
  | cons a as ih =>
      rw [parseFirst, parseFirst]
      rcases Outcome.le_iff.1 (parseSymbols_mono hsound h a) with hend | heq
      · rw [hend]
        exact Outcome.endless_le _
      · rw [heq]
        cases g.parseSymbols sub' a ts with
        | ok children rest => exact le_refl _
        | fail e rest => exact ih
        | endless => exact le_refl _

theorem parseAlternatives_mono (h : g.BelowOn ts sub sub') (rule : Rule) :
    g.parseAlternatives sub r rule ts ≤ g.parseAlternatives sub' r rule ts := by
  unfold parseAlternatives
  split
  · rename_i only _
    rcases Outcome.le_iff.1 (parseSymbols_mono hsound h only) with hend | heq
    · rw [hend]
      exact Outcome.endless_le _
    · rw [heq]
  · rcases Outcome.le_iff.1 (parseFirst_mono hsound h rule.primaries) with hend | heq
    · rw [hend]
      exact Outcome.endless_le _
    · rw [heq]

theorem parsePrimary_mono (h : g.BelowOn ts sub sub') (rule : Rule) :
    g.parsePrimary sub r rule ts ≤ g.parsePrimary sub' r rule ts := by
  by_cases hhead : ts.head?.map Token.kind = some (.rule r)
  · obtain ⟨token, htoken, hkind⟩ := Option.map_eq_some_iff.1 hhead
    obtain ⟨tail, rfl⟩ := List.head?_eq_some_iff.1 htoken
    rw [parsePrimary_of_rule rule hkind, parsePrimary_of_rule rule hkind]
  · rw [parsePrimary_of_not_rule rule hhead, parsePrimary_of_not_rule rule hhead]
    exact parseAlternatives_mono hsound h rule

section Operators

variable {rule : Rule} (hrule : g.rules[r]? = some rule)
include hrule

theorem parseOperator_mono (h : g.BelowOn ts sub sub') {operators : List (List Symbol)}
    (hops : operators <:+ rule.operators) :
    g.parseOperator sub r minPrec operators ts ≤ g.parseOperator sub' r minPrec operators ts := by
  induction operators with
  | nil => exact le_refl _
  | cons op ops ih =>
      have hlength : ops.length + 1 ≤ rule.operators.length := hops.length_le
      have hprec : g.Enters r (ops.length + 1 + 1) := .inr ⟨rule, hrule, by omega, by omega⟩
      have hrest := ih ((List.suffix_cons op ops).trans hops)
      simp only [parseOperator_cons]
      split
      · exact le_refl _
      · rcases Outcome.le_iff.1 (parseOperands_mono hsound h hprec op) with hend | heq
        · rw [hend]
          exact Outcome.endless_le _
        · rw [heq]
          cases g.parseOperands sub' r (ops.length + 1) op ts with
          | ok children rest =>
              dsimp only
              split
              · exact le_refl _
              · exact hrest
          | fail e rest => exact hrest
          | endless => exact le_refl _

theorem extend_mono (h : g.BelowOn ts sub sub') (fuel : Nat) (tree : Tree) :
    g.extend sub r minPrec rule.operators fuel tree ts ≤
      g.extend sub' r minPrec rule.operators fuel tree ts := by
  induction fuel generalizing tree ts with
  | zero => exact le_refl _
  | succ n ih =>
      rw [extend_succ, extend_succ]
      have hop : g.parseOperator sub r minPrec rule.operators ts ≤
          g.parseOperator sub' r minPrec rule.operators ts :=
        parseOperator_mono hsound hrule h (List.suffix_refl _)
      cases hused : g.parseOperator sub r minPrec rule.operators ts with
      | endless => exact Outcome.endless_le _
      | fail e rest =>
          rw [hused] at hop
          rw [Outcome.eq_of_le hop (by simp)]
      | ok found rest =>
          rw [Outcome.eq_ok_of_le hop hused]
          cases found with
          | none => exact le_refl _
          | some children =>
              obtain ⟨_, op, _, _, _, hoperands, _⟩ := parseOperator_eq_some hused
              exact ih (h.of_suffix (parseOperands_sound hsound hoperands).suffix) _

end Operators

end Parts

/-- More depth for the calls inside a rule is more depth for the rule. -/
theorem parseRule_succ_le {m n : Nat} (h : g.BelowOn ts (g.parseRule m) (g.parseRule n)) :
    g.parseRule (m + 1) r minPrec ts ≤ g.parseRule (n + 1) r minPrec ts := by
  rw [parseRule, parseRule]
  cases hrule : g.rules[r]? with
  | none => exact le_refl _
  | some rule =>
      dsimp only
      have hprimary : g.parsePrimary (g.parseRule m) r rule ts ≤
          g.parsePrimary (g.parseRule n) r rule ts := parsePrimary_mono (parseRule_sound m) h rule
      cases hfirst : g.parsePrimary (g.parseRule m) r rule ts with
      | endless => exact Outcome.endless_le _
      | fail e rest =>
          rw [hfirst] at hprimary
          rw [Outcome.eq_of_le hprimary (by simp)]
      | ok tree rest =>
          rw [Outcome.eq_ok_of_le hprimary hfirst]
          have hrest := (parsePrimary_sound (parseRule_sound m) hrule hfirst).suffix
          exact extend_mono (parseRule_sound m) hrule (h.of_suffix hrest) _ _

/-- A larger depth of calls does not change an outcome. -/
theorem parseRule_mono (g : Grammar) : Monotone g.parseRule := by
  refine monotone_nat_of_le_succ ?_
  intro n
  induction n with
  | zero =>
      intro r minPrec ts
      exact Outcome.endless_le _
  | succ n ih =>
      intro r minPrec ts
      exact parseRule_succ_le fun k p mid _ _ => ih k p mid

theorem belowOn_parseRule {m n : Nat} (hmn : m ≤ n) :
    g.BelowOn ts (g.parseRule m) (g.parseRule n) :=
  fun k p mid _ _ => g.parseRule_mono hmn k p mid

/-! ### Enough depth -/

theorem length_rules_le_entries (g : Grammar) : g.rules.length ≤ g.entries := by
  have hfold (rules : List Rule) (n : Nat) :
      n + rules.length ≤ rules.foldl (fun n rule => n + rule.operators.length + 1) n := by
    induction rules generalizing n with
    | nil => simp
    | cons rule rules ih =>
        have hrest := ih (n + rule.operators.length + 1)
        rw [List.foldl_cons, List.length_cons]
        omega
  simpa [entries] using hfold g.rules 0

/-- What is parsed at some depth is parsed from a stream, if the depth is not beyond
the bound. -/
theorem parse_of_parseRule {n : Nat} {s : TokenStream} {tree : Tree} {rest : List Token}
    (hn : n ≤ (g.entries + 1) * (s.remaining.length + 1))
    (h : g.parseRule n r 0 s.remaining = .ok tree rest) :
    g.parse r s = (.ok tree, s.seekLast rest.length) ∧
      (s.seekLast rest.length).remaining = rest := by
  have hparse : g.parseTokens r s.remaining = .ok tree rest :=
    Outcome.eq_ok_of_le (g.parseRule_mono hn r 0 s.remaining) h
  refine ⟨by rw [parse, hparse], ?_⟩
  exact (parseRule_sound _ hparse).remaining_seekLast

end Grammar

/-- Rules that do not lead back to themselves can be ranked. The rank of a rule is
the number of rules it leads to. -/
theorem exists_rank {leadsTo : RuleId → RuleId → Prop}
    (hacyclic : ∀ r, ¬ Relation.TransGen leadsTo r r) {n : Nat}
    (hrange : ∀ r k, leadsTo r k → r < n) :
    ∃ rank : RuleId → Nat, (∀ r, rank r ≤ n) ∧ ∀ r k, leadsTo r k → rank k < rank r := by
  classical
  let reached (r : RuleId) := (Finset.range n).filter (Relation.ReflTransGen leadsTo r)
  refine ⟨fun r => (reached r).card, ?_, ?_⟩
  · intro r
    calc (reached r).card ≤ (Finset.range n).card := Finset.card_filter_le _ _
      _ = n := Finset.card_range n
  · intro r k hrk
    apply Finset.card_lt_card
    refine (Finset.ssubset_iff_of_subset ?_).2 ⟨r, ?_, ?_⟩
    · intro j hj
      obtain ⟨hjn, hkj⟩ := Finset.mem_filter.1 hj
      exact Finset.mem_filter.2 ⟨hjn, hkj.head hrk⟩
    · exact Finset.mem_filter.2 ⟨Finset.mem_range.2 (hrange r k hrk), .refl⟩
    · intro hr
      exact hacyclic r (.head' hrk (Finset.mem_filter.1 hr).2)

end Stencil
