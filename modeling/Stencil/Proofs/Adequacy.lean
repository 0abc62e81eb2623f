import Mathlib.Data.Finset.Card
import Mathlib.Data.List.Infix
import Mathlib.Data.List.ProdSigma
import Stencil.Proofs.Depth

/-!
Enough depth of calls. On the way through some tokens only so many calls can be made:
each enters a rule in one of its ways, on the last of the tokens. The calls that return
within a depth grow with the depth, and once they no longer grow they never do again.
So a parse that returns at any depth returns within the depth it is given.
-/

namespace Stencil

namespace Outcome

def returns {α : Type} : Outcome α → Bool
  | .endless => false
  | .ok _ _ => true
  | .fail _ _ => true

theorem returns_iff {α : Type} {o : Outcome α} : o.returns = true ↔ o ≠ .endless := by
  cases o <;> simp [returns]

end Outcome

namespace Grammar

variable {g : Grammar} {r : RuleId} {minPrec m n : Nat} {ts : List Token}

/-! ### The calls on the way through some tokens -/

/-- The ways in which the rules of a grammar are entered. -/
def entryList (g : Grammar) : List (RuleId × Nat) :=
  g.rules.zipIdx.flatMap fun (rule, r) =>
    (0 :: List.range' 2 rule.operators.length).map (r, ·)

theorem mem_entryList_iff :
    (r, minPrec) ∈ g.entryList ↔ r < g.rules.length ∧ g.Enters r minPrec := by
  have hmem : (r, minPrec) ∈ g.entryList ↔ ∃ rule, g.rules[r]? = some rule ∧
      (minPrec = 0 ∨ 2 ≤ minPrec ∧ minPrec ≤ rule.operators.length + 1) := by
    simp only [entryList, List.mem_flatMap, Prod.exists, List.mem_zipIdx_iff_getElem?,
      List.map_cons, List.mem_cons, List.mem_map, Prod.mk.injEq, List.mem_range'_1]
    constructor
    · rintro ⟨rule, k, hrule, ⟨rfl, rfl⟩ | ⟨p, hp, rfl, rfl⟩⟩
      · exact ⟨rule, hrule, .inl rfl⟩
      · exact ⟨rule, hrule, .inr ⟨by omega, by omega⟩⟩
    · rintro ⟨rule, hrule, rfl | ⟨hlow, hhigh⟩⟩
      · exact ⟨rule, r, hrule, .inl ⟨rfl, rfl⟩⟩
      · exact ⟨rule, r, hrule, .inr ⟨minPrec, ⟨hlow, by omega⟩, rfl, rfl⟩⟩
  rw [hmem]
  constructor
  · rintro ⟨rule, hrule, hp⟩
    exact ⟨(List.getElem?_eq_some_iff.1 hrule).1, hp.imp_right fun h => ⟨rule, hrule, h⟩⟩
  · rintro ⟨hr, hzero | ⟨rule, hrule, hp⟩⟩
    · exact ⟨g.rules[r], List.getElem?_eq_getElem hr, .inl hzero⟩
    · exact ⟨rule, hrule, .inr hp⟩

theorem length_entryList (g : Grammar) : g.entryList.length = g.entries := by
  have hfold (rules : List Rule) (n k : Nat) :
      rules.foldl (fun n rule => n + rule.operators.length + 1) n =
        n + ((rules.zipIdx k).flatMap fun (rule, r) =>
          (0 :: List.range' 2 rule.operators.length).map (r, ·)).length := by
    induction rules generalizing n k with
    | nil => simp
    | cons rule rules ih =>
        rw [List.foldl_cons, ih _ (k + 1), List.zipIdx_cons, List.flatMap_cons,
          List.length_append, List.length_map, List.length_cons, List.length_range']
        omega
  simpa [entries, entryList] using (hfold g.rules 0 0).symm

/-- The calls that can be made on the way through some tokens. -/
def calls (g : Grammar) (ts : List Token) : Finset ((RuleId × Nat) × List Token) :=
  (g.entryList ×ˢ ts.tails).toFinset

theorem mem_calls_iff {mid : List Token} :
    ((r, minPrec), mid) ∈ g.calls ts ↔
      (r < g.rules.length ∧ g.Enters r minPrec) ∧ mid <:+ ts := by
  rw [calls, List.mem_toFinset, List.mem_product, mem_entryList_iff, List.mem_tails]

theorem card_calls_le (g : Grammar) (ts : List Token) :
    (g.calls ts).card ≤ g.entries * (ts.length + 1) := by
  calc (g.calls ts).card ≤ (g.entryList ×ˢ ts.tails).length := List.toFinset_card_le _
    _ = g.entries * (ts.length + 1) := by
      rw [List.length_product, length_entryList, List.length_tails]

/-! ### The calls that return -/

/-- The calls that return within a depth. -/
def returned (g : Grammar) (ts : List Token) (n : Nat) : Finset ((RuleId × Nat) × List Token) :=
  (g.calls ts).filter fun c => (g.parseRule n c.1.1 c.1.2 c.2).returns

theorem mem_returned_iff {c : (RuleId × Nat) × List Token} :
    c ∈ g.returned ts n ↔ c ∈ g.calls ts ∧ g.parseRule n c.1.1 c.1.2 c.2 ≠ .endless := by
  rw [returned, Finset.mem_filter, Outcome.returns_iff]

theorem returned_subset_of_belowOn (h : g.BelowOn ts (g.parseRule m) (g.parseRule n)) :
    g.returned ts m ⊆ g.returned ts n := by
  intro c hc
  obtain ⟨hcall, hreturns⟩ := mem_returned_iff.1 hc
  obtain ⟨⟨_, henters⟩, hsuffix⟩ := mem_calls_iff.1 hcall
  refine mem_returned_iff.2 ⟨hcall, ?_⟩
  rwa [Outcome.eq_of_le (h henters hsuffix) hreturns]

theorem returned_mono : Monotone (g.returned ts) :=
  fun _ _ hmn => returned_subset_of_belowOn (belowOn_parseRule hmn)

/-- A rule that does not exist is not among the calls; it fails at once. -/
theorem belowOn_of_returned_subset (hnm : n ≤ m)
    (h : g.returned ts (m + 1) ⊆ g.returned ts (n + 1)) :
    g.BelowOn ts (g.parseRule (m + 1)) (g.parseRule (n + 1)) := by
  intro k p mid henters hsuffix
  by_cases hk : k < g.rules.length
  · by_cases hreturns : g.parseRule (m + 1) k p mid = .endless
    · rw [hreturns]
      exact Outcome.endless_le _
    · have hcall : ((k, p), mid) ∈ g.calls ts := mem_calls_iff.2 ⟨⟨hk, henters⟩, hsuffix⟩
      obtain ⟨_, hearlier⟩ := mem_returned_iff.1 (h (mem_returned_iff.2 ⟨hcall, hreturns⟩))
      have hle := g.parseRule_mono (Nat.succ_le_succ hnm) k p mid
      rw [Outcome.eq_of_le hle hearlier]
  · have hnone : g.rules[k]? = none := by simpa using hk
    rw [parseRule, parseRule, hnone]

/-- If nothing new returns with one more call, nothing new ever does. -/
theorem returned_stable (h : g.returned ts (n + 2) ⊆ g.returned ts (n + 1)) :
    g.returned ts (n + 3) ⊆ g.returned ts (n + 2) := by
  have hbelow := belowOn_of_returned_subset (Nat.le_succ n) h
  refine returned_subset_of_belowOn ?_
  intro k p mid _ hsuffix
  exact parseRule_succ_le (hbelow.of_suffix hsuffix)

theorem card_returned_stable
    (h : (g.returned ts (n + 1)).card = (g.returned ts (n + 2)).card) :
    (g.returned ts (n + 2)).card = (g.returned ts (n + 3)).card := by
  have heq : g.returned ts (n + 1) = g.returned ts (n + 2) :=
    Finset.eq_of_subset_of_card_le (returned_mono (Nat.le_succ _)) h.ge
  exact Nat.le_antisymm (Finset.card_le_card (returned_mono (Nat.le_succ _)))
    (Finset.card_le_card (returned_stable heq.ge))

/-- From a depth as large as the number of calls on, no further call returns. -/
theorem returned_eq_of_le (hn : g.entries * (ts.length + 1) ≤ n) :
    g.returned ts (n + 1) = g.returned ts (g.entries * (ts.length + 1) + 1) := by
  have hcard : (g.returned ts (n + 1)).card =
      (g.returned ts (g.entries * (ts.length + 1) + 1)).card := by
    refine Nat.stabilises_of_monotone (f := fun m => (g.returned ts (m + 1)).card) ?_ ?_ ?_ hn
    · intro m m' hm
      exact Finset.card_le_card (returned_mono (Nat.succ_le_succ hm))
    · intro m
      exact (Finset.card_le_card (Finset.filter_subset _ _)).trans (g.card_calls_le ts)
    · intro m
      exact card_returned_stable
  exact (Finset.eq_of_subset_of_card_le (returned_mono (Nat.succ_le_succ hn)) hcard.le).symm

/-- A parse that returns at some depth returns the same within the depth it is given. -/
theorem parseTokens_of_parseRule (h : g.parseRule n r 0 ts ≠ .endless) :
    g.parseTokens r ts = g.parseRule n r 0 ts := by
  have hbelow : g.BelowOn ts (g.parseRule n)
      (g.parseRule (g.entries * (ts.length + 1) + 1)) := by
    intro k p mid henters hsuffix
    calc g.parseRule n k p mid
        ≤ g.parseRule (g.entries * (ts.length + 1) + n + 1) k p mid :=
          g.parseRule_mono (by omega) k p mid
      _ ≤ g.parseRule (g.entries * (ts.length + 1) + 1) k p mid :=
          belowOn_of_returned_subset (Nat.le_add_right _ _)
            (returned_eq_of_le (Nat.le_add_right _ _)).le henters hsuffix
  have hdepth : g.entries * (ts.length + 1) + 1 ≤ (g.entries + 1) * (ts.length + 1) := by
    rw [Nat.add_mul]
    omega
  exact Outcome.eq_of_le ((hbelow (.inl rfl) (List.suffix_refl ts)).trans
    (g.parseRule_mono hdepth r 0 ts)) h

end Grammar

end Stencil
