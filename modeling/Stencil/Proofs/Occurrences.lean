import Stencil.Proofs.Frontier
import Stencil.Proofs.Mismatches

/-!
The occurrences of a pattern in a tree. They are told apart by their positions, since
equal subtrees may occur several times.

Main statement: the matches that are found are those of the subtrees of the start rule
that match, in the order of their positions and one for each; for a compiled pattern, no
subtree of another rule would match.
-/

namespace Stencil

namespace Template

/-- A match begins with the root. -/
theorem agreesWith_of_succeeded {p : Template} {t : Tree}
    (h : (p.matchTree t).succeeded = true) : p.AgreesWith t := by
  by_contra hnot
  rw [matchTree_eq, trace_of_not_agreesWith hnot] at h
  cases h

theorem AgreesWith.rule?_eq {p : Template} {t : Tree} {r : RuleId} (h : p.AgreesWith t)
    (hroot : p.rule? = some r) : t.rule? = some r := by
  cases p with
  | node k ps =>
      cases hroot
      exact (agreesWith_node_iff.1 h).1
  | ruleHole k tag =>
      cases hroot
      exact agreesWith_ruleHole_iff.1 h
  | literal n text => cases hroot
  | tokenHole n tag => cases hroot

end Template

namespace Pattern

/-- Whether a tree is of the start rule and matches. -/
def finds (p : Pattern) (s : Tree) : Bool :=
  s.rule? = some p.start && (p.matchTree s).succeeded

theorem findAll_eq (p : Pattern) (t : Tree) :
    p.findAll t = (t.subtrees.filter p.finds).map p.matchTree := by
  rw [findAll, List.filter_map, List.filter_filter]
  congr 2
  funext s
  exact Bool.and_comm _ _

/-- A node is looked at first, and then its children one after the other. -/
theorem findAll_node (p : Pattern) (r : RuleId) (cs : List Tree) :
    p.findAll (.node r cs) =
      (if p.finds (.node r cs) then [p.matchTree (.node r cs)] else []) ++
        cs.flatMap p.findAll := by
  have hbelow : cs.flatMap p.findAll =
      ((cs.flatMap Tree.subtrees).filter p.finds).map p.matchTree := by
    rw [List.filter_flatMap, List.map_flatMap]
    exact List.flatMap_congr fun c _ => p.findAll_eq c
  rw [findAll_eq, Tree.subtrees_node, List.filter_cons, hbelow]
  split <;> rfl

/-- What is found in a subtree is found in one piece in the tree. -/
theorem findAll_infix (p : Pattern) {t s : Tree} {path : List Nat} (h : t.at? path = some s) :
    p.findAll s <:+: p.findAll t := by
  induction path generalizing t with
  | nil =>
      cases h
      exact List.infix_refl _
  | cons i path ih =>
      obtain ⟨c, hc, hs⟩ := Option.bind_eq_some_iff.1 h
      cases t with
      | leaf token => cases hc
      | node r cs =>
          obtain ⟨front, back, rfl⟩ := List.append_of_mem (List.mem_of_getElem? hc)
          refine (ih hs).trans ?_
          rw [findAll_node, List.flatMap_append, List.flatMap_cons, ← List.append_assoc,
            ← List.append_assoc]
          exact ⟨_, _, rfl⟩

/-- The matches that are found in a tree are those of the wanted subtrees, in the order of
their positions and one for each. -/
def ListsMatches (p : Pattern) (t : Tree) (wanted : Tree → Prop) : Prop :=
  ∃ paths : List (List Nat), paths.Pairwise (· < ·) ∧
    (∀ path, path ∈ paths ↔ ∃ s, t.at? path = some s ∧ wanted s) ∧
    paths.map (fun path => (t.at? path).map p.matchTree) = (p.findAll t).map some

theorem listsMatches_finds (p : Pattern) (t : Tree) : p.ListsMatches t (p.finds · = true) := by
  refine ⟨t.positions.filter fun path => (t.at? path).any p.finds,
    t.pairwise_positions.filter _, ?_, ?_⟩
  · intro path
    rw [List.mem_filter, Tree.mem_positions_iff, Option.any_eq_true]
    constructor
    · rintro ⟨_, s, hs, hfinds⟩
      exact ⟨s, hs, hfinds⟩
    · rintro ⟨s, hs, hfinds⟩
      exact ⟨⟨s, hs⟩, s, hs, hfinds⟩
  · -- filtering the positions is filtering what stands there
    have hfilter : (t.positions.filter fun path => (t.at? path).any p.finds).map t.at? =
        (t.subtrees.filter p.finds).map some := by
      calc (t.positions.filter fun path => (t.at? path).any p.finds).map t.at?
          = (t.positions.map t.at?).filter (Option.any p.finds) := by
            rw [List.filter_map]
            rfl
        _ = (t.subtrees.map some).filter (Option.any p.finds) := by rw [t.map_at?_positions]
        _ = (t.subtrees.filter p.finds).map some := List.filter_map
    calc (t.positions.filter fun path => (t.at? path).any p.finds).map
          (fun path => (t.at? path).map p.matchTree)
        = ((t.subtrees.filter p.finds).map some).map (Option.map p.matchTree) := by
          rw [← hfilter, List.map_map]
          rfl
      _ = (p.findAll t).map some := by
          rw [findAll_eq, List.map_map, List.map_map]
          rfl

theorem ListsMatches.congr {p : Pattern} {t : Tree} {wanted wanted' : Tree → Prop}
    (h : p.ListsMatches t wanted) (hiff : ∀ s, wanted s ↔ wanted' s) :
    p.ListsMatches t wanted' := by
  obtain rfl : wanted = wanted' := funext fun s => propext (hiff s)
  exact h

theorem start_of_compile {L : Language} {d : Delimiters} {text : String} {start : RuleId}
    {p : Pattern} (h : compile L d text start = .ok p) : p.start = start := by
  rw [compile] at h
  cases htemplate : compileTemplate L d text start with
  | error e =>
      rw [htemplate] at h
      cases h
  | ok template =>
      rw [htemplate] at h
      cases h
      rfl

/-- What a compiled pattern matches is of its start rule. -/
theorem rule?_of_succeeded {g : Grammar} {d : Delimiters} {text : String} {start : RuleId}
    {p : Pattern} (h : compile g.language d text start = .ok p) {s : Tree}
    (hmatch : (p.matchTree s).succeeded = true) : s.rule? = some p.start := by
  obtain ⟨_, _, _, hroot, _, htemplate⟩ := Grammar.exists_tree_of_compile h
  rw [start_of_compile h]
  exact (Template.agreesWith_of_succeeded hmatch).rule?_eq
    ((Template.rule?_of_ofTree htemplate).trans hroot)

/-- Finding all matches is exact: nothing is lost, invented or listed twice. -/
theorem findAll_exact :
    (∀ (p : Pattern) (t : Tree),
      p.ListsMatches t fun s => s.rule? = some p.start ∧ (p.matchTree s).succeeded = true) ∧
    (∀ (p : Pattern) (t s : Tree) (path : List Nat), t.at? path = some s →
      p.findAll s <:+: p.findAll t) ∧
    ∀ (g : Grammar) (d : Delimiters) (text : String) (start : RuleId) (p : Pattern),
      compile g.language d text start = .ok p → ∀ t,
        p.ListsMatches t fun s => (p.matchTree s).succeeded = true := by
  have hexact (p : Pattern) (t : Tree) :
      p.ListsMatches t fun s => s.rule? = some p.start ∧ (p.matchTree s).succeeded = true :=
    (p.listsMatches_finds t).congr fun s => by simp [finds]
  refine ⟨hexact, fun p t s path h => p.findAll_infix h, ?_⟩
  intro g d text start p hcompile t
  refine (hexact p t).congr fun s => ?_
  exact and_iff_right_of_imp (rule?_of_succeeded hcompile)

/-- The pattern `<sum>+<x:sum>`. -/
def sumOfTwo : Pattern where
  text := "<sum>+<x:sum>"
  start := 0
  template :=
    .node 0 [.ruleHole 0 ⟨"sum", none⟩, .literal 1 "+", .ruleHole 0 ⟨"sum", some "x"⟩]

def oneTree : Tree := .node 0 [.leaf (.word 2 "1")]

def twoTree : Tree := .node 0 [oneTree, .leaf (.word 1 "+"), oneTree]

/-- The tree of `1+1+1`: a sum whose first operand is a sum. -/
def threeTree : Tree := .node 0 [twoTree, .leaf (.word 1 "+"), oneTree]

theorem findAll_exact_sums :
    compile Grammar.sumGrammar.language .standard "<sum>+<x:sum>" 0 = .ok sumOfTwo ∧
      threeTree.at? [0] = some twoTree ∧
      sumOfTwo.findAll twoTree <:+: sumOfTwo.findAll threeTree ∧
      sumOfTwo.ListsMatches threeTree (fun s => (sumOfTwo.matchTree s).succeeded = true) ∧
      (sumOfTwo.findAll threeTree).map Match.subject = [threeTree, twoTree] := by
  have hcompile : compile Grammar.sumGrammar.language .standard "<sum>+<x:sum>" 0 =
      .ok sumOfTwo := by decide +kernel
  obtain ⟨_, hinfix, hcompiled⟩ := findAll_exact
  exact ⟨hcompile, rfl, hinfix sumOfTwo threeTree twoTree [0] rfl,
    hcompiled _ _ _ _ _ hcompile threeTree, rfl⟩

end Pattern

end Stencil
