import Stencil.Proofs.Abstraction

/-!
Positions in trees and templates. A position says which child to take, at the root and
further down; nodes begin in the lexicographic order of their positions.

Main statements: the positions of a tree or of a template are listed in this order, each
once, and the subtrees of a tree are what stands at its positions.
-/

namespace Stencil

/-- The positions in some trees that are numbered from `i` on, given the positions in each
of them. -/
def positionsBelow (i : Nat) : List (List (List Nat)) → List (List Nat)
  | [] => []
  | paths :: rest => paths.map (i :: ·) ++ positionsBelow (i + 1) rest

theorem mem_positionsBelow_iff {i : Nat} {each : List (List (List Nat))} {path : List Nat} :
    path ∈ positionsBelow i each ↔
      ∃ j paths tail, each[j]? = some paths ∧ tail ∈ paths ∧ path = (i + j) :: tail := by
  induction each generalizing i with
  | nil => simp [positionsBelow]
  | cons paths rest ih =>
      rw [positionsBelow, List.mem_append, List.mem_map, ih]
      constructor
      · rintro (⟨tail, htail, rfl⟩ | ⟨j, paths', tail, hj, htail, rfl⟩)
        · exact ⟨0, paths, tail, rfl, htail, rfl⟩
        · exact ⟨j + 1, paths', tail, hj, htail, by rw [Nat.add_assoc, Nat.add_comm 1 j]⟩
      · rintro ⟨_ | j, paths', tail, hj, htail, rfl⟩
        · cases hj
          exact .inl ⟨tail, htail, rfl⟩
        · exact .inr ⟨j, paths', tail, hj, htail, by rw [Nat.add_assoc, Nat.add_comm 1 j]⟩

section Nodes

variable {α : Type} {positions : α → List (List Nat)} {cs : List α}

/-- Positions in the children of a node, where `find` gives what stands at a position. -/
theorem cons_mem_positionsBelow_iff {find : α → List Nat → Option α}
    (h : ∀ c ∈ cs, ∀ {path}, path ∈ positions c ↔ ∃ s, find c path = some s) {i : Nat}
    {path : List Nat} :
    i :: path ∈ positionsBelow 0 (cs.map positions) ↔
      ∃ s, cs[i]?.bind (find · path) = some s := by
  simp only [mem_positionsBelow_iff, Nat.zero_add, List.cons.injEq, List.getElem?_map,
    Option.map_eq_some_iff, Option.bind_eq_some_iff]
  constructor
  · rintro ⟨_, _, _, ⟨c, hc, rfl⟩, hpath, rfl, rfl⟩
    obtain ⟨s, hs⟩ := (h c (List.mem_of_getElem? hc)).1 hpath
    exact ⟨s, c, hc, hs⟩
  · rintro ⟨s, c, hc, hs⟩
    exact ⟨i, _, path, ⟨c, hc, rfl⟩, (h c (List.mem_of_getElem? hc)).2 ⟨s, hs⟩, rfl, rfl⟩

/-- The root comes first. Below it, positions in the same child are ordered as in that
child, and those in an earlier child come before. -/
theorem pairwise_cons_positionsBelow (h : ∀ c ∈ cs, (positions c).Pairwise (· < ·)) :
    ([] :: positionsBelow 0 (cs.map positions)).Pairwise (· < ·) := by
  have hbelow (i : Nat) : (positionsBelow i (cs.map positions)).Pairwise (· < ·) := by
    induction cs generalizing i with
    | nil => exact .nil
    | cons c cs ih =>
        obtain ⟨hc, hcs⟩ := List.forall_mem_cons.1 h
        rw [List.map_cons, positionsBelow, List.pairwise_append]
        refine ⟨?_, ih hcs (i + 1), ?_⟩
        · rw [List.pairwise_map]
          exact hc.imp fun hlt => List.cons_lt_cons_iff.2 (.inr ⟨rfl, hlt⟩)
        · intro path hpath path' hpath'
          obtain ⟨tail, _, rfl⟩ := List.mem_map.1 hpath
          obtain ⟨j, _, tail', _, _, rfl⟩ := mem_positionsBelow_iff.1 hpath'
          exact List.cons_lt_cons_iff.2 (.inl (by omega))
  refine List.pairwise_cons.2 ⟨?_, hbelow 0⟩
  intro path hpath
  obtain ⟨j, _, tail, _, _, rfl⟩ := mem_positionsBelow_iff.1 hpath
  exact List.nil_lt_cons _ _

end Nodes

/-! ### Trees -/

namespace Tree

mutual
/-- The positions of a tree, each before those below it. -/
def positions : Tree → List (List Nat)
  | .leaf _ => [[]]
  | .node _ cs => [] :: positionsBelow 0 (positionsEach cs)

def positionsEach : List Tree → List (List (List Nat))
  | [] => []
  | c :: cs => c.positions :: positionsEach cs
end

theorem positions_node (r : RuleId) (cs : List Tree) :
    (node r cs).positions = [] :: positionsBelow 0 (cs.map positions) := by
  have heach : positionsEach cs = cs.map positions := by
    induction cs with
    | nil => rfl
    | cons c cs ih => rw [positionsEach, ih, List.map_cons]
  rw [positions, heach]

theorem at?_cons {t c : Tree} {i : Nat} (h : t.children[i]? = some c) (path : List Nat) :
    t.at? (i :: path) = c.at? path := by
  rw [at?, h, Option.bind_some]

theorem mem_positions_iff {t : Tree} {path : List Nat} :
    path ∈ t.positions ↔ ∃ s, t.at? path = some s := by
  induction t using Tree.inductionOn generalizing path with
  | leaf token => cases path <;> simp [positions, at?, children]
  | node r cs ih =>
      rw [positions_node, List.mem_cons]
      cases path with
      | nil => simp [at?]
      | cons i path =>
          rw [or_iff_right (List.cons_ne_nil i path)]
          exact cons_mem_positionsBelow_iff ih

theorem pairwise_positions (t : Tree) : t.positions.Pairwise (· < ·) := by
  induction t using Tree.inductionOn with
  | leaf token => exact List.pairwise_singleton _ _
  | node r cs ih =>
      rw [positions_node]
      exact pairwise_cons_positionsBelow ih

/-- The subtrees are what stands at the positions. -/
theorem map_at?_positions (t : Tree) : t.positions.map t.at? = t.subtrees.map some := by
  induction t using Tree.inductionOn with
  | leaf token => rfl
  | node r cs ih =>
      have hbelow (front back : List Tree) (hsplit : cs = front ++ back) :
          (positionsBelow front.length (back.map positions)).map (node r cs).at? =
            (back.flatMap subtrees).map some := by
        induction back generalizing front with
        | nil => rfl
        | cons c back ihback =>
            have hc : (node r cs).children[front.length]? = some c := by simp [children, hsplit]
            have hback := ihback (front ++ [c]) (by simp [hsplit])
            rw [List.length_append, List.length_singleton] at hback
            rw [List.map_cons, positionsBelow, List.map_append, List.map_map, hback,
              List.flatMap_cons, List.map_append, ← ih c (by simp [hsplit])]
            congr 1
            exact List.map_congr_left fun path _ => at?_cons hc path
      rw [positions_node, subtrees_node, List.map_cons, List.map_cons]
      exact congrArg _ (hbelow [] cs rfl)

end Tree

/-! ### Templates -/

namespace Template

/-- The part of a template at a position. -/
def at? (p : Template) : List Nat → Option Template
  | [] => some p
  | i :: path => p.children[i]?.bind (·.at? path)

mutual
/-- The positions of a template, each before those below it. -/
def positions : Template → List (List Nat)
  | .node _ ps => [] :: positionsBelow 0 (positionsEach ps)
  | _ => [[]]

def positionsEach : List Template → List (List (List Nat))
  | [] => []
  | p :: ps => p.positions :: positionsEach ps
end

theorem positions_node (r : RuleId) (ps : List Template) :
    (node r ps).positions = [] :: positionsBelow 0 (ps.map positions) := by
  have heach : positionsEach ps = ps.map positions := by
    induction ps with
    | nil => rfl
    | cons p ps ih => rw [positionsEach, ih, List.map_cons]
  rw [positions, heach]

theorem at?_cons {p c : Template} {i : Nat} (h : p.children[i]? = some c) (path : List Nat) :
    p.at? (i :: path) = c.at? path := by
  rw [at?, h, Option.bind_some]

theorem mem_positions_iff {p : Template} {path : List Nat} :
    path ∈ p.positions ↔ ∃ q, p.at? path = some q := by
  induction p using inductionOn generalizing path with
  | ruleHole r tag => cases path <;> simp [positions, at?, children]
  | literal n text => cases path <;> simp [positions, at?, children]
  | tokenHole n tag => cases path <;> simp [positions, at?, children]
  | node r ps ih =>
      rw [positions_node, List.mem_cons]
      cases path with
      | nil => simp [at?]
      | cons i path =>
          rw [or_iff_right (List.cons_ne_nil i path)]
          exact cons_mem_positionsBelow_iff ih

theorem pairwise_positions (p : Template) : p.positions.Pairwise (· < ·) := by
  induction p using inductionOn with
  | ruleHole r tag => exact List.pairwise_singleton _ _
  | literal n text => exact List.pairwise_singleton _ _
  | tokenHole n tag => exact List.pairwise_singleton _ _
  | node r ps ih =>
      rw [positions_node]
      exact pairwise_cons_positionsBelow ih

end Template

end Stencil
