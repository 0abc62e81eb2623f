import Stencil.Proofs.Capturing
import Stencil.Proofs.Positions

/-!
Where a match fails. Every part of a template asks something of the subtree at its
position, of the subtree itself and of the number of its children only. A match asks this
at one position after the other, and stops where the answer is no.

Main statement: the mismatch is what stands at the first position whose part disagrees,
and the labels are a record of the holes before it.
-/

namespace Stencil

namespace Template

/-- What a template asks of a tree, except of the children. -/
def AgreesWith : Template → Tree → Prop
  | .node r ps, .node k ts => k = r ∧ ts.length = ps.length
  | .ruleHole r _, .node k _ => k = r
  | .literal n text, .leaf token => token.kind = .type n ∧ token.text = text
  | .tokenHole n _, .leaf token => token.kind = .type n
  | _, _ => False

/-- There is a part of the template and a subtree at the position, and they agree. -/
def AgreesAt (p : Template) (t : Tree) (path : List Nat) : Prop :=
  ∃ q s, p.at? path = some q ∧ t.at? path = some s ∧ q.AgreesWith s

/-- The hole at a position with the subtree there, if the position has a hole. -/
def capturedAt (p : Template) (t : Tree) (path : List Nat) : List (Tag × Tree) :=
  match (p.at? path).bind tag?, t.at? path with
  | some tag, some s => [(tag, s)]
  | _, _ => []

variable {p q : Template} {t s : Tree} {path : List Nat} {paths : List (List Nat)}
  {bad : Option Tree} {caught : List (Tag × Tree)}

theorem capturedAt_eq (hq : p.at? path = some q) (hs : t.at? path = some s) :
    p.capturedAt t path = (q.tag?.map (·, s)).toList := by
  rw [capturedAt, hq, hs, Option.bind_some]
  cases q.tag? <;> rfl

/-! ### One part -/

theorem agreesWith_node_iff {r : RuleId} {ps : List Template} :
    (node r ps).AgreesWith t ↔ t.rule? = some r ∧ t.children.length = ps.length := by
  cases t <;> simp [AgreesWith, Tree.rule?, Tree.children]

theorem agreesWith_ruleHole_iff {r : RuleId} {tag : Tag} :
    (ruleHole r tag).AgreesWith t ↔ t.rule? = some r := by
  cases t <;> simp [AgreesWith, Tree.rule?]

theorem agreesWith_literal_iff {n : TokenType} {text : String} :
    (literal n text).AgreesWith t ↔
      t.isLeaf ∧ t.type? = some n ∧ t.token?.map Token.text = some text := by
  cases t with
  | node r ts => simp [AgreesWith, Tree.isLeaf, Tree.rule?]
  | leaf token =>
      have htype : (Tree.leaf token).type? = some n ↔ token.kind = .type n := by
        cases hkind : token.kind <;> simp [Tree.type?, Tree.token?, Token.type?, hkind]
      simp [AgreesWith, Tree.isLeaf, Tree.rule?, Tree.token?, htype]

theorem agreesWith_tokenHole_iff {n : TokenType} {tag : Tag} :
    (tokenHole n tag).AgreesWith t ↔ t.isLeaf ∧ t.type? = some n := by
  cases t with
  | node r ts => simp [AgreesWith, Tree.isLeaf, Tree.rule?]
  | leaf token =>
      cases hkind : token.kind <;>
        simp [AgreesWith, Tree.isLeaf, Tree.rule?, Tree.type?, Tree.token?, Token.type?, hkind]

theorem trace_of_not_agreesWith (h : ¬ p.AgreesWith t) : p.trace t = (some t, []) := by
  cases p with
  | node r ps => rw [trace, if_neg (mt agreesWith_node_iff.2 h)]
  | ruleHole r tag => rw [trace, if_neg (mt agreesWith_ruleHole_iff.2 h)]
  | literal n text => rw [trace, if_neg (mt agreesWith_literal_iff.2 h)]
  | tokenHole n tag => rw [trace, if_neg (mt agreesWith_tokenHole_iff.2 h)]

/-! ### One position after the other -/

/-- The positions in a list are looked at in order, up to the first where the template
and the tree disagree: what stands there, if there is such a position, and what is
captured before it. -/
inductive Checks (p : Template) (t : Tree) :
    List (List Nat) → Option Tree × List (Tag × Tree) → Prop
  | done : Checks p t [] (none, [])
  | stop {path : List Nat} {rest : List (List Nat)} {q : Template} {s : Tree}
      (hq : p.at? path = some q) (hs : t.at? path = some s) (h : ¬ q.AgreesWith s) :
      Checks p t (path :: rest) (some s, [])
  | pass {path : List Nat} {rest : List (List Nat)} {bad : Option Tree}
      {caught : List (Tag × Tree)} (h : p.AgreesAt t path) (hrest : Checks p t rest (bad, caught)) :
      Checks p t (path :: rest) (bad, p.capturedAt t path ++ caught)

namespace Checks

theorem append {paths' : List (List Nat)} {caught' : List (Tag × Tree)}
    (h : p.Checks t paths (none, caught)) (h' : p.Checks t paths' (bad, caught')) :
    p.Checks t (paths ++ paths') (bad, caught ++ caught') := by
  generalize hout : (none, caught) = out at h
  induction h generalizing caught with
  | done =>
      cases hout
      exact h'
  | stop hq hs h => cases hout
  | pass h _ ih =>
      cases hout
      rw [List.append_assoc]
      exact .pass h (ih rfl)

theorem append_right (h : p.Checks t paths (some s, caught)) (paths' : List (List Nat)) :
    p.Checks t (paths ++ paths') (some s, caught) := by
  generalize hout : (some s, caught) = out at h
  induction h generalizing caught with
  | done => cases hout
  | stop hq hs h =>
      cases hout
      exact .stop hq hs h
  | pass h _ ih =>
      cases hout
      exact .pass h (ih rfl)

/-- What is found in a child is found below the node. -/
theorem below_node {i : Nat} (hq : p.children[i]? = some q) (hs : t.children[i]? = some s)
    {out : Option Tree × List (Tag × Tree)} (h : q.Checks s paths out) :
    p.Checks t (paths.map (i :: ·)) out := by
  induction h with
  | done => exact .done
  | stop hq' hs' h => exact .stop ((at?_cons hq _).trans hq') ((Tree.at?_cons hs _).trans hs') h
  | @pass path rest bad caught h _ ih =>
      have hcaptured : q.capturedAt s path = p.capturedAt t (i :: path) := by
        rw [capturedAt, capturedAt, at?_cons hq, Tree.at?_cons hs]
      obtain ⟨q', s', hq', hs', hagrees⟩ := h
      rw [hcaptured]
      exact .pass ⟨q', s', (at?_cons hq _).trans hq', (Tree.at?_cons hs _).trans hs', hagrees⟩ ih

/-- Otherwise there is agreement up to a position, and none there. -/
theorem exists_first (h : p.Checks t paths (some s, caught)) :
    ∃ before path after q, paths = before ++ path :: after ∧
      (∀ path' ∈ before, p.AgreesAt t path') ∧ p.at? path = some q ∧ t.at? path = some s ∧
      ¬ q.AgreesWith s ∧ caught = before.flatMap (p.capturedAt t) := by
  generalize hout : (some s, caught) = out at h
  induction h generalizing caught with
  | done => cases hout
  | @stop path rest q _ hq hs h =>
      cases hout
      exact ⟨[], path, rest, q, rfl, by simp, hq, hs, h, rfl⟩
  | @pass path _ _ _ h _ ih =>
      cases hout
      obtain ⟨before, path', after, q, rfl, hbefore, hq, hs, hnot, rfl⟩ := ih rfl
      exact ⟨path :: before, path', after, q, rfl, List.forall_mem_cons.2 ⟨h, hbefore⟩, hq, hs,
        hnot, rfl⟩

end Checks

/-! ### The whole template -/

/-- The children of a node, from number `front.length` on. -/
theorem checks_positionsBelow {r k : RuleId} {ps : List Template} {ts : List Tree}
    (ih : ∀ p ∈ ps, ∀ t, p.Checks t p.positions (p.trace t))
    {front back : List Template} {frontTrees backTrees : List Tree}
    (hps : ps = front ++ back) (hts : ts = frontTrees ++ backTrees)
    (hfront : frontTrees.length = front.length) (hback : backTrees.length = back.length) :
    (node r ps).Checks (.node k ts) (positionsBelow front.length (back.map positions))
      (traceList back backTrees) := by
  induction back generalizing front frontTrees backTrees with
  | nil => exact .done
  | cons p back ihback =>
      obtain ⟨t, backTrees, rfl⟩ := List.exists_cons_of_length_eq_add_one hback
      have hp : (node r ps).children[front.length]? = some p := by simp [children, hps]
      have ht : (Tree.node k ts).children[front.length]? = some t := by
        simp [Tree.children, hts, ← hfront]
      have hfirst := (ih p (by simp [hps]) t).below_node hp ht
      have hps' : ps = (front ++ [p]) ++ back := by simp [hps]
      have hts' : ts = (frontTrees ++ [t]) ++ backTrees := by simp [hts]
      have hrest := ihback hps' hts' (by simp [hfront]) (Nat.succ.inj hback)
      rw [List.length_append, List.length_singleton] at hrest
      rw [List.map_cons, positionsBelow]
      rcases htrace : p.trace t with ⟨_ | bad, caught⟩
      · rw [traceList_cons_of_none htrace]
        exact (htrace ▸ hfirst).append hrest
      · rw [traceList, htrace]
        exact (htrace ▸ hfirst).append_right _

/-- A template without children has one position. -/
theorem checks_root (hpositions : p.positions = [[]])
    (htrace : p.AgreesWith t → p.trace t = (none, (p.tag?.map (·, t)).toList)) :
    p.Checks t p.positions (p.trace t) := by
  rw [hpositions]
  by_cases h : p.AgreesWith t
  · have hcaptured : p.capturedAt t [] = (p.tag?.map (·, t)).toList := capturedAt_eq rfl rfl
    rw [htrace h, ← hcaptured, ← List.append_nil (p.capturedAt t [])]
    exact .pass ⟨p, t, rfl, rfl, h⟩ .done
  · rw [trace_of_not_agreesWith h]
    exact .stop rfl rfl h

/-- A match looks at all positions of the template in order. -/
theorem checks_positions (p : Template) (t : Tree) : p.Checks t p.positions (p.trace t) := by
  induction p using inductionOn generalizing t with
  | node r ps ih =>
      rw [positions_node]
      by_cases h : (node r ps).AgreesWith t
      · obtain ⟨hroot, hlength⟩ := agreesWith_node_iff.1 h
        cases t with
        | leaf token => cases hroot
        | node k ts =>
            have hbelow : (node r ps).Checks (.node k ts) (positionsBelow 0 (ps.map positions))
                (traceList ps ts) :=
              checks_positionsBelow ih ps.nil_append.symm ts.nil_append.symm rfl hlength
            rw [trace, if_pos ⟨hroot, hlength⟩]
            exact .pass ⟨_, _, rfl, rfl, h⟩ hbelow
      · rw [trace_of_not_agreesWith h]
        exact .stop rfl rfl h
  | ruleHole r tag =>
      exact checks_root rfl fun h => by rw [trace, if_pos (agreesWith_ruleHole_iff.1 h)]; rfl
  | literal n text =>
      exact checks_root rfl fun h => by rw [trace, if_pos (agreesWith_literal_iff.1 h)]; rfl
  | tokenHole n tag =>
      exact checks_root rfl fun h => by rw [trace, if_pos (agreesWith_tokenHole_iff.1 h)]; rfl

end Template

end Stencil
