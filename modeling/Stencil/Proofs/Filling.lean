import Stencil.Proofs.Derivation

/-!
Filling the holes of a template. A list of trees fills the holes of a template
in order, from left to right; matching finds that list again.

Main statement: a tree matches a template exactly if it is the template with its
holes filled, and the labels of the match are a record of what fills them.
-/

namespace Stencil

/-! ### Recording -/

/-- Records some trees one after the other, each under its label. -/
def Labels.recordAll (ls : Labels) (log : List (String × Tree)) : Labels :=
  log.foldl (fun ls entry => ls.record entry.1 entry.2) ls

theorem Labels.recordAll_append (ls : Labels) (log log' : List (String × Tree)) :
    ls.recordAll (log ++ log') = (ls.recordAll log).recordAll log' :=
  List.foldl_append

/-- What is recorded for a captured tree: the name of the tag first, and then its
label. -/
def Tag.log (tag : Tag) (tree : Tree) : List (String × Tree) :=
  (tag.name, tree) :: (tag.label.map (·, tree)).toList

theorem Labels.capture_eq_recordAll (ls : Labels) (tag : Tag) (tree : Tree) :
    ls.capture tag tree = ls.recordAll (tag.log tree) := by
  cases h : tag.label <;> simp [Labels.capture, Labels.recordAll, Tag.log, h]

namespace Template

/-- Induction over templates, with a hypothesis for every child of a node. -/
@[elab_as_elim]
theorem inductionOn {motive : Template → Prop}
    (node : ∀ r ps, (∀ p ∈ ps, motive p) → motive (.node r ps))
    (ruleHole : ∀ r tag, motive (.ruleHole r tag))
    (literal : ∀ n text, motive (.literal n text))
    (tokenHole : ∀ n tag, motive (.tokenHole n tag)) : (p : Template) → motive p
  | .node r ps => node r ps fun p _ => inductionOn node ruleHole literal tokenHole p
  | .ruleHole r tag => ruleHole r tag
  | .literal n text => literal n text
  | .tokenHole n tag => tokenHole n tag

/-! ### Holes and their filling -/

mutual
/-- The holes from left to right: what may stand in each of them, and its tag. -/
def holes : Template → List (Symbol × Tag)
  | .node _ ps => holesList ps
  | .ruleHole r tag => [(.rule r, tag)]
  | .literal _ _ => []
  | .tokenHole n tag => [(.token n, tag)]

def holesList : List Template → List (Symbol × Tag)
  | [] => []
  | p :: ps => p.holes ++ holesList ps
end

/-- There is one tree for each hole, and it may stand there: a node of the rule of
a rule hole, a leaf of the type of a token hole. -/
def Fills (trees : List Tree) (holes : List (Symbol × Tag)) : Prop :=
  List.Forall₂ (fun tree hole => hole.1.Fits tree) trees holes

mutual
/-- Puts trees into the holes from left to right. A literal becomes a leaf of its
type and text. -/
def plug : Template → List Tree → Tree
  | .node r ps, s => .node r (plugList ps s)
  | .ruleHole r _, s => s.headD (.node r [])
  | .literal n text, _ => .leaf (.word n text)
  | .tokenHole n _, s => s.headD (.leaf (.word n ""))

def plugList : List Template → List Tree → List Tree
  | [], _ => []
  | p :: ps, s => p.plug (s.take p.holes.length) :: plugList ps (s.drop p.holes.length)
end

mutual
/-- The two trees are equal, except that leaves where the template has a literal
may differ in being hidden and in their tags. -/
def Like : Template → Tree → Tree → Prop
  | .literal _ _, .leaf a, .leaf b => a.kind = b.kind ∧ a.text = b.text
  | .node _ ps, .node r ts, .node k us => r = k ∧ LikeList ps ts us
  | _, t, u => t = u

def LikeList : List Template → List Tree → List Tree → Prop
  | p :: ps, t :: ts, u :: us => Like p t u ∧ LikeList ps ts us
  | _, ts, us => ts = us
end

/-- What is recorded when some trees fill the holes. -/
def log (holes : List (Symbol × Tag)) (trees : List Tree) : List (String × Tree) :=
  (List.zipWith (fun hole tree => hole.2.log tree) holes trees).flatten

mutual
/-- The subtrees that stand where the template has holes. -/
def captures : Template → Tree → List Tree
  | .node _ ps, t => capturesList ps t.children
  | .ruleHole _ _, t => [t]
  | .literal _ _, _ => []
  | .tokenHole _ _, t => [t]

def capturesList : List Template → List Tree → List Tree
  | p :: ps, t :: ts => p.captures t ++ capturesList ps ts
  | _, _ => []
end

section Steps

variable (p : Template) (ps : List Template)

theorem holesList_cons : holesList (p :: ps) = p.holes ++ holesList ps :=
  rfl

theorem plugList_nil (s : List Tree) : plugList [] s = [] :=
  rfl

theorem plugList_cons (s : List Tree) :
    plugList (p :: ps) s =
      p.plug (s.take p.holes.length) :: plugList ps (s.drop p.holes.length) :=
  rfl

theorem capturesList_cons (t : Tree) (ts : List Tree) :
    capturesList (p :: ps) (t :: ts) = p.captures t ++ capturesList ps ts :=
  rfl

end Steps

theorem Fills.append_iff {s : List Tree} {hs hs' : List (Symbol × Tag)} :
    Fills s (hs ++ hs') ↔ ∃ s₁ s₂, s = s₁ ++ s₂ ∧ Fills s₁ hs ∧ Fills s₂ hs' := by
  constructor
  · intro h
    exact ⟨s.take hs.length, s.drop hs.length, (List.take_append_drop _ _).symm,
      List.forall₂_take_append s hs hs' h, List.forall₂_drop_append s hs hs' h⟩
  · rintro ⟨s₁, s₂, rfl, h₁, h₂⟩
    exact List.rel_append h₁ h₂

theorem Fills.singleton_iff {s : List Tree} {symbol : Symbol} {tag : Tag} :
    Fills s [(symbol, tag)] ↔ ∃ t, s = [t] ∧ symbol.Fits t := by
  simp [Fills, List.forall₂_cons_right_iff, and_comm]

theorem plugList_cons_append {p : Template} {ps : List Template} {s₁ s₂ : List Tree}
    (h : Fills s₁ p.holes) : plugList (p :: ps) (s₁ ++ s₂) = p.plug s₁ :: plugList ps s₂ := by
  rw [plugList_cons, ← h.length_eq, List.take_left, List.drop_left]

theorem log_append {hs hs' : List (Symbol × Tag)} {s₁ s₂ : List Tree} (h : Fills s₁ hs) :
    log (hs ++ hs') (s₁ ++ s₂) = log hs s₁ ++ log hs' s₂ := by
  rw [log, List.zipWith_append h.length_eq.symm, List.flatten_append, log, log]

@[simp] theorem like_literal_iff {n : TokenType} {text : String} {t : Tree} {b : Token} :
    (literal n text).Like t (.leaf b) ↔ ∃ a, t = .leaf a ∧ a.kind = b.kind ∧ a.text = b.text := by
  cases t with
  | leaf a =>
      show a.kind = b.kind ∧ a.text = b.text ↔ _
      simp
  | node r ts =>
      show Tree.node r ts = .leaf b ↔ _
      simp

@[simp] theorem like_ruleHole_iff {r : RuleId} {tag : Tag} {t u : Tree} :
    (ruleHole r tag).Like t u ↔ t = u :=
  Iff.rfl

@[simp] theorem like_tokenHole_iff {n : TokenType} {tag : Tag} {t u : Tree} :
    (tokenHole n tag).Like t u ↔ t = u :=
  Iff.rfl

@[simp] theorem like_node_iff {r k : RuleId} {ps : List Template} {t : Tree} {us : List Tree} :
    (node r ps).Like t (.node k us) ↔ ∃ ts, t = .node k ts ∧ LikeList ps ts us := by
  cases t with
  | leaf a =>
      show Tree.leaf a = .node k us ↔ _
      simp
  | node k' ts =>
      show k' = k ∧ LikeList ps ts us ↔ _
      simp

@[simp] theorem likeList_nil_iff {ts us : List Tree} : LikeList [] ts us ↔ ts = us :=
  Iff.rfl

@[simp] theorem likeList_cons_iff {p : Template} {ps : List Template} {ts us : List Tree}
    {u : Tree} :
    LikeList (p :: ps) ts (u :: us) ↔ ∃ t ts', ts = t :: ts' ∧ p.Like t u ∧ LikeList ps ts' us := by
  cases ts with
  | nil =>
      show ([] : List Tree) = u :: us ↔ _
      simp
  | cons t ts =>
      show p.Like t u ∧ LikeList ps ts us ↔ _
      simp

/-! ### Matching -/

theorem type?_leaf {a : Token} {n : TokenType} (h : a.kind = .type n) :
    (Tree.leaf a).type? = some n := by
  simp [Tree.type?, Tree.token?, Token.type?, h]

theorem exists_leaf_of_type? {t : Tree} {n : TokenType} (h : t.type? = some n) :
    ∃ a, t = .leaf a ∧ a.kind = .type n := by
  cases t with
  | node r cs => cases h
  | leaf a =>
      refine ⟨a, rfl, ?_⟩
      cases hkind : a.kind with
      | type m => simpa [Tree.type?, Tree.token?, Token.type?, hkind] using h
      | rule k => simp [Tree.type?, Tree.token?, Token.type?, hkind] at h

theorem walkList_cons {p : Template} {ps : List Template} {t : Tree} {ts : List Tree}
    {ls ls' : Labels} (h : p.walk t ls = (none, ls')) :
    walkList (p :: ps) (t :: ts) ls = walkList ps ts ls' := by
  rw [walkList_cons_cons, h]

/-- The children of a node, given the same for each of its templates. -/
theorem walkList_of_likeList {ps : List Template}
    (ih : ∀ p ∈ ps, ∀ {t s}, Fills s p.holes → p.Like t (p.plug s) → ∀ ls,
      p.captures t = s ∧ p.walk t ls = (none, ls.recordAll (log p.holes s)))
    {ts s : List Tree} (hs : Fills s (holesList ps)) (h : LikeList ps ts (plugList ps s))
    (ls : Labels) :
    ts.length = ps.length ∧ capturesList ps ts = s ∧
      walkList ps ts ls = (none, ls.recordAll (log (holesList ps) s)) := by
  induction ps generalizing ts s ls with
  | nil =>
      cases hs
      rw [plugList_nil, likeList_nil_iff] at h
      subst h
      exact ⟨rfl, rfl, rfl⟩
  | cons p ps ihps =>
      obtain ⟨s₁, s₂, rfl, hs₁, hs₂⟩ := Fills.append_iff.1 hs
      rw [plugList_cons_append hs₁, likeList_cons_iff] at h
      obtain ⟨t, ts, rfl, ht, hts⟩ := h
      obtain ⟨hcap, hwalk⟩ := ih p List.mem_cons_self hs₁ ht ls
      obtain ⟨hlen, hcaps, hwalks⟩ := ihps (fun q hq => ih q (List.mem_cons_of_mem _ hq)) hs₂ hts
        (ls.recordAll (log p.holes s₁))
      refine ⟨by simp [hlen], by rw [capturesList_cons, hcap, hcaps], ?_⟩
      rw [walkList_cons hwalk, hwalks, holesList_cons, log_append hs₁, Labels.recordAll_append]

/-- A tree that is like a filled template passes, what it holds in the places of
the holes is what filled them, and just this is recorded. -/
theorem walk_of_like {p : Template} {t : Tree} {s : List Tree} (hs : Fills s p.holes)
    (h : p.Like t (p.plug s)) (ls : Labels) :
    p.captures t = s ∧ p.walk t ls = (none, ls.recordAll (log p.holes s)) := by
  induction p using inductionOn generalizing t s ls with
  | ruleHole r tag =>
      obtain ⟨t', rfl, hfits⟩ := Fills.singleton_iff.1 hs
      have ht : t = t' := like_ruleHole_iff.1 h
      subst ht
      rw [Symbol.fits_rule_iff] at hfits
      refine ⟨rfl, ?_⟩
      rw [walk_ruleHole, if_pos hfits, Labels.capture_eq_recordAll]
      simp [log, holes]
  | literal n text =>
      cases hs
      obtain ⟨a, rfl, hkind, htext⟩ := like_literal_iff.1 h
      refine ⟨rfl, ?_⟩
      rw [walk_literal, if_pos ⟨rfl, type?_leaf hkind, congrArg some htext⟩]
      rfl
  | tokenHole n tag =>
      obtain ⟨t', rfl, hfits⟩ := Fills.singleton_iff.1 hs
      have ht : t = t' := like_tokenHole_iff.1 h
      subst ht
      obtain ⟨a, rfl, hkind⟩ := Symbol.fits_token_iff.1 hfits
      refine ⟨rfl, ?_⟩
      rw [walk_tokenHole, if_pos ⟨rfl, type?_leaf hkind⟩, Labels.capture_eq_recordAll]
      simp [log, holes]
  | node r ps ih =>
      obtain ⟨ts, rfl, hts⟩ := like_node_iff.1 h
      obtain ⟨hlen, hcaps, hwalks⟩ := walkList_of_likeList ih hs hts ls
      refine ⟨hcaps, ?_⟩
      rw [walk_node, if_pos ⟨rfl, hlen⟩]
      exact hwalks

theorem walkList_cons_eq_none {p : Template} {ps : List Template} {t : Tree} {ts : List Tree}
    {ls : Labels} (h : (walkList (p :: ps) (t :: ts) ls).1 = none) :
    (p.walk t ls).1 = none ∧ (walkList ps ts (p.walk t ls).2).1 = none := by
  rw [walkList_cons_cons] at h
  split at h
  · cases h
  · rename_i ls' hwalk
    rw [hwalk]
    exact ⟨rfl, h⟩

theorem likeList_of_walkList {ps : List Template}
    (ih : ∀ p ∈ ps, ∀ {t ls}, (p.walk t ls).1 = none →
      Fills (p.captures t) p.holes ∧ p.Like t (p.plug (p.captures t)))
    {ts : List Tree} {ls : Labels} (hlen : ts.length = ps.length)
    (h : (walkList ps ts ls).1 = none) :
    Fills (capturesList ps ts) (holesList ps) ∧
      LikeList ps ts (plugList ps (capturesList ps ts)) := by
  induction ps generalizing ts ls with
  | nil =>
      cases List.length_eq_zero_iff.1 hlen
      exact ⟨.nil, likeList_nil_iff.2 rfl⟩
  | cons p ps ihps =>
      cases ts with
      | nil => cases hlen
      | cons t ts =>
          obtain ⟨hwalk, hwalks⟩ := walkList_cons_eq_none h
          obtain ⟨hfills, hlike⟩ := ih p List.mem_cons_self hwalk
          obtain ⟨hfillsAll, hlikeAll⟩ := ihps (fun q hq => ih q (List.mem_cons_of_mem _ hq))
            (Nat.succ.inj hlen) hwalks
          rw [capturesList_cons, holesList_cons, plugList_cons_append hfills]
          exact ⟨Fills.append_iff.2 ⟨_, _, rfl, hfills, hfillsAll⟩,
            likeList_cons_iff.2 ⟨t, ts, rfl, hlike, hlikeAll⟩⟩

/-- What passes is the template filled with what stands in its holes. -/
theorem like_of_walk {p : Template} {t : Tree} {ls : Labels} (h : (p.walk t ls).1 = none) :
    Fills (p.captures t) p.holes ∧ p.Like t (p.plug (p.captures t)) := by
  induction p using inductionOn generalizing t ls with
  | ruleHole r tag =>
      rw [walk_ruleHole] at h
      split at h
      · rename_i hrule
        exact ⟨Fills.singleton_iff.2 ⟨t, rfl, Symbol.fits_rule_iff.2 hrule⟩,
          like_ruleHole_iff.2 rfl⟩
      · cases h
  | literal n text =>
      rw [walk_literal] at h
      split at h
      · rename_i hleaf
        obtain ⟨_, htype, htext⟩ := hleaf
        obtain ⟨a, rfl, hkind⟩ := exists_leaf_of_type? htype
        exact ⟨.nil, like_literal_iff.2 ⟨a, rfl, hkind, Option.some.inj htext⟩⟩
      · cases h
  | tokenHole n tag =>
      rw [walk_tokenHole] at h
      split at h
      · rename_i hleaf
        exact ⟨Fills.singleton_iff.2 ⟨t, rfl, Symbol.fits_token_iff.2
          (exists_leaf_of_type? hleaf.2)⟩, like_tokenHole_iff.2 rfl⟩
      · cases h
  | node r ps ih =>
      rw [walk_node] at h
      split at h
      · rename_i hnode
        cases t with
        | leaf a => cases hnode.1
        | node k ts =>
            cases Option.some.inj hnode.1
            obtain ⟨hfills, hlike⟩ := likeList_of_walkList ih hnode.2 h
            exact ⟨hfills, like_node_iff.2 ⟨ts, rfl, hlike⟩⟩
      · cases h

theorem likeList_refl {ps : List Template} (ih : ∀ p ∈ ps, ∀ t, p.Like t t) (ts : List Tree) :
    LikeList ps ts ts := by
  induction ps generalizing ts with
  | nil => exact likeList_nil_iff.2 rfl
  | cons p ps ihps =>
      cases ts with
      | nil => rfl
      | cons t ts =>
          exact likeList_cons_iff.2 ⟨t, ts, rfl, ih p List.mem_cons_self t,
            ihps (fun q hq => ih q (List.mem_cons_of_mem _ hq)) ts⟩

theorem like_refl (p : Template) (t : Tree) : p.Like t t := by
  induction p using inductionOn generalizing t with
  | ruleHole r tag => exact like_ruleHole_iff.2 rfl
  | tokenHole n tag => exact like_tokenHole_iff.2 rfl
  | literal n text =>
      cases t with
      | leaf a => exact ⟨rfl, rfl⟩
      | node k ts => rfl
  | node r ps ih =>
      cases t with
      | leaf a => rfl
      | node k ts => exact like_node_iff.2 ⟨ts, rfl, likeList_refl ih ts⟩

/-- The match of a tree that is like a filled template. -/
theorem matchTree_of_like {p : Template} {t : Tree} {s : List Tree} (hs : Fills s p.holes)
    (h : p.Like t (p.plug s)) :
    p.matchTree t = ⟨t, Labels.empty.recordAll (log p.holes s), none⟩ := by
  obtain ⟨_, hwalk⟩ := walk_of_like hs h .empty
  rw [matchTree, hwalk]

theorem succeeded_matchTree_iff {p : Template} {t : Tree} :
    (p.matchTree t).succeeded = true ↔ (p.walk t .empty).1 = none := by
  simp [matchTree, Match.succeeded]

/-- A tree matches a template exactly if it is the template with its holes
filled. What fills them is then unique, and the labels are a record of it. -/
theorem matchTree_iff_filled (p : Template) :
    (∀ t, (p.matchTree t).succeeded = true ↔ ∃ s, Fills s p.holes ∧ p.Like t (p.plug s)) ∧
    (∀ t s, Fills s p.holes → p.Like t (p.plug s) →
      (∀ s', Fills s' p.holes → p.Like t (p.plug s') → s' = s) ∧
      (p.matchTree t).labels = Labels.empty.recordAll (log p.holes s)) ∧
    ∀ s, Fills s p.holes → (p.matchTree (p.plug s)).succeeded = true ∧
      (p.matchTree (p.plug s)).labels = Labels.empty.recordAll (log p.holes s) := by
  refine ⟨?_, ?_, ?_⟩
  · intro t
    constructor
    · intro h
      exact ⟨p.captures t, like_of_walk (succeeded_matchTree_iff.1 h)⟩
    · rintro ⟨s, hs, h⟩
      rw [matchTree_of_like hs h]
      rfl
  · intro t s hs h
    refine ⟨?_, by rw [matchTree_of_like hs h]⟩
    intro s' hs' h'
    rw [← (walk_of_like hs' h' .empty).1, (walk_of_like hs h .empty).1]
  · intro s hs
    rw [matchTree_of_like hs (p.like_refl _)]
    exact ⟨rfl, rfl⟩

/-- The template of `<target:ID> = <expr>`. -/
def assignment : Template :=
  .node 0 [.tokenHole 1 ⟨"ID", some "target"⟩, .literal 2 "=", .ruleHole 1 ⟨"expr", none⟩]

def assigned : List Tree :=
  [.leaf (.word 1 "x"), .node 1 [.leaf (.word 3 "1")]]

/-- The leaf in the place of the literal is hidden here. -/
def assignmentTree : Tree :=
  .node 0 [.leaf (.word 1 "x"), .leaf (.hiddenWord 2 "="), .node 1 [.leaf (.word 3 "1")]]

theorem matchTree_iff_filled_assignment :
    Fills assigned assignment.holes ∧ assignment.Like assignmentTree (assignment.plug assigned) ∧
      (assignment.matchTree assignmentTree).succeeded = true ∧
      (assignment.matchTree assignmentTree).labels.entries =
        [("ID", [.leaf (.word 1 "x")]), ("target", [.leaf (.word 1 "x")]),
          ("expr", [.node 1 [.leaf (.word 3 "1")]])] := by
  have hfills : Fills assigned assignment.holes := by
    simp [Fills, assigned, assignment, holes, holesList, Token.word, Tree.rule?]
  have hlike : assignment.Like assignmentTree (assignment.plug assigned) := by
    simp [assignment, assigned, assignmentTree, plug, plugList, holes, Token.word,
      Token.hiddenWord]
  obtain ⟨hmatch, hunique, _⟩ := matchTree_iff_filled assignment
  refine ⟨hfills, hlike, (hmatch assignmentTree).2 ⟨assigned, hfills, hlike⟩, ?_⟩
  rw [(hunique assignmentTree assigned hfills hlike).2]
  rfl

end Template

end Stencil
