import Stencil.Proofs.Filling

/-!
What a walk captures. The walk of a template records as it goes; here the captures are
listed apart from the labels they are recorded in. Matching a tree is then a matter of
two lists: what was captured before the walk stopped, and what recording it makes of
the labels.
-/

namespace Stencil

/-! ### Recording captures -/

namespace Labels

/-- Records captured trees one after the other, each under the name of its tag and
then under its label. -/
def captureAll (ls : Labels) (caught : List (Tag × Tree)) : Labels :=
  caught.foldl (fun ls c => ls.capture c.1 c.2) ls

@[simp] theorem captureAll_nil (ls : Labels) : ls.captureAll [] = ls := rfl

@[simp] theorem captureAll_cons (ls : Labels) (c : Tag × Tree) (caught : List (Tag × Tree)) :
    ls.captureAll (c :: caught) = (ls.capture c.1 c.2).captureAll caught := rfl

theorem captureAll_append (ls : Labels) (caught caught' : List (Tag × Tree)) :
    ls.captureAll (caught ++ caught') = (ls.captureAll caught).captureAll caught' :=
  List.foldl_append

theorem getAll_record (ls : Labels) (label key : String) (tree : Tree) :
    (ls.record label tree).getAll key =
      ls.getAll key ++ if key = label then [tree] else [] := by
  rw [getAll, get?_record]
  by_cases h : key = label
  · simp [h]
  · simp [h, getAll]

theorem getAll_capture (ls : Labels) (tag : Tag) (tree : Tree) (key : String) :
    (ls.capture tag tree).getAll key =
      ls.getAll key ++ (if key = tag.name then [tree] else []) ++
        if some key = tag.label then [tree] else [] := by
  rw [capture]
  cases hlabel : tag.label with
  | none => simp [getAll_record]
  | some label => simp [getAll_record]

/-- What is found under a key that is no label was captured under that name. -/
theorem getAll_captureAll_of_ne (ls : Labels) {caught : List (Tag × Tree)} {key : String}
    (h : ∀ c ∈ caught, c.1.label ≠ some key) :
    (ls.captureAll caught).getAll key =
      ls.getAll key ++ (caught.filter (·.1.name = key)).map Prod.snd := by
  induction caught generalizing ls with
  | nil => simp
  | cons c caught ih =>
      obtain ⟨hc, hcaught⟩ := List.forall_mem_cons.1 h
      rw [captureAll_cons, ih _ hcaught, getAll_capture, if_neg (Ne.symm hc)]
      by_cases hname : c.1.name = key
      · simp [hname]
      · simp [hname, Ne.symm hname]

end Labels

/-! ### The captures of a walk -/

namespace Template

mutual
/-- The first subtree that does not fit, if any, and what is captured before it. -/
def trace : Template → Tree → Option Tree × List (Tag × Tree)
  | .tokenHole n tag, t =>
    if t.isLeaf ∧ t.type? = some n then (none, [(tag, t)]) else (some t, [])
  | .literal n text, t =>
    if t.isLeaf ∧ t.type? = some n ∧ t.token?.map Token.text = some text then (none, [])
    else (some t, [])
  | .ruleHole r tag, t =>
    if t.rule? = some r then (none, [(tag, t)]) else (some t, [])
  | .node r ps, t =>
    if t.rule? = some r ∧ t.children.length = ps.length then traceList ps t.children
    else (some t, [])

def traceList : List Template → List Tree → Option Tree × List (Tag × Tree)
  | p :: ps, t :: ts =>
    match trace p t with
    | (some bad, caught) => (some bad, caught)
    | (none, caught) => ((traceList ps ts).1, caught ++ (traceList ps ts).2)
  | _, _ => (none, [])
end

theorem traceList_cons_of_none {p : Template} {ps : List Template} {t : Tree} {ts : List Tree}
    {caught : List (Tag × Tree)} (h : p.trace t = (none, caught)) :
    traceList (p :: ps) (t :: ts) = ((traceList ps ts).1, caught ++ (traceList ps ts).2) := by
  rw [traceList, h]

theorem walkList_eq {ps : List Template}
    (ih : ∀ p ∈ ps, ∀ t ls, p.walk t ls = ((p.trace t).1, ls.captureAll (p.trace t).2))
    (ts : List Tree) (ls : Labels) :
    walkList ps ts ls = ((traceList ps ts).1, ls.captureAll (traceList ps ts).2) := by
  induction ps generalizing ts ls with
  | nil => rfl
  | cons p ps ihps =>
      cases ts with
      | nil => rfl
      | cons t ts =>
          have hrest := ihps (fun q hq => ih q (List.mem_cons_of_mem _ hq)) ts
          rw [walkList_cons_cons, ih p List.mem_cons_self]
          rcases htrace : p.trace t with ⟨_ | bad, caught⟩
          · rw [traceList_cons_of_none htrace, Labels.captureAll_append]
            exact hrest _
          · rw [traceList, htrace]

/-- A walk adds its captures to the labels it is given, whether it fails or not. -/
theorem walk_eq (p : Template) (t : Tree) (ls : Labels) :
    p.walk t ls = ((p.trace t).1, ls.captureAll (p.trace t).2) := by
  induction p using inductionOn generalizing t ls with
  | node r ps ih =>
      rw [walk_node, trace]
      split
      · exact walkList_eq ih t.children ls
      · rfl
  | ruleHole r tag =>
      rw [walk_ruleHole, trace]
      split <;> rfl
  | literal n text =>
      rw [walk_literal, trace]
      split <;> rfl
  | tokenHole n tag =>
      rw [walk_tokenHole, trace]
      split <;> rfl

theorem matchTree_eq (p : Template) (t : Tree) :
    p.matchTree t = ⟨t, Labels.empty.captureAll (p.trace t).2, (p.trace t).1⟩ := by
  rw [matchTree, walk_eq]

end Template

end Stencil
