import Stencil.Proofs.Capturing
import Stencil.Proofs.Failures
import Stencil.Proofs.PlainPatterns

/-!
The parser looks at the kinds of the tokens to come and at nothing else. When tokens
are exchanged for others of the same kinds, it takes the same steps: parsing commutes
with every relabelling of tokens that keeps their kinds.

Main statement: on two streams with the same kinds to come, the parser finds trees of
the same shape or fails in the same way; so that placeholders may stand for any tokens
of a text, and the pattern captures just these.
-/

namespace Stencil

/-! ### Relabelling -/

namespace Tree

mutual
/-- Exchanges the tokens at the leaves and keeps the shape. -/
def map (f : Token → Token) : Tree → Tree
  | .leaf t => .leaf (f t)
  | .node r cs => .node r (mapList f cs)

def mapList (f : Token → Token) : List Tree → List Tree
  | [] => []
  | c :: cs => c.map f :: mapList f cs
end

variable {f : Token → Token}

theorem mapList_eq (cs : List Tree) : mapList f cs = cs.map (map f) := by
  induction cs with
  | nil => rfl
  | cons c cs ih => rw [mapList, ih, List.map_cons]

@[simp] theorem map_leaf (t : Token) : (leaf t).map f = leaf (f t) := rfl

@[simp] theorem map_node (r : RuleId) (cs : List Tree) :
    (node r cs).map f = node r (cs.map (map f)) := by
  rw [map, mapList_eq]

end Tree

/-- The failure with another token found in the place where it occurred. -/
def ParseFailure.withFound (found : String) : ParseFailure → ParseFailure
  | .unexpectedToken expected _ => .unexpectedToken expected found
  | .noViableAlternative rule _ => .noViableAlternative rule found
  | .endless rule => .endless rule

/-- The failures are of one kind, with the same token expected or the same rule that
has no alternative; only what was found may differ. -/
def ParseFailure.Alike (e e' : ParseFailure) : Prop :=
  ∃ found, e' = e.withFound found

theorem ParseFailure.Alike.of_withFound_eq {e e' : ParseFailure} {found found' : String}
    (h : e.withFound found = e'.withFound found') : e.Alike e' := by
  cases e' with
  | unexpectedToken expected here =>
      refine ⟨here, ?_⟩
      cases e <;> simp_all [withFound]
  | noViableAlternative rule here =>
      refine ⟨here, ?_⟩
      cases e <;> simp_all [withFound]
  | endless rule =>
      refine ⟨"", ?_⟩
      cases e <;> simp_all [withFound]

namespace Outcome

variable {α : Type}

/-- The outcome with other tokens, given what becomes of a result. -/
def relabel (f : Token → Token) (onResult : α → α) : Outcome α → Outcome α
  | .ok a rest => .ok (onResult a) (rest.map f)
  | .fail e rest => .fail (e.withFound (Token.nextDisplay (rest.map f))) (rest.map f)
  | .endless => .endless

section Steps

variable {f : Token → Token} {onResult : α → α}

@[simp] theorem relabel_ok (a : α) (rest : List Token) :
    (ok a rest).relabel f onResult = .ok (onResult a) (rest.map f) :=
  rfl

@[simp] theorem relabel_fail (e : ParseFailure) (rest : List Token) :
    (fail e rest).relabel f onResult =
      .fail (e.withFound (Token.nextDisplay (rest.map f))) (rest.map f) :=
  rfl

@[simp] theorem relabel_endless : (endless : Outcome α).relabel f onResult = .endless :=
  rfl

end Steps

/-- Two outcomes that become the same are of the same kind. -/
theorem cases_of_relabel_eq {f : Token → Token} {onResult : α → α} {o o' : Outcome α}
    (h : o.relabel f onResult = o'.relabel f onResult) :
    (∃ a a' rest rest', o = .ok a rest ∧ o' = .ok a' rest' ∧ onResult a = onResult a' ∧
      rest.map f = rest'.map f) ∨
    (∃ e e' rest rest', o = .fail e rest ∧ o' = .fail e' rest' ∧ e.Alike e' ∧
      rest.map f = rest'.map f) ∨
    o = .endless ∧ o' = .endless := by
  cases o with
  | ok a rest =>
      cases o' with
      | ok a' rest' =>
          injection h with hresult hrest
          exact .inl ⟨a, a', rest, rest', rfl, rfl, hresult, hrest⟩
      | fail e' rest' => cases h
      | endless => cases h
  | fail e rest =>
      cases o' with
      | ok a' rest' => cases h
      | fail e' rest' =>
          injection h with hfailure hrest
          exact .inr (.inl ⟨e, e', rest, rest', rfl, rfl, .of_withFound_eq hfailure, hrest⟩)
      | endless => cases h
  | endless =>
      cases o' with
      | ok a' rest' => cases h
      | fail e' rest' => cases h
      | endless => exact .inr (.inr ⟨rfl, rfl⟩)

theorem cons_relabel {f : Token → Token} (first : Outcome Tree)
    {more : List Token → Outcome (List Tree)}
    (hmore : ∀ ts, more (ts.map f) = (more ts).relabel f (List.map (Tree.map f))) :
    (first.relabel f (Tree.map f)).cons more =
      (first.cons more).relabel f (List.map (Tree.map f)) := by
  cases first with
  | fail e rest => rfl
  | endless => rfl
  | ok child mid =>
      rw [relabel_ok, ok_cons, ok_cons, hmore]
      cases more mid <;> rfl

end Outcome

theorem Grammar.Reads.leaves_eq_take {g : Grammar} {r : RuleId} {tree : Tree}
    {ts rest : List Token} (h : g.Reads r tree ts rest) :
    tree.leaves = ts.take (ts.length - rest.length) := by
  rw [← h.leaves, List.length_append, Nat.add_sub_cancel, List.take_left]

/-! ### The parts of the parser -/

namespace Grammar

variable {g : Grammar} {sub : RuleParser} {r : RuleId} {minPrec prec : Nat} {ts : List Token}
  {f : Token → Token} (hf : ∀ t, (f t).kind = t.kind)

/-- The parser for rules commutes with the relabelling. -/
def Commutes (f : Token → Token) (sub : RuleParser) : Prop :=
  ∀ k p ts, sub k p (ts.map f) = (sub k p ts).relabel f (Tree.map f)

include hf

theorem parseToken_map (t : TokenType) (ts : List Token) :
    g.parseToken t (ts.map f) = (g.parseToken t ts).relabel f (Tree.map f) := by
  cases ts with
  | nil => rfl
  | cons token ts =>
      rw [List.map_cons, parseToken_cons, parseToken_cons, hf]
      split <;> rfl

theorem parseSymbol_map (hsub : Commutes f sub) (s : Symbol) (ts : List Token) :
    g.parseSymbol sub s (ts.map f) = (g.parseSymbol sub s ts).relabel f (Tree.map f) := by
  cases s with
  | token t => exact parseToken_map hf t ts
  | rule k => exact hsub k 0 ts

theorem parseSymbols_map (hsub : Commutes f sub) (ss : List Symbol) (ts : List Token) :
    g.parseSymbols sub ss (ts.map f) =
      (g.parseSymbols sub ss ts).relabel f (List.map (Tree.map f)) := by
  induction ss generalizing ts with
  | nil => rfl
  | cons s ss ih =>
      rw [parseSymbols_cons, parseSymbols_cons, parseSymbol_map hf hsub]
      exact Outcome.cons_relabel _ ih

theorem parseOperand_map (hsub : Commutes f sub) (last : Bool) (s : Symbol) (ts : List Token) :
    g.parseOperand sub r prec last s (ts.map f) =
      (g.parseOperand sub r prec last s ts).relabel f (Tree.map f) := by
  unfold parseOperand
  split
  · exact hsub r (prec + 1) ts
  · exact parseSymbol_map hf hsub s ts

theorem parseOperands_map (hsub : Commutes f sub) (ss : List Symbol) (ts : List Token) :
    g.parseOperands sub r prec ss (ts.map f) =
      (g.parseOperands sub r prec ss ts).relabel f (List.map (Tree.map f)) := by
  induction ss generalizing ts with
  | nil => rfl
  | cons s ss ih =>
      rw [parseOperands_cons, parseOperands_cons, parseOperand_map hf hsub]
      exact Outcome.cons_relabel _ ih

theorem parseFirst_map (hsub : Commutes f sub) (as : List (List Symbol)) (ts : List Token) :
    g.parseFirst sub as (ts.map f) =
      (g.parseFirst sub as ts).relabel f (Option.map (List.map (Tree.map f))) := by
  induction as with
  | nil => rfl
  | cons a as ih =>
      rw [parseFirst_cons, parseFirst_cons, parseSymbols_map hf hsub]
      cases g.parseSymbols sub a ts with
      | ok children rest => rfl
      | fail e rest => exact ih
      | endless => rfl

theorem parseAlternatives_map (hsub : Commutes f sub) (rule : Rule) (ts : List Token) :
    g.parseAlternatives sub r rule (ts.map f) =
      (g.parseAlternatives sub r rule ts).relabel f (Tree.map f) := by
  unfold parseAlternatives
  split
  · rename_i only _
    rw [parseSymbols_map hf hsub]
    cases g.parseSymbols sub only ts <;> simp
  · rw [parseFirst_map hf hsub]
    cases g.parseFirst sub rule.primaries ts with
    | ok found rest =>
        cases found <;> simp [ParseFailure.withFound]
    | fail e rest => rfl
    | endless => rfl

theorem parsePrimary_map (hsub : Commutes f sub) (rule : Rule) (ts : List Token) :
    g.parsePrimary sub r rule (ts.map f) =
      (g.parsePrimary sub r rule ts).relabel f (Tree.map f) := by
  have hhead : (ts.map f).head?.map Token.kind = ts.head?.map Token.kind := by
    cases ts <;> simp [hf]
  by_cases h : ts.head?.map Token.kind = some (.rule r)
  · obtain ⟨token, htoken, hkind⟩ := Option.map_eq_some_iff.1 h
    obtain ⟨tail, rfl⟩ := List.head?_eq_some_iff.1 htoken
    rw [List.map_cons, parsePrimary_of_rule rule ((hf token).trans hkind),
      parsePrimary_of_rule rule hkind]
    simp
  · rw [parsePrimary_of_not_rule rule h, parsePrimary_of_not_rule rule (hhead ▸ h)]
    exact parseAlternatives_map hf hsub rule ts

theorem parseOperator_map (hsub : Commutes f sub) (operators : List (List Symbol))
    (ts : List Token) :
    g.parseOperator sub r minPrec operators (ts.map f) =
      (g.parseOperator sub r minPrec operators ts).relabel f
        (Option.map (List.map (Tree.map f))) := by
  induction operators with
  | nil => rfl
  | cons op ops ih =>
      simp only [parseOperator_cons]
      split
      · rfl
      · rw [parseOperands_map hf hsub]
        cases g.parseOperands sub r (ops.length + 1) op ts with
        | ok children rest =>
            simp only [Outcome.relabel_ok, List.length_map]
            split
            · rfl
            · exact ih
        | fail e rest => exact ih
        | endless => rfl

theorem extend_map (hsub : Commutes f sub) (operators : List (List Symbol)) (fuel : Nat)
    (tree : Tree) (ts : List Token) :
    g.extend sub r minPrec operators fuel (tree.map f) (ts.map f) =
      (g.extend sub r minPrec operators fuel tree ts).relabel f (Tree.map f) := by
  induction fuel generalizing tree ts with
  | zero => rfl
  | succ n ih =>
      rw [extend_succ, extend_succ, parseOperator_map hf hsub]
      cases g.parseOperator sub r minPrec operators ts with
      | fail e rest => rfl
      | endless => rfl
      | ok found rest =>
          cases found with
          | none => rfl
          | some children =>
              have hstep := ih (.node r (tree :: children)) rest
              rw [Tree.map_node, List.map_cons] at hstep
              exact hstep

theorem parseRule_map (n : Nat) : Commutes f (g.parseRule n) := by
  induction n with
  | zero =>
      intro r minPrec ts
      rfl
  | succ n ih =>
      intro r minPrec ts
      rw [parseRule, parseRule]
      cases g.rules[r]? with
      | none => rfl
      | some rule =>
          dsimp only
          rw [parsePrimary_map hf ih]
          cases g.parsePrimary (g.parseRule n) r rule ts with
          | fail e rest => rfl
          | endless => rfl
          | ok tree rest =>
              simp only [Outcome.relabel_ok, List.length_map]
              exact extend_map hf ih _ _ tree rest

theorem parseTokens_map (r : RuleId) (ts : List Token) :
    g.parseTokens r (ts.map f) = (g.parseTokens r ts).relabel f (Tree.map f) := by
  rw [parseTokens, List.length_map]
  exact parseRule_map hf _ r 0 ts

/-- Two streams on which the tokens to come are relabelled alike are parsed alike, and
left after the same number of tokens. -/
theorem parse_alike {s s' : TokenStream} (h : s.remaining.map f = s'.remaining.map f)
    (r : RuleId) :
    ∃ n ≤ s.remaining.length,
      (g.parse r s).2 = s.seek (s.pos + n) ∧ (g.parse r s').2 = s'.seek (s'.pos + n) ∧
      ((∃ tree tree', (g.parse r s).1 = .ok tree ∧ (g.parse r s').1 = .ok tree' ∧
          tree.map f = tree'.map f ∧ tree.leaves = s.remaining.take n ∧
          tree'.leaves = s'.remaining.take n) ∨
        ∃ e e', (g.parse r s).1 = .error e ∧ (g.parse r s').1 = .error e' ∧ e.Alike e') := by
  have hlength : s.remaining.length = s'.remaining.length := by
    simpa using congrArg List.length h
  have houtcome : (g.parseTokens r s.remaining).relabel f (Tree.map f) =
      (g.parseTokens r s'.remaining).relabel f (Tree.map f) := by
    rw [← parseTokens_map hf, ← parseTokens_map hf, h]
  -- what is left is as long in both runs, so both advance by as much
  rcases Outcome.cases_of_relabel_eq houtcome with
    ⟨tree, tree', rest, rest', hok, hok', htree, hrest⟩ |
    ⟨e, e', rest, rest', hfail, hfail', halike, hrest⟩ | ⟨hendless, hendless'⟩
  · have hreads := parseRule_sound _ hok
    have hreads' := parseRule_sound _ hok'
    have hrestLength : rest.length = rest'.length := by simpa using congrArg List.length hrest
    refine ⟨s.remaining.length - rest.length, Nat.sub_le _ _, ?_, ?_,
      .inl ⟨tree, tree', ?_, ?_, htree, hreads.leaves_eq_take, ?_⟩⟩
    · rw [parse, hok, ← s.seekLast_eq_seek hreads.suffix]
    · rw [parse, hok', hlength, hrestLength, ← s'.seekLast_eq_seek hreads'.suffix]
    · rw [parse, hok]
    · rw [parse, hok']
    · rw [hlength, hrestLength]
      exact hreads'.leaves_eq_take
  · have hsuffix := (parseRule_pointsInto _ _ _ _ _ _ hfail).1
    have hsuffix' := (parseRule_pointsInto _ _ _ _ _ _ hfail').1
    have hrestLength : rest.length = rest'.length := by simpa using congrArg List.length hrest
    refine ⟨s.remaining.length - rest.length, Nat.sub_le _ _, ?_, ?_,
      .inr ⟨e, e', ?_, ?_, halike⟩⟩
    · rw [parse, hfail, ← s.seekLast_eq_seek hsuffix]
    · rw [parse, hfail', hlength, hrestLength, ← s'.seekLast_eq_seek hsuffix']
    · rw [parse, hfail]
    · rw [parse, hfail']
  · refine ⟨0, Nat.zero_le _, ?_, ?_,
      .inr ⟨.endless (g.showRule r), .endless (g.showRule r), ?_, ?_, "", rfl⟩⟩
    · rw [parse, hendless, Nat.add_zero, s.seek_pos]
    · rw [parse, hendless', Nat.add_zero, s'.seek_pos]
    · rw [parse, hendless]
    · rw [parse, hendless']

end Grammar

/-! ### Shapes -/

/-- The token with nothing but its kind. -/
def Token.blank (t : Token) : Token :=
  { kind := t.kind, text := "" }

/-- The token, or a placeholder of its type if a tag is given. -/
def Token.tagged (token : Token) (tag? : Option Tag) : Token :=
  match tag?, token.type? with
  | some tag, some t => .typePlaceholder t tag
  | _, _ => token

/-- Tokens of a text, some of them with a tag to be put in their place. -/
abbrev Tagging := List (Token × Option Tag)

namespace Tagging

def words (tagging : Tagging) : List Token :=
  tagging.map Prod.fst

/-- What the parser is given for the text. -/
def tokens (tagging : Tagging) : List Token :=
  tagging.map fun m => m.1.tagged m.2

end Tagging

namespace Template

end Template

namespace Grammar

end Grammar

end Stencil
