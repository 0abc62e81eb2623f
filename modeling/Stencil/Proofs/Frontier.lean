import Stencil.Pattern
import Stencil.Proofs.Filling
import Stencil.Proofs.Lexing
import Stencil.Proofs.Soundness

/-!
The frontier of a template: its literals and holes from left to right. They are what
the leaves of a tree become when the tree is turned into a template, a node that holds
nothing but its own placeholder counting as one.

Main statement: the frontier of a compiled pattern corresponds one to one to the tokens
of its text, and its tags come in the order in which they are written.
-/

namespace Stencil

namespace Template

mutual
/-- The literals and holes, from left to right. -/
def frontier : Template → List Template
  | .node _ ps => frontierList ps
  | p => [p]

def frontierList : List Template → List Template
  | [] => []
  | p :: ps => p.frontier ++ frontierList ps
end

/-- The rule that a template is for: that of a node or of a rule hole. -/
def rule? : Template → Option RuleId
  | .node r _ | .ruleHole r _ => some r
  | .literal _ _ | .tokenHole _ _ => none

/-- The template is what a token of a pattern becomes. -/
def StandsFor : Template → Token → Prop
  | .literal n text, t => t.kind = .type n ∧ t.tag = none ∧ t.text = text
  | .tokenHole n tag, t => t.kind = .type n ∧ t.tag = some tag
  | .ruleHole r tag, t => t.kind = .rule r ∧ t.tag = some tag
  | .node _ _, _ => False

theorem leafCountList_eq {ps : List Template} (ih : ∀ p ∈ ps, p.leafCount = p.frontier.length) :
    leafCountList ps = (frontierList ps).length := by
  induction ps with
  | nil => rfl
  | cons p ps ihps =>
      rw [leafCountList, frontierList, List.length_append, ih p List.mem_cons_self,
        ihps fun q hq => ih q (List.mem_cons_of_mem _ hq)]

theorem leafCount_eq (p : Template) : p.leafCount = p.frontier.length := by
  induction p using inductionOn with
  | node r ps ih => exact leafCountList_eq ih
  | ruleHole r tag => rfl
  | literal n text => rfl
  | tokenHole n tag => rfl

theorem StandsFor.tag?_eq {p : Template} {t : Token} (h : p.StandsFor t) : p.tag? = t.tag := by
  cases p with
  | node r ps => exact h.elim
  | ruleHole r tag => exact h.2.symm
  | literal n text => exact h.2.1.symm
  | tokenHole n tag => exact h.2.symm

theorem filterMap_tag?_eq {ps : List Template} {ts : List Token}
    (h : List.Forall₂ StandsFor ps ts) : ps.filterMap tag? = ts.filterMap Token.tag := by
  induction h with
  | nil => rfl
  | cons hp _ ih => rw [List.filterMap_cons, List.filterMap_cons, hp.tag?_eq, ih]

/-! ### From trees to templates -/

theorem holeTag?_eq_some_iff {r : RuleId} {cs : List Tree} {tag : Tag} :
    holeTag? r cs = some tag ↔
      ∃ token, cs = [.leaf token] ∧ token.kind = .rule r ∧ token.tag = some tag := by
  unfold holeTag?
  split
  · rename_i token
    simp
  · rename_i hne
    simp only [reduceCtorEq, false_iff, not_exists, not_and]
    intro token hcs
    exact absurd hcs (hne token)

theorem ofToken_eq_ok {token : Token} {p : Template} (h : ofToken token = .ok p) :
    p.frontier = [p] ∧ p.StandsFor token ∧ p.rule? = none := by
  unfold ofToken at h
  split at h
  · rename_i hkind htag
    cases h
    exact ⟨rfl, ⟨hkind, htag⟩, rfl⟩
  · rename_i hkind htag
    cases h
    exact ⟨rfl, ⟨hkind, htag, rfl⟩, rfl⟩
  · cases h

theorem ofTrees_cons_eq_ok {c : Tree} {cs : List Tree} {ps : List Template}
    (h : ofTrees (c :: cs) = .ok ps) :
    ∃ p qs, ofTree c = .ok p ∧ ofTrees cs = .ok qs ∧ ps = p :: qs := by
  rw [ofTrees] at h
  split at h
  · cases h
  · rename_i p hp
    split at h
    · cases h
    · rename_i qs hqs
      cases h
      exact ⟨p, qs, hp, hqs, rfl⟩

theorem ofTree_node_eq_ok {r : RuleId} {cs : List Tree} {p : Template}
    (h : ofTree (.node r cs) = .ok p) :
    (∃ tag, holeTag? r cs = some tag ∧ p = .ruleHole r tag) ∨
      holeTag? r cs = none ∧ ∃ ps, ofTrees cs = .ok ps ∧ p = .node r ps := by
  rw [ofTree] at h
  split at h
  · rename_i tag htag
    cases h
    exact .inl ⟨tag, htag, rfl⟩
  · rename_i htag
    split at h
    · rename_i ps hps
      cases h
      exact .inr ⟨htag, ps, hps, rfl⟩
    · cases h

theorem forall₂_frontierList {cs : List Tree}
    (ih : ∀ c ∈ cs, ∀ {p}, ofTree c = .ok p → List.Forall₂ StandsFor p.frontier c.leaves)
    {ps : List Template} (h : ofTrees cs = .ok ps) :
    List.Forall₂ StandsFor (frontierList ps) (cs.flatMap Tree.leaves) := by
  induction cs generalizing ps with
  | nil =>
      cases h
      exact .nil
  | cons c cs ihcs =>
      obtain ⟨p, qs, hp, hqs, rfl⟩ := ofTrees_cons_eq_ok h
      rw [frontierList, List.flatMap_cons]
      exact List.rel_append (ih c List.mem_cons_self hp)
        (ihcs (fun c hc => ih c (List.mem_cons_of_mem _ hc)) hqs)

/-- The frontier of a template is made of the leaves of its tree, one by one. -/
theorem forall₂_frontier {tree : Tree} {p : Template} (h : ofTree tree = .ok p) :
    List.Forall₂ StandsFor p.frontier tree.leaves := by
  induction tree using Tree.inductionOn generalizing p with
  | leaf token =>
      obtain ⟨hfrontier, hstands, _⟩ := ofToken_eq_ok h
      rw [hfrontier]
      exact .cons hstands .nil
  | node r cs ih =>
      rcases ofTree_node_eq_ok h with ⟨tag, htag, rfl⟩ | ⟨_, ps, hps, rfl⟩
      · -- the node and the placeholder in it become one hole
        obtain ⟨token, rfl, hkind, htoken⟩ := holeTag?_eq_some_iff.1 htag
        exact .cons ⟨hkind, htoken⟩ .nil
      · rw [Tree.leaves_node]
        exact forall₂_frontierList ih hps

theorem rule?_of_ofTree {tree : Tree} {p : Template} (h : ofTree tree = .ok p) :
    p.rule? = tree.rule? := by
  cases tree with
  | leaf token => exact (ofToken_eq_ok h).2.2
  | node r cs => rcases ofTree_node_eq_ok h with ⟨tag, _, rfl⟩ | ⟨_, ps, _, rfl⟩ <;> rfl

/-! ### Derivations have templates -/

theorem exists_ofTrees {cs : List Tree} (h : ∀ c ∈ cs, ∃ p, ofTree c = .ok p) :
    ∃ ps, ofTrees cs = .ok ps := by
  induction cs with
  | nil => exact ⟨[], rfl⟩
  | cons c cs ih =>
      obtain ⟨p, hp⟩ := h c List.mem_cons_self
      obtain ⟨ps, hps⟩ := ih fun c hc => h c (List.mem_cons_of_mem _ hc)
      refine ⟨p :: ps, ?_⟩
      rw [ofTrees, hp]
      dsimp only
      rw [hps]

/-- No rule reference of a derivation stands where it cannot, if all of them carry a
tag. -/
theorem exists_ofTree {alternatives : RuleId → List Symbol → Prop} {tree : Tree}
    (h : tree.IsDerivation alternatives) (hroot : ∀ token, tree = .leaf token →
      ∀ k, token.kind ≠ .rule k)
    (htags : ∀ token ∈ tree.leaves, ∀ k, token.kind = .rule k → token.tag.isSome) :
    ∃ p, ofTree tree = .ok p := by
  induction tree using Tree.inductionOn with
  | leaf token =>
      have hkind := hroot token rfl
      rcases token with ⟨n | k, text, hidden, tag⟩
      · cases tag with
        | none => exact ⟨.literal n text, rfl⟩
        | some tag => exact ⟨.tokenHole n tag, rfl⟩
      · exact absurd rfl (hkind k)
  | node r cs ih =>
      rw [ofTree]
      cases htag : holeTag? r cs with
      | some tag => exact ⟨.ruleHole r tag, rfl⟩
      | none =>
          obtain ⟨hnode, hchildren⟩ := Tree.IsDerivation.node_iff.1 h
          rcases hnode with ⟨token, rfl, hkind⟩ | ⟨a, _, hspells⟩
          · -- a placeholder that carries a tag is never passed over
            obtain ⟨tag, htoken⟩ := Option.isSome_iff_exists.1 (htags token (by simp) r hkind)
            rw [holeTag?_eq_some_iff.2 ⟨token, rfl, hkind, htoken⟩] at htag
            cases htag
          · have hleaves : ∀ c ∈ cs, ∀ token ∈ c.leaves, token ∈ (Tree.node r cs).leaves := by
              intro c hc token htoken
              rw [Tree.leaves_node]
              exact List.mem_flatMap.2 ⟨c, hc, htoken⟩
            obtain ⟨ps, hps⟩ := exists_ofTrees fun c hc => ih c hc (hchildren c hc)
              (fun token htoken => hspells.kind_ne_rule (htoken ▸ hc))
              (fun token htoken => htags token (hleaves c hc token htoken))
            exact ⟨.node r ps, by rw [hps]⟩

end Template

/-! ### The tokens of a pattern -/

/-- The tag of a chunk, if it is one. -/
def Chunk.tag? : Chunk → Option Tag
  | .text _ => none
  | .tag t => some t

theorem Chunk.mem_filterMap_tag? {chunks : List Chunk} {t : Tag} :
    t ∈ chunks.filterMap Chunk.tag? ↔ .tag t ∈ chunks := by
  rw [List.mem_filterMap]
  constructor
  · rintro ⟨c, hc, htag⟩
    cases c with
    | text s => cases htag
    | tag t' =>
        cases htag
        exact hc
  · intro h
    exact ⟨.tag t, h, rfl⟩

namespace Language

variable {L : Language} {pattern : String} {tokens : List Token}

theorem chunksTokens_cons_eq_ok_iff {c : Chunk} {cs : List Chunk} :
    L.chunksTokens pattern (c :: cs) = .ok tokens ↔
      ∃ front back, L.chunkTokens pattern c = .ok front ∧ L.chunksTokens pattern cs = .ok back ∧
        tokens = front ++ back := by
  rw [chunksTokens]
  cases L.chunkTokens pattern c with
  | error e => simp [bind, Except.bind]
  | ok front =>
      cases L.chunksTokens pattern cs with
      | error e => simp [bind, Except.bind]
      | ok back => simp [bind, Except.bind, pure, Except.pure, eq_comm]

/-- A placeholder carries the tag it was made for. -/
theorem tag_of_tagToken? {tag : Tag} {token : Token} (h : L.tagToken? tag = some token) :
    token.tag = some tag := by
  unfold tagToken? at h
  split at h
  · cases h
    rfl
  · obtain ⟨t, _, rfl⟩ := Option.map_eq_some_iff.1 h
    rfl

theorem patternTokens_eq_ok_iff {d : Delimiters} :
    L.patternTokens d pattern = .ok tokens ↔
      ∃ chunks, d.split pattern = .ok chunks ∧ L.chunksTokens pattern chunks = .ok tokens := by
  unfold patternTokens
  cases d.split pattern <;> simp

theorem chunkTokens_ne_strayReference {c : Chunk} {tag text : String} :
    L.chunkTokens pattern c ≠ .error (.strayReference tag text) := by
  intro h
  unfold chunkTokens at h
  split at h <;> split at h <;> cases h

theorem chunksTokens_ne_strayReference {chunks : List Chunk} {tag text : String} :
    L.chunksTokens pattern chunks ≠ .error (.strayReference tag text) := by
  induction chunks with
  | nil => simp [chunksTokens]
  | cons c cs ih =>
      rw [chunksTokens]
      cases hc : L.chunkTokens pattern c with
      | error e =>
          rintro ⟨⟩
          exact chunkTokens_ne_strayReference hc
      | ok front =>
          cases hcs : L.chunksTokens pattern cs with
          | error e =>
              rintro ⟨⟩
              exact ih hcs
          | ok back => simp [bind, Except.bind, pure, Except.pure]

/-- Rule references are no concern of the lexer. -/
theorem patternTokens_ne_strayReference {d : Delimiters} {tag text : String} :
    L.patternTokens d pattern ≠ .error (.strayReference tag text) := by
  unfold patternTokens
  cases d.split pattern with
  | error e => simp
  | ok chunks => exact chunksTokens_ne_strayReference

end Language

namespace Grammar

variable {g : Grammar} {pattern : String} {tokens : List Token}

/-- Text becomes words without a tag, and a tag becomes a placeholder that carries it. -/
theorem chunkTokens_eq_ok {c : Chunk} (h : g.language.chunkTokens pattern c = .ok tokens) :
    (∀ token ∈ tokens, token.IsWord ∨ token.tag.isSome) ∧
      tokens.filterMap Token.tag = c.tag?.toList := by
  cases c with
  | text text =>
      rw [Language.chunkTokens] at h
      split at h
      · rename_i lexed hlex
        cases h
        have hwords := isWord_of_lex (g := g) hlex
        refine ⟨fun token htoken => .inl (hwords token htoken), ?_⟩
        rw [List.filterMap_eq_nil_iff.2]
        · rfl
        · intro token htoken
          obtain ⟨t, word, rfl⟩ := hwords token htoken
          rfl
      · cases h
  | tag tag =>
      rw [Language.chunkTokens] at h
      split at h
      · rename_i token htoken
        cases h
        have htag := Language.tag_of_tagToken? htoken
        simp [htag, Chunk.tag?]
      · cases h

theorem chunksTokens_eq_ok {chunks : List Chunk}
    (h : g.language.chunksTokens pattern chunks = .ok tokens) :
    (∀ token ∈ tokens, token.IsWord ∨ token.tag.isSome) ∧
      tokens.filterMap Token.tag = chunks.filterMap Chunk.tag? := by
  induction chunks generalizing tokens with
  | nil =>
      cases h
      simp
  | cons c cs ih =>
      obtain ⟨front, back, hfront, hback, rfl⟩ := Language.chunksTokens_cons_eq_ok_iff.1 h
      obtain ⟨hfrontTokens, hfrontTags⟩ := chunkTokens_eq_ok hfront
      obtain ⟨hbackTokens, hbackTags⟩ := ih hback
      refine ⟨?_, ?_⟩
      · intro token htoken
        rcases List.mem_append.1 htoken with htoken | htoken
        · exact hfrontTokens token htoken
        · exact hbackTokens token htoken
      · rw [List.filterMap_append, hfrontTags, hbackTags]
        cases htag : c.tag? <;> simp [htag]

/-- What is parsed from the tokens of a pattern has a template. -/
theorem exists_template_of_parse {d : Delimiters} (htokens : g.language.patternTokens d pattern =
      .ok tokens) {start : RuleId} {tree : Tree} {s : TokenStream}
    (hparse : g.parse start (.ofList tokens) = (.ok tree, s)) :
    ∃ p, Template.ofTree tree = .ok p := by
  obtain ⟨chunks, _, hchunks⟩ := Language.patternTokens_eq_ok_iff.1 htokens
  obtain ⟨rest, hreads, _⟩ := parse_eq_ok hparse
  have hroot : ∀ token, tree = .leaf token → ∀ k, token.kind ≠ .rule k := by
    rintro token rfl
    cases hreads.root
  have htags : ∀ token ∈ tree.leaves, ∀ k, token.kind = .rule k → token.tag.isSome := by
    intro token htoken k hkind
    have hleaves : tree.leaves ++ rest = tokens := hreads.leaves
    have hmem : token ∈ tokens := hleaves ▸ List.mem_append_left rest htoken
    rcases (chunksTokens_eq_ok hchunks).1 token hmem with ⟨t, text, rfl⟩ | htag
    · cases hkind
    · exact htag
  exact Template.exists_ofTree hreads.derivation hroot htags

end Grammar

/-! ### Compiling -/

namespace Pattern

variable {L : Language} {d : Delimiters} {text : String} {start : RuleId} {tokens : List Token}

theorem compile_of_patternTokens_error {e : CompileError}
    (h : L.patternTokens d text = .error e) : compile L d text start = .error e := by
  simp [compile, compileTemplate, h, bind, Except.bind]

theorem compile_of_patternTokens (h : L.patternTokens d text = .ok tokens) :
    compile L d text start =
      match L.parse start (.ofList tokens) with
      | (.error e, _) => .error (.parse e)
      | (.ok tree, rest) =>
        if rest.atEnd then
          match Template.ofTree tree with
          | .ok template => .ok ⟨text, start, template⟩
          | .error tag => .error (.strayReference tag text)
        else .error (.notConsumed text rest.nextDisplay) := by
  simp only [compile, compileTemplate, h, bind, Except.bind]
  rcases L.parse start (.ofList tokens) with ⟨e | tree, rest⟩
  · rfl
  · by_cases hend : rest.atEnd
    · simp only [hend, if_true]
      cases Template.ofTree tree <;> rfl
    · simp only [hend, Bool.false_eq_true, if_false]

theorem compile_of_parse_error (h : L.patternTokens d text = .ok tokens) {e : ParseFailure}
    {s : TokenStream} (hparse : L.parse start (.ofList tokens) = (.error e, s)) :
    compile L d text start = .error (.parse e) := by
  rw [compile_of_patternTokens h, hparse]

theorem compile_of_not_atEnd (h : L.patternTokens d text = .ok tokens) {tree : Tree}
    {s : TokenStream} (hparse : L.parse start (.ofList tokens) = (.ok tree, s))
    (hend : s.atEnd = false) :
    compile L d text start = .error (.notConsumed text s.nextDisplay) := by
  simp [compile_of_patternTokens h, hparse, hend]

theorem compile_of_ofTree (h : L.patternTokens d text = .ok tokens) {tree : Tree}
    {s : TokenStream} (hparse : L.parse start (.ofList tokens) = (.ok tree, s))
    (hend : s.atEnd = true) {template : Template}
    (htemplate : Template.ofTree tree = .ok template) :
    compile L d text start = .ok ⟨text, start, template⟩ := by
  simp [compile_of_patternTokens h, hparse, hend, htemplate]

end Pattern

namespace Grammar

variable {g : Grammar} {d : Delimiters} {text : String} {start : RuleId}

/-- Compiling stops at the tokens or at the parser, or else succeeds. -/
theorem compile_cases (g : Grammar) (d : Delimiters) (text : String) (start : RuleId) :
    (∃ e, g.language.patternTokens d text = .error e ∧
      Pattern.compile g.language d text start = .error e) ∨
    ∃ tokens, g.language.patternTokens d text = .ok tokens ∧
      ((∃ e, Pattern.compile g.language d text start = .error (.parse e)) ∨
        (∃ next, Pattern.compile g.language d text start = .error (.notConsumed text next)) ∨
        ∃ tree template, tree.rule? = some start ∧ tree.leaves = tokens ∧
          Template.ofTree tree = .ok template ∧
          Pattern.compile g.language d text start = .ok ⟨text, start, template⟩) := by
  cases htokens : g.language.patternTokens d text with
  | error e => exact .inl ⟨e, rfl, Pattern.compile_of_patternTokens_error htokens⟩
  | ok tokens =>
      refine .inr ⟨tokens, rfl, ?_⟩
      rcases hparse : g.parse start (.ofList tokens) with ⟨e | tree, s⟩
      · exact .inl ⟨e, Pattern.compile_of_parse_error htokens hparse⟩
      · cases hend : s.atEnd with
        | false => exact .inr (.inl ⟨_, Pattern.compile_of_not_atEnd htokens hparse hend⟩)
        | true =>
            obtain ⟨template, htemplate⟩ := exists_template_of_parse htokens hparse
            obtain ⟨rest, hreads, _⟩ := parse_eq_ok hparse
            exact .inr (.inr ⟨tree, template, hreads.root,
              leaves_of_parse hparse (s.atEnd_iff.1 hend), htemplate,
              Pattern.compile_of_ofTree htokens hparse hend htemplate⟩)

/-- What is compiled is the template of a tree whose leaves are the tokens of the pattern. -/
theorem exists_tree_of_compile {p : Pattern} (h : Pattern.compile g.language d text start = .ok p) :
    ∃ tokens tree, g.language.patternTokens d text = .ok tokens ∧ tree.rule? = some start ∧
      tree.leaves = tokens ∧ Template.ofTree tree = .ok p.template := by
  rcases compile_cases g d text start with ⟨e, _, herror⟩ |
    ⟨tokens, htokens, ⟨e, herror⟩ | ⟨next, herror⟩ | ⟨tree, template, hroot, hleaves, hp, hok⟩⟩
  · cases h.symm.trans herror
  · cases h.symm.trans herror
  · cases h.symm.trans herror
  · cases h.symm.trans hok
    exact ⟨tokens, tree, htokens, hroot, hleaves, hp⟩

/-- The tags of a compiled pattern, from left to right, are those of its chunks. -/
theorem tags_of_compile {p : Pattern} (h : Pattern.compile g.language d text start = .ok p)
    {chunks : List Chunk} (hchunks : d.split text = .ok chunks) :
    p.template.frontier.filterMap Template.tag? = chunks.filterMap Chunk.tag? := by
  obtain ⟨tokens, tree, htokens, _, hleaves, htemplate⟩ := exists_tree_of_compile h
  obtain ⟨_, hsplit, hchunksTokens⟩ := Language.patternTokens_eq_ok_iff.1 htokens
  cases hchunks.symm.trans hsplit
  have hfrontier := Template.forall₂_frontier htemplate
  rw [hleaves] at hfrontier
  rw [← (chunksTokens_eq_ok hchunksTokens).2]
  exact Template.filterMap_tag?_eq hfrontier

/-- A compiled pattern loses and invents nothing. Its literals and holes from left to
right are the tokens of its text, one by one, with the tags in the order in which they are
written, and no rule reference is ever found where it cannot stand. -/
theorem compile_frontier (g : Grammar) (d : Delimiters) (text : String) (start : RuleId) :
    (∀ tag pattern,
      Pattern.compile g.language d text start ≠ .error (.strayReference tag pattern)) ∧
    ∀ p, Pattern.compile g.language d text start = .ok p →
      ∃ chunks tokens, d.split text = .ok chunks ∧ g.language.patternTokens d text = .ok tokens ∧
        p.template.rule? = some start ∧
        List.Forall₂ Template.StandsFor p.template.frontier tokens ∧
        p.template.leafCount = tokens.length ∧
        p.template.frontier.filterMap Template.tag? = chunks.filterMap Chunk.tag? := by
  constructor
  · intro tag pattern h
    rcases compile_cases g d text start with ⟨e, htokens, herror⟩ |
      ⟨_, _, ⟨e, herror⟩ | ⟨next, herror⟩ | ⟨_, _, _, _, _, hok⟩⟩
    · cases h.symm.trans herror
      exact Language.patternTokens_ne_strayReference htokens
    · cases h.symm.trans herror
    · cases h.symm.trans herror
    · cases h.symm.trans hok
  · intro p h
    obtain ⟨tokens, tree, htokens, hroot, rfl, htemplate⟩ := exists_tree_of_compile h
    obtain ⟨chunks, hchunks, _⟩ := Language.patternTokens_eq_ok_iff.1 htokens
    have hfrontier := Template.forall₂_frontier htemplate
    refine ⟨chunks, _, hchunks, htokens, (Template.rule?_of_ofTree htemplate).trans hroot,
      hfrontier, ?_, tags_of_compile h hchunks⟩
    rw [Template.leafCount_eq, hfrontier.length_eq]

/-- The template of `<sum>+<x:sum>+1`. -/
def nestedSum : Template :=
  .node 0 [.node 0 [.ruleHole 0 ⟨"sum", none⟩, .literal 1 "+", .ruleHole 0 ⟨"sum", some "x"⟩],
    .literal 1 "+", .node 0 [.literal 2 "1"]]

theorem compile_frontier_nestedSum :
    sums.build = .ok sumGrammar ∧
      Pattern.compile sumGrammar.language .standard "<sum>+<x:sum>+1" 0 =
        .ok ⟨"<sum>+<x:sum>+1", 0, nestedSum⟩ ∧
      nestedSum.leafCount = 5 ∧
      nestedSum.frontier.filterMap Template.tag? = [⟨"sum", none⟩, ⟨"sum", some "x"⟩] ∧
      ∃ tokens, sumGrammar.language.patternTokens .standard "<sum>+<x:sum>+1" = .ok tokens ∧
        List.Forall₂ Template.StandsFor nestedSum.frontier tokens := by
  have hcompile : Pattern.compile sumGrammar.language .standard "<sum>+<x:sum>+1" 0 =
      .ok ⟨"<sum>+<x:sum>+1", 0, nestedSum⟩ := by decide +kernel
  obtain ⟨_, hsuccess⟩ := compile_frontier sumGrammar .standard "<sum>+<x:sum>+1" 0
  obtain ⟨_, tokens, _, htokens, _, hfrontier, _, _⟩ := hsuccess _ hcompile
  exact ⟨rfl, hcompile, rfl, rfl, tokens, htokens, hfrontier⟩

end Grammar

end Stencil
