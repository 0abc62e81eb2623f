import Stencil.Proofs.Frontier
import Stencil.Proofs.Relabelling

/-!
Labels are inert. A label gives a captured tree a second name; what a pattern matches,
and what it captures under the names of its tags, does not depend on it. Every stage of
compiling and matching commutes with taking the labels away.

Main statement: patterns that differ in their labels only fail to compile in the same
way, or match the same trees, capture the same subtrees in the same order and keep them
under the same keys, labels apart.
-/

namespace Stencil

/-! ### Taking labels away -/

def Tag.unlabelled (tag : Tag) : Tag :=
  ⟨tag.name, none⟩

def Chunk.unlabelled : Chunk → Chunk
  | .text s => .text s
  | .tag t => .tag t.unlabelled

/-- The text of a placeholder shows its tag, and so the label. -/
def Token.unlabelled (token : Token) : Token :=
  match token.tag with
  | some tag =>
    { token with text := placeholderText tag.unlabelled, tag := some tag.unlabelled }
  | none => token

theorem Token.kind_unlabelled (token : Token) : token.unlabelled.kind = token.kind := by
  unfold unlabelled
  split <;> rfl

theorem Token.IsWord.unlabelled_eq {token : Token} (h : token.IsWord) :
    token.unlabelled = token := by
  obtain ⟨t, text, rfl⟩ := h
  rfl

namespace Template

mutual
def unlabelled : Template → Template
  | .node r ps => .node r (unlabelledList ps)
  | .ruleHole r tag => .ruleHole r tag.unlabelled
  | .literal n text => .literal n text
  | .tokenHole n tag => .tokenHole n tag.unlabelled

def unlabelledList : List Template → List Template
  | [] => []
  | p :: ps => p.unlabelled :: unlabelledList ps
end

theorem length_unlabelledList (ps : List Template) :
    (unlabelledList ps).length = ps.length := by
  induction ps with
  | nil => rfl
  | cons p ps ih => rw [unlabelledList, List.length_cons, List.length_cons, ih]

end Template

/-- The error without the texts that it shows: the pattern, and the token that was found
where another one had to be. -/
def CompileError.bare : CompileError → CompileError
  | .split cause => .split cause
  | .lex cause => .lex cause
  | .unknownTag name _ => .unknownTag name ""
  | .unknownRule name => .unknownRule name
  | .notConsumed _ _ => .notConsumed "" ""
  | .parse cause => .parse (cause.withFound "")
  | .strayReference _ _ => .strayReference "" ""

theorem ParseFailure.Alike.bare_eq {e e' : ParseFailure} (h : e.Alike e') :
    (CompileError.parse e).bare = (CompileError.parse e').bare := by
  obtain ⟨found, rfl⟩ := h
  cases e <;> rfl

/-! ### Compiling -/

theorem Language.tagToken?_unlabelled (L : Language) (tag : Tag) :
    L.tagToken? tag.unlabelled = (L.tagToken? tag).map Token.unlabelled := by
  have hname : tag.unlabelled.name = tag.name := rfl
  rw [tagToken?, tagToken?, hname]
  cases L.ruleIndex? tag.name with
  | some r => rfl
  | none => cases L.tokenType? tag.name <;> rfl

namespace Grammar

variable {g : Grammar} {pattern pattern' : String} {chunks chunks' : List Chunk}

/-- The tokens without labels are those of the chunk without its label. -/
theorem chunkTokens_unlabelled (pattern : String) (c : Chunk) :
    g.language.chunkTokens "" c.unlabelled =
      ((g.language.chunkTokens pattern c).map (List.map Token.unlabelled)).mapError
        CompileError.bare := by
  cases c with
  | text s =>
      rw [Chunk.unlabelled, Language.chunkTokens, Language.chunkTokens]
      cases hlex : g.language.lex s with
      | error e => rfl
      | ok tokens =>
          have hwords : (tokens.filter (!·.hidden)).map Token.unlabelled =
              tokens.filter (!·.hidden) := by
            conv_rhs => rw [← List.map_id (tokens.filter _)]
            exact List.map_congr_left fun token htoken =>
              (isWord_of_lex hlex token htoken).unlabelled_eq
          simp [Except.map, Except.mapError, hwords]
  | tag t =>
      rw [Chunk.unlabelled, Language.chunkTokens, Language.chunkTokens,
        Language.tagToken?_unlabelled]
      cases g.language.tagToken? t <;> rfl

theorem chunksTokens_unlabelled (pattern : String) (chunks : List Chunk) :
    g.language.chunksTokens "" (chunks.map Chunk.unlabelled) =
      ((g.language.chunksTokens pattern chunks).map (List.map Token.unlabelled)).mapError
        CompileError.bare := by
  induction chunks with
  | nil => rfl
  | cons c cs ih =>
      rw [List.map_cons, Language.chunksTokens, Language.chunksTokens, ih,
        chunkTokens_unlabelled pattern]
      cases g.language.chunkTokens pattern c with
      | error e => rfl
      | ok front =>
          cases g.language.chunksTokens pattern cs with
          | error e => rfl
          | ok back =>
              simp [Except.map, Except.mapError, bind, Except.bind, pure, Except.pure]

/-- Chunks with other labels have the same tokens up to labels, or none for the same
reason. -/
theorem chunksTokens_alike (h : chunks.map Chunk.unlabelled = chunks'.map Chunk.unlabelled) :
    (∃ e e', g.language.chunksTokens pattern chunks = .error e ∧
      g.language.chunksTokens pattern' chunks' = .error e' ∧ e.bare = e'.bare) ∨
    ∃ tokens tokens', g.language.chunksTokens pattern chunks = .ok tokens ∧
      g.language.chunksTokens pattern' chunks' = .ok tokens' ∧
      tokens.map Token.unlabelled = tokens'.map Token.unlabelled := by
  have hcommon := chunksTokens_unlabelled (g := g) pattern chunks
  rw [h, chunksTokens_unlabelled pattern'] at hcommon
  cases hchunks : g.language.chunksTokens pattern chunks with
  | error e =>
      cases hchunks' : g.language.chunksTokens pattern' chunks' with
      | error e' =>
          rw [hchunks, hchunks'] at hcommon
          exact .inl ⟨e, e', rfl, rfl, (Except.error.inj hcommon).symm⟩
      | ok tokens' =>
          rw [hchunks, hchunks'] at hcommon
          cases hcommon
  | ok tokens =>
      cases hchunks' : g.language.chunksTokens pattern' chunks' with
      | error e' =>
          rw [hchunks, hchunks'] at hcommon
          cases hcommon
      | ok tokens' =>
          rw [hchunks, hchunks'] at hcommon
          exact .inr ⟨tokens, tokens', rfl, rfl, (Except.ok.inj hcommon).symm⟩

end Grammar

namespace Template

theorem holeTag?_map_unlabelled (r : RuleId) (cs : List Tree) :
    holeTag? r (cs.map (Tree.map Token.unlabelled)) = (holeTag? r cs).map Tag.unlabelled := by
  rcases cs with _ | ⟨_ | ⟨k, ds⟩, _ | ⟨c, cs⟩⟩
  · rfl
  · rename_i token
    simp only [List.map_cons, List.map_nil, Tree.map_leaf, holeTag?, Token.kind_unlabelled]
    split
    · rcases token with ⟨kind, text, hidden, _ | tag⟩ <;> rfl
    · rfl
  · rfl
  · simp [holeTag?]
  · simp [holeTag?]

theorem ofTrees_map_unlabelled {cs : List Tree}
    (ih : ∀ c ∈ cs, ∀ {p}, ofTree c = .ok p →
      ofTree (c.map Token.unlabelled) = .ok p.unlabelled)
    {ps : List Template} (h : ofTrees cs = .ok ps) :
    ofTrees (cs.map (Tree.map Token.unlabelled)) = .ok (unlabelledList ps) := by
  induction cs generalizing ps with
  | nil =>
      cases h
      rfl
  | cons c cs ihcs =>
      obtain ⟨p, qs, hp, hqs, rfl⟩ := ofTrees_cons_eq_ok h
      have hhead := ih c List.mem_cons_self hp
      have htail := ihcs (fun c hc => ih c (List.mem_cons_of_mem _ hc)) hqs
      rw [List.map_cons, ofTrees, hhead]
      dsimp only
      rw [htail, unlabelledList]

/-- The template of a tree without labels is the template without labels. -/
theorem ofTree_map_unlabelled {tree : Tree} {p : Template} (h : ofTree tree = .ok p) :
    ofTree (tree.map Token.unlabelled) = .ok p.unlabelled := by
  induction tree using Tree.inductionOn generalizing p with
  | leaf token =>
      rcases token with ⟨n | k, text, hidden, _ | tag⟩ <;> cases h <;> rfl
  | node r cs ih =>
      rw [Tree.map_node, ofTree, holeTag?_map_unlabelled]
      rcases ofTree_node_eq_ok h with ⟨tag, htag, rfl⟩ | ⟨htag, ps, hps, rfl⟩
      · rw [htag]
        rfl
      · rw [htag, Option.map_none]
        dsimp only
        rw [ofTrees_map_unlabelled ih hps, unlabelled]

end Template

namespace Grammar

variable {g : Grammar} {d d' : Delimiters} {text text' : String} {chunks chunks' : List Chunk}

/-- Patterns with other labels compile to the same template up to labels, or to none for
the same reason. -/
theorem compile_alike (hchunks : d.split text = .ok chunks)
    (hchunks' : d'.split text' = .ok chunks')
    (h : chunks.map Chunk.unlabelled = chunks'.map Chunk.unlabelled) (start : RuleId) :
    (∃ e e', Pattern.compile g.language d text start = .error e ∧
      Pattern.compile g.language d' text' start = .error e' ∧ e.bare = e'.bare) ∨
    ∃ p p', Pattern.compile g.language d text start = .ok p ∧
      Pattern.compile g.language d' text' start = .ok p' ∧
      p.template.unlabelled = p'.template.unlabelled := by
  have htokens : g.language.patternTokens d text = g.language.chunksTokens text chunks := by
    rw [Language.patternTokens, hchunks]
  have htokens' : g.language.patternTokens d' text' = g.language.chunksTokens text' chunks' := by
    rw [Language.patternTokens, hchunks']
  rcases chunksTokens_alike (g := g) h with
    ⟨e, e', he, he', hbare⟩ | ⟨tokens, tokens', hok, hok', hmap⟩
  · exact .inl ⟨e, e', Pattern.compile_of_patternTokens_error (htokens.trans he),
      Pattern.compile_of_patternTokens_error (htokens'.trans he'), hbare⟩
  · rw [hok] at htokens
    rw [hok'] at htokens'
    have hlength : tokens.length = tokens'.length := by simpa using congrArg List.length hmap
    have hremaining : (TokenStream.ofList tokens).remaining.map Token.unlabelled =
        (TokenStream.ofList tokens').remaining.map Token.unlabelled := hmap
    obtain ⟨n, _, hs, hs', hresult⟩ :=
      parse_alike (g := g) Token.kind_unlabelled hremaining start
    rcases hparse : g.parse start (.ofList tokens) with ⟨result, s⟩
    rcases hparse' : g.parse start (.ofList tokens') with ⟨result', s'⟩
    simp only [hparse, hparse'] at hs hs' hresult
    rcases hresult with ⟨tree, tree', rfl, rfl, htree, _, _⟩ | ⟨e, e', rfl, rfl, halike⟩
    · -- both parses stop after `n` tokens of as many
      have hend : s.atEnd = s'.atEnd := by
        rw [hs, hs']
        simp [TokenStream.atEnd, TokenStream.ofList, hlength]
      cases hatEnd : s.atEnd with
      | false =>
          exact .inl ⟨_, _, Pattern.compile_of_not_atEnd htokens hparse hatEnd,
            Pattern.compile_of_not_atEnd htokens' hparse' (hend ▸ hatEnd), rfl⟩
      | true =>
          obtain ⟨p, hp⟩ := exists_template_of_parse htokens hparse
          obtain ⟨p', hp'⟩ := exists_template_of_parse htokens' hparse'
          have hunlabelled := Template.ofTree_map_unlabelled hp
          rw [htree, Template.ofTree_map_unlabelled hp'] at hunlabelled
          exact .inr ⟨_, _, Pattern.compile_of_ofTree htokens hparse hatEnd hp,
            Pattern.compile_of_ofTree htokens' hparse' (hend ▸ hatEnd) hp',
            (Except.ok.inj hunlabelled).symm⟩
    · exact .inl ⟨_, _, Pattern.compile_of_parse_error htokens hparse,
        Pattern.compile_of_parse_error htokens' hparse', halike.bare_eq⟩

end Grammar

/-! ### Matching -/

namespace Template

/-- What a walk did, with the label taken off every capture. -/
def unlabelledTrace (result : Option Tree × List (Tag × Tree)) : Option Tree × List (Tag × Tree) :=
  (result.1, result.2.map fun c => (c.1.unlabelled, c.2))

theorem traceList_unlabelled {ps : List Template}
    (ih : ∀ p ∈ ps, ∀ t, p.unlabelled.trace t = unlabelledTrace (p.trace t)) (ts : List Tree) :
    traceList (unlabelledList ps) ts = unlabelledTrace (traceList ps ts) := by
  induction ps generalizing ts with
  | nil => rfl
  | cons p ps ihps =>
      cases ts with
      | nil => rfl
      | cons t ts =>
          have hrest := ihps (fun q hq => ih q (List.mem_cons_of_mem _ hq)) ts
          rw [unlabelledList, traceList, traceList, ih p List.mem_cons_self, hrest]
          rcases p.trace t with ⟨_ | bad, caught⟩
          · simp [unlabelledTrace]
          · rfl

theorem trace_unlabelled (p : Template) (t : Tree) :
    p.unlabelled.trace t = unlabelledTrace (p.trace t) := by
  induction p using inductionOn generalizing t with
  | node r ps ih =>
      rw [unlabelled, trace, trace, length_unlabelledList]
      split
      · exact traceList_unlabelled ih t.children
      · rfl
  | ruleHole r tag =>
      rw [unlabelled, trace, trace]
      split <;> rfl
  | literal n text =>
      rw [unlabelled, trace]
      split <;> rfl
  | tokenHole n tag =>
      rw [unlabelled, trace, trace]
      split <;> rfl

theorem tag_mem_of_traceList {ps : List Template}
    (ih : ∀ p ∈ ps, ∀ t, ∀ c ∈ (p.trace t).2, c.1 ∈ p.frontier.filterMap tag?) (ts : List Tree) :
    ∀ c ∈ (traceList ps ts).2, c.1 ∈ (frontierList ps).filterMap tag? := by
  induction ps generalizing ts with
  | nil => simp [traceList]
  | cons p ps ihps =>
      cases ts with
      | nil => simp [traceList]
      | cons t ts =>
          intro c hc
          rw [frontierList, List.filterMap_append, List.mem_append]
          have hhead := ih p List.mem_cons_self t
          have hrest := ihps (fun q hq => ih q (List.mem_cons_of_mem _ hq)) ts
          rw [traceList] at hc
          rcases htrace : p.trace t with ⟨_ | bad, caught⟩
          · rw [htrace] at hc hhead
            rcases List.mem_append.1 hc with hc | hc
            · exact .inl (hhead c hc)
            · exact .inr (hrest c hc)
          · rw [htrace] at hc hhead
            exact .inl (hhead c hc)

/-- A walk captures for the tags of its template and for no others. -/
theorem tag_mem_of_trace (p : Template) (t : Tree) :
    ∀ c ∈ (p.trace t).2, c.1 ∈ p.frontier.filterMap tag? := by
  induction p using inductionOn generalizing t with
  | node r ps ih =>
      rw [trace]
      split
      · exact tag_mem_of_traceList ih t.children
      · simp
  | ruleHole r tag =>
      rw [trace]
      split <;> simp [frontier, tag?]
  | literal n text =>
      rw [trace]
      split <;> simp
  | tokenHole n tag =>
      rw [trace]
      split <;> simp [frontier, tag?]

/-- Templates that differ in labels only stop at the same subtree, after capturing the
same trees under the same names. -/
theorem trace_alike {p p' : Template} (h : p.unlabelled = p'.unlabelled) (t : Tree) :
    (p.trace t).1 = (p'.trace t).1 ∧
      (p.trace t).2.map (fun c => (c.1.name, c.2)) =
        (p'.trace t).2.map (fun c => (c.1.name, c.2)) := by
  have htrace : unlabelledTrace (p.trace t) = unlabelledTrace (p'.trace t) := by
    rw [← trace_unlabelled, ← trace_unlabelled, h]
  obtain ⟨hmismatch, hcaught⟩ := Prod.mk.inj htrace
  refine ⟨hmismatch, ?_⟩
  have hnames := congrArg (List.map fun c : Tag × Tree => (c.1.name, c.2)) hcaught
  rw [List.map_map, List.map_map] at hnames
  exact hnames

/-- Under a key that is no label stand the trees captured for the tags of that name. -/
theorem getAll_matchTree {p : Template} {key : String}
    (h : ∀ tag ∈ p.frontier.filterMap tag?, tag.label ≠ some key) (t : Tree) :
    (p.matchTree t).labels.getAll key =
      (((p.trace t).2.map fun c => (c.1.name, c.2)).filter (·.1 = key)).map Prod.snd := by
  rw [matchTree_eq, Labels.getAll_captureAll_of_ne _ fun c hc => h c.1 (p.tag_mem_of_trace t c hc),
    List.filter_map, List.map_map]
  rfl

end Template

namespace Grammar

/-- Labels are inert. Take two patterns whose chunks are the same once all labels are
erased. Either both fail to compile, for the same reason; or both compile, and on every
tree they stop at the same subtree, if at any, have captured the same trees in the same
order by then, and keep the same trees under every key that is no label of theirs. -/
theorem labels_inert (g : Grammar) {d d' : Delimiters} {text text' : String}
    {chunks chunks' : List Chunk} (hchunks : d.split text = .ok chunks)
    (hchunks' : d'.split text' = .ok chunks')
    (h : chunks.map Chunk.unlabelled = chunks'.map Chunk.unlabelled) (start : RuleId) :
    (∃ e e', Pattern.compile g.language d text start = .error e ∧
      Pattern.compile g.language d' text' start = .error e' ∧ e.bare = e'.bare) ∨
    ∃ p p', Pattern.compile g.language d text start = .ok p ∧
      Pattern.compile g.language d' text' start = .ok p' ∧ ∀ tree,
        (p.matchTree tree).succeeded = (p'.matchTree tree).succeeded ∧
        (p.matchTree tree).mismatch = (p'.matchTree tree).mismatch ∧
        (p.matchTree tree).labels = Labels.empty.captureAll (p.template.trace tree).2 ∧
        (p'.matchTree tree).labels = Labels.empty.captureAll (p'.template.trace tree).2 ∧
        (p.template.trace tree).2.map (fun c => (c.1.name, c.2)) =
          (p'.template.trace tree).2.map (fun c => (c.1.name, c.2)) ∧
        ∀ key, (∀ tag, .tag tag ∈ chunks ++ chunks' → tag.label ≠ some key) →
          (p.matchTree tree).labels.getAll key = (p'.matchTree tree).labels.getAll key := by
  rcases compile_alike (g := g) hchunks hchunks' h start with herror | ⟨p, p', hp, hp', hunlabelled⟩
  · exact .inl herror
  refine .inr ⟨p, p', hp, hp', fun tree => ?_⟩
  obtain ⟨hmismatch, hcaught⟩ := Template.trace_alike hunlabelled tree
  have hmatch : ∀ q : Pattern, q.matchTree tree = ⟨tree,
      Labels.empty.captureAll (q.template.trace tree).2, (q.template.trace tree).1⟩ :=
    fun q => q.template.matchTree_eq tree
  have hsame : (p.matchTree tree).mismatch = (p'.matchTree tree).mismatch := by
    rw [hmatch, hmatch, hmismatch]
  refine ⟨?_, hsame, by rw [hmatch], by rw [hmatch], hcaught, ?_⟩
  · rw [Match.succeeded, Match.succeeded, hsame]
  · intro key hkey
    have htags : ∀ tag ∈ p.template.frontier.filterMap Template.tag?, tag.label ≠ some key := by
      intro tag htag
      rw [tags_of_compile hp hchunks] at htag
      exact hkey tag (List.mem_append_left _ (Chunk.mem_filterMap_tag?.1 htag))
    have htags' : ∀ tag ∈ p'.template.frontier.filterMap Template.tag?, tag.label ≠ some key := by
      intro tag htag
      rw [tags_of_compile hp' hchunks'] at htag
      exact hkey tag (List.mem_append_right _ (Chunk.mem_filterMap_tag?.1 htag))
    rw [Pattern.matchTree, Pattern.matchTree, Template.getAll_matchTree htags,
      Template.getAll_matchTree htags', hcaught]

/-- Doubled brackets, and no escape. -/
def doubledBrackets : Delimiters :=
  ⟨"[[", "]]", "", by decide, by decide, by decide⟩

/-- The template of `<x:sum>+<sum>`. -/
def labelledSum : Template :=
  .node 0 [.ruleHole 0 ⟨"sum", some "x"⟩, .literal 1 "+", .ruleHole 0 ⟨"sum", none⟩]

theorem labels_inert_sums :
    Delimiters.standard.split "<x:sum>+<sum>" =
        .ok [.tag ⟨"sum", some "x"⟩, .text "+", .tag ⟨"sum", none⟩] ∧
      doubledBrackets.split "[[sum]]+[[y:sum]]" =
        .ok [.tag ⟨"sum", none⟩, .text "+", .tag ⟨"sum", some "y"⟩] ∧
      ∃ p, Pattern.compile sumGrammar.language doubledBrackets "[[sum]]+[[y:sum]]" 0 = .ok p ∧
        (p.matchTree sumTree).succeeded = true ∧
        (p.matchTree sumTree).labels.getAll "sum" =
          (labelledSum.matchTree sumTree).labels.getAll "sum" ∧
        (labelledSum.matchTree sumTree).labels.getAll "sum" =
          [.node 0 [.leaf (.word 2 "1")], .node 0 [.leaf (.rulePlaceholder 0 ⟨"sum", none⟩)]] := by
  have hsplit : Delimiters.standard.split "<x:sum>+<sum>" =
      .ok [.tag ⟨"sum", some "x"⟩, .text "+", .tag ⟨"sum", none⟩] := by decide +kernel
  have hsplit' : doubledBrackets.split "[[sum]]+[[y:sum]]" =
      .ok [.tag ⟨"sum", none⟩, .text "+", .tag ⟨"sum", some "y"⟩] := by decide +kernel
  have hcompile : Pattern.compile sumGrammar.language .standard "<x:sum>+<sum>" 0 =
      .ok ⟨"<x:sum>+<sum>", 0, labelledSum⟩ := by decide +kernel
  rcases labels_inert sumGrammar hsplit hsplit' rfl 0 with ⟨e, _, he, _⟩ | ⟨p, p', hp, hp', hsame⟩
  · cases hcompile.symm.trans he
  · cases hcompile.symm.trans hp
    obtain ⟨hsucceeded, _, _, _, _, hkeys⟩ := hsame sumTree
    exact ⟨hsplit, hsplit', p', hp', hsucceeded.symm, (hkeys "sum" (by simp)).symm, rfl⟩

end Grammar

end Stencil
