import Stencil.Pattern
import Stencil.Proofs.Filling
import Stencil.Proofs.Lexing
import Stencil.Proofs.RoundTrip
import Stencil.Proofs.Soundness

/-!
Patterns without tags. Any text is a pattern once the delimiters in it are escaped.

Main statement: such a pattern is compiled exactly if the text is parsed, and for
the same reason it is not; and of all trees of texts it matches just the one of its
own text.
-/

namespace Stencil

/-- The pattern that stands for a text as it is. -/
def plainPattern (input : String) : String :=
  String.ofList (Delimiters.protect '<' '>' '\\' input.toList)

/-- What becomes of the failure to parse a text, when the text is a pattern. -/
def InputError.toCompileError (pattern : String) : InputError → CompileError
  | .lex e => .lex e
  | .parse e => .parse e
  | .trailingInput _ found => .notConsumed pattern found

/-! ### Tokens -/

theorem split_plainPattern (input : String) :
    Delimiters.standard.split (plainPattern input) = .ok (wordChunk input.toList) := by
  have hlaid : LaidOut '\\' input.toList [] (wordChunk input.toList) := laidOut_nil_iff.2 rfl
  refine Delimiters.isSingle_standard.split_eq_ok_iff_write.2 ⟨hlaid.wellFormed, ?_⟩
  rw [writeChunks, flatMap_write_wordChunk]
  rfl

namespace Grammar

variable {g : Grammar} {start : RuleId} {input : String} {tree : Tree}

/-- The text is lexed as one piece; no text at all is no chunk. -/
theorem patternTokens_plainPattern :
    g.language.patternTokens .standard (plainPattern input) =
      match g.lex input with
      | .ok tokens => .ok (tokens.filter (!·.hidden))
      | .error e => .error (.lex e) := by
  rw [Language.patternTokens, split_plainPattern]
  by_cases hinput : input = ""
  · subst hinput
    have hlex : g.lex "" = .ok [] := by rw [lex, String.toList_empty, lexFrom_nil]
    rw [hlex]
    rfl
  · have hlex : g.language.lex input = g.lex input := rfl
    rw [wordChunk_toList hinput]
    simp only [Language.chunksTokens, Language.chunkTokens, hlex]
    cases g.lex input with
    | error e => rfl
    | ok tokens => simp [bind, Except.bind, pure, Except.pure]

/-- Compiling is parsing, up to the tree. -/
theorem compileTemplate_plainPattern :
    Pattern.compileTemplate g.language .standard (plainPattern input) start =
      match g.parseText input start with
      | .error e => .error (e.toCompileError (plainPattern input))
      | .ok tree =>
        match Template.ofTree tree with
        | .ok template => .ok template
        | .error tag => .error (.strayReference tag (plainPattern input)) := by
  rw [Pattern.compileTemplate, patternTokens_plainPattern, parseText]
  cases g.lex input with
  | error e => rfl
  | ok tokens =>
      have hlanguage : g.language.parse = g.parse := rfl
      simp only [bind, Except.bind, hlanguage]
      rcases g.parse start (.ofList (tokens.filter (!·.hidden))) with ⟨result, s⟩
      cases result with
      | error e => rfl
      | ok tree =>
          dsimp only
          cases s.atEnd with
          | true => rfl
          | false => rfl

end Grammar

/-! ### Templates -/

/-- The leaves are words of a text. -/
def Tree.OfWords (tree : Tree) : Prop :=
  ∀ token ∈ tree.leaves, token.IsWord

theorem Tree.OfWords.child {r : RuleId} {cs : List Tree} (h : (Tree.node r cs).OfWords) {c : Tree}
    (hc : c ∈ cs) : c.OfWords := by
  intro token htoken
  refine h token ?_
  rw [Tree.leaves_node]
  exact List.mem_flatMap.2 ⟨c, hc, htoken⟩

theorem Grammar.ofWords_of_parseText {g : Grammar} {start : RuleId} {input : String} {tree : Tree}
    (h : g.parseText input start = .ok tree) : tree.OfWords := by
  obtain ⟨tokens, s, hlex, hparse, hend⟩ := parseText_eq_ok_iff.1 h
  intro token htoken
  rw [leaves_of_parse hparse hend] at htoken
  exact isWord_of_lex hlex token htoken

namespace Template

/-- A token that has a type stands for no rule. -/
theorem holeTag?_of_type {r : RuleId} {cs : List Tree}
    (h : ∀ token ∈ (Tree.node r cs).leaves, ∃ n, token.kind = .type n) :
    holeTag? r cs = none := by
  unfold holeTag?
  split
  · rename_i token
    obtain ⟨n, hn⟩ := h token (by simp)
    simp [hn]
  · rfl

theorem holeTag?_of_ofWords {r : RuleId} {cs : List Tree} (h : (Tree.node r cs).OfWords) :
    holeTag? r cs = none := by
  refine holeTag?_of_type ?_
  intro token htoken
  obtain ⟨t, text, rfl⟩ := h token htoken
  exact ⟨t, rfl⟩

/-- The template has no holes, and of the trees of texts only this one fits it. -/
def Pins (p : Template) (tree : Tree) : Prop :=
  p.holes = [] ∧ ∀ tree', tree'.OfWords → (p.Like tree' (p.plug []) ↔ tree' = tree)

def PinsList (ps : List Template) (trees : List Tree) : Prop :=
  holesList ps = [] ∧ ∀ trees', (∀ tree ∈ trees', tree.OfWords) →
    (LikeList ps trees' (plugList ps []) ↔ trees' = trees)

theorem pins_literal (n : TokenType) (text : String) :
    (literal n text).Pins (.leaf (.word n text)) := by
  refine ⟨rfl, ?_⟩
  intro tree' hwords
  rw [plug, like_literal_iff]
  constructor
  · rintro ⟨token, rfl, hkind, htext⟩
    obtain ⟨t, text', rfl⟩ := hwords token (by simp)
    cases hkind
    cases htext
    rfl
  · rintro rfl
    exact ⟨_, rfl, rfl, rfl⟩

theorem PinsList.nil : PinsList [] [] := by
  refine ⟨rfl, ?_⟩
  intro trees' _
  rw [plugList_nil, likeList_nil_iff]

theorem Pins.cons {p : Template} {ps : List Template} {tree : Tree} {trees : List Tree}
    (h : p.Pins tree) (hs : PinsList ps trees) : PinsList (p :: ps) (tree :: trees) := by
  obtain ⟨hholes, hlike⟩ := h
  obtain ⟨hholesList, hlikeList⟩ := hs
  refine ⟨by rw [holesList_cons, hholes, hholesList, List.append_nil], ?_⟩
  intro trees' hwords
  rw [plugList_cons, List.take_nil, List.drop_nil, likeList_cons_iff]
  constructor
  · rintro ⟨first, others, rfl, hfirst, hothers⟩
    rw [(hlike first (hwords first List.mem_cons_self)).1 hfirst,
      (hlikeList others fun t ht => hwords t (List.mem_cons_of_mem _ ht)).1 hothers]
  · rintro rfl
    exact ⟨tree, trees, rfl, (hlike tree (hwords tree List.mem_cons_self)).2 rfl,
      (hlikeList trees fun t ht => hwords t (List.mem_cons_of_mem _ ht)).2 rfl⟩

theorem PinsList.node {ps : List Template} {trees : List Tree} (h : PinsList ps trees)
    (r : RuleId) : (Template.node r ps).Pins (.node r trees) := by
  obtain ⟨hholes, hlike⟩ := h
  refine ⟨hholes, ?_⟩
  intro tree' hwords
  rw [plug, like_node_iff]
  constructor
  · rintro ⟨ts, rfl, hts⟩
    rw [(hlike ts fun t ht => hwords.child ht).1 hts]
  · rintro rfl
    exact ⟨trees, rfl, (hlike trees fun t ht => hwords.child ht).2 rfl⟩

theorem ofTrees_of_ofWords {cs : List Tree} (h : ∀ c ∈ cs, c.OfWords)
    (ih : ∀ c ∈ cs, c.OfWords → ∃ p, ofTree c = .ok p ∧ p.Pins c) :
    ∃ ps, ofTrees cs = .ok ps ∧ PinsList ps cs := by
  induction cs with
  | nil => exact ⟨[], rfl, .nil⟩
  | cons c cs ihcs =>
      obtain ⟨p, hp, hpins⟩ := ih c List.mem_cons_self (h c List.mem_cons_self)
      obtain ⟨ps, hps, hpinsList⟩ := ihcs (fun c hc => h c (List.mem_cons_of_mem _ hc))
        (fun c hc => ih c (List.mem_cons_of_mem _ hc))
      refine ⟨p :: ps, ?_, hpins.cons hpinsList⟩
      rw [ofTrees, hp]
      dsimp only
      rw [hps]

/-- The tree of a text has a template, and the template leads back to the tree. -/
theorem ofTree_of_ofWords {tree : Tree} (h : tree.OfWords) :
    ∃ p, ofTree tree = .ok p ∧ p.Pins tree := by
  induction tree using Tree.inductionOn with
  | leaf token =>
      obtain ⟨t, text, rfl⟩ := h token (by simp)
      exact ⟨.literal t text, rfl, pins_literal t text⟩
  | node r cs ih =>
      obtain ⟨ps, hps, hpins⟩ := ofTrees_of_ofWords (fun c hc => h.child hc) ih
      refine ⟨.node r ps, ?_, hpins.node r⟩
      rw [ofTree, holeTag?_of_ofWords h]
      dsimp only
      rw [hps]

/-- A template without holes captures nothing, and matches what is like it. -/
theorem matchTree_of_holes_eq_nil {p : Template} (h : p.holes = []) (tree : Tree) :
    (p.matchTree tree).succeeded = true ↔ p.Like tree (p.plug []) := by
  have hfills {s : List Tree} : Fills s p.holes ↔ s = [] := by
    rw [h]
    exact List.forall₂_nil_right_iff
  rw [succeeded_matchTree_iff]
  constructor
  · intro hwalk
    obtain ⟨hcaptures, hlike⟩ := like_of_walk hwalk
    rwa [hfills.1 hcaptures] at hlike
  · intro hlike
    rw [(walk_of_like (hfills.2 rfl) hlike .empty).2]

theorem labels_matchTree_of_holes_eq_nil {p : Template} (h : p.holes = []) {tree : Tree}
    (hlike : p.Like tree (p.plug [])) : (p.matchTree tree).labels = .empty := by
  have hfills : Fills [] p.holes := by
    rw [h]
    exact .nil
  rw [matchTree_of_like hfills hlike, h]
  rfl

end Template

/-! ### Compiling -/

/-- Compiling a text as a pattern and parsing it come to the same: the same failure,
or a pattern without placeholders that matches the tree of the text, without
labels, and no tree of another text. -/
theorem Grammar.compile_plainPattern (g : Grammar) (start : RuleId) (input : String) :
    ((∃ p, Pattern.compile g.language .standard (plainPattern input) start = .ok p) ↔
      ∃ tree, g.parseText input start = .ok tree) ∧
    (∀ e, g.parseText input start = .error e →
      Pattern.compile g.language .standard (plainPattern input) start =
        .error (e.toCompileError (plainPattern input))) ∧
    ∀ tree, g.parseText input start = .ok tree →
      ∃ p, Pattern.compile g.language .standard (plainPattern input) start = .ok p ∧
        p.template.holes = [] ∧ (p.matchTree tree).succeeded = true ∧
        (p.matchTree tree).labels = .empty ∧
        ∀ input' tree', g.parseText input' start = .ok tree' →
          ((p.matchTree tree').succeeded = true ↔ tree' = tree) := by
  have hfailure (e) (h : g.parseText input start = .error e) :
      Pattern.compile g.language .standard (plainPattern input) start =
        .error (e.toCompileError (plainPattern input)) := by
    rw [Pattern.compile, compileTemplate_plainPattern, h]
    rfl
  have hsuccess (tree) (h : g.parseText input start = .ok tree) :
      ∃ p, Pattern.compile g.language .standard (plainPattern input) start =
        .ok ⟨plainPattern input, start, p⟩ ∧ p.Pins tree := by
    obtain ⟨p, hp, hpins⟩ := Template.ofTree_of_ofWords (ofWords_of_parseText h)
    refine ⟨p, ?_, hpins⟩
    rw [Pattern.compile, compileTemplate_plainPattern, h]
    dsimp only
    rw [hp]
    rfl
  refine ⟨?_, hfailure, ?_⟩
  · constructor
    · rintro ⟨p, hp⟩
      cases hparse : g.parseText input start with
      | ok tree => exact ⟨tree, rfl⟩
      | error e =>
          rw [hfailure e hparse] at hp
          cases hp
    · rintro ⟨tree, htree⟩
      obtain ⟨p, hp, _⟩ := hsuccess tree htree
      exact ⟨_, hp⟩
  · intro tree htree
    obtain ⟨p, hp, hholes, hlike⟩ := hsuccess tree htree
    have hself := (hlike tree (ofWords_of_parseText htree)).2 rfl
    refine ⟨_, hp, hholes, (Template.matchTree_of_holes_eq_nil hholes tree).2 hself,
      Template.labels_matchTree_of_holes_eq_nil hholes hself, ?_⟩
    intro input' tree' htree'
    rw [← hlike tree' (ofWords_of_parseText htree')]
    exact Template.matchTree_of_holes_eq_nil hholes tree'

namespace Grammar

def comparisons : GrammarDecl where
  name := "Comparisons"
  rules := [⟨"test", ["'1' '<' '1'"]⟩]
  tokens := []

def comparisonGrammar : Grammar where
  name := "Comparisons"
  rules := [⟨"test", [[.token 1, .token 2, .token 1]], []⟩]
  tokens := [.literal "1", .literal "<"]

def comparisonTree : Tree :=
  .node 0 [.leaf (.word 1 "1"), .leaf (.word 2 "<"), .leaf (.word 1 "1")]

theorem compile_plainPattern_comparison :
    comparisons.build = .ok comparisonGrammar ∧
      comparisonGrammar.parseText "1<1" 0 = .ok comparisonTree ∧
      (∃ p, Pattern.compile comparisonGrammar.language .standard "1\\<1" 0 = .ok p ∧
        p.template.holes = [] ∧ (p.matchTree comparisonTree).succeeded = true ∧
        (p.matchTree comparisonTree).labels = .empty) ∧
      comparisonGrammar.parseText "1<1<" 0 = .error (.trailingInput "test" "'<'") ∧
      Pattern.compile comparisonGrammar.language .standard "1\\<1\\<" 0 =
        .error (.notConsumed "1\\<1\\<" "'<'") := by
  have hparse : comparisonGrammar.parseText "1<1" 0 = .ok comparisonTree := rfl
  have hfail : comparisonGrammar.parseText "1<1<" 0 = .error (.trailingInput "test" "'<'") := rfl
  obtain ⟨_, _, hsuccess⟩ := compile_plainPattern comparisonGrammar 0 "1<1"
  obtain ⟨p, hp, hholes, hmatch, hlabels, _⟩ := hsuccess comparisonTree hparse
  obtain ⟨_, hfailure, _⟩ := compile_plainPattern comparisonGrammar 0 "1<1<"
  exact ⟨rfl, hparse, ⟨p, hp, hholes, hmatch, hlabels⟩, hfail, hfailure _ hfail⟩

end Grammar

end Stencil
