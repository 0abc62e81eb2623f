import Stencil.Proofs.Munching
import Stencil.Proofs.PatternReading

/-!
Matches at the front of a text. A program that need be tried at the start of a text only
finds matches that begin there. The program of a token is such a program if its pattern is
a regular expression on its own: the anchor that is put before its text then stands
before all of it.

A pattern that becomes a regular expression only when the group around it is closed can
leave that group, and then the anchor is before its first branch only.
-/

namespace Stencil

namespace Regex

/-! ### Searching from the front -/

/-- All ways that are followed began at the front of the text. -/
structure Live.FromFront (live : Live) : Prop where
  reading : ∀ t ∈ live.reading, t.start = 0
  accepted : ∀ start, live.accepted = some start → start = 0

namespace Program

variable {prog : Program} {place : Place} {threads : List Thread} {found : Option Span}
  {pos : Nat} {marks : Marks} {cs : List Char} {span : Span}

theorem follow_fromFront {fuel : Nat} {stack : List Thread} {reading : Array Thread}
    (hstack : ∀ t ∈ stack, t.start = 0) (hreading : ∀ t ∈ reading, t.start = 0) :
    (prog.follow place fuel stack reading marks).FromFront := by
  induction fuel generalizing stack reading marks with
  | zero => exact ⟨hreading, by simp [follow]⟩
  | succ n ih =>
      cases stack with
      | nil => exact ⟨hreading, by simp [follow]⟩
      | cons t stack =>
          obtain ⟨ht, hstack⟩ := List.forall_mem_cons.1 hstack
          rw [follow]
          split
          · exact ih hstack hreading
          · dsimp only
            split
            · exact ih hstack hreading
            · refine ⟨hreading, ?_⟩
              intro start hstart
              cases hstart
              exact ht
            · refine ih hstack ?_
              intro u hu
              rcases Array.mem_push.1 hu with hu | rfl
              · exact hreading u hu
              · exact ht
            · split
              · exact ih (List.forall_mem_cons.2 ⟨ht, hstack⟩) hreading
              · exact ih hstack hreading
            · exact ih (List.forall_mem_cons.2 ⟨ht, hstack⟩) hreading
            · exact ih (List.forall_mem_cons.2 ⟨ht, List.forall_mem_cons.2 ⟨ht, hstack⟩⟩) hreading

theorem live_fromFront (h : ∀ t ∈ threads, t.start = 0) :
    (prog.live place threads marks).FromFront :=
  follow_fromFront h (by simp)

theorem step_start {c : Char} {reading : Array Thread} (h : ∀ t ∈ reading, t.start = 0) :
    ∀ t ∈ prog.step c reading, t.start = 0 := by
  intro t ht
  obtain ⟨u, hu, hstep⟩ := List.mem_filterMap.1 ht
  split at hstep
  · split at hstep
    · cases hstep
      exact h u (Array.mem_toList_iff.1 hu)
    · cases hstep
  · cases hstep

theorem seeds_start (hanchored : prog.anchored = true) (h : ∀ t ∈ threads, t.start = 0) :
    ∀ t ∈ prog.seeds threads found pos, t.start = 0 := by
  intro t ht
  unfold seeds at ht
  split at ht
  · rename_i hbegin
    have hpos : pos = 0 := by simpa [mayBegin, hanchored] using (Bool.and_eq_true_iff.1 hbegin).2
    rcases List.mem_append.1 ht with ht | ht
    · exact h t ht
    · rw [List.mem_singleton.1 ht]
      exact hpos
  · exact h t ht

theorem found_start (hanchored : prog.anchored = true) (hthreads : ∀ t ∈ threads, t.start = 0)
    (hfound : ∀ s, found = some s → s.start = 0)
    (h : (prog.live place (prog.seeds threads found pos) marks).found pos found = some span) :
    span.start = 0 := by
  unfold Live.found at h
  split at h
  · rename_i start haccepted
    cases h
    exact (live_fromFront (seeds_start hanchored hthreads)).accepted start haccepted
  · exact hfound span h

theorem searchFrom_start (hanchored : prog.anchored = true) {prev : Option Char}
    (hthreads : ∀ t ∈ threads, t.start = 0) (hfound : ∀ s, found = some s → s.start = 0)
    (h : prog.searchFrom prev threads found pos marks cs = some span) : span.start = 0 := by
  induction cs generalizing prev threads found pos marks with
  | nil => exact found_start hanchored hthreads hfound h
  | cons c cs ih =>
      rw [searchFrom] at h
      split at h
      · exact hfound span h
      · have hseeds : ∀ t ∈ prog.seeds threads found pos, t.start = 0 :=
          seeds_start hanchored hthreads
        have hlive : Live.FromFront
            (prog.live ⟨pos, prev, some c⟩ (prog.seeds threads found pos) marks) :=
          live_fromFront hseeds
        exact ih (step_start hlive.reading) (fun s => found_start hanchored hthreads hfound) h

/-- A match that is found with an anchored program begins at the front of the text. -/
theorem search?_start (hanchored : prog.anchored = true) (h : prog.search? cs = some span) :
    span.start = 0 :=
  searchFrom_start hanchored (by simp) (by simp) h

end Program

/-! ### The anchor before a pattern -/

namespace Expr

theorem concat_look (l : Look) (e : Expr) :
    concat [.look l, e] = ofFactors (.look l :: e.factors) := by
  simp [concat, factors]

/-- A look and what follows it are not a choice. -/
theorem choice_concat_look (l : Look) (e : Expr) :
    choice [concat [.look l, e]] = concat [.look l, e] := by
  have hbranches : (concat [.look l, e]).branches = [concat [.look l, e]] := by
    rw [concat_look]
    cases e.factors <;> rfl
  simp [choice, hbranches, choose]

theorem beginsWith_concat_look (l : Look) (e : Expr) :
    (concat [.look l, e]).beginsWith l = true := by
  rw [concat_look]
  cases e.factors <;> simp [ofFactors, beginsWith]

end Expr

theorem readGroup_of_read {cs : List Char} {e : Expr} (h : read cs = some e) :
    ∃ depth names, readGroup (cs.length + 1) 0 {} [] .start cs = some ⟨⟨e, depth⟩, names, []⟩ := by
  unfold read at h
  split at h
  · rename_i inner names hgroup
    split at h
    · cases h
      exact ⟨inner.depth, names, hgroup⟩
    · cases h
  · cases h

/-- If the pattern is a regular expression on its own, the group around it is closed
right behind it, and the anchor stands before the group. -/
theorem readAnchored?_eq {pattern : String} {e body : Expr}
    (hbody : read pattern.toList = some body) (h : readAnchored? pattern = some e) :
    e = Expr.concat [.look .startText, body] := by
  obtain ⟨depth, names, hgroup⟩ := readGroup_of_read hbody
  obtain ⟨depth', names', hwhole⟩ := readGroup_of_read h
  have htext : "^(?:".toList ++ pattern.toList ++ [')'] =
      '^' :: '(' :: '?' :: ':' :: (pattern.toList ++ [')']) := rfl
  rw [htext, List.length_cons, readGroup_factor ⟨by simp, by simp, by simp, by simp⟩] at hwhole
  have hopening : readOpening {} ('?' :: ':' :: (pattern.toList ++ [')'])) =
      some (.group {}, pattern.toList ++ [')']) := rfl
  change readGroup _ 0 {} [] (GroupPart.start.add ⟨.look .startText, 0⟩)
    ('(' :: '?' :: ':' :: (pattern.toList ++ [')'])) = _ at hwhole
  rw [List.length_cons, readGroup, hopening] at hwhole
  dsimp only at hwhole
  rw [if_neg (by decide)] at hwhole
  split at hwhole
  · rename_i hinner
    cases readGroup_append hgroup hinner
    cases hwhole
    exact Expr.choice_concat_look .startText body
  · cases hwhole

theorem anchored_of_compile? {pattern : String} {prog : Program}
    (hread : read pattern.toList ≠ none) (h : compile? pattern = some prog) :
    prog.anchored = true := by
  obtain ⟨body, hbody⟩ := Option.ne_none_iff_exists'.1 hread
  unfold compile? at h
  split at h
  · rename_i e he
    split at h
    · cases h
      rw [readAnchored?_eq hbody he]
      exact Expr.beginsWith_concat_look .startText body
    · cases h
  · cases h

end Regex

theorem TokenDef.matchLength?_eq_some_iff {name : String} {action : Action}
    {program : Regex.Program} {cs : List Char} {n : Nat} (hanchored : program.anchored = true) :
    (named name action program).matchLength? cs = some n ↔
      0 < n ∧ program.search? cs = some ⟨0, n⟩ := by
  constructor
  · intro h
    obtain ⟨hfound, hpos⟩ := Option.filter_eq_some_iff.1 h
    obtain ⟨⟨start, stop⟩, hspan, rfl⟩ := Option.map_eq_some_iff.1 hfound
    obtain rfl : start = 0 := program.search?_start hanchored hspan
    exact ⟨by simpa using hpos, hspan⟩
  · rintro ⟨hpos, hspan⟩
    have hstop : (program.search? cs).map Regex.Span.stop = some n :=
      Option.map_eq_some_iff.2 ⟨_, hspan, rfl⟩
    exact Option.filter_eq_some_iff.2 ⟨hstop, by simpa using hpos⟩

namespace GrammarDecl

theorem exists_compiles {decls : List TokenDecl} {named : List TokenDef} {decl : TokenDecl}
    (h : List.Forall₂ Compiles decls named) (hdecl : decl ∈ decls) :
    ∃ token ∈ named, Compiles decl token := by
  induction h with
  | nil => cases hdecl
  | cons hfirst _ ih =>
      rcases List.mem_cons.1 hdecl with rfl | hdecl
      · exact ⟨_, List.mem_cons_self, hfirst⟩
      · obtain ⟨token, htoken, hcompiles⟩ := ih hdecl
        exact ⟨token, List.mem_cons_of_mem _ htoken, hcompiles⟩

/-- Tokens are looked for at the front of a text. A declared token whose pattern is a regular
expression on its own matches a word just if its program finds a match there that begins at
the front and ends with the word. -/
theorem match_begins_at_front {d : GrammarDecl} {g : Grammar} (hg : d.build = .ok g)
    {decl : TokenDecl} (hdecl : decl ∈ d.tokens) (hread : Regex.read decl.pattern.toList ≠ none) :
    ∃ program, Regex.compile? decl.pattern = some program ∧
      .named decl.name decl.action program ∈ g.tokens ∧
      ∀ cs n, (TokenDef.named decl.name decl.action program).matchLength? cs = some n ↔
        0 < n ∧ program.search? cs = some ⟨0, n⟩ := by
  obtain ⟨named, htokens, hnamed⟩ := tokens_of_build hg
  obtain ⟨_, htoken, program, hcompile, rfl⟩ := exists_compiles hnamed hdecl
  have hanchored := Regex.anchored_of_compile? hread hcompile
  refine ⟨program, hcompile, ?_, fun cs n => TokenDef.matchLength?_eq_some_iff hanchored⟩
  rw [htokens]
  exact List.mem_append_right _ htoken

/-- Tokens with two branches. -/
def branching : GrammarDecl where
  name := "Branching"
  rules := []
  tokens := [⟨"T", "a|bc", .emit⟩]

def branchingProgram : Regex.Program where
  code := #[.look .startText, .fork 2 4, .read ⟨[(97, 97)]⟩, .jump 6, .read ⟨[(98, 98)]⟩,
    .read ⟨[(99, 99)]⟩, .accept]
  anchored := true

/-- The anchor is before both branches: in `bca` the second is found at the front, and not
the first behind it. -/
theorem match_begins_at_front_branching :
    branching.build = .ok ⟨"Branching", [], [.named "T" .emit branchingProgram]⟩ ∧
      Regex.read "a|bc".toList ≠ none ∧
      (TokenDef.named "T" .emit branchingProgram).matchLength? "bca".toList = some 2 ∧
      branchingProgram.search? "bca".toList = some ⟨0, 2⟩ := by
  have hbuild : branching.build =
      .ok ⟨"Branching", [], [.named "T" .emit branchingProgram]⟩ := by decide
  have hread : Regex.read "a|bc".toList ≠ none := by decide
  have hmatch : (TokenDef.named "T" .emit branchingProgram).matchLength? "bca".toList = some 2 := by
    decide
  obtain ⟨program, _, hmem, hfront⟩ :=
    match_begins_at_front hbuild (List.mem_singleton_self _) hread
  obtain rfl : program = branchingProgram := by simpa using hmem
  exact ⟨hbuild, hread, hmatch, ((hfront _ _).1 hmatch).2⟩

/-- A token whose pattern closes the group around it and opens another. -/
def straying : GrammarDecl where
  name := "Straying"
  rules := []
  tokens := [⟨"T", "a)|(?:b", .emit⟩]

def strayingProgram : Regex.Program where
  code := #[.fork 1 4, .look .startText, .read ⟨[(97, 97)]⟩, .jump 5, .read ⟨[(98, 98)]⟩, .accept]
  anchored := false

/-- The anchor is before the first branch only: in `xxb` the second is found behind two
characters, and these become part of the word. -/
theorem match_begins_behind_front :
    straying.build = .ok ⟨"Straying", [], [.named "T" .emit strayingProgram]⟩ ∧
      (TokenDef.named "T" .emit strayingProgram).matchLength? "xxb".toList = some 3 ∧
      strayingProgram.search? "xxb".toList = some ⟨2, 3⟩ ∧
      (⟨"Straying", [], [.named "T" .emit strayingProgram]⟩ : Grammar).lex "xxb" =
        .ok [.word 1 "xxb"] := by
  decide

end GrammarDecl

end Stencil
