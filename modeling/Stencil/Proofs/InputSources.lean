import Stencil.Command.Run
import Stencil.Proofs.Blanks

/-!
Where the input of a match comes from. It is an operand, or else it is read from the standard
input, and then it loses the line ends at its end. A line end is a blank, and blanks at the
end of a statement are not seen.

Main statement: a run with the input as an operand and a run with it on the standard input
have the same report.
-/

namespace Stencil.Command

/-! ### The text of the standard input -/

theorem fromUTF8?_toUTF8 (text : String) : String.fromUTF8? text.toUTF8 = some text := by
  rw [String.fromUTF8?, String.toUTF8_eq_toByteArray, dif_pos text.isValidUTF8]
  rfl

/-- All that is lost of a text is line ends. -/
theorem exists_inputText? (input : String) : ∃ text tail,
    inputText? input.toUTF8 = some text ∧ input = text ++ String.ofList tail ∧
      ∀ c ∈ tail, c = '\n' := by
  refine ⟨String.ofList (input.toList.reverse.dropWhile (· == '\n')).reverse,
    (input.toList.reverse.takeWhile (· == '\n')).reverse, ?_, ?_, ?_⟩
  · rw [inputText?, fromUTF8?_toUTF8, Option.map_some]
  · rw [← String.ofList_append, ← List.reverse_append, List.takeWhile_append_dropWhile,
      List.reverse_reverse, String.ofList_toList]
  · intro c hc
    rw [List.mem_reverse] at hc
    have hnewline := List.mem_takeWhile_imp hc
    exact eq_of_beq hnewline

/-- The line ends that are lost make no difference. -/
theorem exists_reportMatch_eq (notes : List Note) (p : Pattern) (input : String) :
    ∃ text, inputText? input.toUTF8 = some text ∧
      reportMatch Statement.grammar notes p text = reportMatch Statement.grammar notes p input := by
  obtain ⟨text, tail, htext, rfl, htail⟩ := exists_inputText? input
  have hblanks : ∀ c ∈ tail, Statement.blanks.mem c = true := by
    intro c hc
    rw [htail c hc]
    decide
  refine ⟨text, htext, ?_⟩
  rw [reportMatch, reportMatch, Statement.parseText_append_tail hblanks]

/-! ### Runs -/

/-- The report of a run on a standard input. -/
def Run.reportOn (stdin : ByteArray) : Run → Report
  | .done report => report
  | .needsInput next => next stdin

theorem run_eq (args : List String) (stdin : ByteArray) :
    run args stdin = (start args).reportOn stdin := by
  rw [run]
  cases start args <;> rfl

theorem reportOn_runMatch (notes : List Note) (p : Pattern) (input : String) (stdin : ByteArray) :
    (runMatch Statement.grammar notes p (some input)).reportOn stdin =
      (runMatch Statement.grammar notes p none).reportOn input.toUTF8 := by
  obtain ⟨text, htext, hreport⟩ := exists_reportMatch_eq notes p input
  rw [runMatch, runMatch, Run.reportOn, Run.reportOn, htext]
  exact hreport.symm

/-! ### What is asked for -/

/-- The value of an option in a run. Only the log filter may be given before the
subcommand. -/
def valueOf (outer inner : Given) : Opt → Option String
  | .logLevel => (inner.option? .logLevel).or (outer.option? .logLevel)
  | o => inner.option? o

/-- The arguments ask for a match with these options and operands. -/
def AsksMatch (args : List String) (options : Opt → Option String) (operands : List String) :
    Prop :=
  ∃ outer inner, readArguments args = .run .matching outer inner ∧
    valueOf outer inner = options ∧ inner.operands.reverse = operands

def Opt.all : List Opt := [.logLevel, .start, .stop, .escape, .rule]

/-- The options and operands as they are read from a line that has them all behind the
subcommand. -/
def givenOf (options : Opt → Option String) (operands : List String) : Given :=
  ⟨Opt.all.filterMap fun o => (options o).map (o, ·), operands.reverse⟩

theorem lookup_filterMap (options : Opt → Option String) (os : List Opt) (o : Opt) :
    (os.filterMap fun o => (options o).map (o, ·)).lookup o =
      if o ∈ os then options o else none := by
  induction os with
  | nil => rfl
  | cons o' os ih =>
      by_cases ho : o = o'
      · subst ho
        cases hvalue : options o with
        | some value => simp [hvalue]
        | none => simp [hvalue, ih]
      · cases hvalue : options o' with
        | some value => simp [hvalue, List.lookup_cons, ho, ih, beq_eq_false_iff_ne.2 ho]
        | none => simp [hvalue, ho, ih]

theorem option?_givenOf (options : Opt → Option String) (operands : List String) (o : Opt) :
    (givenOf options operands).option? o = options o := by
  have hall : o ∈ Opt.all := by cases o <;> decide
  rw [Given.option?, givenOf, lookup_filterMap, if_pos hall]

theorem runCommand_congr {c : Subcommand} {filter : LogFilter} {inner inner' : Given}
    (hoptions : ∀ o, o ≠ .logLevel → inner.option? o = inner'.option? o)
    (hoperands : inner.operands = inner'.operands) :
    runCommand c filter inner = runCommand c filter inner' := by
  simp only [runCommand, delimitersOf, hoperands, hoptions .start (by decide),
    hoptions .stop (by decide), hoptions .escape (by decide), hoptions .rule (by decide)]

/-- What a match does depends on the values of the options and on the operands. -/
theorem start_eq {args : List String} {options : Opt → Option String} {operands : List String}
    (h : AsksMatch args options operands) :
    start args =
      match filterOf {} (givenOf options operands) with
      | .ok filter => runCommand .matching filter (givenOf options operands)
      | .error _ => .done { ending := .brokenFilter } := by
  obtain ⟨outer, inner, hread, rfl, rfl⟩ := h
  have hfilter : filterOf outer inner =
      filterOf {} (givenOf (valueOf outer inner) inner.operands.reverse) := by
    rw [filterOf, filterOf, option?_givenOf]
    have hnone : Given.option? {} .logLevel = none := rfl
    rw [hnone, Option.or_none]
    rfl
  have hrun (filter : LogFilter) : runCommand .matching filter inner =
      runCommand .matching filter (givenOf (valueOf outer inner) inner.operands.reverse) := by
    refine runCommand_congr (fun o ho => ?_) (List.reverse_reverse _).symm
    rw [option?_givenOf]
    cases o with
    | logLevel => exact absurd rfl ho
    | _ => rfl
  rw [start, hread, ← hfilter]
  dsimp only
  cases filterOf outer inner with
  | error flaw => rfl
  | ok filter => exact hrun filter

/-! ### Lines that ask for it -/

def Opt.name : Opt → String
  | .logLevel => "log-level"
  | .start => "start"
  | .stop => "stop"
  | .escape => "escape"
  | .rule => "rule"

/-- An option and its value in one argument. -/
def Opt.written (o : Opt) (value : String) : String :=
  "--" ++ o.name ++ "=" ++ value

theorem shapeOf_written (o : Opt) (value : String) :
    shapeOf (o.written value) = .long o.name (some value) := by
  cases o <;> simp [shapeOf, Opt.written, Opt.name]

/-- The line that has all options behind the subcommand. Two hyphens before the operands keep
them from being read as options. -/
def matchLine (options : Opt → Option String) (operands : List String) : List String :=
  "match" :: ((givenOf options operands).options.reverse.map fun o => o.1.written o.2) ++
    "--" :: operands

theorem readInner_written {g : Given} {o : Opt} {value : String} (h : g.option? o = none)
    (outer : Given) (rest : List String) :
    readInner .matching outer g (o.written value :: rest) =
      readInner .matching outer { g with options := (o, value) :: g.options } rest := by
  have hset : g.setOption? o value = some { g with options := (o, value) :: g.options } := by
    simp [Given.setOption?, h]
  have hname : Subcommand.matching.longOption? o.name = some o := by cases o <;> rfl
  rw [readInner, shapeOf_written]
  simp [hname, hset]

/-- Options are read one after the other, as long as none is given twice. -/
theorem readInner_options {os : List (Opt × String)} (hdistinct : (os.map Prod.fst).Nodup)
    {g : Given} (hnew : ∀ o ∈ os, g.option? o.1 = none) (outer : Given) (rest : List String) :
    readInner .matching outer g ((os.map fun o => o.1.written o.2) ++ rest) =
      readInner .matching outer { g with options := os.reverse ++ g.options } rest := by
  induction os generalizing g with
  | nil => rfl
  | cons o os ih =>
      obtain ⟨hfirst, hdistinct⟩ := List.nodup_cons.1 hdistinct
      obtain ⟨hnone, hnew⟩ := List.forall_mem_cons.1 hnew
      have hnext : ∀ o' ∈ os,
          Given.option? { g with options := (o.1, o.2) :: g.options } o'.1 = none := by
        intro o' ho'
        have hne : o'.1 ≠ o.1 := fun heq => hfirst (heq ▸ List.mem_map_of_mem ho')
        have hold : g.options.lookup o'.1 = none := hnew o' ho'
        rw [Given.option?, List.lookup_cons, beq_eq_false_iff_ne.2 hne]
        exact hold
      rw [List.map_cons, List.cons_append, readInner_written hnone, ih hdistinct hnext]
      simp

theorem addOperands?_eq_some {g : Given} {max : Nat} {operands : List String}
    (h : g.operands.length + operands.length ≤ max) :
    g.addOperands? max operands = some { g with operands := operands.reverse ++ g.operands } := by
  induction operands generalizing g with
  | nil => rfl
  | cons operand operands ih =>
      rw [List.length_cons] at h
      have hadd : g.addOperand? max operand =
          some { g with operands := operand :: g.operands } := by
        rw [Given.addOperand?, if_pos (by omega)]
      rw [Given.addOperands?, hadd]
      dsimp only
      rw [ih (by simp only [List.length_cons]; omega)]
      simp

theorem readInner_terminator {g : Given} (hg : g.operands = []) {operands : List String}
    (hne : operands ≠ []) (hlength : operands.length ≤ 2) (outer : Given) :
    readInner .matching outer g ("--" :: operands) =
      .run .matching outer { g with operands := operands.reverse } := by
  have hadd : g.addOperands? Subcommand.matching.maxOperands operands =
      some { g with operands := operands.reverse } := by
    rw [addOperands?_eq_some (by simpa [hg, Subcommand.maxOperands] using hlength), hg, List.append_nil]
  have hshape : shapeOf "--" = .terminator := rfl
  rw [readInner, hshape]
  simp [hadd, hne]

theorem nodup_givenOf (options : Opt → Option String) (operands : List String) :
    ((givenOf options operands).options.map Prod.fst).Nodup := by
  have hall : Opt.all.Nodup := by decide
  rw [givenOf, List.map_filterMap]
  refine hall.filterMap ?_
  intro o o' k hk hk'
  simp only [Option.map_map, Option.mem_def, Option.map_eq_some_iff] at hk hk'
  obtain ⟨_, _, rfl⟩ := hk
  obtain ⟨_, _, ho⟩ := hk'
  exact ho.symm

/-- Whatever the options and operands are, there is a line that asks for them. -/
theorem asksMatch_matchLine (options : Opt → Option String) {operands : List String}
    (hne : operands ≠ []) (hlength : operands.length ≤ 2) :
    AsksMatch (matchLine options operands) options operands := by
  have hread : readArguments (matchLine options operands) =
      .run .matching {} (givenOf options operands) := by
    have hcommand (rest : List String) :
        readArguments ("match" :: rest) = readInner .matching {} {} rest := rfl
    have hdistinct : ((givenOf options operands).options.reverse.map Prod.fst).Nodup := by
      rw [List.map_reverse, List.nodup_reverse]
      exact nodup_givenOf options operands
    rw [matchLine, List.cons_append, hcommand, readInner_options hdistinct (fun _ _ => rfl),
      readInner_terminator rfl hne hlength, List.reverse_reverse, List.append_nil]
    rfl
  refine ⟨{}, givenOf options operands, hread, ?_, List.reverse_reverse operands⟩
  funext o
  rw [← option?_givenOf options operands o]
  cases o with
  | logLevel => exact Option.or_none
  | _ => rfl

/-! ### Both ways -/

theorem reportOn_runCommand (filter : LogFilter) (options : Opt → Option String)
    (pattern input : String) (stdin : ByteArray) :
    (runCommand .matching filter (givenOf options [pattern, input])).reportOn stdin =
      (runCommand .matching filter (givenOf options [pattern])).reportOn input.toUTF8 := by
  have hdelimiters : delimitersOf (givenOf options [pattern, input]) =
      delimitersOf (givenOf options [pattern]) := rfl
  have hrule : (givenOf options [pattern, input]).option? .rule =
      (givenOf options [pattern]).option? .rule := rfl
  have hoperands : (givenOf options [pattern, input]).operands.reverse = [pattern, input] := rfl
  have hoperands' : (givenOf options [pattern]).operands.reverse = [pattern] := rfl
  simp only [runCommand, hdelimiters, hrule, hoperands, hoperands', Statement.build_statements]
  cases delimitersOf (givenOf options [pattern]) with
  | error e => rfl
  | ok d =>
      dsimp only [List.head?_cons, Option.getD_some]
      cases Pattern.compileNamed Statement.grammar.language d pattern
          (((givenOf options [pattern]).option? .rule).getD "stat") with
      | error e => rfl
      | ok p => exact reportOn_runMatch _ p input stdin

/-- For any options, pattern and input there are lines that ask for a match, with the input
among the operands and without it. The report of a run with such a line is the same if the
second one has the input on its standard input: the output, the text of the error and the
status. -/
theorem run_input_eq_run_stdin (options : Opt → Option String) (pattern input : String) :
    (∃ args, AsksMatch args options [pattern, input]) ∧
    (∃ args, AsksMatch args options [pattern]) ∧
    ∀ args args', AsksMatch args options [pattern, input] → AsksMatch args' options [pattern] →
      ∀ stdin, run args stdin = run args' input.toUTF8 := by
  refine ⟨⟨_, asksMatch_matchLine options (by simp) (by simp)⟩,
    ⟨_, asksMatch_matchLine options (by simp) (by simp)⟩, ?_⟩
  intro args args' h h' stdin
  have hfilter : filterOf {} (givenOf options [pattern, input]) =
      filterOf {} (givenOf options [pattern]) := rfl
  rw [run_eq, run_eq, start_eq h, start_eq h', hfilter]
  cases filterOf {} (givenOf options [pattern]) with
  | error flaw => rfl
  | ok filter => exact reportOn_runCommand filter options pattern input stdin

def onlyRule : Opt → Option String
  | .rule => some "expr"
  | _ => none

theorem run_input_eq_run_stdin_lineEnds :
    AsksMatch ["match", "<e:expr>+1", "2+1\n\n", "-rexpr"] onlyRule ["<e:expr>+1", "2+1\n\n"] ∧
      AsksMatch ["match", "--rule=expr", "--", "<e:expr>+1"] onlyRule ["<e:expr>+1"] ∧
      run ["match", "<e:expr>+1", "2+1\n\n", "-rexpr"] .empty =
        run ["match", "--rule=expr", "--", "<e:expr>+1"] "2+1\n\n".toUTF8 ∧
      (run ["match", "--rule=expr", "--", "<e:expr>+1"] "2+1\n\n".toUTF8).output =
        "(expr (expr 2) + (expr 1))\nMatch succeeded; found 2 labels\n  expr = [2]\n  e = [2]\n" := by
  have h : AsksMatch ["match", "<e:expr>+1", "2+1\n\n", "-rexpr"] onlyRule
      ["<e:expr>+1", "2+1\n\n"] :=
    ⟨{}, ⟨[(.rule, "expr")], ["2+1\n\n", "<e:expr>+1"]⟩, by decide +kernel,
      by funext o; cases o <;> rfl, rfl⟩
  have h' : AsksMatch ["match", "--rule=expr", "--", "<e:expr>+1"] onlyRule ["<e:expr>+1"] :=
    ⟨{}, ⟨[(.rule, "expr")], ["<e:expr>+1"]⟩, by decide +kernel, by funext o; cases o <;> rfl, rfl⟩
  obtain ⟨_, _, hreport⟩ := run_input_eq_run_stdin onlyRule "<e:expr>+1" "2+1\n\n"
  refine ⟨h, h', hreport _ _ h h' _, ?_⟩
  rw [← hreport _ _ h h' .empty]
  decide +kernel

end Stencil.Command
