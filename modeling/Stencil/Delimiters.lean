/-!
Tag delimiters and the escape that makes a delimiter literal.
-/

namespace Stencil

/-- Why a choice of delimiters is refused. -/
inductive DelimiterError where
  | emptyStart
  | emptyStop
  | identical (delimiter : String)
  deriving DecidableEq, Repr

def DelimiterError.message : DelimiterError → String
  | .emptyStart => "start delimiter cannot be empty"
  | .emptyStop => "stop delimiter cannot be empty"
  | .identical d => "start and stop delimiters must differ: '" ++ d ++ "'"

/-- The two delimiters are nonempty and different; an empty escape means that
no delimiter can be escaped. -/
structure Delimiters where
  start : String
  stop : String
  escape : String
  start_ne_empty : start ≠ ""
  stop_ne_empty : stop ≠ ""
  start_ne_stop : start ≠ stop
  deriving DecidableEq

namespace Delimiters

def make (start stop escape : String) : Except DelimiterError Delimiters :=
  if hs : start = "" then .error .emptyStart
  else if ht : stop = "" then .error .emptyStop
  else if h : start = stop then .error (.identical start)
  else .ok ⟨start, stop, escape, hs, ht, h⟩

/-- Angle brackets, escaped by a backslash. -/
def standard : Delimiters :=
  ⟨"<", ">", "\\", by decide, by decide, by decide⟩

theorem make_eq_ok_iff {start stop escape : String} {d : Delimiters} :
    make start stop escape = .ok d ↔
      d.start = start ∧ d.stop = stop ∧ d.escape = escape := by
  constructor
  · intro h
    unfold make at h
    split at h
    · cases h
    · split at h
      · cases h
      · split at h
        · cases h
        · cases h
          exact ⟨rfl, rfl, rfl⟩
  · rintro ⟨rfl, rfl, rfl⟩
    simp [make, d.start_ne_empty, d.stop_ne_empty, d.start_ne_stop]

end Delimiters

end Stencil
