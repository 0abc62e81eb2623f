import Stencil.Regex.Search

/-!
Searching for repetitions. Two programs are considered, for `^[a][b]*` and
`^[a]+`, with any two sets of characters.

Main statement: such a program finds the longest run of characters it can read,
and nothing if it cannot read the first one.
-/

namespace Stencil.Regex

/-- No address was entered after the place with `pos` characters before it. -/
def Marks.Before (marks : Marks) (pos : Nat) : Prop :=
  ∀ (i k : Nat), marks[i]? = some k → k ≤ pos

namespace Marks.Before

variable {marks : Marks} {pos : Nat}

theorem ne (h : marks.Before pos) (i : Nat) : marks[i]? ≠ some (pos + 1) := by
  intro hmark
  have hle := h i (pos + 1) hmark
  omega

theorem succ (h : marks.Before pos) : marks.Before (pos + 1) := by
  intro i k hk
  have hle := h i k hk
  omega

theorem set {i : Nat} (h : marks.Before (pos + 1)) :
    Marks.Before (marks.setIfInBounds i (pos + 1)) (pos + 1) := by
  intro j k hk
  rw [Array.getElem?_setIfInBounds] at hk
  split at hk
  · split at hk
    · cases hk
      exact Nat.le_refl _
    · cases hk
  · exact h j k hk

end Marks.Before

namespace Program

/-- Reads a member of `a` and then members of `b` as long as there are some. -/
def leading (a b : CharSet) : Program :=
  ⟨#[.look .startText, .read a, .fork 3 5, .read b, .jump 2, .accept], true⟩

/-- Reads members of `a` as long as there are some, and at least one. -/
def repeating (a : CharSet) : Program :=
  ⟨#[.look .startText, .read a, .fork 1 3, .accept], true⟩

variable {prog : Program} {s : CharSet} {q pc pos : Nat} {prev : Option Char}
  {found : Option Span} {marks : Marks} {cs : List Char}

/-- From address `pc` the program comes to address `q`, where it reads, and else
accepts. -/
def Repeats (prog : Program) (q pc : Nat) : Prop :=
  ∀ (place : Place) (marks : Marks), marks.Before place.pos →
    ∃ marks' : Marks, marks'.Before (place.pos + 1) ∧
      prog.live place [⟨pc, 0⟩] marks = ⟨#[⟨q, 0⟩], some 0, marks'⟩

theorem seeds_of_pos (hanchored : prog.anchored = true) (hpos : 0 < pos)
    (threads : List Thread) : prog.seeds threads found pos = threads := by
  have hne : pos ≠ 0 := Nat.ne_of_gt hpos
  simp [seeds, mayBegin, hanchored, hne]

/-- A search without threads is over, if no match may begin any more. -/
theorem searchFrom_nil (hanchored : prog.anchored = true) (hpos : 0 < pos) :
    prog.searchFrom prev [] found pos marks cs = found := by
  have hne : pos ≠ 0 := Nat.ne_of_gt hpos
  cases cs with
  | nil =>
      rw [searchFrom, seeds_of_pos hanchored hpos]
      rfl
  | cons c cs => simp [searchFrom, mayBegin, hanchored, hne]

theorem searchFrom_repeats (hanchored : prog.anchored = true) (hq : prog.code[q]? = some (.read s))
    (hpc : prog.Repeats q pc) (hback : prog.Repeats q (q + 1)) (hpos : 0 < pos)
    (hmarks : marks.Before pos) :
    prog.searchFrom prev [⟨pc, 0⟩] found pos marks cs =
      some ⟨0, pos + (cs.takeWhile s.mem).length⟩ := by
  induction cs generalizing pc prev found pos marks with
  | nil =>
      obtain ⟨marks', _, hlive⟩ := hpc ⟨pos, prev, none⟩ marks hmarks
      rw [searchFrom, seeds_of_pos hanchored hpos, hlive]
      rfl
  | cons c cs ih =>
      obtain ⟨marks', hmarks', hlive⟩ := hpc ⟨pos, prev, some c⟩ marks hmarks
      rw [searchFrom, seeds_of_pos hanchored hpos, hlive]
      by_cases hc : s.mem c = true
      · -- the match found here is given up for a longer one
        have hstep : prog.step c #[⟨q, 0⟩] = [⟨q + 1, 0⟩] := by simp [step, hq, hc]
        simp only [hstep, List.isEmpty_cons, Bool.false_and, Bool.false_eq_true, if_false]
        rw [ih hback (Nat.succ_pos pos) hmarks', List.takeWhile_cons, if_pos hc, List.length_cons]
        congr 2
        omega
      · have hstep : prog.step c #[⟨q, 0⟩] = [] := by simp [step, hq, hc]
        simp only [hstep, List.isEmpty_cons, Bool.false_and, Bool.false_eq_true, if_false]
        rw [searchFrom_nil hanchored (Nat.succ_pos _), List.takeWhile_cons, if_neg hc]
        rfl

/-! ### The two programs -/

/-- The marks after some addresses were entered. -/
def enter (addresses : List Nat) (pos : Nat) (marks : Marks) : Marks :=
  addresses.foldl (fun marks i => marks.setIfInBounds i (pos + 1)) marks

theorem enter_cons (i : Nat) (addresses : List Nat) :
    enter (i :: addresses) pos marks = enter addresses pos (marks.setIfInBounds i (pos + 1)) :=
  rfl

theorem before_enter (addresses : List Nat) (h : marks.Before (pos + 1)) :
    Marks.Before (enter addresses pos marks) (pos + 1) := by
  induction addresses generalizing marks with
  | nil => exact h
  | cons i addresses ih => exact ih h.set

theorem follow_fork {place : Place} {out : Nat} (n : Nat)
    (hfork : prog.code[pc]? = some (.fork q out)) (hq : prog.code[q]? = some (.read s))
    (hout : prog.code[out]? = some .accept)
    (hmarks : ∀ i ∈ [pc, q, out], marks[i]? ≠ some (place.pos + 1)) :
    prog.follow place (n + 3) [⟨pc, 0⟩] #[] marks =
      ⟨#[⟨q, 0⟩], some 0, enter [pc, q, out] place.pos marks⟩ := by
  have hpq : pc ≠ q := by
    rintro rfl
    simp [hfork] at hq
  have hpo : pc ≠ out := by
    rintro rfl
    simp [hfork] at hout
  have hqo : q ≠ out := by
    rintro rfl
    simp [hq] at hout
  have hmarkPc := hmarks pc (by simp)
  have hmarkQ := hmarks q (by simp)
  have hmarkOut := hmarks out (by simp)
  simp [follow, enter, hfork, hq, hout, hmarkPc, hmarkQ, hmarkOut, hpq, hpo, hqo,
    Array.getElem?_setIfInBounds_ne]

/-- A fork between reading and accepting. -/
theorem repeats_fork {out : Nat} (hfork : prog.code[pc]? = some (.fork q out))
    (hq : prog.code[q]? = some (.read s)) (hout : prog.code[out]? = some .accept) :
    prog.Repeats q pc := by
  intro place marks hmarks
  have hsize : 0 < prog.code.size := Nat.zero_lt_of_lt (Array.getElem?_eq_some_iff.1 hfork).1
  refine ⟨_, before_enter [pc, q, out] hmarks.succ, ?_⟩
  rw [live, show [Thread.mk pc 0].length + 2 * prog.code.size + 1 =
    2 * prog.code.size - 1 + 3 by simp; omega]
  exact follow_fork _ hfork hq hout fun i _ => hmarks.ne i

/-- A jump to such a fork. -/
theorem repeats_jump {j out : Nat} (hjump : prog.code[j]? = some (.jump pc))
    (hfork : prog.code[pc]? = some (.fork q out))
    (hq : prog.code[q]? = some (.read s)) (hout : prog.code[out]? = some .accept) :
    prog.Repeats q j := by
  intro place marks hmarks
  have hsize : 0 < prog.code.size := Nat.zero_lt_of_lt (Array.getElem?_eq_some_iff.1 hfork).1
  have hother : ∀ i ∈ [pc, q, out], j ≠ i := by
    rintro i hi rfl
    simp at hi
    rcases hi with rfl | rfl | rfl <;> simp_all
  refine ⟨_, before_enter [j, pc, q, out] hmarks.succ, ?_⟩
  have hmarks' : ∀ i ∈ [pc, q, out],
      (marks.setIfInBounds j (place.pos + 1))[i]? ≠ some (place.pos + 1) := by
    intro i hi
    rw [Array.getElem?_setIfInBounds_ne (hother i hi)]
    exact hmarks.ne i
  have hfollow := follow_fork (2 * prog.code.size - 2) hfork hq hout hmarks'
  rw [live, show [Thread.mk j 0].length + 2 * prog.code.size + 1 =
    2 * prog.code.size - 2 + 3 + 1 by simp; omega, follow, if_neg (hmarks.ne j), hjump,
    enter_cons]
  exact hfollow

/-- At the start of a text an anchored program comes to its first set. -/
theorem live_start {a : CharSet} {next : Option Char}
    (hlook : prog.code[0]? = some (.look .startText)) (hread : prog.code[1]? = some (.read a))
    (hmarks : marks.Before 0) :
    prog.live ⟨0, none, next⟩ [⟨0, 0⟩] marks = ⟨#[⟨1, 0⟩], none, enter [0, 1] 0 marks⟩ := by
  have hsize : 0 < prog.code.size := Nat.zero_lt_of_lt (Array.getElem?_eq_some_iff.1 hlook).1
  have hzero := hmarks.ne 0
  have hone := hmarks.ne 1
  rw [live, show [Thread.mk 0 0].length + 2 * prog.code.size + 1 =
    2 * prog.code.size - 1 + 3 by simp; omega]
  simp [follow, enter, hlook, hread, hzero, hone, Look.holds, Array.getElem?_setIfInBounds_ne]

/-- A program that reads one character at the start of a text, and then repeats. -/
theorem search?_of_repeats {a : CharSet} (hanchored : prog.anchored = true)
    (hlook : prog.code[0]? = some (.look .startText)) (hread : prog.code[1]? = some (.read a))
    (hq : prog.code[q]? = some (.read s)) (hfirst : prog.Repeats q 2)
    (hback : prog.Repeats q (q + 1)) (c : Char) (cs : List Char) :
    prog.search? (c :: cs) =
      if a.mem c then some ⟨0, 1 + (cs.takeWhile s.mem).length⟩ else none := by
  have hmarks : Marks.Before (Array.replicate prog.code.size 0) 0 := by
    intro i k hk
    rw [Array.getElem?_replicate] at hk
    split at hk
    · cases hk
      exact Nat.le_refl 0
    · cases hk
  have hseeds : prog.seeds [] none 0 = [⟨0, 0⟩] := rfl
  rw [search?, searchFrom, hseeds, live_start hlook hread hmarks]
  by_cases hc : a.mem c = true
  · have hstep : prog.step c #[⟨1, 0⟩] = [⟨2, 0⟩] := by simp [step, hread, hc]
    rw [if_pos hc]
    simp only [hstep]
    exact searchFrom_repeats hanchored hq hfirst hback Nat.one_pos (before_enter [0, 1] hmarks.succ)
  · have hstep : prog.step c #[⟨1, 0⟩] = [] := by simp [step, hread, hc]
    rw [if_neg hc]
    simp only [hstep]
    exact searchFrom_nil hanchored Nat.one_pos

theorem search?_leading (a b : CharSet) (c : Char) (cs : List Char) :
    (leading a b).search? (c :: cs) =
      if a.mem c then some ⟨0, 1 + (cs.takeWhile b.mem).length⟩ else none :=
  search?_of_repeats rfl rfl rfl rfl (repeats_fork rfl rfl rfl) (repeats_jump rfl rfl rfl rfl) c cs

theorem search?_repeating (a : CharSet) (c : Char) (cs : List Char) :
    (repeating a).search? (c :: cs) =
      if a.mem c then some ⟨0, 1 + (cs.takeWhile a.mem).length⟩ else none :=
  search?_of_repeats rfl rfl rfl rfl (repeats_fork rfl rfl rfl) (repeats_fork rfl rfl rfl) c cs

end Program

end Stencil.Regex
