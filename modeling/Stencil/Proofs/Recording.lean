import Mathlib.Data.List.Induction
import Stencil.Proofs.Declarations
import Stencil.Proofs.Mismatches

/-!
Labels as a log. What is recorded, one tree after the other, is a log of labels and trees.
The labels group it: each label stands where it was recorded first, with all trees that were
recorded under it.

Main statement: all that can be asked of labels is answered by their log, and a match adds
its captures to the log, whether it succeeds or not.
-/

namespace Stencil

/-- The labels of a log, each where it was recorded first. -/
def labelsOf (log : List (String × Tree)) : List String :=
  (log.map Prod.fst).eraseDups

/-- The trees that a log has under a label. -/
def under (label : String) (log : List (String × Tree)) : List Tree :=
  (log.filter (·.1 = label)).map Prod.snd

/-! ### One more entry -/

theorem mem_labelsOf {label : String} {log : List (String × Tree)} :
    label ∈ labelsOf log ↔ label ∈ log.map Prod.fst :=
  List.mem_eraseDups

theorem nodup_labelsOf (log : List (String × Tree)) : (labelsOf log).Nodup :=
  nodup_eraseDups _

theorem labelsOf_append (log log' : List (String × Tree)) :
    labelsOf (log ++ log') =
      labelsOf log ++ ((log'.map Prod.fst).removeAll (log.map Prod.fst)).eraseDups := by
  rw [labelsOf, List.map_append, List.eraseDups_append, labelsOf]

theorem labelsOf_append_singleton (log : List (String × Tree)) (label : String) (tree : Tree) :
    labelsOf (log ++ [(label, tree)]) =
      if label ∈ labelsOf log then labelsOf log else labelsOf log ++ [label] := by
  rw [labelsOf_append]
  by_cases hlabel : label ∈ log.map Prod.fst
  · rw [if_pos (mem_labelsOf.2 hlabel)]
    simp [List.removeAll, hlabel]
  · rw [if_neg (mt mem_labelsOf.1 hlabel)]
    simp [List.removeAll, hlabel, List.eraseDups_cons]

theorem under_append (label : String) (log log' : List (String × Tree)) :
    under label (log ++ log') = under label log ++ under label log' := by
  rw [under, List.filter_append, List.map_append, under, under]

theorem under_singleton (label key : String) (tree : Tree) :
    under key [(label, tree)] = if key = label then [tree] else [] := by
  by_cases h : label = key
  · simp [under, h]
  · simp [under, h, Ne.symm h]

theorem under_eq_nil_iff {label : String} {log : List (String × Tree)} :
    under label log = [] ↔ label ∉ log.map Prod.fst := by
  rw [under, List.map_eq_nil_iff, List.filter_eq_nil_iff, List.mem_map]
  simp only [decide_eq_true_eq, not_exists, not_and]

namespace Labels

/-- In a table over distinct keys, recording makes the row of the label longer, or adds it at
the end. -/
theorem recordIn_map {keys : List String} (hkeys : keys.Nodup) {rows : String → List Tree}
    {label : String} (hnew : label ∉ keys → rows label = []) (tree : Tree) :
    recordIn label tree (keys.map fun key => (key, rows key)) =
      (if label ∈ keys then keys else keys ++ [label]).map fun key =>
        (key, rows key ++ if key = label then [tree] else []) := by
  induction keys with
  | nil => simp [recordIn, hnew]
  | cons key keys ih =>
      obtain ⟨hkey, hkeys⟩ := List.nodup_cons.1 hkeys
      rw [List.map_cons, recordIn]
      by_cases hlabel : key = label
      · -- no later row has this label
        subst hlabel
        have hrows : ∀ k ∈ keys, rows k ++ (if k = key then [tree] else []) = rows k := by
          intro k hk
          have hne : k ≠ key := ne_of_mem_of_not_mem hk hkey
          rw [if_neg hne, List.append_nil]
        rw [if_pos rfl, if_pos List.mem_cons_self, List.map_cons, if_pos rfl]
        refine congrArg (_ :: ·) (List.map_congr_left fun k hk => ?_)
        rw [hrows k hk]
      · have hmem : label ∈ key :: keys ↔ label ∈ keys := by simp [Ne.symm hlabel]
        have hrest := ih hkeys fun h => hnew (mt hmem.1 h)
        rw [if_neg hlabel, hrest]
        by_cases hlater : label ∈ keys
        · simp [hlater, hlabel]
        · simp [hmem, hlater, hlabel]

/-- The labels are the log, grouped. -/
theorem entries_recordAll (log : List (String × Tree)) :
    (empty.recordAll log).entries = (labelsOf log).map fun label => (label, under label log) := by
  induction log using List.reverseRecOn with
  | nil => rfl
  | append_singleton log entry ih =>
      obtain ⟨label, tree⟩ := entry
      have hnew : label ∉ labelsOf log → under label log = [] := fun h =>
        under_eq_nil_iff.2 (mt mem_labelsOf.2 h)
      rw [recordAll_append]
      change recordIn label tree (empty.recordAll log).entries = _
      rw [ih, recordIn_map (nodup_labelsOf log) hnew, labelsOf_append_singleton]
      refine List.map_congr_left fun key _ => ?_
      rw [under_append, under_singleton]

/-- How many trees there are under all labels together. -/
def total (ls : Labels) : Nat :=
  (ls.entries.flatMap Prod.snd).length

theorem total_record (ls : Labels) (label : String) (tree : Tree) :
    (ls.record label tree).total = ls.total + 1 := by
  have h (es : List (String × List Tree)) :
      ((recordIn label tree es).flatMap Prod.snd).length = (es.flatMap Prod.snd).length + 1 := by
    induction es with
    | nil => rfl
    | cons entry es ih =>
        obtain ⟨key, trees⟩ := entry
        rw [recordIn, List.flatMap_cons, List.length_append]
        split
        · rw [List.flatMap_cons, List.length_append, List.length_append, List.length_singleton,
            Nat.add_right_comm]
        · rw [List.flatMap_cons, List.length_append, ih, Nat.add_assoc]
  exact h ls.entries

theorem total_recordAll (ls : Labels) (log : List (String × Tree)) :
    (ls.recordAll log).total = ls.total + log.length := by
  induction log generalizing ls with
  | nil => rfl
  | cons entry log ih =>
      change ((ls.record entry.1 entry.2).recordAll log).total = _
      rw [ih, total_record, List.length_cons, Nat.add_right_comm, Nat.add_assoc]

/-! ### What the labels answer -/

/-- Everything that can be asked of the labels is answered as the log would answer it. -/
structure Refines (ls : Labels) (log : List (String × Tree)) : Prop where
  entries : ls.entries = (labelsOf log).map fun label => (label, under label log)
  keys : ls.keys = labelsOf log
  keys_nodup : ls.keys.Nodup
  trees_ne_nil : ∀ entry ∈ ls.entries, entry.2 ≠ []
  get?_eq_none_iff : ∀ label, ls.get? label = none ↔ label ∉ log.map Prod.fst
  get?_eq_some : ∀ label ∈ log.map Prod.fst, ls.get? label = some (under label log)
  contains_iff : ∀ label, ls.contains label = true ↔ label ∈ log.map Prod.fst
  getAll : ∀ label, ls.getAll label = under label log
  getLast? : ∀ label, ls.getLast? label = (under label log).getLast?
  size : ls.size = (labelsOf log).length
  isEmpty_iff : ls.isEmpty = true ↔ log = []
  total : ls.total = log.length

theorem get?_recordAll (log : List (String × Tree)) (label : String) :
    (empty.recordAll log).get? label =
      if label ∈ log.map Prod.fst then some (under label log) else none := by
  rw [get?, entries_recordAll]
  by_cases hlabel : label ∈ log.map Prod.fst
  · rw [if_pos hlabel, List.lookup_graph _ (mem_labelsOf.2 hlabel)]
  · rw [if_neg hlabel, List.lookup_eq_none_iff]
    intro entry hentry
    obtain ⟨key, hkey, rfl⟩ := List.mem_map.1 hentry
    exact bne_iff_ne.2 (ne_of_mem_of_not_mem (mem_labelsOf.1 hkey) hlabel).symm

theorem refines_recordAll (log : List (String × Tree)) : (empty.recordAll log).Refines log := by
  have hkeys : (empty.recordAll log).keys = labelsOf log := by
    rw [keys, entries_recordAll, List.map_map]
    exact List.map_id _
  have hgetAll (label : String) : (empty.recordAll log).getAll label = under label log := by
    rw [getAll, get?_recordAll]
    split
    · rfl
    · rename_i hlabel
      exact (under_eq_nil_iff.2 hlabel).symm
  refine
    { entries := entries_recordAll log
      keys := hkeys
      keys_nodup := hkeys ▸ nodup_labelsOf log
      trees_ne_nil := ?_
      get?_eq_none_iff := fun label => by simp [get?_recordAll]
      get?_eq_some := fun label h => by rw [get?_recordAll, if_pos h]
      contains_iff := fun label => by simp [contains, get?_recordAll]
      getAll := hgetAll
      getLast? := fun label => by rw [getLast?, hgetAll]
      size := by rw [size, entries_recordAll, List.length_map]
      isEmpty_iff := ?_
      total := ?_ }
  · intro entry hentry
    rw [entries_recordAll] at hentry
    obtain ⟨label, hlabel, rfl⟩ := List.mem_map.1 hentry
    exact fun hnil => under_eq_nil_iff.1 hnil (mem_labelsOf.1 hlabel)
  · rw [isEmpty, entries_recordAll]
    cases log with
    | nil => simp [labelsOf]
    | cons entry log => simp [labelsOf, List.eraseDups_cons]
  · rw [total_recordAll]
    exact Nat.zero_add _

/-! ### Captures -/

/-- The captures of a match as a log: each under the name of its tag, and then under its
label. -/
def logOf (caught : List (Tag × Tree)) : List (String × Tree) :=
  caught.flatMap fun c => c.1.log c.2

theorem captureAll_eq_recordAll (ls : Labels) (caught : List (Tag × Tree)) :
    ls.captureAll caught = ls.recordAll (logOf caught) := by
  induction caught generalizing ls with
  | nil => rfl
  | cons c caught ih =>
      rw [captureAll_cons, ih, capture_eq_recordAll, ← recordAll_append]
      rfl

/-- What was recorded before stays in front. -/
theorem keys_recordAll_append (log log' : List (String × Tree)) :
    (empty.recordAll log).keys <+: (empty.recordAll (log ++ log')).keys := by
  rw [(refines_recordAll log).keys, (refines_recordAll (log ++ log')).keys, labelsOf_append]
  exact List.prefix_append _ _

theorem getAll_recordAll_append (log log' : List (String × Tree)) (label : String) :
    (empty.recordAll log).getAll label <+: (empty.recordAll (log ++ log')).getAll label := by
  rw [(refines_recordAll log).getAll, (refines_recordAll (log ++ log')).getAll, under_append]
  exact List.prefix_append _ _

/-- Labels answer for the log of all that was recorded. A match checks one position after the
other, up to the first mismatch if there is one; when it is given labels that hold a log, it
appends what it captures on the way, and all that was there before stays in front. -/
theorem recordAll_answers_log :
    (∀ log, (empty.recordAll log).Refines log) ∧
    ∀ (p : Template) (t : Tree), ∃ bad caught, p.Checks t p.positions (bad, caught) ∧
      ∀ log, p.walk t (empty.recordAll log) = (bad, empty.recordAll (log ++ logOf caught)) ∧
        (empty.recordAll log).keys <+: (p.walk t (empty.recordAll log)).2.keys ∧
        ∀ label, (empty.recordAll log).getAll label <+:
          (p.walk t (empty.recordAll log)).2.getAll label := by
  refine ⟨refines_recordAll, fun p t => ?_⟩
  refine ⟨_, _, Template.checks_positions p t, fun log => ?_⟩
  have hwalk : p.walk t (empty.recordAll log) =
      ((p.trace t).1, empty.recordAll (log ++ logOf (p.trace t).2)) := by
    rw [Template.walk_eq, captureAll_eq_recordAll, recordAll_append]
  rw [hwalk]
  exact ⟨rfl, keys_recordAll_append _ _, getAll_recordAll_append _ _⟩

/-- A tag whose label is its own name has its tree under one key twice, and a mismatch does
not undo it. -/
example :
    let x := Tree.leaf (.word 7 "x")
    let p := Template.node 0 [.tokenHole 7 ⟨"ID", some "ID"⟩, .literal 2 ";"]
    p.walk (.node 0 [x, x]) (empty.record "e" x) = (some x, ⟨[("e", [x]), ("ID", [x, x])]⟩) := by
  decide

end Labels

end Stencil
