import Stencil.Proofs.Derivation

/-!
The token definitions of a built grammar. The literals come first, each where it is
written for the first time, and the named tokens follow as they are declared.
-/

namespace Stencil

/-- Leaving out what came before keeps every member where it comes first. -/
theorem distinct_eq {α : Type} [DecidableEq α] (seen as : List α) :
    distinct seen as = (as.filter (· ∉ seen)).eraseDups := by
  induction as generalizing seen with
  | nil => rfl
  | cons a as ih =>
      by_cases ha : a ∈ seen
      · rw [distinct, if_pos ha, ih, List.filter_cons_of_neg (by simpa using ha)]
      · have hlater : as.filter (· ∉ a :: seen) =
            (as.filter (· ∉ seen)).filter fun b => !b == a := by
          rw [List.filter_filter]
          refine List.filter_congr fun b _ => ?_
          by_cases hb : b = a <;> simp [hb]
        rw [distinct, if_neg ha, ih, List.filter_cons_of_pos (by simpa using ha),
          List.eraseDups_cons, hlater]

theorem nodup_distinct {α : Type} [DecidableEq α] (seen as : List α) :
    (distinct seen as).Nodup ∧ ∀ a ∈ distinct seen as, a ∉ seen := by
  induction as generalizing seen with
  | nil => simp [distinct]
  | cons a as ih =>
      rw [distinct]
      split
      · exact ih seen
      · rename_i ha
        obtain ⟨hnodup, hnew⟩ := ih (a :: seen)
        have hfresh : a ∉ distinct (a :: seen) as := fun hmem => hnew a hmem List.mem_cons_self
        refine ⟨List.nodup_cons.2 ⟨hfresh, hnodup⟩, List.forall_mem_cons.2 ⟨ha, ?_⟩⟩
        intro b hb hseen
        exact hnew b hb (List.mem_cons_of_mem a hseen)

theorem nodup_eraseDups {α : Type} [DecidableEq α] (as : List α) : as.eraseDups.Nodup := by
  have heq : distinct [] as = as.eraseDups := by
    rw [distinct_eq]
    simp
  exact heq ▸ (nodup_distinct [] as).1

/-- A list has no repeated member if all its members differ and none was seen before. -/
theorem firstRepeated?_eq_none_iff {α : Type} [DecidableEq α] {seen as : List α} :
    firstRepeated? seen as = none ↔ as.Nodup ∧ ∀ a ∈ as, a ∉ seen := by
  induction as generalizing seen with
  | nil => simp [firstRepeated?]
  | cons a as ih =>
      rw [firstRepeated?]
      split
      · rename_i ha
        simp [ha]
      · rename_i ha
        rw [ih, List.nodup_cons, List.forall_mem_cons]
        simp only [List.mem_cons, not_or]
        grind

theorem tryMap_eq_ok_iff_forall₂ {α β ε : Type} {f : α → Except ε β} {as : List α}
    {bs : List β} : tryMap f as = .ok bs ↔ List.Forall₂ (fun a b => f a = .ok b) as bs := by
  rw [tryMap_eq_ok_iff, ← List.forall₂_eq_eq_eq, List.forall₂_map_left_iff,
    List.forall₂_map_right_iff]

theorem tryMap_append_of_error {α β ε : Type} {f : α → Except ε β} {front back : List α} {a : α}
    {e : ε} (hfront : ∀ b ∈ front, ∃ c, f b = .ok c) (ha : f a = .error e) :
    tryMap f (front ++ a :: back) = .error e := by
  induction front with
  | nil =>
      rw [List.nil_append, tryMap, ha]
  | cons b front ih =>
      obtain ⟨⟨c, hc⟩, hrest⟩ := List.forall_mem_cons.1 hfront
      rw [List.cons_append, tryMap, hc, ih hrest]

/-- The error is that of the first member that has one. -/
theorem tryMap_eq_error_iff {α β ε : Type} {f : α → Except ε β} {as : List α} {e : ε} :
    tryMap f as = .error e ↔ ∃ front a back, as = front ++ a :: back ∧
      (∀ b ∈ front, ∃ c, f b = .ok c) ∧ f a = .error e := by
  constructor
  · intro h
    induction as with
    | nil => cases h
    | cons a as ih =>
        rw [tryMap] at h
        split at h
        · rename_i ha
          cases h
          exact ⟨[], a, as, rfl, by simp, ha⟩
        · rename_i c ha
          split at h
          · rename_i hrest
            cases h
            obtain ⟨front, a', back, rfl, hfront, ha'⟩ := ih hrest
            exact ⟨a :: front, a', back, rfl, List.forall_mem_cons.2 ⟨⟨c, ha⟩, hfront⟩, ha'⟩
          · cases h
  · rintro ⟨front, a, back, rfl, hfront, ha⟩
    exact tryMap_append_of_error hfront ha

/-- What is put together from related members is the same. -/
theorem flatMap_eq_of_forall₂ {α β γ : Type} {R : α → β → Prop} {u : α → List γ}
    {v : β → List γ} (huv : ∀ a b, R a b → u a = v b) {as : List α} {bs : List β}
    (h : List.Forall₂ R as bs) : as.flatMap u = bs.flatMap v := by
  induction h with
  | nil => rfl
  | cons hab _ ih => rw [List.flatMap_cons, List.flatMap_cons, huv _ _ hab, ih]

theorem forall_mem_of_forall₂ {α β : Type} {R : α → β → Prop} {P : β → Prop}
    {as : List α} {bs : List β} (h : List.Forall₂ R as bs) (hP : ∀ a b, R a b → P b) :
    ∀ b ∈ bs, P b := by
  induction h with
  | nil => simp
  | cons hab _ ih => exact List.forall_mem_cons.2 ⟨hP _ _ hab, ih⟩

namespace GrammarDecl

/-- The literals in the alternatives of a grammar, as they are written. -/
def writtenLiterals (d : GrammarDecl) : List String :=
  d.rules.flatMap fun r => r.alternatives.flatMap fun alternative =>
    ((RawSymbol.readAll alternative).getD []).filterMap RawSymbol.literal?

/-- A rule that can be read keeps its name, and all its alternatives have been read. -/
theorem readRule_ok {d : GrammarDecl} {r : RuleDecl} {raw : RawRule} (h : d.readRule r = .ok raw) :
    raw.name = r.name ∧
      List.Forall₂ (fun alternative symbols => RawSymbol.readAll alternative = some symbols)
        r.alternatives raw.alternatives := by
  unfold readRule at h
  dsimp only at h
  split at h
  · rename_i alternatives halternatives
    cases h
    refine ⟨rfl, (tryMap_eq_ok_iff_forall₂.1 halternatives).imp ?_⟩
    intro alternative symbols hsymbols
    split at hsymbols
    · rename_i hsome
      cases hsymbols
      exact hsome
    · cases hsymbols
  · cases h

theorem writtenLiterals_eq {d : GrammarDecl} {raws : List RawRule}
    (h : tryMap d.readRule d.rules = .ok raws) :
    d.writtenLiterals =
      raws.flatMap fun r => r.alternatives.flatMap (·.filterMap RawSymbol.literal?) := by
  refine flatMap_eq_of_forall₂ (fun r raw hread => ?_) (tryMap_eq_ok_iff_forall₂.1 h)
  refine flatMap_eq_of_forall₂ (fun alternative symbols hsymbols => ?_) (readRule_ok hread).2
  rw [hsymbols, Option.getD_some]

/-- The literals that are numbered are those that are written, each where it comes first. -/
theorem literals_eq {d : GrammarDecl} {raws : List RawRule}
    (h : tryMap d.readRule d.rules = .ok raws) :
    literals raws = d.writtenLiterals.eraseDups := by
  rw [literals, ← writtenLiterals_eq h, distinct_eq]
  simp

/-- The definition is the declared one, with its pattern compiled. -/
def Compiles (decl : TokenDecl) (token : TokenDef) : Prop :=
  ∃ pattern, Regex.compile? decl.pattern = some pattern ∧
    token = .named decl.name decl.action pattern

theorem compileToken_eq_ok_iff {decl : TokenDecl} {token : TokenDef} :
    compileToken decl = .ok token ↔ Compiles decl token := by
  unfold compileToken Compiles
  cases Regex.compile? decl.pattern with
  | none => simp
  | some pattern => simp [eq_comm]

/-- The definitions of a built grammar in their order. -/
theorem tokens_of_build {d : GrammarDecl} {g : Grammar} (hg : d.build = .ok g) :
    ∃ named, g.tokens = d.writtenLiterals.eraseDups.map .literal ++ named ∧
      List.Forall₂ Compiles d.tokens named := by
  obtain ⟨_, raws, named, rules, hraws, hnamed, _, rfl⟩ := build_eq_ok_iff.1 hg
  refine ⟨named, ?_, ?_⟩
  · rw [literals_eq hraws]
  · exact (tryMap_eq_ok_iff_forall₂.1 hnamed).imp fun _ _ => compileToken_eq_ok_iff.1

end GrammarDecl

end Stencil
