import Stencil.Proofs.FirstFailure
import Stencil.Proofs.Frontier
import Stencil.Proofs.Munching
import Stencil.Proofs.Precedence
import Stencil.Proofs.Statements

/-!
The numbers in a built grammar. Token types and rules are numbers, and the same number is
found in several ways: by the place of a declaration, by a name, and by the text of a
literal. They all agree, since no name is declared twice and no literal is numbered twice.

Main statement: a built grammar is what its declarations describe, and all tokens that are
made with it, of a text or of a pattern, have a type or a rule of the grammar.
-/

namespace Stencil

/-! ### Lookup by name -/

/-- Where all names differ, a name leads to the one place that has it. -/
theorem findIdx?_eq_some_iff_getElem? {α : Type} {as : List α} {f : α → String}
    (hdistinct : (as.map f).Nodup) {name : String} {i : Nat} :
    as.findIdx? (f · == name) = some i ↔ as[i]?.map f = some name := by
  rw [List.findIdx?_eq_some_iff_getElem, ← List.getElem?_map]
  constructor
  · rintro ⟨hi, hname, _⟩
    rw [List.getElem?_map, List.getElem?_eq_getElem hi, Option.map_some, eq_of_beq hname]
  · intro hi
    obtain ⟨hlt, hname⟩ := List.getElem?_eq_some_iff.1 hi
    rw [List.length_map] at hlt
    rw [List.getElem_map] at hname
    refine ⟨hlt, beq_iff_eq.2 hname, fun j hj hsame => ?_⟩
    -- an earlier place with this name would be the same place
    have hj' : (as.map f)[j]? = some name := by
      rw [List.getElem?_map, List.getElem?_eq_getElem (hj.trans hlt), Option.map_some,
        eq_of_beq hsame]
    have hij : i = j := (List.getElem?_inj (by simpa using hlt) hdistinct).1 (hi.trans hj'.symm)
    omega

theorem findIdx?_eq_of_forall₂ {α β : Type} {R : α → β → Prop} {p : α → Bool} {q : β → Bool}
    (hpq : ∀ a b, R a b → p a = q b) {as : List α} {bs : List β} (h : List.Forall₂ R as bs) :
    as.findIdx? p = bs.findIdx? q := by
  induction h with
  | nil => rfl
  | cons hab _ ih => rw [List.findIdx?_cons, List.findIdx?_cons, hpq _ _ hab, ih]

namespace Grammar

/-- The definition of a token type. -/
def definition? (g : Grammar) : TokenType → Option TokenDef
  | 0 => none
  | t + 1 => g.tokens[t]?

/-- The number is a rule of the grammar, or a token type that it defines. -/
def Has (g : Grammar) : Kind → Prop
  | .type t => (g.definition? t).isSome
  | .rule r => r < g.rules.length

theorem has_type_iff {g : Grammar} {t : TokenType} :
    g.Has (.type t) ↔ 1 ≤ t ∧ t ≤ g.tokens.length := by
  cases t with
  | zero => simp [definition?, Has]
  | succ t =>
      rw [Has, definition?, isSome_getElem?]
      exact ⟨fun hlt => ⟨Nat.le_add_left 1 t, hlt⟩, And.right⟩

end Grammar

/-- The kind of the tokens that a symbol stands for. -/
def Symbol.kind : Symbol → Kind
  | .token t => .type t
  | .rule r => .rule r

namespace Grammar

variable {g : Grammar}

/-- The symbol is what is written: the token type whose definition is the quoted text, or
the rule or token of the name. -/
def Denotes (g : Grammar) : RawSymbol → Symbol → Prop
  | .literal text, .token t => g.definition? t = some (.literal text)
  | .literal _, .rule _ => False
  | .name name, .token t => g.tokenType? name = some t
  | .name name, .rule r => g.ruleIndex? name = some r

/-- The symbols are those of the alternative, one by one. -/
def Means (g : Grammar) (alternative : String) (symbols : List Symbol) : Prop :=
  ∃ raw, RawSymbol.readAll alternative = some raw ∧ List.Forall₂ g.Denotes raw symbols

theorem has_of_ruleIndex? {name : String} {r : RuleId} (h : g.ruleIndex? name = some r) :
    g.Has (.rule r) :=
  (List.findIdx?_eq_some_iff_getElem.1 h).1

theorem has_of_tokenType? {name : String} {t : TokenType} (h : g.tokenType? name = some t) :
    g.Has (.type t) := by
  obtain ⟨i, hi, rfl⟩ := Option.map_eq_some_iff.1 h
  have hlt := (List.findIdx?_eq_some_iff_getElem.1 hi).1
  exact has_type_iff.2 ⟨Nat.le_add_left 1 i, hlt⟩

theorem Denotes.has {raw : RawSymbol} {s : Symbol} (h : g.Denotes raw s) : g.Has s.kind := by
  cases raw with
  | literal text =>
      cases s with
      | token t => exact Option.isSome_of_mem h
      | rule r => exact h.elim
  | name name =>
      cases s with
      | token t => exact has_of_tokenType? h
      | rule r => exact has_of_ruleIndex? h

theorem Means.has {alternative : String} {symbols : List Symbol}
    (h : g.Means alternative symbols) : ∀ s ∈ symbols, g.Has s.kind := by
  obtain ⟨raw, _, hdenotes⟩ := h
  exact forall_mem_of_forall₂ hdenotes fun _ _ hsymbol => hsymbol.has

end Grammar

/-- The alternative begins with the rule it is declared for. -/
def RuleDecl.BeginsWithItself (r : RuleDecl) (alternative : String) : Prop :=
  (RawSymbol.readAll alternative).bind List.head? = some (.name r.name)
  deriving Decidable

namespace GrammarDecl

/-- The distinct literals of a grammar, in the order in which they come first. -/
def distinctLiterals (d : GrammarDecl) : List String :=
  d.writtenLiterals.eraseDups

variable {d : GrammarDecl} {g : Grammar}

/-! ### Names -/

theorem nodup_names (hg : d.build = .ok g) : d.names.Nodup :=
  (firstRepeated?_eq_none_iff.1 (build_eq_ok_iff.1 hg).1).1

/-- What became of a declared rule. -/
theorem getElem?_rules_of_decl (hg : d.build = .ok g) {i : RuleId} {decl : RuleDecl}
    (hdecl : d.rules[i]? = some decl) :
    ∃ raws alternatives,
      List.Forall₂ (fun alternative raw => RawSymbol.readAll alternative = some raw)
        decl.alternatives raws ∧
      List.Forall₂ (List.Forall₂ fun raw s => d.resolve d.distinctLiterals decl.name raw = .ok s)
        raws alternatives ∧
      g.rules[i]? = some (makeRule i decl.name alternatives) := by
  obtain ⟨_, raws, named, rules, hraws, _, hrules, rfl⟩ := build_eq_ok_iff.1 hg
  have hraw : (raws[i]?).map Except.ok = some (d.readRule decl) := by
    rw [← List.getElem?_map, ← tryMap_eq_ok_iff.1 hraws, List.getElem?_map, hdecl, Option.map_some]
  obtain ⟨raw, hraw, hread⟩ := Option.map_eq_some_iff.1 hraw
  obtain ⟨hname, hread⟩ := readRule_ok hread.symm
  have hrule := getElem?_resolveRules hrules i
  rw [hraw, Option.map_some, Nat.zero_add, literals_eq hraws] at hrule
  obtain ⟨rule, hrule, hresolve⟩ := Option.map_eq_some_iff.1 hrule
  obtain ⟨alternatives, halternatives, rfl⟩ := resolveRule_eq_ok_iff.1 hresolve.symm
  rw [hname] at halternatives hrule
  refine ⟨raw.alternatives, alternatives, hread, ?_, hrule⟩
  exact (tryMap_eq_ok_iff_forall₂.1 halternatives).imp fun _ _ => tryMap_eq_ok_iff_forall₂.1

theorem map_name_rules (hg : d.build = .ok g) :
    g.rules.map Rule.name = d.rules.map RuleDecl.name := by
  apply List.ext_getElem?
  intro i
  rw [List.getElem?_map, List.getElem?_map]
  cases hdecl : d.rules[i]? with
  | none =>
      rw [List.getElem?_eq_none_iff, ← length_rules hg, ← List.getElem?_eq_none_iff] at hdecl
      rw [hdecl]
      rfl
  | some decl =>
      obtain ⟨_, _, _, _, hrule⟩ := getElem?_rules_of_decl hg hdecl
      rw [hrule]
      rfl

theorem ruleIndex?_eq (hg : d.build = .ok g) (name : String) :
    g.ruleIndex? name = d.rules.findIdx? (·.name == name) := by
  have h := congrArg (List.findIdx? (· == name)) (map_name_rules hg)
  rwa [List.findIdx?_map, List.findIdx?_map] at h

theorem tokens_eq (hg : d.build = .ok g) :
    ∃ named, g.tokens = d.distinctLiterals.map .literal ++ named ∧
      List.Forall₂ Compiles d.tokens named :=
  tokens_of_build hg

theorem tokenType?_eq (hg : d.build = .ok g) (name : String) :
    g.tokenType? name =
      (d.tokens.findIdx? (·.name == name)).map (d.distinctLiterals.length + · + 1) := by
  obtain ⟨named, htokens, hnamed⟩ := tokens_eq hg
  have hliterals : (d.distinctLiterals.map TokenDef.literal).findIdx? (·.isNamed name) = none := by
    rw [List.findIdx?_map, List.findIdx?_eq_none_iff]
    intro text _
    rfl
  have hsame : d.tokens.findIdx? (·.name == name) = named.findIdx? (·.isNamed name) := by
    refine findIdx?_eq_of_forall₂ (fun decl token hcompiles => ?_) hnamed
    obtain ⟨pattern, _, rfl⟩ := hcompiles
    rfl
  rw [Grammar.tokenType?, htokens, List.findIdx?_append, hliterals, hsame,
    Option.none_or, List.length_map, Option.map_map]
  congr 1
  funext i
  simp [Nat.add_comm]

theorem ruleIndex?_eq_some_iff (hg : d.build = .ok g) {name : String} {i : RuleId} :
    g.ruleIndex? name = some i ↔ d.rules[i]?.map RuleDecl.name = some name := by
  rw [ruleIndex?_eq hg]
  exact findIdx?_eq_some_iff_getElem? (List.nodup_append.1 (nodup_names hg)).1

theorem ruleName?_eq_some_iff (hg : d.build = .ok g) {name : String} {i : RuleId} :
    g.ruleName? i = some name ↔ g.ruleIndex? name = some i := by
  rw [ruleIndex?_eq_some_iff hg, Grammar.ruleName?, ← List.getElem?_map, map_name_rules hg,
    List.getElem?_map]

theorem tokenType?_eq_some_iff (hg : d.build = .ok g) {name : String} {t : TokenType} :
    g.tokenType? name = some t ↔ ∃ j, d.tokens[j]?.map TokenDecl.name = some name ∧
      t = d.distinctLiterals.length + j + 1 := by
  have hdistinct := (List.nodup_append.1 (nodup_names hg)).2.1
  rw [tokenType?_eq hg, Option.map_eq_some_iff]
  simp only [findIdx?_eq_some_iff_getElem? hdistinct, eq_comm]

theorem mem_map_of_getElem? {α : Type} {as : List α} {f : α → String} {i : Nat} {name : String}
    (h : as[i]?.map f = some name) : name ∈ as.map f :=
  List.mem_of_getElem? ((List.getElem?_map ..).trans h)

/-- No name is that of a rule and of a token. -/
theorem ruleIndex?_or_tokenType? (hg : d.build = .ok g) (name : String) :
    g.ruleIndex? name = none ∨ g.tokenType? name = none := by
  cases hrule : g.ruleIndex? name with
  | none => exact .inl rfl
  | some i =>
      cases htoken : g.tokenType? name with
      | none => exact .inr rfl
      | some t =>
          have hmem := mem_map_of_getElem? ((ruleIndex?_eq_some_iff hg).1 hrule)
          obtain ⟨j, hj, _⟩ := (tokenType?_eq_some_iff hg).1 htoken
          have hmem' := mem_map_of_getElem? hj
          exact absurd rfl ((List.nodup_append.1 (nodup_names hg)).2.2 name hmem name hmem')

/-! ### Token types -/

theorem definition?_literal (hg : d.build = .ok g) {i : Nat} {text : String}
    (h : d.distinctLiterals[i]? = some text) : g.definition? (i + 1) = some (.literal text) := by
  obtain ⟨named, htokens, _⟩ := tokens_eq hg
  have hlt : i < (d.distinctLiterals.map TokenDef.literal).length := by
    rw [List.length_map]
    exact (List.getElem?_eq_some_iff.1 h).1
  rw [Grammar.definition?, htokens, List.getElem?_append_left hlt,
    List.getElem?_map, h, Option.map_some]

theorem definition?_named (hg : d.build = .ok g) {j : Nat} {decl : TokenDecl}
    (h : d.tokens[j]? = some decl) : ∃ pattern, Regex.compile? decl.pattern = some pattern ∧
      g.definition? (d.distinctLiterals.length + j + 1) =
        some (.named decl.name decl.action pattern) := by
  obtain ⟨named, htokens, hnamed⟩ := tokens_eq hg
  obtain ⟨hj, rfl⟩ := List.getElem?_eq_some_iff.1 h
  have hj' : j < named.length := hnamed.length_eq ▸ hj
  obtain ⟨pattern, hpattern, htoken⟩ := hnamed.get hj hj'
  refine ⟨pattern, hpattern, ?_⟩
  rw [Grammar.definition?, htokens,
    List.getElem?_append_right (by simp), List.length_map, Nat.add_sub_cancel_left,
    List.getElem?_eq_getElem hj']
  exact congrArg some htoken

theorem length_tokens (hg : d.build = .ok g) :
    g.tokens.length = d.distinctLiterals.length + d.tokens.length := by
  obtain ⟨named, htokens, hnamed⟩ := tokens_eq hg
  rw [htokens, List.length_append, List.length_map, hnamed.length_eq]

/-! ### Alternatives -/

theorem denotes_of_resolve (hg : d.build = .ok g) {rule : String} {raw : RawSymbol} {s : Symbol}
    (hliteral : ∀ text, raw = .literal text → text ∈ d.distinctLiterals)
    (h : d.resolve d.distinctLiterals rule raw = .ok s) : g.Denotes raw s := by
  cases raw with
  | literal text =>
      cases h
      exact definition?_literal hg (List.getElem?_idxOf (hliteral text rfl))
  | name name =>
      rw [resolve] at h
      split at h
      · rename_i r hr
        cases h
        exact (ruleIndex?_eq hg name).trans hr
      · split at h
        · rename_i t ht
          cases h
          rw [Grammar.Denotes, tokenType?_eq hg, ht, Option.map_some]
        · cases h

/-- The literals of a declared alternative are numbered. -/
theorem mem_distinctLiterals {decl : RuleDecl} (hdecl : decl ∈ d.rules) {alternative : String}
    (halternative : alternative ∈ decl.alternatives) {raw : List RawSymbol}
    (hraw : RawSymbol.readAll alternative = some raw) {text : String} (h : .literal text ∈ raw) :
    text ∈ d.distinctLiterals := by
  rw [distinctLiterals, List.mem_eraseDups, writtenLiterals]
  refine List.mem_flatMap.2 ⟨decl, hdecl, List.mem_flatMap.2 ⟨alternative, halternative, ?_⟩⟩
  rw [hraw, Option.getD_some]
  exact List.mem_filterMap.2 ⟨.literal text, h, rfl⟩

theorem means_of_resolve (hg : d.build = .ok g) {decl : RuleDecl} (hdecl : decl ∈ d.rules)
    {alternative : String} (halternative : alternative ∈ decl.alternatives) {raw : List RawSymbol}
    (hraw : RawSymbol.readAll alternative = some raw) {symbols : List Symbol}
    (hresolve : List.Forall₂ (fun raw s => d.resolve d.distinctLiterals decl.name raw = .ok s)
      raw symbols) : g.Means alternative symbols := by
  refine ⟨raw, hraw, ?_⟩
  rw [List.forall₂_iff_zip] at hresolve ⊢
  refine ⟨hresolve.1, fun {symbol s} hmem => denotes_of_resolve hg ?_ (hresolve.2 hmem)⟩
  rintro text rfl
  exact mem_distinctLiterals hdecl halternative hraw (List.of_mem_zip hmem).1

/-- The alternatives of a declared rule are read and resolved one by one, and then parted. -/
theorem exists_means (hg : d.build = .ok g) {i : RuleId} {decl : RuleDecl}
    (hdecl : d.rules[i]? = some decl) :
    ∃ alternatives, List.Forall₂ g.Means decl.alternatives alternatives ∧
      g.rules[i]? = some (makeRule i decl.name alternatives) := by
  obtain ⟨raws, alternatives, hraws, halternatives, hrule⟩ := getElem?_rules_of_decl hg hdecl
  refine ⟨alternatives, ?_, hrule⟩
  rw [List.forall₂_iff_get] at hraws halternatives ⊢
  refine ⟨hraws.1.trans halternatives.1, fun k hk hk' => ?_⟩
  have hraw : k < raws.length := hraws.1 ▸ hk
  exact means_of_resolve hg (List.mem_of_getElem? hdecl) (List.get_mem ..) (hraws.2 k hk hraw)
    (halternatives.2 k hraw hk')

theorem head?_eq_iff_beginsWithItself (hg : d.build = .ok g) {i : RuleId} {decl : RuleDecl}
    (hdecl : d.rules[i]? = some decl) {alternative : String} {symbols : List Symbol}
    (h : g.Means alternative symbols) :
    symbols.head? = some (.rule i) ↔ decl.BeginsWithItself alternative := by
  obtain ⟨raw, hraw, hdenotes⟩ := h
  have hindex {name : String} : g.ruleIndex? name = some i ↔ name = decl.name := by
    rw [ruleIndex?_eq_some_iff hg, hdecl, Option.map_some, Option.some_inj, eq_comm]
  rw [RuleDecl.BeginsWithItself, hraw, Option.bind_some]
  cases hdenotes with
  | nil => simp
  | @cons first s _ _ hfirst _ =>
      rw [List.head?_cons, List.head?_cons, Option.some_inj, Option.some_inj]
      constructor
      · rintro rfl
        cases first with
        | literal text => exact hfirst.elim
        | name name => rw [hindex.1 hfirst]
      · rintro rfl
        -- the name of the rule is that of no token
        have hrule := hindex.2 rfl
        cases s with
        | token t =>
            rcases ruleIndex?_or_tokenType? hg decl.name with hnone | hnone
            · exact absurd (hnone.symm.trans hrule) (by simp)
            · exact absurd (hnone.symm.trans hfirst) (by simp)
        | rule r => rw [Option.some_inj.1 (hfirst.symm.trans hrule)]

/-- The two groups of alternatives of a declared rule. -/
theorem parted_alternatives (hg : d.build = .ok g) {i : RuleId} {decl : RuleDecl}
    (hdecl : d.rules[i]? = some decl) :
    ∃ rule, g.rules[i]? = some rule ∧ rule.name = decl.name ∧
      List.Forall₂ g.Means (decl.alternatives.filter (¬ decl.BeginsWithItself ·)) rule.primaries ∧
      List.Forall₂ g.Means (decl.alternatives.filter (decl.BeginsWithItself ·))
        (rule.operators.map (.rule i :: ·)) := by
  obtain ⟨alternatives, hmeans, hrule⟩ := exists_means hg hdecl
  refine ⟨_, hrule, rfl, ?_, ?_⟩
  · rw [primaries_makeRule, notLeftRecursive]
    refine List.rel_filter (fun alternative symbols h => ?_) hmeans
    simp [head?_eq_iff_beginsWithItself hg hdecl h]
  · rw [makeRule, map_filterMap_suffix?, leftRecursive]
    refine List.rel_filter (fun alternative symbols h => ?_) hmeans
    simp [head?_eq_iff_beginsWithItself hg hdecl h]

/-- The symbols of all stored alternatives have a number of the grammar. -/
theorem has_of_mem_rules (hg : d.build = .ok g) {rule : Rule} (hrule : rule ∈ g.rules)
    {a : List Symbol} (ha : a ∈ rule.primaries ++ rule.operators) : ∀ s ∈ a, g.Has s.kind := by
  obtain ⟨i, hi⟩ := List.getElem?_of_mem hrule
  have hlt : i < d.rules.length := by
    rw [← length_rules hg]
    exact (List.getElem?_eq_some_iff.1 hi).1
  obtain ⟨alternatives, hmeans, hmade⟩ := exists_means hg (List.getElem?_eq_getElem hlt)
  cases hi.symm.trans hmade
  have hhas : ∀ a ∈ alternatives, ∀ s ∈ a, g.Has s.kind :=
    forall_mem_of_forall₂ hmeans fun _ _ halternative => halternative.has
  rcases List.mem_append.1 ha with ha | ha
  · exact hhas a (List.mem_of_mem_filter ha)
  · obtain ⟨a', ha', hsuffix⟩ := List.mem_filterMap.1 ha
    rw [suffix?_eq_some_iff] at hsuffix
    rw [hsuffix] at ha'
    exact (List.forall_mem_cons.1 (hhas _ ha')).2

end GrammarDecl

namespace Grammar

variable {g : Grammar}

/-! ### Tokens -/

theorem has_of_lex {text : String} {ts : List Token} (h : g.lex text = .ok ts) {token : Token}
    (htoken : token ∈ ts) : ∃ t, token.kind = .type t ∧ g.Has (.type t) := by
  obtain ⟨ws, _, rfl⟩ := lex_eq_ok_iff.1 h
  obtain ⟨w, _, hw⟩ := List.mem_flatMap.1 htoken
  refine ⟨w.index + 1, ?_⟩
  cases hdef : g.tokens[w.index]? with
  | none => simp [tokensOf, hdef] at hw
  | some definition =>
      rw [tokensOf_eq hdef] at hw
      exact ⟨Lexeme.kind_of_mem_tokens hw, Option.isSome_of_mem hdef⟩

theorem has_of_tagToken? {tag : Tag} {token : Token}
    (h : g.language.tagToken? tag = some token) : g.Has token.kind := by
  unfold Language.tagToken? at h
  split at h
  · rename_i r hr
    cases h
    exact has_of_ruleIndex? hr
  · obtain ⟨t, ht, rfl⟩ := Option.map_eq_some_iff.1 h
    exact has_of_tokenType? ht

theorem has_of_chunkTokens {pattern : String} {c : Chunk} {ts : List Token}
    (h : g.language.chunkTokens pattern c = .ok ts) {token : Token} (htoken : token ∈ ts) :
    g.Has token.kind := by
  unfold Language.chunkTokens at h
  split at h
  · split at h
    · rename_i lexed hlex
      cases h
      obtain ⟨t, hkind, ht⟩ := has_of_lex hlex (List.mem_of_mem_filter htoken)
      exact hkind ▸ ht
    · cases h
  · split at h
    · rename_i made hmade
      cases h
      rw [List.mem_singleton.1 htoken]
      exact has_of_tagToken? hmade
    · cases h

theorem has_of_chunksTokens {pattern : String} {chunks : List Chunk} {ts : List Token}
    (h : g.language.chunksTokens pattern chunks = .ok ts) {token : Token} (htoken : token ∈ ts) :
    g.Has token.kind := by
  induction chunks generalizing ts with
  | nil =>
      cases h
      cases htoken
  | cons c cs ih =>
      obtain ⟨front, back, hfront, hback, rfl⟩ := Language.chunksTokens_cons_eq_ok_iff.1 h
      rcases List.mem_append.1 htoken with hmem | hmem
      · exact has_of_chunkTokens hfront hmem
      · exact ih hback hmem

end Grammar

namespace GrammarDecl

/-- What is built from declarations. -/
structure Describes (d : GrammarDecl) (g : Grammar) : Prop where
  /-- The token types are the numbers from one to the number of literals and declared
  tokens. -/
  types : ∀ t, g.Has (.type t) ↔ 1 ≤ t ∧ t ≤ d.distinctLiterals.length + d.tokens.length
  /-- First come the literals, in the order in which they are written first. -/
  literals : ∀ (i : Nat) (text : String), d.distinctLiterals[i]? = some text →
    g.definition? (i + 1) = some (.literal text)
  /-- Then the named tokens follow as they are declared. -/
  named : ∀ (j : Nat) (decl : TokenDecl), d.tokens[j]? = some decl →
    ∃ pattern, Regex.compile? decl.pattern = some pattern ∧
      g.definition? (d.distinctLiterals.length + j + 1) =
        some (.named decl.name decl.action pattern)
  /-- A literal has one type only. -/
  literal_unique : ∀ (t t' : TokenType) (text : String), g.definition? t = some (.literal text) →
    g.definition? t' = some (.literal text) → t = t'
  ruleIndex : ∀ (name : String) (i : RuleId),
    g.ruleIndex? name = some i ↔ d.rules[i]?.map RuleDecl.name = some name
  ruleName : ∀ (name : String) (i : RuleId),
    g.ruleName? i = some name ↔ g.ruleIndex? name = some i
  tokenType : ∀ (name : String) (t : TokenType), g.tokenType? name = some t ↔
    ∃ j, d.tokens[j]?.map TokenDecl.name = some name ∧ t = d.distinctLiterals.length + j + 1
  /-- No name is that of a rule and of a token. -/
  one_meaning : ∀ name, g.ruleIndex? name = none ∨ g.tokenType? name = none
  /-- All symbols of the rules are rules or token types of the grammar. -/
  symbols : ∀ rule ∈ g.rules, ∀ a ∈ rule.primaries ++ rule.operators, ∀ s ∈ a, g.Has s.kind
  length_rules : g.rules.length = d.rules.length
  /-- The declared alternatives of a rule, those that begin with the rule itself apart from
  the others, each group in the order in which it is declared. -/
  alternatives : ∀ (i : RuleId) (decl : RuleDecl), d.rules[i]? = some decl →
    ∃ rule, g.rules[i]? = some rule ∧ rule.name = decl.name ∧
      List.Forall₂ g.Means (decl.alternatives.filter (¬ decl.BeginsWithItself ·)) rule.primaries ∧
      List.Forall₂ g.Means (decl.alternatives.filter (decl.BeginsWithItself ·))
        (rule.operators.map (.rule i :: ·))

variable {d : GrammarDecl} {g : Grammar}

theorem nodup_distinctLiterals (d : GrammarDecl) : d.distinctLiterals.Nodup :=
  nodup_eraseDups d.writtenLiterals

/-- A literal is defined where it is numbered and nowhere else. -/
theorem getElem?_distinctLiterals (hg : d.build = .ok g) {t : TokenType} {text : String}
    (h : g.definition? t = some (.literal text)) :
    ∃ i, t = i + 1 ∧ d.distinctLiterals[i]? = some text := by
  obtain ⟨named, htokens, hnamed⟩ := tokens_eq hg
  cases t with
  | zero => cases h
  | succ i =>
      refine ⟨i, rfl, ?_⟩
      rw [Grammar.definition?, htokens, List.getElem?_append] at h
      split at h
      · rw [List.getElem?_map, Option.map_eq_some_iff] at h
        obtain ⟨_, htext, heq⟩ := h
        cases heq
        exact htext
      · have hnot : ∀ token ∈ named, token ≠ .literal text := by
          refine forall_mem_of_forall₂ hnamed ?_
          rintro decl _ ⟨pattern, _, rfl⟩ ⟨⟩
        exact absurd rfl (hnot _ (List.mem_of_getElem? h))

theorem describes_of_build (hg : d.build = .ok g) : d.Describes g where
  types t := by rw [Grammar.has_type_iff, length_tokens hg]
  literals _ _ := definition?_literal hg
  named _ _ := definition?_named hg
  literal_unique t t' text h h' := by
    obtain ⟨i, rfl, hi⟩ := getElem?_distinctLiterals hg h
    obtain ⟨j, rfl, hj⟩ := getElem?_distinctLiterals hg h'
    have hlt : i < d.distinctLiterals.length := (List.getElem?_eq_some_iff.1 hi).1
    rw [(List.getElem?_inj hlt d.nodup_distinctLiterals).1 (hi.trans hj.symm)]
  ruleIndex _ _ := ruleIndex?_eq_some_iff hg
  ruleName _ _ := ruleName?_eq_some_iff hg
  tokenType _ _ := tokenType?_eq_some_iff hg
  one_meaning := ruleIndex?_or_tokenType? hg
  symbols _ hrule _ ha := has_of_mem_rules hg hrule ha
  length_rules := length_rules hg
  alternatives _ _ := parted_alternatives hg

/-- A grammar that can be built is what its declarations describe. The tokens of a text have
types of the grammar, and those of a pattern types or rules of it. -/
theorem build_describes (hg : d.build = .ok g) :
    d.Describes g ∧
    (∀ text ts, g.lex text = .ok ts →
      ∀ token ∈ ts, ∃ t, token.kind = .type t ∧ g.Has (.type t)) ∧
    ∀ delimiters pattern ts, g.language.patternTokens delimiters pattern = .ok ts →
      ∀ token ∈ ts, g.Has token.kind := by
  refine ⟨describes_of_build hg, fun text ts h token => Grammar.has_of_lex h, ?_⟩
  intro delimiters pattern ts h token htoken
  obtain ⟨chunks, _, hchunks⟩ := Language.patternTokens_eq_ok_iff.1 h
  exact Grammar.has_of_chunksTokens hchunks htoken

/-- The literals of statements are numbered before their names, and the alternatives of an
expression that begin with one are kept apart. -/
theorem build_describes_statements :
    statements.build = .ok Statement.grammar ∧
      statements.distinctLiterals = ["=", ";", "*", "+", "(", ")"] ∧
      Statement.grammar.tokenType? "WS" = some 9 ∧
      List.Forall₂ Statement.grammar.Means ["expr '*' expr", "expr '+' expr"]
        [[.rule 1, .token 3, .rule 1], [.rule 1, .token 4, .rule 1]] ∧
      ∀ token ∈ [Token.word 7 "x", .word 1 "=", .rulePlaceholder 1 ⟨"expr", none⟩, .word 2 ";"],
        Statement.grammar.Has token.kind := by
  obtain ⟨hdescribes, _, hpattern⟩ := build_describes Statement.build_statements
  refine ⟨Statement.build_statements, by decide, ?_, ?_, ?_⟩
  · exact (hdescribes.tokenType "WS" 9).2 ⟨2, rfl, by decide⟩
  · obtain ⟨rule, hrule, _, _, hoperators⟩ := hdescribes.alternatives 1 _ rfl
    cases hrule
    convert hoperators using 1
    · decide
    · rfl
  · exact hpattern .standard "x = <expr> ;" _ (by decide)

end GrammarDecl

end Stencil
