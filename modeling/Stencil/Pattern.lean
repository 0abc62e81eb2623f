import Stencil.Language
import Stencil.Match
import Stencil.Split

/-!
Patterns: templates compiled from a text such as `<ID> = <e:expr> ;`.

The text is split into chunks; text chunks are lexed and tags become
placeholder tokens; the tokens are parsed from the start rule, which must read
all of them; and the tree is turned into a template.
-/

namespace Stencil

/-- Why a pattern text cannot be compiled. -/
inductive CompileError where
  | split (cause : SplitError)
  | lex (cause : LexFailure)
  | unknownTag (name pattern : String)
  | unknownRule (name : String)
  | notConsumed (pattern next : String)
  | parse (cause : ParseFailure)
  | strayReference (tag pattern : String)
  deriving DecidableEq, Repr

def CompileError.message : CompileError → String
  | .split e => e.message
  | .lex e => e.message
  | .unknownTag name pattern => "unknown rule or token " ++ name ++ " in pattern: " ++ pattern
  | .unknownRule name => "unknown start rule " ++ name
  | .notConsumed pattern next =>
    "start rule does not consume full pattern: " ++ pattern ++ " (stopped at " ++ next ++ ")"
  | .parse e => e.message
  | .strayReference tag pattern =>
    "rule tag " ++ tag ++ " is not the only child of its rule in pattern: " ++ pattern

/-- A compiled pattern. -/
structure Pattern where
  text : String
  start : RuleId
  template : Template
  deriving DecidableEq

namespace Language

/-- The placeholder token of a tag. A name is looked up among the rules first. -/
def tagToken? (L : Language) (tag : Tag) : Option Token :=
  match L.ruleIndex? tag.name with
  | some r => some (.rulePlaceholder r tag)
  | none => (L.tokenType? tag.name).map (Token.typePlaceholder · tag)

def chunkTokens (L : Language) (pattern : String) : Chunk → Except CompileError (List Token)
  | .text text =>
    match L.lex text with
    | .ok tokens => .ok (tokens.filter (!·.hidden))
    | .error e => .error (.lex e)
  | .tag tag =>
    match L.tagToken? tag with
    | some token => .ok [token]
    | none => .error (.unknownTag tag.name pattern)

def chunksTokens (L : Language) (pattern : String) :
    List Chunk → Except CompileError (List Token)
  | [] => .ok []
  | c :: cs => do
    let front ← L.chunkTokens pattern c
    let back ← L.chunksTokens pattern cs
    return front ++ back

/-- The tokens the parser sees for a pattern. -/
def patternTokens (L : Language) (d : Delimiters) (pattern : String) :
    Except CompileError (List Token) :=
  match d.split pattern with
  | .ok chunks => L.chunksTokens pattern chunks
  | .error e => .error (.split e)

end Language

namespace Pattern

def compileTemplate (L : Language) (d : Delimiters) (text : String) (start : RuleId) :
    Except CompileError Template := do
  let tokens ← L.patternTokens d text
  match L.parse start (.ofList tokens) with
  | (.error e, _) => .error (.parse e)
  | (.ok tree, rest) =>
    if rest.atEnd then
      match Template.ofTree tree with
      | .ok template => .ok template
      | .error tag => .error (.strayReference tag text)
    else .error (.notConsumed text rest.nextDisplay)

def compile (L : Language) (d : Delimiters) (text : String) (start : RuleId) :
    Except CompileError Pattern := do
  let template ← compileTemplate L d text start
  return ⟨text, start, template⟩

/-- Compiles against a start rule given by its name. -/
def compileNamed (L : Language) (d : Delimiters) (text rule : String) :
    Except CompileError Pattern :=
  match L.ruleIndex? rule with
  | some start => compile L d text start
  | none => .error (.unknownRule rule)

def matchTree (p : Pattern) (t : Tree) : Match :=
  p.template.matchTree t

def isMatch (p : Pattern) (t : Tree) : Bool :=
  (p.matchTree t).succeeded

/-- The successful matches of all subtrees of the start rule, in the order in
which the subtrees begin. -/
def findAll (p : Pattern) (t : Tree) : List Match :=
  ((t.subtrees.filter (·.rule? = some p.start)).map p.matchTree).filter Match.succeeded

end Pattern

end Stencil
