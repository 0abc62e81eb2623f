import Stencil.Grammar.Build

/-!
The grammar of the command line: assignments and arithmetic expressions, each
ended by a semicolon.
-/

namespace Stencil

def statements : GrammarDecl where
  name := "Statements"
  rules :=
    [⟨"stat", ["ID '=' expr ';'", "expr ';'"]⟩,
     ⟨"expr", ["expr '*' expr", "expr '+' expr", "'(' expr ')'", "ID", "INT"]⟩]
  tokens :=
    [⟨"ID", "[A-Za-z_][A-Za-z_0-9]*", .emit⟩,
     ⟨"INT", "[0-9]+", .emit⟩,
     ⟨"WS", "[ \\t\\r\\n]+", .hide⟩]

end Stencil
