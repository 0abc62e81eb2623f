import Stencil.Tag

/-!
Chunks: the segments of a pattern, literal text and tags.
-/

namespace Stencil

inductive Chunk where
  | text (text : String)
  | tag (tag : Tag)
  deriving DecidableEq, Repr

def Chunk.render : Chunk → String
  | .text t => "'" ++ t ++ "'"
  | .tag t => t.render

end Stencil
