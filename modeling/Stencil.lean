import Stencil.Command.Arguments
import Stencil.Command.LogFilter
import Stencil.Command.Run
import Stencil.Language.Scripted
import Stencil.Main
import Stencil.Proofs.StatementPatterns
import Stencil.Proofs.PlainPatterns
import Stencil.Proofs.Depth
import Stencil.Proofs.Precedence
import Stencil.Proofs.ExpressionRules
import Stencil.Proofs.Predictive
import Stencil.Proofs.Failures
import Stencil.Proofs.Termination
import Stencil.Proofs.Capturing
import Stencil.Proofs.Relabelling
import Stencil.Proofs.Frontier
import Stencil.Proofs.Labelling
import Stencil.Proofs.Segments
import Stencil.Proofs.ByteOffsets
import Stencil.Proofs.Verdicts
import Stencil.Proofs.Declarations
import Stencil.Proofs.TagWriting
import Stencil.Proofs.Munching
import Stencil.Proofs.Mismatches
import Stencil.Proofs.Occurrences
import Stencil.Proofs.Adequacy
import Stencil.Proofs.FirstFailure
import Stencil.Proofs.Anchoring
import Stencil.Proofs.Generalising
import Stencil.Proofs.StrayReferences
import Stencil.Proofs.Numbering
import Stencil.Proofs.SymbolReading
import Stencil.Proofs.BuildVerdict
import Stencil.Proofs.InputSources
import Stencil.Proofs.StringTrees
import Stencil.Proofs.Recording
