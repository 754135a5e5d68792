import StyleLex.Proofs.Tiling
import StyleLex.Source.Checked
import StyleLex.Source.Forgetful
import StyleLex.Source.Recorder
import StyleLex.Source.Strict
import StyleLex.Proofs.Truncation
import StyleLex.Proofs.MaximalMunch
import StyleLex.Proofs.Place
import StyleLex.Proofs.Relabel
import StyleLex.Proofs.CommentMarkers
import StyleLex.Proofs.Lookahead
import StyleLex.Proofs.Continuation
import StyleLex.Proofs.LineBreaks
import StyleLex.Proofs.Grammar
import StyleLex.Proofs.TokenShape
import StyleLex.Proofs.Forgetting
import StyleLex.Proofs.Reset
import StyleLex.Proofs.Slash
import StyleLex.Proofs.Writing
import StyleLex.Proofs.Confinement
import StyleLex.Proofs.NumberTokens
import StyleLex.Proofs.LineEnds
import StyleLex.Proofs.LongestName
import StyleLex.Proofs.Stops
import StyleLex.Proofs.ResourceExtent
import StyleLex.Proofs.CommentExtent
import StyleLex.Proofs.Fallback
import StyleLex.Proofs.FlushPoints
import StyleLex.Proofs.NameBoundary
import StyleLex.Proofs.PrintedNumbers
import StyleLex.Proofs.Locality
