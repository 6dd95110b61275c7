import IdlLexis.Main
import IdlLexis.Proofs.DocComment.Content
import IdlLexis.Proofs.DocComment.Layout
import IdlLexis.Proofs.DocComment.NormalForm
import IdlLexis.Proofs.DocComment.RoundTrip
import IdlLexis.Proofs.Lexeme.Locality
import IdlLexis.Proofs.Lexeme.Resumption
import IdlLexis.Proofs.Listing
import IdlLexis.Proofs.Literal.Leftmost
import IdlLexis.Proofs.Literal.Range
import IdlLexis.Proofs.Literal.RealForm
import IdlLexis.Proofs.Source.Layout
import IdlLexis.Proofs.Source.Padding
import IdlLexis.Proofs.Source.Search
import IdlLexis.Proofs.TokenStream.Attachment
import IdlLexis.Proofs.TokenStream.Diagnostics
import IdlLexis.Proofs.TokenStream.LineBoundary
import IdlLexis.Proofs.TokenStream.LineEnds
import IdlLexis.Proofs.TokenStream.Observation
import IdlLexis.Proofs.TokenStream.Relexing
import IdlLexis.Proofs.TokenStream.Spelling
import IdlLexis.Proofs.TokenStream.Tiling
