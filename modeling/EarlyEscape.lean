import EarlyEscape.CommandLine
import EarlyEscape.Proofs.Analysis.AnonymousClasses
import EarlyEscape.Proofs.Analysis.Coverage
import EarlyEscape.Proofs.Analysis.Guard
import EarlyEscape.Proofs.Analysis.InnerClasses
import EarlyEscape.Proofs.Analysis.Order
import EarlyEscape.Proofs.Analysis.Parentheses
import EarlyEscape.Proofs.Analysis.Recursion
import EarlyEscape.Proofs.Analysis.Unknown
import EarlyEscape.Proofs.BitMask
import EarlyEscape.Proofs.Catalog.Overriding
import EarlyEscape.Proofs.Interp.Arguments
import EarlyEscape.Proofs.Interp.Closures
import EarlyEscape.Proofs.Interp.Iteration
import EarlyEscape.Proofs.Interp.Nothing
import EarlyEscape.Proofs.Interp.Yields
import EarlyEscape.Proofs.Ref.Listing
import EarlyEscape.Proofs.Symbol.Lookup
import EarlyEscape.Proofs.Syntax.Preorder
import EarlyEscape.Settings.Document
import EarlyEscape.Settings.Raw
import EarlyEscape.Symbol.Declare
