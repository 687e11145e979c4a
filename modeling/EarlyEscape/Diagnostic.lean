import EarlyEscape.Lint
import EarlyEscape.Trail

/-!
# Diagnostics

What the analysis reports: one diagnostic for each leak that remains when the trails are
collapsed, or one diagnostic for an error of the analysis itself.

## Main definitions

* `Diagnostic`, `RelatedPlace` : a report at a place, and further places it mentions.
* `Diagnostic.ofTrail`, `Diagnostic.ofTrails` : the reports of leaks.
* `Diagnostic.internalError` : the report of an error of the analysis.
-/

namespace EarlyEscape

/-- A further place that a diagnostic mentions. -/
structure RelatedPlace where
  pos : Pos
  stop : Pos
  message : String
deriving DecidableEq, Repr

/-- A report at a place of a source file; the range has no end when `stop` is `0`. -/
structure Diagnostic where
  pos : Pos
  stop : Pos
  category : String
  message : String
  related : List RelatedPlace
deriving DecidableEq, Repr

namespace Diagnostic

/-- The message of a leak. -/
def leakMessage : String :=
  "Possible 'this' escape before subclass is fully initialized (this-escape)"

/-- The message for a call that leads to a leak. -/
def viaMessage : String := "Previous possible 'this' escape happens here via invocation"

/-- The report of the leak at `pos` that is reached through the calls at `via`. -/
def leak (pos : Pos) (via : List Pos) : Diagnostic :=
  { pos
    stop := 0
    category := EarlyEscape.category
    message := leakMessage
    related := via.map fun p => ⟨p, 0, viaMessage⟩ }

/-- The report of a trail; an empty trail reports nothing. -/
def ofTrail : Trail → Option Diagnostic
  | [] => none
  | pos :: via => some (leak pos via)

/-- The reports of all trails that remain when they are collapsed, in order. -/
def ofTrails (ts : List Trail) : List Diagnostic := (Trail.collapse ts).filterMap ofTrail

/-- The report of an error of the analysis at a range. -/
def internalError (span : Span) (message : String) : Diagnostic :=
  { pos := span.pos
    stop := span.stop
    category := EarlyEscape.category
    message := "Internal Error: " ++ message
    related := [] }

end Diagnostic

end EarlyEscape
