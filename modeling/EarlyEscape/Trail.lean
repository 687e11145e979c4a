import EarlyEscape.Symbol.Basic
import EarlyEscape.Sorting

/-!
# Leak trails

A *trail* is the call chain of a leak: the position of the leak first, then the positions of the
calls that lead to it, outermost last.

## Main definitions

* `Trail.compare` : the lexicographic order; a trail that begins another one comes first.
* `Trail.collapse` : sorts trails and keeps only those that extend no kept one.
-/

namespace EarlyEscape

/-- The position of a leak and of the calls that lead to it. -/
abbrev Trail := List Pos

namespace Trail

/-- The lexicographic order of trails. -/
def compare : Trail → Trail → Ordering
  | [], [] => .eq
  | [], _ :: _ => .lt
  | _ :: _, [] => .gt
  | p :: t, q :: o => (Ord.compare p q).then (compare t o)

/-- Whether `t` starts with `o`. -/
def startsWith (t o : Trail) : Bool := o.isPrefixOf t

/-- The trails of a list that neither are empty nor extend the one kept last, which is `last`
before the first is kept. -/
def keepFrom (last : Option Trail) : List Trail → List Trail
  | [] => []
  | t :: ts =>
    if t.isEmpty || last.any (startsWith t) then keepFrom last ts
    else t :: keepFrom (some t) ts

/-- The trails in order, without empty ones and without those that extend the one kept before. -/
def collapse (ts : List Trail) : List Trail :=
  keepFrom none (sortBy (fun a b => (compare a b).isLE) ts)

end Trail

end EarlyEscape
