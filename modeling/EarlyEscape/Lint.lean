import EarlyEscape.Syntax.Basic
import EarlyEscape.Text.Blank

/-!
# Suppression of warnings

Whether the warning category of the analysis is in effect at a place of a program.  It is switched
on or off for a whole compilation unit, and an annotation switches it off for a declaration and
everything inside it.

## Main definitions

* `Lint` : the setting at a place.
* `Annotation.suppresses` : does an annotation switch the category off?
* `Lint.augment` : the setting inside an annotated declaration.
-/

namespace EarlyEscape

/-- The warning category of the analysis. -/
def category : String := "this-escape"

/-- The argument that suppresses every category. -/
def allCategories : String := "all"

/-- The names of the annotation that suppresses warnings. -/
def suppressionNames : List String := ["SuppressWarnings", "java.lang.SuppressWarnings"]

/-- The lower case of a letter, as far as it is in ASCII.  Beyond ASCII only the capital I with a
dot and the sign of the unit kelvin have a lower case that is. -/
def lowerChar (c : Char) : Char :=
  if c.toNat = 0x130 then 'i' else if c.toNat = 0x212A then 'k' else c.toLower

/-- Whether a text names the category or all categories, blanks around it and case apart.  Both
names are in ASCII, so letters whose lower case is not cannot matter. -/
def namesCategory (arg : String) : Bool :=
  let name := String.ofList ((Text.trimChars arg.toList).map lowerChar)
  name == category || name == allCategories

/-- Whether an annotation suppresses the category. -/
def Annotation.suppresses (a : Annotation) : Bool :=
  suppressionNames.contains a.name && a.args.any namesCategory

/-- The setting of the category at a place of a program. -/
structure Lint where
  enabled : Bool
  suppressed : Bool := false
deriving DecidableEq, Repr

namespace Lint

/-- The setting inside a declaration with the given annotations. -/
def augment (l : Lint) (annotations : List Annotation) : Lint :=
  { l with suppressed := l.suppressed || annotations.any Annotation.suppresses }

/-- Whether warnings are given. -/
def isEnabled (l : Lint) : Bool := l.enabled && !l.suppressed

@[simp] theorem augment_nil (l : Lint) : l.augment [] = l := by
  simp [augment]

theorem augment_append (l : Lint) (xs ys : List Annotation) :
    l.augment (xs ++ ys) = (l.augment xs).augment ys := by
  simp [augment, Bool.or_assoc]

end Lint

end EarlyEscape
