/-!
# Sorts of scalars

The sort of a scalar is given by its tag, or by its text where it stands without quotes and without
a tag.

## Main definitions

* `Tag` : the sorts of scalars.
* `Tag.ofName` : the sort that a tag names.
-/

namespace EarlyEscape.Yaml

/-- The sorts of scalars. -/
inductive Tag where
  | null
  | bool
  | int
  | float
  | timestamp
  | str
  /-- A text that is written in base 64. -/
  | binary
  /-- The key whose value is merged into the mapping it stands in. -/
  | merge
  /-- Any other sort; its scalars stand for their text. -/
  | other
deriving DecidableEq, Repr

/-- What the names of the sorts in the standard begin with, in full and in short. -/
def standardTags : String × String := ("tag:yaml.org,2002:", "!!")

/-- The sorts in the standard that have a meaning here. -/
def Tag.names : List (String × Tag) :=
  [("null", .null), ("bool", .bool), ("int", .int), ("float", .float), ("timestamp", .timestamp),
    ("str", .str), ("binary", .binary), ("merge", .merge)]

/-- What is left of a list behind a beginning of it. -/
def after? (front : List Char) (cs : List Char) : Option (List Char) :=
  if front.isPrefixOf cs then some (cs.drop front.length) else none

/-- The sort that a tag names. -/
def Tag.ofName (name : String) : Tag :=
  let cs := name.toList
  match (after? standardTags.1.toList cs).or (after? standardTags.2.toList cs) with
  | some rest => (Tag.names.lookup (String.ofList rest)).getD .other
  | none => .other

end EarlyEscape.Yaml
