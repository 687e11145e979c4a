import EarlyEscape.Yaml.Tag

/-!
# Nodes of a YAML document

A document is a tree of nodes.  An alias stands for a node that has an anchor, which may be one of
those around it; so the nodes with anchors are kept in a table of their own.

## Main definitions

* `Node` : a node of a document.
* `Document` : the content of a document.
-/

namespace EarlyEscape.Yaml

/-- A node of a document.  Collections may have a tag for scalars, and have the sort `other` without
one. -/
inductive Node where
  | scalar (tag : Tag) (text : String)
  | list (tag : Tag) (items : List Node)
  | map (tag : Tag) (entries : List (Node × Node))
  /-- A node that stands for the one with the given number among those with anchors; `id` tells
  aliases apart. -/
  | alias (name : String) (target id : Nat)

/-- The node of a place where nothing stands. -/
def Node.absent : Node := .scalar .null ""

/-- Whether two nodes are the same as keys: they are of one kind and have the same text.
Collections have none, and that of an alias is its name. -/
def Node.sameKey : Node → Node → Bool
  | .scalar _ s, .scalar _ t => s == t
  | .list .., .list .. => true
  | .map .., .map .. => true
  | .alias s _ _, .alias t _ _ => s == t
  | _, _ => false

/-- Whether a node is a mapping. -/
def Node.isMap : Node → Bool
  | .map .. => true
  | _ => false

/-- Whether a node is the key whose value is merged into the mapping it stands in. -/
def Node.isMergeKey : Node → Bool
  | .scalar tag text => tag == .merge && text == "<<"
  | _ => false

/-- The content of a document. -/
structure Document where
  root : Node
  /-- The nodes with anchors, in the order of those. -/
  anchored : Array Node := #[]
  /-- The number of nodes. -/
  size : Nat := 0

/-- The node that an alias stands for, by its number. -/
def Document.target (d : Document) (n : Nat) : Node := d.anchored.getD n .absent

/-- The sort of a node; that of an alias is the sort of what it stands for. -/
def Document.tagOf (d : Document) : Node → Tag
  | .scalar tag _ | .list tag _ | .map tag _ => tag
  | .alias _ n _ =>
    match d.target n with
    | .scalar tag _ | .list tag _ | .map tag _ => tag
    | .alias .. => .other

end EarlyEscape.Yaml
