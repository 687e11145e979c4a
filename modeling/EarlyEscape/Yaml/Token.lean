/-!
# Tokens of YAML

The pieces that a YAML text is cut into.  Indentation shows as tokens too: a block collection that
is indented further than the one around it begins with a token of its own and ends with `blockEnd`.

## Main definitions

* `Token` : a piece of a text.
-/

namespace EarlyEscape.Yaml

/-- A piece of a text. -/
inductive Token where
  | textStart
  | textEnd
  /-- The version of the format that a document is written in. -/
  | version (major minor : Nat)
  /-- A handle and the start of the tags that it stands for. -/
  | handle (name start : String)
  | documentStart
  | documentEnd
  | blockListStart
  | blockMapStart
  | blockEnd
  | flowListStart
  | flowListEnd
  | flowMapStart
  | flowMapEnd
  /-- The mark in front of an item of a block list. -/
  | item
  /-- The mark between the parts of a flow collection. -/
  | comma
  | key
  | value
  | anchor (name : String)
  | alias (name : String)
  /-- A tag: what follows its handle.  A tag that is written in full has the empty handle. -/
  | tag (handle suffix : String)
  /-- A text; `plain` when it stands there without quotes and is no block of lines. -/
  | scalar (text : String) (plain : Bool)
deriving DecidableEq, Repr

end EarlyEscape.Yaml
