import EarlyEscape.Text.Base64
import EarlyEscape.Yaml.Number
import EarlyEscape.Yaml.Tag
import EarlyEscape.Yaml.Timestamp

/-!
# Values of scalars

What a plain scalar stands for follows from its text, and a scalar with a tag has to fit its sort.

## Main definitions

* `Value` : what a scalar stands for.
* `Value.natural` : the value of a plain text.
* `Value.of?` : the value of a scalar.
* `Value.isSame` : whether two values are the same.
-/

namespace EarlyEscape.Yaml

/-- What a scalar stands for. -/
inductive Value where
  | null
  | bool (b : Bool)
  | int (n : Int)
  | float (x : Binary64)
  | time (t : Timestamp)
  | text (s : String)
  /-- Bytes that are those of no text. -/
  | bytes (bs : List UInt8)
deriving DecidableEq, Repr

namespace Value

/-- The sort of a value. -/
def tag : Value → Tag
  | null => .null
  | bool _ => .bool
  | int _ => .int
  | float _ => .float
  | time _ => .timestamp
  | text _ => .str
  | bytes _ => .binary

/-- Whether two values are the same.  Numbers are the same if they are equal and of one sort,
however they are written. -/
def isSame : Value → Value → Bool
  | float x, float y => x.equals y
  | time s, time t => s.isSame t
  | v, w => v == w

/-! ### Plain texts -/

/-- The plain texts that stand for something of their own. -/
def words : List (String × Value) :=
  [("", null), ("~", null), ("null", null), ("Null", null), ("NULL", null),
    ("true", bool true), ("True", bool true), ("TRUE", bool true),
    ("false", bool false), ("False", bool false), ("FALSE", bool false),
    (".nan", float .nan), (".NaN", float .nan), (".NAN", float .nan),
    (".inf", float (.infinite false)), (".Inf", float (.infinite false)),
    (".INF", float (.infinite false)), ("+.inf", float (.infinite false)),
    ("+.Inf", float (.infinite false)), ("+.INF", float (.infinite false)),
    ("-.inf", float (.infinite true)), ("-.Inf", float (.infinite true)),
    ("-.INF", float (.infinite true))]

/-- The value of a text that begins with a digit or a sign, if it is no text. -/
def ofNumeral? (times : Bool) (cs : List Char) : Option Value :=
  let digits := cs.filter (· != '_')
  (if times then (Timestamp.of? cs).map time else none).or
    (((integer? digits).map int).or ((float? digits).map float))

/-- The value of a plain text; times are told from other texts only if `times` says so. -/
def natural (times : Bool) (s : String) : Value :=
  match words.lookup s, s.toList with
  | some v, _ => v
  | none, [] => null
  | none, c :: cs =>
    let v? :=
      if c.isDigit || c == '+' || c == '-' then ofNumeral? times (c :: cs)
      else if c == '.' then (pointFloat? (c :: cs)).map float
      else none
    v?.getD (text s)

/-! ### Scalars -/

/-- A whole number in the range of those with a sign as a number with a fraction. -/
def toFloat? (n : Int) : Option Value :=
  if n < signedLimit then (Binary64.ofRatio? (n < 0) n.natAbs 1).map float else none

/-- The value that bytes stand for. -/
def ofBytes (bs : List UInt8) : Value :=
  match String.fromUTF8? ⟨bs.toArray⟩ with
  | some s => text s
  | none => bytes bs

/-- The value of a scalar; none if the text does not fit the sort.  Whole numbers fit where
fractions do. -/
def of? (tag : Tag) (s : String) : Option Value :=
  match tag with
  | .str | .merge | .other => some (text s)
  | .binary => (Base64.decode? s).map fun bs => ofBytes (bs.map UInt8.ofNat)
  | tag =>
    match tag, natural (tag == .timestamp) s with
    | .float, int n => toFloat? n
    | tag, v => if v.tag == tag then some v else none

end Value

/-- The sort of a plain text. -/
def Tag.natural (s : String) : Tag := (Value.natural true s).tag

end EarlyEscape.Yaml
