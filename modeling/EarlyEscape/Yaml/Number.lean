import EarlyEscape.Yaml.Binary64

/-!
# Numbers in a YAML text

Whole numbers fit in 64 bits, with a sign or without.  They are written in base ten, or with a
zero and a letter in front in base two, eight or sixteen; a zero alone in front makes it base eight.
All other numbers are those that a floating-point number of 64 bits can stand for without becoming
infinite.

## Main definitions

* `integer?` : the whole number that a text stands for.
* `float?` : the number with a fraction or an exponent that a text stands for.
* `pointFloat?` : the same for texts that begin with a point.
-/

namespace EarlyEscape.Yaml

/-! ### Whole numbers -/

/-- The value of a decimal digit. -/
def decimalDigit (c : Char) : Nat := c.toNat - '0'.toNat

/-- The value of a digit or letter. -/
def digitValue? (c : Char) : Option Nat :=
  if c.isDigit then some (decimalDigit c)
  else if 'a' ≤ c && c ≤ 'z' then some (c.toNat - 'a'.toNat + 10)
  else if 'A' ≤ c && c ≤ 'Z' then some (c.toNat - 'A'.toNat + 10)
  else none

/-- The number that digits write in a base. -/
def digits? (base : Nat) (cs : List Char) : Option Nat :=
  cs.foldlM (fun n c => do
    let d ← digitValue? c
    if d < base then some (base * n + d) else none) 0

/-- The base that a letter behind a zero stands for. -/
def baseOf? : Char → Option Nat
  | 'b' | 'B' => some 2
  | 'o' | 'O' => some 8
  | 'x' | 'X' => some 16
  | _ => none

/-- A number without sign. -/
def natural? : List Char → Option Nat
  | [] => none
  | '0' :: b :: c :: cs =>
    match baseOf? b with
    | some base => digits? base (c :: cs)
    | none => digits? 8 (b :: c :: cs)
  | '0' :: cs => digits? 8 cs
  | cs => digits? 10 cs

/-- The number of values that 64 bits have. -/
def wordSize : Nat := 0x10000000000000000

/-- The smallest number that is too large for 64 bits with a sign. -/
def signedLimit : Nat := 0x8000000000000000

/-- A number, which `read` reads without its sign, in the range of 64 bits with a sign. -/
def signed? (read : List Char → Option Nat) : List Char → Option Int
  | '-' :: cs => do
    let n ← read cs
    if n ≤ signedLimit then some (-n) else none
  | '+' :: cs => do
    let n ← read cs
    if n < signedLimit then some n else none
  | cs => do
    let n ← read cs
    if n < signedLimit then some n else none

/-- A number that is not empty in a base without mark. -/
def plainDigits? (base : Nat) (cs : List Char) : Option Nat :=
  if cs.isEmpty then none else digits? base cs

/-- A number whose sign stands behind the mark of its base. -/
def innerSigned? : List Char → Option Int
  | '0' :: 'b' :: cs => signed? (plainDigits? 2) cs
  | '0' :: 'o' :: cs => signed? (plainDigits? 8) cs
  | _ => none

/-- The whole number that a text without underscores stands for. -/
def integer? (cs : List Char) : Option Int :=
  (signed? natural? cs).or <|
    ((natural? cs).bind fun n => if n < wordSize then some (n : Int) else none).or (innerSigned? cs)

/-! ### Numbers with a fraction or an exponent -/

/-- The number of digits beyond which a whole number is too large, and a fraction too small, to be
told from infinity or from zero. -/
def digitBound : Nat := 400

/-- The number nearest to `m` times ten to the power `e`, where `m` has at most `size` digits; none
if it is too large. -/
def nearestDecimal? (negative : Bool) (m : Nat) (e : Int) (size : Nat) : Option Binary64 :=
  if m == 0 then some (.finite 0)
  else if 0 ≤ e then
    if digitBound < e then none else Binary64.ofRatio? negative (m * Nat.pow 10 e.toNat) 1
  else if size + e < -digitBound then some (.finite 0)
  else Binary64.ofRatio? negative m (Nat.pow 10 (-e).toNat)

/-- The number that decimal digits write. -/
def decimal (cs : List Char) : Nat := cs.foldl (fun n c => 10 * n + decimalDigit c) 0

/-- An exponent; beyond some thousands more digits make no difference. -/
def exponent (cs : List Char) : Nat :=
  cs.foldl (fun n c => if n < 10000 then 10 * n + decimalDigit c else n) 0

/-- A text without the sign at its front. -/
def dropSign : List Char → List Char
  | '+' :: cs | '-' :: cs => cs
  | cs => cs

/-- The exponent behind a number. -/
def exponent? : List Char → Option Int
  | [] => some 0
  | e :: cs =>
    let ds := dropSign cs
    if (e == 'e' || e == 'E') && !ds.isEmpty && ds.all Char.isDigit then
      some (if cs.head? == some '-' then -(exponent ds : Int) else exponent ds)
    else none

/-- The number in decimal digits that a text without underscores stands for. -/
def float? (cs : List Char) : Option Binary64 :=
  let negative := cs.head? == some '-'
  let cs := dropSign cs
  let whole := cs.takeWhile Char.isDigit
  let rest := cs.dropWhile Char.isDigit
  let fraction := if rest.head? == some '.' then rest.tail.takeWhile Char.isDigit else []
  let rest := if rest.head? == some '.' then rest.tail.dropWhile Char.isDigit else rest
  let digits := whole ++ fraction
  if digits.isEmpty then none
  else
    (exponent? rest).bind fun e =>
      nearestDecimal? negative (decimal digits) (e - fraction.length) digits.length

/-- Whether every underscore of a text stands between digits; `digit` says whether a digit stands in
front of it. -/
def dividesDigits (digit : Bool) : List Char → Bool
  | [] => true
  | '_' :: c :: cs => digit && c.isDigit && dividesDigits true cs
  | '_' :: [] => false
  | c :: cs => dividesDigits c.isDigit cs

/-- The number that a text stands for which begins with a point. -/
def pointFloat? (cs : List Char) : Option Binary64 :=
  if dividesDigits false cs then float? (cs.filter (· != '_')) else none

end EarlyEscape.Yaml
