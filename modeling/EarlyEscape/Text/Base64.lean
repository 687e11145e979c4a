/-!
# Texts in base 64

Four characters of the alphabet write three bytes.  The last group may write two bytes or one, and
is then filled up with the character `=`.  Line ends count for nothing.

## Main definitions

* `Base64.decode?` : the bytes that a text writes.
-/

namespace EarlyEscape.Base64

/-- The value of a character of the alphabet. -/
def digit? (c : Char) : Option Nat :=
  if 'A' ≤ c && c ≤ 'Z' then some (c.toNat - 'A'.toNat)
  else if 'a' ≤ c && c ≤ 'z' then some (c.toNat - 'a'.toNat + 26)
  else if '0' ≤ c && c ≤ '9' then some (c.toNat - '0'.toNat + 52)
  else if c == '+' then some 62
  else if c == '/' then some 63
  else none

/-- The number that digits write. -/
def number? (cs : List Char) : Option Nat := do
  let ds ← cs.mapM digit?
  return ds.foldl (fun n d => 64 * n + d) 0

/-- The bytes that groups of four characters write; only the last group is filled up. -/
def groups? : List Char → Option (List Nat)
  | [] => some []
  | [a, b, '=', '='] => do
    let n ← number? [a, b]
    return [n / 16]
  | [a, b, c, '='] => do
    let n ← number? [a, b, c]
    return [n / 1024, n / 4 % 256]
  | a :: b :: c :: d :: cs => do
    let n ← number? [a, b, c, d]
    return n / 65536 :: n / 256 % 256 :: n % 256 :: (← groups? cs)
  | _ => none

/-- The bytes that a text writes. -/
def decode? (text : String) : Option (List Nat) :=
  groups? (text.toList.filter fun c => c != '\n' && c != '\r')

end EarlyEscape.Base64
