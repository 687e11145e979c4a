import EarlyEscape.Text.Printable

/-!
# Quoted texts

A text in double quotes, with everything that is not printable written as an escape.

## Main definitions

* `Text.hex` : a number in hexadecimal digits, at least so many.
* `Text.quote` : a text as it stands in a message.
-/

namespace EarlyEscape.Text

/-- A number in lower case hexadecimal digits, with zeros in front up to the given width. -/
def hex (width n : Nat) : List Char :=
  let digits := Nat.toDigits 16 n
  List.replicate (width - digits.length) '0' ++ digits

/-- The escapes that consist of a backslash and a letter. -/
def letterEscapes : List (Nat × Char) :=
  [(0x07, 'a'), (0x08, 'b'), (0x09, 't'), (0x0A, 'n'), (0x0B, 'v'), (0x0C, 'f'), (0x0D, 'r')]

/-- A character inside a quoted text: quote and backslash after a backslash, printable characters
as they are, all others as an escape with a letter or with two, four or eight digits. -/
def quoteChar (c : Char) : List Char :=
  let n := c.toNat
  if c == '"' || c == '\\' then ['\\', c]
  else if isPrintable c then [c]
  else
    match letterEscapes.lookup n with
    | some l => ['\\', l]
    | none =>
      if n < 0x80 then ['\\', 'x'] ++ hex 2 n
      else if n < 0x10000 then ['\\', 'u'] ++ hex 4 n
      else ['\\', 'U'] ++ hex 8 n

/-- A text in double quotes. -/
def quote (s : String) : String := String.ofList ('"' :: s.toList.flatMap quoteChar ++ ['"'])

end EarlyEscape.Text
