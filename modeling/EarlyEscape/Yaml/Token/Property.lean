import EarlyEscape.Yaml.Cursor
import EarlyEscape.Yaml.Token

/-!
# Names, tags and directives of a YAML text

Anchors and aliases are names of nodes, tags say what sort of value a scalar is, and directives
stand in front of a document and say how it is to be read.

Every function begins at the first character of what it reads and ends behind the last one.

## Main definitions

* `nodeName` : the name of an anchor or an alias.
* `tag` : a tag.
* `directive` : a directive with its line.
-/

namespace EarlyEscape.Yaml

/-! ### Names of nodes -/

/-- The characters that a name of a node may stand in front of. -/
def endsName (c : Char) : Bool :=
  isGap c || ['?', ':', ',', ']', '\x7d', '%', '@', Char.ofNat 0x60].contains c

/-- The name of an anchor or an alias, behind its first character. -/
def nodeName : Scan String := do
  skip
  let name ← takeWhile isWord
  require (!name.isEmpty && endsName (← peek))
  return String.ofList name

/-! ### Tags -/

/-- The characters of tags. -/
def isTagChar (c : Char) : Bool :=
  isWord c ||
    [';', '/', '?', ':', '@', '&', '=', '+', '$', ',', '.', '!', '~', '*', '\'', '(', ')', '[',
      ']', '%'].contains c

/-- The number of bytes that a character has whose first byte is `byte`. -/
def leadLength? (byte : Nat) : Option Nat :=
  if byte < 0x80 then some 1
  else if 0xC0 ≤ byte && byte < 0xE0 then some 2
  else if 0xE0 ≤ byte && byte < 0xF0 then some 3
  else if 0xF0 ≤ byte && byte < 0xF8 then some 4
  else none

/-- A byte that is written as a percent sign and two digits. -/
def escapedByte : Scan Nat := do
  need 3
  let c ← get
  require (c.peek == '%')
  let high ← (hexDigit? (c.peek 1) : Option Nat)
  let low ← (hexDigit? (c.peek 2) : Option Nat)
  skips 3
  return 16 * high + low

/-- Further bytes of a character. -/
def escapedBytes : Nat → Scan (List Nat)
  | 0 => return []
  | n + 1 => do
    let byte ← escapedByte
    require (0x80 ≤ byte && byte < 0xC0)
    return byte :: (← escapedBytes n)

/-- A character of a tag that is written as bytes.  The tags with a meaning have none but those of
one byte, so a character of several bytes is kept as those. -/
def escapedChar : Scan (List Char) := do
  let lead ← escapedByte
  let n ← (leadLength? lead : Option Nat)
  return (lead :: (← escapedBytes (n - 1))).map Char.ofNat

/-- The rest of a tag behind the characters `front`. -/
def tagRest (front : List Char) : Scan (List Char) :=
  loop (fun acc => do
    need 1
    let c ← peek
    if c == '%' then
      let cs ← escapedChar
      return .inl (cs.reverse ++ acc)
    else if isTagChar c then
      skip
      return .inl (c :: acc)
    else return .inr acc.reverse) front.reverse

/-- A tag, or the start of one, that is not empty. -/
def tagText : Scan (List Char) := do
  let cs ← tagRest []
  require (!cs.isEmpty)
  return cs

/-- The handle at the front of a tag: an exclamation mark, letters and another mark.  What is only
the front of a handle is given as far as it goes. -/
def tagHandle : Scan (List Char) := do
  need 1
  require ((← peek) == '!')
  skip
  let name ← takeWhile isWord
  if (← peek) == '!' then
    skip
    return '!' :: name ++ ['!']
  else return '!' :: name

/-- A tag: in full between angle brackets, with a handle, or with the first handle `!` only. -/
def tag : Scan Token := do
  need 2
  let (handle, suffix) ←
    if (← peek 1) == '<' then
      skips 2
      let cs ← tagText
      require ((← peek) == '>')
      skip
      pure ([], cs)
    else
      let handle ← tagHandle
      if 1 < handle.length && handle.getLast? == some '!' then pure (handle, ← tagText)
      else
        match ← tagRest handle.tail with
        | [] => pure ([], ['!'])
        | cs => pure (['!'], cs)
  need 1
  require (isGap (← peek))
  return .tag (String.ofList handle) (String.ofList suffix)

/-! ### Directives -/

/-- A number of at most two digits. -/
def versionNumber : Scan Nat := do
  let ds ← takeWhile Char.isDigit
  require (0 < ds.length && ds.length ≤ 2)
  return ds.foldl (fun n d => 10 * n + (d.toNat - '0'.toNat)) 0

/-- The version of the format. -/
def versionDirective : Scan Token := do
  skipBlanks
  let major ← versionNumber
  require ((← peek) == '.')
  skip
  let minor ← versionNumber
  return .version major minor

/-- A handle of tags and what it stands for. -/
def handleDirective : Scan Token := do
  skipBlanks
  let handle ← tagHandle
  require (handle == ['!'] || handle.getLast? == some '!')
  need 1
  require (isBlank (← peek))
  skipBlanks
  let start ← tagText
  need 1
  require (isGap (← peek))
  return .handle (String.ofList handle) (String.ofList start)

/-- A directive with its line. -/
def directive : Scan Token := do
  skip
  let name ← takeWhile isWord
  require (!name.isEmpty && isGap (← peek))
  let token ←
    match String.ofList name with
    | "YAML" => versionDirective
    | "TAG" => handleDirective
    | _ => failure
  skipBlanks
  if (← peek) == '#' then skipToLineEnd
  let c ← peek
  require (isLineEnd c)
  if isBreak c then skipLine
  return token

end EarlyEscape.Yaml
