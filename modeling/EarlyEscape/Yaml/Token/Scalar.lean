import EarlyEscape.Yaml.Cursor
import EarlyEscape.Yaml.Token

/-!
# Scalars of a YAML text

Plain scalars, scalars in quotes and blocks of lines.  Lines of a plain or quoted scalar are folded:
a single line end reads as a blank, and of several all but the first are kept.

Every function begins at the first character of the scalar and ends behind the last one; a plain
scalar ends behind the blanks and line ends that follow it.

## Main definitions

* `plainScalar`, `quotedScalar`, `blockScalar`.
-/

namespace EarlyEscape.Yaml

/-! ### Folding -/

/-- The line ends of a gap between two words: the first one, and those after it. -/
structure Folded where
  first : List Char := []
  others : List Char := []

/-- What a gap with line ends reads as. -/
def Folded.text (f : Folded) : List Char :=
  if f.first == ['\n'] then if f.others.isEmpty then [' '] else f.others else f.first ++ f.others

/-- The gap between two words of a scalar. -/
structure Gap where
  /-- The blanks of a gap without line end. -/
  blanks : List Char := []
  /-- Whether the gap has a line end. -/
  broken : Bool := false
  breaks : Folded := {}

/-- What a gap reads as. -/
def Gap.text (g : Gap) : List Char := if g.broken then g.breaks.text else g.blanks

/-- Passes blanks and line ends.  Blanks behind a line end satisfy `indents`, and count for
nothing. -/
def scanGap (indents : Cursor → Bool) : Gap → Scan Gap :=
  loop fun g => do
    need 1
    let c ← get
    let ch := c.peek
    if isBlank ch then
      if g.broken then
        require (indents c)
        skip
        return .inl g
      else
        skip
        return .inl { g with blanks := g.blanks ++ [ch] }
    else if isBreak ch then
      let text ← readLine
      if g.broken then
        return .inl { g with breaks := { g.breaks with others := g.breaks.others ++ text } }
      else return .inl { blanks := [], broken := true, breaks := { first := text } }
    else return .inr g

/-! ### Plain scalars -/

/-- The characters that end a plain scalar in a flow collection. -/
def endsInFlow (c : Char) : Bool := [',', '?', '[', ']', '\x7b', '\x7d'].contains c

/-- Takes a word of a plain scalar, onto the front of a reversed text. -/
def plainWord (inFlow : Bool) : List Char → Scan (List Char) :=
  loop fun acc => do
    let c ← get
    let ch := c.peek
    if isGap ch || (ch == ':' && isGap (c.peek 1)) || (inFlow && endsInFlow ch) then
      return .inr acc
    else
      skip
      need 2
      return .inl (ch :: acc)

/-- A plain scalar whose further lines begin at the column `indent` or behind it, and whether a
line end follows it. -/
def plainScalar (inFlow : Bool) (indent : Int) : Scan (String × Bool) :=
  loop (fun (acc, gap) => do
    need 4
    let c ← get
    if c.atDocumentStart || c.atDocumentEnd || c.peek == '#' then
      return .inr (String.ofList acc.reverse, gap.broken)
    else
      let word ← plainWord inFlow []
      let (acc, gap) :=
        if word.isEmpty then (acc, gap) else (word ++ gap.text.reverse ++ acc, ({} : Gap))
      let ch ← peek
      if isBlank ch || isBreak ch then
        let gap ← scanGap (fun c => !(c.col < indent && c.peek == '\t')) gap
        if !inFlow && (← get).col < indent then
          return .inr (String.ofList acc.reverse, gap.broken)
        else return .inl (acc, gap)
      else return .inr (String.ofList acc.reverse, gap.broken)) (([], {}) : List Char × Gap)

/-! ### Quoted scalars -/

/-- What a character behind a backslash stands for. -/
def escapes : List (Char × Nat) :=
  [('0', 0), ('a', 7), ('b', 8), ('t', 9), ('\t', 9), ('n', 10), ('v', 11), ('f', 12), ('r', 13),
    ('e', 27), (' ', 32), ('"', 34), ('\'', 39), ('\\', 92), ('N', 0x85), ('_', 0xA0),
    ('L', 0x2028), ('P', 0x2029)]

/-- The number of digits behind a backslash and a letter. -/
def escapeDigits? : Char → Option Nat
  | 'x' => some 2
  | 'u' => some 4
  | 'U' => some 8
  | _ => none

/-- The character of a number in hexadecimal digits. -/
def hexChar? (digits : List Char) : Option Char := do
  let ds ← digits.mapM hexDigit?
  let n := ds.foldl (fun n d => 16 * n + d) 0
  if n.isValidChar then some (Char.ofNat n) else none

/-- The character that a backslash and what follows it stand for. -/
def escaped : Scan Char := do
  let letter ← peek 1
  match escapeDigits? letter with
  | some k =>
    skips 2
    need k
    let c ← get
    let x ← (hexChar? ((List.range k).map fun i => c.peek i) : Option Char)
    skips k
    return x
  | none =>
    let n ← (escapes.lookup letter : Option Nat)
    skips 2
    return Char.ofNat n

/-- Takes a word of a quoted scalar, onto the front of a reversed text, and says whether it ends
with an escaped line end. -/
def quotedWord (single : Bool) : List Char → Scan (List Char × Bool) :=
  loop fun acc => do
    let c ← get
    let ch := c.peek
    if isGap ch then return .inr (acc, false)
    else if single && ch == '\'' then
      if c.peek 1 == '\'' then
        skips 2
        need 2
        return .inl ('\'' :: acc)
      else return .inr (acc, false)
    else if !single && ch == '"' then return .inr (acc, false)
    else if !single && ch == '\\' then
      if isBreak (c.peek 1) then
        need 3
        skip
        skipLine
        return .inr (acc, true)
      else
        let x ← escaped
        need 2
        return .inl (x :: acc)
    else
      skip
      need 2
      return .inl (ch :: acc)

/-- A scalar in single or double quotes. -/
def quotedScalar (single : Bool) : Scan String := do
  skip
  let text ← loop (fun acc => do
    need 4
    let c ← get
    require (!c.atDocumentStart && !c.atDocumentEnd && c.peek != endOfText)
    let (acc, joined) ← quotedWord single acc
    need 1
    if (← peek) == (if single then '\'' else '"') then return .inr acc.reverse
    else
      let gap ← scanGap (fun _ => true) { broken := joined }
      return .inl (gap.text.reverse ++ acc)) []
  skip
  return String.ofList text

/-! ### Blocks of lines -/

/-- What becomes of the line ends at the end of a block of lines. -/
inductive Chomping where
  /-- All are dropped. -/
  | strip
  /-- The first one is kept. -/
  | clip
  /-- All are kept. -/
  | keep
deriving DecidableEq, Repr

/-- The mark for what becomes of the line ends at the end, if there is one. -/
def chomping? : Scan (Option Chomping) := do
  match ← peek with
  | '+' =>
    skip
    return some .keep
  | '-' =>
    skip
    return some .strip
  | _ => return none

/-- The number of columns that a block of lines is indented by, if it is given. -/
def indentation? : Scan (Option Nat) := do
  let c ← peek
  if c.isDigit then
    require (c != '0')
    skip
    return some (c.toNat - '0'.toNat)
  else return none

/-- The two marks behind the first character of a block of lines, in either order. -/
def blockMarks : Scan (Chomping × Option Nat) := do
  need 1
  match ← chomping? with
  | some chomping =>
    need 1
    return (chomping, ← indentation?)
  | none =>
    match ← indentation? with
    | some k =>
      need 1
      return ((← chomping?).getD .clip, some k)
    | none => return (.clip, none)

/-- Passes the indentation of lines and the empty ones among them.  Gives the text of their ends
and the indentation, which the lines show if it is not known. -/
def blockBreaks (outer : Int) (indent? : Option Nat) : Scan (List Char × Nat) := do
  let within (c : Cursor) : Bool := indent?.all fun k => c.col < k
  let (text, widest) ← loop (fun (text, widest) => do
    need 1
    loop (fun _ => do
      let c ← get
      if within c && c.peek == ' ' then
        skip
        need 1
        return .inl ()
      else return .inr ()) ()
    let c ← get
    let widest := max widest c.col
    require (!(within c && c.peek == '\t'))
    if isBreak c.peek then
      let line ← readLine
      return .inl (text ++ line, widest)
    else return .inr (text, widest)) (([], 0) : List Char × Nat)
  return (text, indent?.getD (max widest (max (outer + 1) 1).toNat))

/-- The lines of a block so far. -/
structure BlockLines where
  /-- The text, reversed. -/
  text : List Char := []
  /-- The end of the last line. -/
  lineEnd : List Char := []
  /-- The ends of the empty lines after it. -/
  emptyLines : List Char := []
  /-- Whether the last line begins with a blank. -/
  blankFirst : Bool := false

/-- The text of a block up to a line that begins with a blank or does not.  Lines are folded unless
one of them begins with a blank. -/
def BlockLines.joined (b : BlockLines) (literal blank : Bool) : List Char :=
  let text :=
    if !literal && !b.blankFirst && !blank && b.lineEnd == ['\n'] then
      if b.emptyLines.isEmpty then ' ' :: b.text else b.text
    else b.lineEnd.reverse ++ b.text
  b.emptyLines.reverse ++ text

/-- A block of lines behind a place that is indented by `outer` columns. -/
def blockScalar (literal : Bool) (outer : Int) : Scan String := do
  skip
  let (chomping, given) ← blockMarks
  skipBlanks
  if (← peek) == '#' then skipToLineEnd
  let ch ← peek
  require (isLineEnd ch)
  if isBreak ch then skipLine
  let (breaks, indent) ←
    blockBreaks outer (given.map fun k => if 0 ≤ outer then outer.toNat + k else k)
  need 1
  let block ← loop (fun b => do
    let c ← get
    let ch := c.peek
    if c.col == indent && ch != endOfText then
      let blank := isBlank ch
      let line ← takeWhile fun c => !isLineEnd c
      let lineEnd ← readLine
      let (emptyLines, _) ← blockBreaks outer (some indent)
      return .inl
        { text := line.reverse ++ b.joined literal blank, lineEnd, emptyLines, blankFirst := blank }
    else return .inr b) ({ emptyLines := breaks } : BlockLines)
  let tail :=
    match chomping with
    | .strip => []
    | .clip => block.lineEnd
    | .keep => block.lineEnd ++ block.emptyLines
  return String.ofList (block.text.reverse ++ tail)

end EarlyEscape.Yaml
