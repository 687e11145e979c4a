/-!
# Places in a YAML text

A text is read from front to back.  It arrives in portions of at most `portionSize` bytes, and a
portion with a character that no text may hold is refused as a whole when it is asked for, so that
a fault further on is of no account to a reader that stops before it.  Behind its end a text reads
as `endOfText`.

## Main definitions

* `Cursor` : a place in a text, with the line and the column.
* `Cursor.ofText` : the front of a text.
* `Scan` : a step that goes on in a text or fails.
* `need` : has the next characters fetched.
* `loop` : repeats a step, at most as often as the text has characters.
-/

namespace EarlyEscape.Yaml

/-! ### Characters -/

/-- The character that stands behind the end of a text. -/
def endOfText : Char := Char.ofNat 0

/-- The mark that may stand at the front of a text. -/
def byteOrderMark : Char := Char.ofNat 0xFEFF

/-- Whether a text may hold a character. -/
def isAllowed (c : Char) : Bool :=
  let n := c.toNat
  n == 0x09 || n == 0x0A || n == 0x0D || (0x20 ≤ n && n ≤ 0x7E) || n == 0x85 ||
    (0xA0 ≤ n && n ≤ 0xFFFD) || 0x10000 ≤ n

/-- Blanks within a line. -/
def isBlank (c : Char) : Bool := c == ' ' || c == '\t'

/-- The characters that end a line; a carriage return and a line feed together end one. -/
def isBreak (c : Char) : Bool :=
  c == '\n' || c == '\r' || c.toNat == 0x85 || c.toNat == 0x2028 || c.toNat == 0x2029

/-- The end of a line or of the text. -/
def isLineEnd (c : Char) : Bool := isBreak c || c == endOfText

/-- A blank, the end of a line or the end of the text. -/
def isGap (c : Char) : Bool := isBlank c || isLineEnd c

/-- The characters of names. -/
def isWord (c : Char) : Bool := c.isAlphanum || c == '_' || c == '-'

/-- The value of a hexadecimal digit. -/
def hexDigit? (c : Char) : Option Nat :=
  if c.isDigit then some (c.toNat - '0'.toNat)
  else if 'a' ≤ c && c ≤ 'f' then some (c.toNat - 'a'.toNat + 10)
  else if 'A' ≤ c && c ≤ 'F' then some (c.toNat - 'A'.toNat + 10)
  else none

/-! ### Portions -/

/-- The number of bytes in a portion of a text. -/
def portionSize : Nat := 512

/-- The portions of a text by their number of characters, `none` for one that cannot be read, when
`room` bytes and `count` characters of the current one are known. -/
def portionsFrom (room count : Nat) : List Char → List (Option Nat)
  | [] => [some count]
  | c :: cs =>
    if room < c.utf8Size then
      some count ::
        (if isAllowed c then portionsFrom (portionSize - c.utf8Size) 1 cs else [none])
    else if isAllowed c then portionsFrom (room - c.utf8Size) (count + 1) cs
    else [none]

/-! ### Cursors -/

/-- A place in a text. -/
structure Cursor where
  /-- What is left of the text. -/
  rest : List Char
  /-- The number of characters of the whole text. -/
  size : Nat
  /-- The portions that have not been fetched. -/
  portions : List (Option Nat)
  /-- The number of characters that have been fetched and not been passed. -/
  ready : Nat := 0
  /-- Whether the last fetch took place in front of a byte order mark. -/
  fetchedAtMark : Bool := false
  /-- The number of characters that have been passed. -/
  index : Nat := 0
  line : Nat := 0
  col : Nat := 0
  /-- The number of line ends since the last character that is no blank. -/
  newlines : Nat := 0

namespace Cursor

/-- The front of a text, behind its byte order mark. -/
def ofText (text : String) : Cursor :=
  match text.toList with
  | [] => { rest := [], size := 0, portions := [] }
  | c :: cs =>
    if c == byteOrderMark then
      { rest := cs, size := cs.length, portions := portionsFrom (portionSize - c.utf8Size) 0 cs }
    else
      { rest := c :: cs, size := cs.length + 1, portions := portionsFrom portionSize 0 (c :: cs) }

/-- The character that stands `k` characters ahead. -/
def peek (c : Cursor) (k : Nat := 0) : Char := c.rest.getD k endOfText

/-- Whether the characters that follow are those of a word. -/
def startsWith (c : Cursor) (word : List Char) : Bool := word.isPrefixOf c.rest

/-- The place after a character that ends no line. -/
def next (c : Cursor) : Cursor :=
  { c with
    rest := c.rest.tail
    ready := c.ready - 1
    index := c.index + 1
    col := c.col + 1
    newlines := if isBlank c.peek then c.newlines else 0 }

/-- The number of characters that end the line here. -/
def breakLength (c : Cursor) : Nat :=
  match c.rest with
  | '\r' :: '\n' :: _ => 2
  | ch :: _ => if isBreak ch then 1 else 0
  | [] => 0

/-- The place after the characters that end the line here, if there are any. -/
def nextLine (c : Cursor) : Cursor :=
  match c.breakLength with
  | 0 => c
  | k => { c with
      rest := c.rest.drop k
      ready := c.ready - k
      index := c.index + k
      line := c.line + 1
      col := 0
      newlines := c.newlines + 1 }

/-- The text of the end of the line here: the separators of lines and paragraphs stand for
themselves, all others for a line feed. -/
def breakText (c : Cursor) : List Char :=
  match c.rest with
  | [] => []
  | ch :: _ =>
    if ch.toNat == 0x2028 || ch.toNat == 0x2029 then [ch] else if isBreak ch then ['\n'] else []

/-- Whether the line begins with a marker between documents. -/
def atMarker (c : Cursor) (marker : List Char) : Bool :=
  c.col == 0 && c.startsWith marker && isGap (c.peek 3)

/-- Whether the line begins a document. -/
def atDocumentStart (c : Cursor) : Bool := c.atMarker ['-', '-', '-']

/-- Whether the line ends a document. -/
def atDocumentEnd (c : Cursor) : Bool := c.atMarker ['.', '.', '.']

/-- Fetches portions until `n` characters are ready.  Behind the last portion one fetch finds the
end of the text once. -/
def fetch (n ready : Nat) : List (Option Nat) → Option (Nat × List (Option Nat))
  | [] => some (ready + 1, [])
  | none :: _ => none
  | some k :: ps => if n ≤ ready + k then some (ready + k, ps) else fetch n (ready + k) ps

end Cursor

/-! ### Steps -/

/-- A step that goes on in a text or fails. -/
abbrev Scan := StateT Cursor Option

/-- Has the next `n` characters fetched. -/
def need (n : Nat) : Scan Unit := fun c =>
  if n ≤ c.ready then some ((), c)
  else
    (Cursor.fetch n c.ready c.portions).map fun (ready, portions) =>
      ((), { c with ready, portions, fetchedAtMark := c.peek == byteOrderMark })

/-- Fails unless a condition holds. -/
def require (b : Bool) : Scan Unit := if b then pure () else failure

/-- The character that stands `k` characters ahead. -/
def peek (k : Nat := 0) : Scan Char := do return (← get).peek k

/-- Passes a character that ends no line. -/
def skip : Scan Unit := modify Cursor.next

/-- Passes characters that end no line. -/
def skips : Nat → Scan Unit
  | 0 => pure ()
  | n + 1 => do
    skip
    skips n

/-- Passes the end of a line. -/
def skipLine : Scan Unit := do
  need 2
  modify Cursor.nextLine

/-- Passes the end of a line and gives its text. -/
def readLine : Scan (List Char) := do
  need 2
  let c ← get
  set c.nextLine
  return c.breakText

/-- Repeats a step at most `n` times, until it gives a result. -/
@[specialize]
def iterate {σ α : Type} (step : σ → Scan (σ ⊕ α)) : Nat → σ → Scan α
  | 0, _ => failure
  | n + 1, s => do
    match ← step s with
    | .inl s => iterate step n s
    | .inr a => return a

/-- Repeats a step until it gives a result.  Every step but the last few passes a character. -/
@[inline]
def loop {σ α : Type} (step : σ → Scan (σ ⊕ α)) (s : σ) : Scan α := do
  iterate step ((← get).size + 8) s

/-- Passes the characters that satisfy a predicate. -/
def skipWhile (p : Char → Bool) : Scan Unit :=
  loop (fun _ => do
    need 1
    if p (← peek) then
      skip
      return .inl ()
    else return .inr ()) ()

/-- Passes blanks. -/
def skipBlanks : Scan Unit := skipWhile isBlank

/-- Goes to the end of the line. -/
def skipToLineEnd : Scan Unit := skipWhile fun c => !isLineEnd c

/-- Takes the characters that satisfy a predicate. -/
def takeWhile (p : Char → Bool) : Scan (List Char) :=
  loop (fun acc => do
    need 1
    let c ← peek
    if p c then
      skip
      return .inl (c :: acc)
    else return .inr acc.reverse) []

end EarlyEscape.Yaml
