import EarlyEscape.Yaml.Token.Property
import EarlyEscape.Yaml.Token.Scalar

/-!
# Cutting a YAML text into tokens

A token may turn out to be a key only when the mark behind it is reached, and then the tokens that
begin the key and its mapping are put in front of it.  So tokens wait in a queue, and the first of
them may be taken once no token can come in front of it.

What may be a key on its way is remembered for every flow collection that is open: it ends on the
line where it begins, and within `keyLimit` characters.

## Main definitions

* `Lexer` : the state of the lexer.
* `Lexer.ofText` : the state in front of a text.
* `fetchToken` : reads one more token.
* `peekToken`, `takeToken` : the first token of the queue.
-/

namespace EarlyEscape.Yaml

/-- The number of characters that a key without a mark of its own may have. -/
def keyLimit : Nat := 1024

/-- The number of collections that may be open within each other. -/
def depthLimit : Nat := 10000

/-- The number of tokens that are read before the first of them is taken. -/
def lookahead : Nat := 3

/-- The number of characters that are looked at for a further comment. -/
def commentReach : Nat := 512

/-- A place where a key without a mark of its own may begin. -/
structure KeyPlace where
  /-- Whether a key can still begin there. -/
  possible : Bool := false
  /-- Whether nothing but a key can begin there. -/
  required : Bool := false
  /-- The number of the token that the key begins with. -/
  number : Nat := 0
  index : Nat := 0
  line : Nat := 0
  col : Nat := 0

/-- The state of the lexer. -/
structure Lexer where
  cursor : Cursor
  /-- The tokens that have been read and not been taken. -/
  queue : List Token := [.textStart]
  /-- The number of tokens that have been taken. -/
  taken : Nat := 0
  /-- The column of the innermost block collection; `-1` without one. -/
  indent : Int := -1
  /-- The columns of the block collections around it, innermost first. -/
  outerIndents : List Int := []
  /-- Whether a key may begin here without a mark of its own. -/
  keyAllowed : Bool := true
  /-- The number of flow collections that are open. -/
  flowDepth : Nat := 0
  /-- The place of a key in the innermost flow collection that is open. -/
  place : KeyPlace := {}
  /-- The places of keys in the collections around it, innermost first; the last one is outside all
  flow collections. -/
  outerPlaces : List KeyPlace := []
  /-- The numbers of tokens that may begin a key, with the number of flow collections around. -/
  waiting : List (Nat × Nat) := []

/-- A step of the lexer. -/
abbrev Lex := StateT Lexer Option

namespace Lexer

/-- The state in front of a text. -/
def ofText (text : String) : Lexer := { cursor := .ofText text }

/-- Whether a flow collection is open. -/
def inFlow (l : Lexer) : Bool := 0 < l.flowDepth

/-- The number of the next token that is read. -/
def nextNumber (l : Lexer) : Nat := l.taken + l.queue.length

/-- The state with one more token at the end of the queue. -/
def push (l : Lexer) (t : Token) : Lexer := { l with queue := l.queue ++ [t] }

/-- The state with one more token in front of the one with the given number.  When that has been
taken the token comes last. -/
def insert (l : Lexer) (number : Nat) (t : Token) : Lexer :=
  if number < l.taken then l.push t else { l with queue := l.queue.insertIdx (number - l.taken) t }

/-- The state without the given token among those that may begin a key. -/
def forget (l : Lexer) (number : Nat) : Lexer :=
  if (l.waiting.lookup number).isSome then
    { l with waiting := l.waiting.filter fun w => w.1 != number }
  else l

/-- The place of a key with the given number of flow collections around. -/
def placeAt (l : Lexer) (depth : Nat) : KeyPlace :=
  (l.place :: l.outerPlaces).getD (l.flowDepth - depth) {}

/-- The state with another place of a key with the given number of flow collections around. -/
def setPlace (l : Lexer) (depth : Nat) (p : KeyPlace) : Lexer :=
  match (l.place :: l.outerPlaces).set (l.flowDepth - depth) p with
  | [] => l
  | place :: outerPlaces => { l with place, outerPlaces }

end Lexer

/-- A step in the text. -/
def onText {α : Type} (x : Scan α) : Lex α := fun l =>
  (x.run l.cursor).map fun (a, cursor) => (a, { l with cursor })

/-- Fails unless a condition holds. -/
def check (b : Bool) : Lex Unit := if b then pure () else failure

/-- Says whether a key may begin here without a mark of its own. -/
def allowKey (b : Bool) : Lex Unit := modify fun l => { l with keyAllowed := b }

/-! ### Keys without a mark of their own -/

/-- Whether a key can still begin at its place.  A place that has been left behind is given up,
which fails if nothing but a key can begin there. -/
def canBeKey (depth : Nat) : Lex Bool := do
  let l ← get
  let p := l.placeAt depth
  if p.possible then
    if p.line < l.cursor.line || p.index + keyLimit < l.cursor.index then
      check (!p.required)
      set (l.setPlace depth { p with possible := false })
      return false
    else return true
  else return false

/-- Gives up the place of a key in the innermost collection, which fails if nothing but a key can
begin there. -/
def dropKey : Lex Unit := do
  let l ← get
  if l.place.possible then
    check (!l.place.required)
    set ({ l with place := { l.place with possible := false } }.forget l.place.number)

/-- Remembers that a key may begin here. -/
def saveKey : Lex Unit := do
  if (← get).keyAllowed then
    dropKey
    modify fun l =>
      let c := l.cursor
      let l := l.forget l.nextNumber
      { l with
        place :=
          { possible := true
            required := !l.inFlow && l.indent == c.col
            number := l.nextNumber
            index := c.index
            line := c.line
            col := c.col }
        waiting := (l.nextNumber, l.flowDepth) :: l.waiting }

/-! ### Collections -/

/-- The column of the innermost block collection and of those around it, after all that are
indented further than `col` have ended, and the number of those. -/
def leaveIndents (col indent : Int) : List Int → Nat × Int × List Int
  | [] => (0, indent, [])
  | outer :: outers =>
    if col < indent then
      let (n, rest) := leaveIndents col outer outers
      (n + 1, rest)
    else (0, indent, outer :: outers)

/-- Ends the block collections that are indented further than `col`. -/
def endBlocks (col : Int) : Lex Unit := modify fun l =>
  if l.inFlow then l
  else
    let (n, indent, outerIndents) := leaveIndents col l.indent l.outerIndents
    { l with queue := l.queue ++ List.replicate n .blockEnd, indent, outerIndents }

/-- Begins a block collection at the column `col` unless there is one.  Its token comes in front of
the one with the given number, or last. -/
def beginBlock (col : Nat) (number? : Option Nat) (t : Token) : Lex Unit := do
  let l ← get
  if !l.inFlow && l.indent < col then
    check (l.outerIndents.length < depthLimit)
    let l := { l with indent := col, outerIndents := l.indent :: l.outerIndents }
    set (match number? with
      | some number => l.insert number t
      | none => l.push t)

/-- Opens a flow collection. -/
def openFlow : Lex Unit := do
  let l ← get
  check (l.flowDepth < depthLimit)
  let c := l.cursor
  set { l with
    flowDepth := l.flowDepth + 1
    place := { number := l.nextNumber, index := c.index, line := c.line, col := c.col }
    outerPlaces := l.place :: l.outerPlaces }

/-- Closes a flow collection, if one is open. -/
def closeFlow : Lex Unit := modify fun l =>
  match l.outerPlaces with
  | [] => l
  | place :: outerPlaces =>
    { l with flowDepth := l.flowDepth - 1, place, outerPlaces }.forget l.place.number

/-! ### Gaps -/

/-- The number of characters up to a comment, when nothing but characters that satisfy `p` stand in
front of it, and not more than `n`. -/
def commentAhead? (p : Char → Bool) (k : Nat) : Nat → Scan (Option Nat)
  | 0 => return none
  | n + 1 => do
    need (k + 1)
    let c ← peek k
    if p c then commentAhead? p (k + 1) n else return if c == '#' then some k else none

/-- Goes over `n` characters, in which line ends may be. -/
def skipOver (n : Nat) : Scan Unit := do
  let goal := (← get).index + n
  loop (fun _ => do
    need 1
    let c ← get
    if c.index < goal then
      if isLineEnd c.peek then skipLine else skip
      return .inl ()
    else return .inr ()) ()

/-- The blanks and line ends of one byte, which may stand between comments. -/
def dividesComments (c : Char) : Bool := isBlank c || c == '\n' || c == '\r'

/-- Passes a comment that begins here, and further ones with nothing but gaps between them. -/
def skipComments : Scan Unit := do
  skipToLineEnd
  loop (fun _ => do
    need 2
    if !dividesComments (← peek) then return .inr ()
    else
      match ← commentAhead? dividesComments 1 (commentReach - 1) with
      | some k =>
        skipOver k
        skipToLineEnd
        return .inl ()
      | none => return .inr ()) ()

/-- Goes to the next token over blanks, line ends and comments.  Outside flow collections a tab is
no blank where a key may begin, and behind a line end a key may begin. -/
def toToken : Nat → Lex Unit
  | 0 => failure
  | n + 1 => do
    onText do
      need 1
      let c ← get
      if c.col == 0 && c.fetchedAtMark then skip
    let l ← get
    onText do
      skipWhile fun c => c == ' ' || (c == '\t' && (l.inFlow || !l.keyAllowed))
      if (← peek) == '#' then skipComments
    if isBreak (← get).cursor.peek then
      onText skipLine
      if !l.inFlow then allowKey true
      toToken n

/-- Passes a comment behind a token on its line. -/
def skipLineComment : Scan Unit := do
  if (← get).newlines == 0 then
    match ← commentAhead? isBlank 0 commentReach with
    | some k =>
      skipOver k
      skipToLineEnd
    | none => pure ()

/-! ### Tokens -/

/-- A token of one character. -/
def mark (t : Token) : Lex Unit := do
  onText skip
  modify (·.push t)

/-- A scalar, or a property of a node, where a key may begin. -/
def keyOrContent (x : Scan Token) : Lex Unit := do
  saveKey
  allowKey false
  let t ← onText x
  modify (·.push t)

/-- Ends all that is open outside flow collections. -/
def endContent : Lex Unit := do
  endBlocks (-1)
  dropKey
  allowKey false

/-- The end of the text. -/
def textEndToken : Lex Unit := do
  modify fun l =>
    if l.cursor.col == 0 then l
    else { l with cursor := { l.cursor with col := 0, line := l.cursor.line + 1 } }
  endContent
  modify (·.push .textEnd)

/-- A directive. -/
def directiveToken : Lex Unit := do
  endContent
  let t ← onText directive
  modify (·.push t)

/-- A marker between documents. -/
def markerToken (t : Token) : Lex Unit := do
  endContent
  onText (skips 3)
  modify (·.push t)

/-- The start of a flow collection. -/
def flowStartToken (t : Token) : Lex Unit := do
  saveKey
  openFlow
  allowKey true
  mark t

/-- The end of a flow collection. -/
def flowEndToken (t : Token) : Lex Unit := do
  dropKey
  closeFlow
  allowKey false
  mark t

/-- The mark between the parts of a flow collection. -/
def commaToken : Lex Unit := do
  dropKey
  allowKey true
  mark .comma

/-- The mark in front of an item of a block list. -/
def itemToken : Lex Unit := do
  let l ← get
  if !l.inFlow then
    check l.keyAllowed
    beginBlock l.cursor.col none .blockListStart
  dropKey
  allowKey true
  mark .item

/-- The mark in front of a key. -/
def keyToken : Lex Unit := do
  let l ← get
  if !l.inFlow then
    check l.keyAllowed
    beginBlock l.cursor.col none .blockMapStart
  dropKey
  allowKey !l.inFlow
  mark .key

/-- The mark between a key and its value. -/
def valueToken : Lex Unit := do
  let l ← get
  if ← canBeKey l.flowDepth then
    let p := l.place
    modify (·.insert p.number .key)
    beginBlock p.col (some p.number) .blockMapStart
    modify fun l => { l with place := { p with possible := false } }.forget p.number
    allowKey false
  else
    if !l.inFlow then
      check l.keyAllowed
      beginBlock l.cursor.col none .blockMapStart
    allowKey !l.inFlow
  mark .value

/-- A block of lines. -/
def blockScalarToken (literal : Bool) : Lex Unit := do
  dropKey
  allowKey true
  let indent := (← get).indent
  let text ← onText (blockScalar literal indent)
  modify (·.push (.scalar text false))

/-- A plain scalar.  Behind a line end a key may begin. -/
def plainScalarToken : Lex Unit := do
  saveKey
  allowKey false
  let l ← get
  let (text, broken) ← onText (plainScalar l.inFlow (l.indent + 1))
  modify (·.push (.scalar text true))
  if broken then allowKey true

/-- The characters that can begin no plain scalar, whatever follows them. -/
def isIndicator (c : Char) : Bool :=
  [',', '[', ']', '\x7b', '\x7d', '#', '&', '*', '!', '|', '>', '\'', '"', '%', '@',
    Char.ofNat 0x60].contains c

/-- A token that is neither a directive nor a marker between documents. -/
def contentToken (inFlow : Bool) (c : Cursor) : Lex Unit :=
  let ch := c.peek
  let gapAfter := isGap (c.peek 1)
  if ch == '[' then flowStartToken .flowListStart
  else if ch == '\x7b' then flowStartToken .flowMapStart
  else if ch == ']' then flowEndToken .flowListEnd
  else if ch == '\x7d' then flowEndToken .flowMapEnd
  else if ch == ',' then commaToken
  else if ch == '-' && gapAfter then itemToken
  else if ch == '?' && (inFlow || gapAfter) then keyToken
  else if ch == ':' && (inFlow || gapAfter) then valueToken
  else if ch == '*' then keyOrContent (Token.alias <$> nodeName)
  else if ch == '&' then keyOrContent (Token.anchor <$> nodeName)
  else if ch == '!' then keyOrContent tag
  else if ch == '|' && !inFlow then blockScalarToken true
  else if ch == '>' && !inFlow then blockScalarToken false
  else if ch == '\'' then keyOrContent ((Token.scalar · false) <$> quotedScalar true)
  else if ch == '"' then keyOrContent ((Token.scalar · false) <$> quotedScalar false)
  else if !isGap ch && !isIndicator ch then plainScalarToken
  else failure

/-- Reads one more token, with the tokens that have to come before it. -/
def fetchToken : Lex Unit := do
  toToken ((← get).cursor.size + 8)
  endBlocks (← get).cursor.col
  onText (need 4)
  let l ← get
  let c := l.cursor
  if c.peek == endOfText then textEndToken
  else if c.col == 0 && c.peek == '%' then directiveToken
  else if c.atDocumentStart then markerToken .documentStart
  else if c.atDocumentEnd then markerToken .documentEnd
  else
    contentToken l.inFlow c
    if (← get).queue.getLast? != some .item then onText skipLineComment

/-! ### The queue -/

/-- Whether no token can come in front of the first one. -/
def isSettled : Lex Bool := do
  let l ← get
  if l.queue.length < lookahead then return false
  else
    match l.waiting.lookup l.taken with
    | none => return true
    | some depth => return !(← canBeKey depth)

/-- Reads tokens until no one can come in front of the first. -/
def settle : Nat → Lex Unit
  | 0 => failure
  | n + 1 => do
    if ← isSettled then pure ()
    else
      fetchToken
      settle n

/-- The first token of the queue. -/
def peekToken : Lex Token := do
  settle ((← get).cursor.size + 8)
  match (← get).queue with
  | [] => failure
  | t :: _ => return t

/-- Takes the first token from the queue. -/
def takeToken : Lex Unit := modify fun l => { l with queue := l.queue.tail, taken := l.taken + 1 }

end EarlyEscape.Yaml
