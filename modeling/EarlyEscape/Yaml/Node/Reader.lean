import EarlyEscape.Yaml.Node
import EarlyEscape.Yaml.Token.Lexer
import EarlyEscape.Yaml.Value

/-!
# Reading YAML documents

The first document of a text is read from its tokens.  What follows the document counts only so far
as tokens of it are looked at.

Every function that reads a node takes a bound on the depth of nodes, which is larger than the
number of tokens.

## Main definitions

* `Document.read?` : the first document of a text.
-/

namespace EarlyEscape.Yaml

/-- The state of the reader. -/
structure ReaderState where
  lexer : Lexer
  /-- What the handles of tags stand for. -/
  handles : List (String × String) := []
  /-- The numbers of the nodes with anchors by name, the latest first. -/
  names : List (String × Nat) := []
  anchored : Array Node := #[]
  /-- The number of nodes that have been begun. -/
  size : Nat := 0

/-- A step of the reader. -/
abbrev Reader := StateT ReaderState Option

/-! ### Tokens -/

/-- A step of the lexer. -/
def onTokens {α : Type} (x : Lex α) : Reader α := fun s =>
  (x.run s.lexer).map fun (a, lexer) => (a, { s with lexer })

/-- The next token. -/
def look : Reader Token := onTokens peekToken

/-- Passes the next token. -/
def pass : Reader Unit := onTokens takeToken

/-- Passes the next token and gives the one after it. -/
def lookNext : Reader Token := do
  pass
  look

/-! ### Properties of nodes -/

/-- What stands in front of the content of a node. -/
structure Properties where
  anchor : Option String := none
  /-- The tag in full. -/
  tag : Option String := none

/-- Whether nothing stands in front of the content. -/
def Properties.isEmpty (p : Properties) : Bool := p.anchor.isNone && p.tag.isNone

/-- A tag in full. -/
def fullTag (handle suffix : String) : Reader String := do
  if handle == "" then return suffix
  else
    match (← get).handles.lookup handle with
    | some start => return start ++ suffix
    | none => failure

/-- An anchor and a tag in either order, or one of them, or none. -/
def properties : Reader Properties := do
  match ← look with
  | .anchor a =>
    match ← lookNext with
    | .tag h s =>
      pass
      return { anchor := some a, tag := some (← fullTag h s) }
    | _ => return { anchor := some a }
  | .tag h s =>
    match ← lookNext with
    | .anchor a =>
      pass
      return { anchor := some a, tag := some (← fullTag h s) }
    | _ => return { tag := some (← fullTag h s) }
  | _ => return {}

/-- The sort that the properties of a node give it.  The tag `!` alone says nothing. -/
def Properties.tag? (p : Properties) : Option Tag := (p.tag.filter (· != "!")).map Tag.ofName

/-- The sort of a scalar without a tag. -/
def untagged (text : String) (plain : Bool) : Tag :=
  if !plain then .str else if text == "<<" then .merge else .natural text

/-- Counts a node. -/
def countNode : Reader Unit := modify fun s => { s with size := s.size + 1 }

/-- Gives an anchor its number, which stands for a blank node so far. -/
def openAnchor (anchor : Option String) : Reader (Option Nat) := do
  let s ← get
  match anchor with
  | none => return none
  | some name =>
    let n := s.anchored.size
    set { s with names := (name, n) :: s.names, anchored := s.anchored.push .absent }
    return some n

/-- Lets the number of an anchor stand for a node. -/
def closeAnchor (number? : Option Nat) (node : Node) : Reader Node := do
  match number? with
  | none => return node
  | some n =>
    modify fun s => { s with anchored := s.anchored.setIfInBounds n node }
    return node

/-- A node where nothing stands. -/
def absent : Reader Node := do
  countNode
  return .absent

/-- A scalar with its properties. -/
def scalar (p : Properties) (text : String) (plain : Bool) : Reader Node := do
  countNode
  closeAnchor (← openAnchor p.anchor) (.scalar (p.tag?.getD (untagged text plain)) text)

/-- A node without content, which has at least a property. -/
def bare (p : Properties) : Reader Node := if p.isEmpty then failure else scalar p "" true

/-- An alias. -/
def aliasNode (name : String) : Reader Node := do
  countNode
  let s ← get
  match s.names.lookup name with
  | some target => return .alias name target s.size
  | none => failure

/-! ### Nodes -/

/-- What a token stands in front of, in the block or flow collection that it is part of. -/
structure Context where
  /-- Whether block collections may begin. -/
  block : Bool
  /-- Whether a block list may begin that is indented no further. -/
  indentless : Bool := false

/-- The tokens behind which an entry of a block mapping ends. -/
def endsEntry (t : Token) : Bool := t == .key || t == .value || t == .blockEnd

mutual

/-- A node. -/
def node (ctx : Context) : Nat → Reader Node
  | 0 => failure
  | n + 1 => do
    match ← look with
    | .alias name =>
      pass
      aliasNode name
    | _ =>
      let p ← properties
      let tag := p.tag?.getD .other
      let collection (content : Reader Node) : Reader Node := do
        countNode
        let number? ← openAnchor p.anchor
        closeAnchor number? (← content)
      match ← look with
      | .item =>
        if ctx.indentless then collection do return .list tag (← indentlessItems n)
        else bare p
      | .scalar text plain =>
        pass
        scalar p text plain
      | .flowListStart =>
        collection do
          pass
          return .list tag (← flowItems true n)
      | .flowMapStart =>
        collection do
          pass
          return .map tag (← flowEntries true n)
      | .blockListStart =>
        if ctx.block then
          collection do
            pass
            return .list tag (← blockItems n)
        else bare p
      | .blockMapStart =>
        if ctx.block then
          collection do
            pass
            return .map tag (← blockEntries n)
        else bare p
      | _ => bare p
termination_by structural n => n

/-- The items of a block list. -/
def blockItems : Nat → Reader (List Node)
  | 0 => failure
  | n + 1 => do
    match ← look with
    | .item =>
      let t ← lookNext
      let item ←
        if t == .item || t == .blockEnd then absent else node { block := true } n
      return item :: (← blockItems n)
    | .blockEnd =>
      pass
      return []
    | _ => failure
termination_by structural n => n

/-- The items of a block list that is indented no further than the mapping around it. -/
def indentlessItems : Nat → Reader (List Node)
  | 0 => failure
  | n + 1 => do
    match ← look with
    | .item =>
      let t ← lookNext
      let item ←
        if t == .item || endsEntry t then absent else node { block := true } n
      return item :: (← indentlessItems n)
    | _ => return []
termination_by structural n => n

/-- The entries of a block mapping.  The key or the value may be missing, but not both. -/
def blockEntries : Nat → Reader (List (Node × Node))
  | 0 => failure
  | n + 1 => do
    match ← look with
    | .key =>
      let t ← lookNext
      let key ← if endsEntry t then absent else node { block := true, indentless := true } n
      let value ←
        if (← look) == .value then do
          let t ← lookNext
          if endsEntry t then absent else node { block := true, indentless := true } n
        else absent
      return (key, value) :: (← blockEntries n)
    | .blockEnd =>
      pass
      return []
    | _ => failure
termination_by structural n => n

/-- The items of a flow list; `first` says whether none has been read.  An item with the mark of a
key is a mapping with one entry, and where the key is missing the token in its place is passed. -/
def flowItems (first : Bool) : Nat → Reader (List Node)
  | 0 => failure
  | n + 1 => do
    let t ← look
    if t == .flowListEnd then
      pass
      return []
    else
      let t ←
        if first then pure t
        else if t == .comma then lookNext
        else failure
      match t with
      | .key =>
        countNode
        let t ← lookNext
        let key ←
          if t == .value || t == .comma || t == .flowListEnd then do
            pass
            absent
          else node { block := false } n
        let value ←
          if (← look) == .value then do
            let t ← lookNext
            if t == .comma || t == .flowListEnd then absent else node { block := false } n
          else absent
        return .map .other [(key, value)] :: (← flowItems false n)
      | .flowListEnd =>
        pass
        return []
      | _ =>
        let item ← node { block := false } n
        return item :: (← flowItems false n)
termination_by structural n => n

/-- The entries of a flow mapping; `first` says whether none has been read. -/
def flowEntries (first : Bool) : Nat → Reader (List (Node × Node))
  | 0 => failure
  | n + 1 => do
    let t ← look
    if t == .flowMapEnd then
      pass
      return []
    else
      let t ←
        if first then pure t
        else if t == .comma then lookNext
        else failure
      match t with
      | .key =>
        let t ← lookNext
        let key ←
          if t == .value || t == .comma || t == .flowMapEnd then absent
          else node { block := false } n
        let value ←
          if (← look) == .value then do
            let t ← lookNext
            if t == .comma || t == .flowMapEnd then absent else node { block := false } n
          else absent
        return (key, value) :: (← flowEntries false n)
      | .flowMapEnd =>
        pass
        return []
      | _ =>
        let key ← node { block := false } n
        let value ← absent
        return (key, value) :: (← flowEntries false n)
termination_by structural n => n

end

/-! ### Documents -/

/-- The handles that every document has. -/
def standardHandles : List (String × String) := [("!", "!"), ("!!", standardTags.1)]

/-- Passes the directives in front of a document; `version` says whether one for the version has
been read.  None is given twice, and the version is 1.1. -/
def directives (version : Bool) : Nat → Reader Unit
  | 0 => failure
  | n + 1 => do
    match ← look with
    | .version major minor =>
      if version || major != 1 || minor != 1 then failure
      else
        pass
        directives true n
    | .handle name start =>
      let s ← get
      if (s.handles.lookup name).isSome then failure
      else
        set { s with handles := (name, start) :: s.handles }
        pass
        directives version n
    | _ => modify fun s => { s with handles := s.handles ++ standardHandles }

/-- Whether a token stands outside the content of documents. -/
def isOutside : Token → Bool
  | .version .. | .handle .. | .documentStart | .documentEnd | .textEnd => true
  | _ => false

/-- The content of the first document; none if there is no document. -/
def content? (n : Nat) : Reader (Option Node) := do
  discard look
  let t ← lookNext
  match t with
  | .textEnd => return none
  | .version .. | .handle .. | .documentStart =>
    directives false n
    if (← look) == .documentStart then
      let t ← lookNext
      let root ← if isOutside t then absent else node { block := true } n
      discard look
      return some root
    else failure
  | _ =>
    modify fun s => { s with handles := standardHandles }
    let root ← node { block := true } n
    discard look
    return some root

/-- The first document of a text; a text without content has an empty one.  None if the text breaks
the rules of the format. -/
def Document.read? (text : String) : Option Document := do
  let lexer := Lexer.ofText text
  let (root?, s) ← (content? (4 * lexer.cursor.size + 16)).run { lexer }
  return { root := root?.getD .absent, anchored := s.anchored, size := s.size }

end EarlyEscape.Yaml
