import EarlyEscape.Settings.Basic
import EarlyEscape.Yaml.Node.Reader

/-!
# Settings from a file

A settings file is a YAML document that maps names of settings to truth values.  Names that are no
settings and names given twice are refused, and a file without content gives no settings.

The value of the merge key is a mapping, or a list of mappings, whose entries count where nothing
before them has given the same name.  Aliases are followed, but not into themselves, and not so
often that nearly all of the work is due to them.

## Main definitions

* `Settings.ofDocument` : the settings of a document.
* `Settings.parse` : the settings of a text.
* `Settings.load` : the settings of a file, which may not be there.
-/

namespace EarlyEscape.Settings

open Yaml

/-- Why a text gives no settings. -/
inductive ParseError where
  /-- The text is no document, or one that cannot be read to its end. -/
  | malformed
  /-- The document does not fit the settings. -/
  | mismatch
  /-- A collection is a key beside a merge key, where keys have to be compared. -/
  | incomparable
deriving DecidableEq, Repr

/-! ### Steps -/

/-- How far a document has been read. -/
structure Progress where
  settings : Settings := {}
  /-- Whether all that has been read fits the settings. -/
  fits : Bool := true
  /-- The number of nodes that have been visited, aliases and what they stand for included. -/
  visited : Nat := 0
  /-- The number of those that an alias has led to. -/
  aliased : Nat := 0
  /-- The aliases that are being followed. -/
  following : List Nat := []
  /-- The keys that mappings have given, while others are merged into them. -/
  given : Option (List Value) := none

/-- A step in a document. -/
abbrev Step := StateT Progress (Except ParseError)

/-- Notes that something does not fit the settings. -/
def misfit : Step Unit := modify fun p => { p with fits := false }

/-- The numbers of visits between which the part that aliases may lead to shrinks from 99 to 10 in a
hundred. -/
def aliasRange : Nat × Nat := (400000, 4000000)

/-- Whether nearly all of many visits are due to aliases. -/
def isExcessive (visited aliased : Nat) : Bool :=
  let (low, high) := aliasRange
  100 < aliased && 1000 < visited &&
    if visited ≤ low then 99 * visited < 100 * aliased
    else if high ≤ visited then 10 * visited < 100 * aliased
    else (99 * (high - low) - 89 * (visited - low)) * visited < 100 * (high - low) * aliased

/-- Counts the visit of a node. -/
def visit : Step Unit := do
  let p ← get
  let visited := p.visited + 1
  let aliased := if p.following.isEmpty then p.aliased else p.aliased + 1
  if isExcessive visited aliased then throw .malformed
  modify fun p => { p with visited, aliased }

/-- Visits a node, and the node that it stands for if it is an alias. -/
def follow {α : Type} (d : Document) (read : Yaml.Node → Step α) (node : Yaml.Node) : Step α := do
  visit
  match node with
  | .alias _ target id =>
    if (← get).following.contains id then throw .malformed
    modify fun p => { p with following := id :: p.following }
    visit
    let a ← read (d.target target)
    modify fun p => { p with following := p.following.tail }
    return a
  | node => read node

/-- The value of a scalar. -/
def valueOf (tag : Tag) (text : String) : Step Value :=
  match Value.of? tag text with
  | some v => pure v
  | none => throw .malformed

/-! ### Entries -/

/-- The texts that stand for true. -/
def yesTexts : List String := ["y", "Y", "yes", "Yes", "YES", "on", "On", "ON"]

/-- The texts that stand for false. -/
def noTexts : List String := ["n", "N", "no", "No", "NO", "off", "Off", "OFF"]

/-- The setting of a name. -/
def fieldNamed? (name : Value) : Option Field := Field.all.find? fun f => name == .text f.name

/-- The text or the bytes that a key stands for as a name; a key without value stands for none. -/
def nameOf : Yaml.Node → Step (Option Value)
  | .scalar tag text => do
    match ← valueOf tag text with
    | .null => return none
    | .text s => return some (.text s)
    | .bytes bs => return some (.bytes bs)
    | _ => return some (.text text)
  | _ => do
    misfit
    return none

/-- Gives a setting the truth value that a node stands for.  A node without value takes it back. -/
def setField (f : Field) : Yaml.Node → Step Unit
  | .scalar tag text => do
    let put (b : Option Bool) : Step Unit :=
      modify fun p => { p with settings := p.settings.set b f }
    match ← valueOf tag text with
    | .null => put none
    | .bool b => put (some b)
    | .text s =>
      if yesTexts.contains s then put (some true)
      else if noTexts.contains s then put (some false)
      else misfit
    | _ => misfit
  | _ => misfit

/-- Whether a mapping has a key twice. -/
def hasRepetition : List (Yaml.Node × Yaml.Node) → Bool
  | [] => false
  | e :: es => es.any (fun e' => e.1.sameKey e'.1) || hasRepetition es

/-- The value of the merge key of a mapping; of several the last one. -/
def mergeValue? (entries : List (Yaml.Node × Yaml.Node)) : Option Yaml.Node :=
  (entries.filter fun e => e.1.isMergeKey).getLast?.map Prod.snd

/-- Whether a key is among those that have been given. -/
def isGiven (given : List Value) (key : Value) : Bool := given.any key.isSame

/-- Says which keys have been given. -/
def setGiven (given : Option (List Value)) : Step Unit := modify fun p => { p with given }

/-- Reads the entries of a mapping of settings.  Names among `given` are passed over, and others are
added to those.  `done` are the settings that the mapping has given. -/
def readEntries (d : Document) (given : Option (List Value)) (done : List Field) :
    List (Yaml.Node × Yaml.Node) → Step (Option (List Value))
  | [] => return given
  | (key, value) :: entries => do
    if key.isMergeKey then readEntries d given done entries
    else
      match ← follow d nameOf key with
      | none => readEntries d given done entries
      | some name =>
        if given.any (isGiven · name) then readEntries d given done entries
        else
          let given := given.map (name :: ·)
          match fieldNamed? name with
          | none =>
            misfit
            readEntries d given done entries
          | some f =>
            if done.contains f then
              misfit
              readEntries d given done entries
            else
              follow d (setField f) value
              readEntries d given (f :: done) entries

/-! ### Merging -/

/-- A key of any sort: the value of a scalar, or a collection. -/
abbrev AnyKey := Option Value

/-- Adds keys to those that have been given; `read` reads one, if it can. -/
def collectKeys (read : Yaml.Node → Step (Option AnyKey)) : List Yaml.Node → Step Unit
  | [] => return ()
  | key :: keys => do
    match ← read key with
    | none => pure ()
    | some none => throw .incomparable
    | some (some v) => modify fun p => { p with given := p.given.map (v :: ·) }
    collectKeys read keys

/-- Whether a node can be merged: it is a mapping, or stands for one. -/
def canMerge (d : Document) : Yaml.Node → Bool
  | .map .. => true
  | .alias _ target _ => (d.target target).isMap
  | _ => false

/-- Reads nodes that are merged one after the other. -/
def mergeAll (d : Document) (read : Yaml.Node → Step Unit) : List Yaml.Node → Step Unit
  | [] => return ()
  | node :: nodes => do
    if canMerge d node then
      follow d read node
      mergeAll d read nodes
    else throw .malformed

/-- Merges the value of the merge key of a mapping, if there is one.  The keys of the mapping itself
come before those that are merged, and are read once for all mappings merged into each other. -/
def merge (d : Document) (readKey : Yaml.Node → Step (Option AnyKey))
    (read : Yaml.Node → Step Unit) (entries : List (Yaml.Node × Yaml.Node)) : Step Unit := do
  match mergeValue? entries with
  | none => pure ()
  | some value =>
    let outer := (← get).given
    if outer.isNone then
      setGiven (some [])
      collectKeys (follow d readKey) (entries.map Prod.fst)
    mergeAll d read (match value with
      | .list _ items => items
      | node => [node])
    if outer.isNone then setGiven none

/-- Whether the keys of a mapping are read as names: all of them have the sort of texts. -/
def hasNames (d : Document) (entries : List (Yaml.Node × Yaml.Node)) : Bool :=
  entries.all fun e => [.str, .merge].contains (d.tagOf e.1)

/-- Reads the entries of a mapping of any sort, where `readKey` and `readValue` read nodes.  Keys
among `given` are passed over, and others are added to those; without such keys a collection can be
no key. -/
def readAnyEntries (readKey readValue : Yaml.Node → Step (Option AnyKey))
    (given : Option (List Value)) : List (Yaml.Node × Yaml.Node) → Step (Option (List Value))
  | [] => return given
  | (key, value) :: entries => do
    if key.isMergeKey then readAnyEntries readKey readValue given entries
    else
      match ← readKey key, given with
      | none, _ => readAnyEntries readKey readValue given entries
      | some none, some _ => throw .incomparable
      | some none, none => throw .malformed
      | some (some _), none =>
        discard (readValue value)
        readAnyEntries readKey readValue none entries
      | some (some k), some g =>
        if isGiven g k then readAnyEntries readKey readValue given entries
        else
          discard (readValue value)
          readAnyEntries readKey readValue (some (k :: g)) entries

/-- Reads a node of any sort, and gives it as a key if it can be read.  A mapping that is merged
into another has its keys read as names if `names` says so of that one. -/
def readAny (d : Document) : Nat → Option Bool → Yaml.Node → Step (Option AnyKey)
  | 0, _, _ => throw .malformed
  | _ + 1, _, .scalar tag text => do return some (some (← valueOf tag text))
  | n + 1, _, .list _ items => do
    items.forM fun item => discard (follow d (readAny d n none) item)
    return some none
  | n + 1, names, .map _ entries => do
    if hasRepetition entries then
      misfit
      return none
    else
      let names := names.getD (hasNames d entries)
      let readKey (key : Yaml.Node) : Step (Option AnyKey) :=
        if names then do return (← follow d nameOf key).map some
        else follow d (readAny d n none) key
      let given := (← get).given
      setGiven none
      setGiven (← readAnyEntries readKey (follow d (readAny d n none)) given entries)
      merge d (readAny d n none) (fun node => discard (readAny d n (some names) node)) entries
      return some none
  | _ + 1, _, .alias .. => return none

/-- Reads a node that stands for settings. -/
def readSettings (d : Document) : Nat → Yaml.Node → Step Unit
  | 0, _ => throw .malformed
  | _ + 1, .scalar tag text => do
    match ← valueOf tag text with
    | .null => pure ()
    | _ => misfit
  | n + 1, .map _ entries => do
    if hasRepetition entries then misfit
    else
      let given := (← get).given
      setGiven none
      setGiven (← readEntries d given [] entries)
      merge d (readAny d n none) (readSettings d n) entries
  | _ + 1, _ => misfit

/-! ### Documents -/

/-- A bound on the depth of nodes, when aliases are followed but not into themselves. -/
def depthBound (d : Document) : Nat := (d.size + 2) * (d.size + 2)

/-- The settings of a document. -/
def ofDocument (d : Document) : Except ParseError Settings := do
  let step : Step Unit := do
    visit
    follow d (readSettings d (depthBound d)) d.root
  let ((), p) ← step.run {}
  if p.fits then return p.settings else throw .mismatch

/-- The settings of a text. -/
def parse (text : String) : Except ParseError Settings :=
  match Document.read? text with
  | none => .error .malformed
  | some d => ofDocument d

/-- Why a file gives no settings. -/
inductive LoadError where
  /-- There is no such file. -/
  | notFound
  /-- The content of the file of this name gives none. -/
  | inFile (name : String) (e : ParseError)
deriving DecidableEq, Repr

/-- The words in front of the message about a file; a file that is not there has none. -/
def LoadError.context : LoadError → String
  | notFound => ""
  | inFile name _ => "settings " ++ name ++ ": "

/-- The settings of a file with the given name and content. -/
def load (name : String) : Option String → Except LoadError Settings
  | none => .error .notFound
  | some text => (parse text).mapError (.inFile name)

end EarlyEscape.Settings
