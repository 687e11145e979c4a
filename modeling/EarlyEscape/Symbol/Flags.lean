import EarlyEscape.BitMask

/-!
# Modifiers of declarations

The ten modifiers a declaration may carry and sets of them, with the text they are shown as.

## Main definitions

* `Modifier` : a single modifier.
* `Flags` : a set of modifiers; words with bits beyond the ten modifiers are allowed and the
  additional bits have no meaning.
* `Flags.text` : the names of the modifiers of a set, in the order of their bits.
-/

namespace EarlyEscape

/-- A modifier of a declaration. -/
inductive Modifier where
  | abstract
  | final
  | interface
  | native
  | privateAccess
  | protectedAccess
  | publicAccess
  | sealed
  | static
  | varargs
deriving DecidableEq, Repr

namespace Modifier

/-- All modifiers, in the order of their bits. -/
def all : List Modifier :=
  [abstract, final, interface, native, privateAccess, protectedAccess, publicAccess, sealed, static,
    varargs]

/-- The keyword of a modifier. -/
def name : Modifier → String
  | abstract => "abstract"
  | final => "final"
  | interface => "interface"
  | native => "native"
  | privateAccess => "private"
  | protectedAccess => "protected"
  | publicAccess => "public"
  | sealed => "sealed"
  | static => "static"
  | varargs => "varargs"

/-- The position of the bit of a modifier. -/
def position : Modifier → Nat
  | abstract => 0
  | final => 1
  | interface => 2
  | native => 3
  | privateAccess => 4
  | protectedAccess => 5
  | publicAccess => 6
  | sealed => 7
  | static => 8
  | varargs => 9

/-- The modifier of a keyword. -/
def ofName? (s : String) : Option Modifier := all.find? fun m => m.name == s

/-- The word with the bit of a modifier alone. -/
def bit (m : Modifier) : BitVec 16 := BitVec.twoPow 16 m.position

end Modifier

/-- A set of modifiers. -/
abbrev Flags := BitMask 16

namespace Flags

/-- The set of the given modifiers. -/
def of (ms : List Modifier) : Flags := BitMask.ofList (ms.map Modifier.bit)

/-- Whether at least one of the given modifiers is in the set. -/
def hasAny (f : Flags) (ms : List Modifier) : Bool := f.meets (of ms).bits

/-- Whether the modifier is in the set. -/
def has (f : Flags) (m : Modifier) : Bool := f.meets m.bit

/-- The modifiers of a set. -/
def modifiers (f : Flags) : List Modifier := Modifier.all.filter f.has

/-- The keywords of a set, divided by blanks. -/
def text (f : Flags) : String := " ".intercalate (f.modifiers.map Modifier.name)

end Flags

end EarlyEscape
