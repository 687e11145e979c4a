import EarlyEscape.Settings.Basic
import EarlyEscape.Sorting

/-!
# Settings from a raw value

Another program may hand over its settings as a value of maps, lists, texts, numbers and truth
values.  Names of settings match whatever their case, and names are read in order, so that of two
that match one setting the later one counts.

## Main definitions

* `RawValue` : a value as another program hands it over.
* `Settings.decode` : the settings that a value gives.
-/

namespace EarlyEscape

/-- A value as another program hands it over.  The settings are truth values, so that numbers and
texts need no content. -/
inductive RawValue where
  | null
  | bool (b : Bool)
  | number
  | text
  | list
  | object (fields : List (String × RawValue))
deriving Inhabited

namespace Settings

/-- Why a raw value gives no settings. -/
inductive DecodeError where
  /-- A name that is no setting. -/
  | unknownField
  /-- A value of another type than the setting has. -/
  | wrongType
deriving DecidableEq, Repr

/-- The letter that stands for all letters that differ from it in case only.  Beyond ASCII only the
long s folds into a letter of a setting. -/
def foldChar (c : Char) : Char := if c.toNat = 0x17F then 's' else c.toLower

/-- A name with all letters folded. -/
def foldName (s : String) : String := String.ofList (s.toList.map foldChar)

/-- The setting of a name, case apart. -/
def fieldOf? (s : String) : Option Field := Field.all.find? fun f => f.name == foldName s

/-- The settings after one more name with its value. -/
def decodeField (s : Settings) (name : String) (value : RawValue) : Except DecodeError Settings :=
  match fieldOf? name with
  | none => .error .unknownField
  | some f =>
    match value with
    | .null => .ok (s.set none f)
    | .bool b => .ok (s.set (some b) f)
    | _ => .error .wrongType

/-- The settings that a raw value gives; no value gives none. -/
def decode : RawValue → Except DecodeError Settings
  | .null => .ok {}
  | .object fields =>
    (sortBy (fun a b => (compare a.1 b.1).isLE) fields).foldlM
      (fun s (name, value) => decodeField s name value) {}
  | _ => .error .wrongType

end Settings

end EarlyEscape
