import EarlyEscape.Config

/-!
# Settings from outside

Settings that a file or another program gives.  Each of the three settings may be given or not;
those that are given become options of the analysis.

## Main definitions

* `Settings` : the settings given.
* `Settings.Field` : the names of the settings.
* `Settings.options` : the options they stand for.
-/

namespace EarlyEscape

/-- The settings that are given. -/
structure Settings where
  enabled : Option Bool := none
  invariants : Option Bool := none
  initializers : Option Bool := none
deriving DecidableEq, Repr, Inhabited

namespace Settings

/-- The name of a setting. -/
inductive Field where
  | enabled
  | invariants
  | initializers
deriving DecidableEq, Repr

/-- All settings. -/
def Field.all : List Field := [enabled, invariants, initializers]

/-- The name of a setting. -/
def Field.name : Field → String
  | enabled => "enabled"
  | invariants => "invariants"
  | initializers => "initializers"

/-- Gives a setting, or takes it back. -/
def set (s : Settings) (value : Option Bool) : Field → Settings
  | .enabled => { s with enabled := value }
  | .invariants => { s with invariants := value }
  | .initializers => { s with initializers := value }

/-- The options that the given settings stand for. -/
def options (s : Settings) : List Setting :=
  (s.enabled.map Setting.enabled).toList ++ (s.invariants.map Setting.invariants).toList ++
    (s.initializers.map Setting.initializers).toList

end Settings

end EarlyEscape
