/-!
# Options of the analysis

A configuration says what the analysis does; a list of options changes it step by step, a later
option over an earlier one.

## Main definitions

* `Config` : the settings of an analysis.
* `Setting` : one option; options may be missing or form groups.
* `Setting.applyAll` : the configuration after a list of options.
* `Setting.attributes` : the options of a list as named values for a log.
-/

namespace EarlyEscape

/-- The settings of an analysis. -/
structure Config where
  /-- Whether the warning category is on where nothing suppresses it. -/
  enabled : Bool := true
  /-- Whether the analysis checks its own invariants. -/
  invariants : Bool := false
  /-- Whether the analysis also starts from the initializers of instances. -/
  initializers : Bool := true
  /-- Whether a log is kept. -/
  logging : Bool := false
deriving DecidableEq, Repr, Inhabited

/-- An option of the analysis. -/
inductive Setting where
  /-- No option at all. -/
  | missing
  | enabled (on : Bool)
  | invariants (on : Bool)
  | initializers (on : Bool)
  | logger (present : Bool)
  /-- Several options as one. -/
  | group (options : List Setting)

namespace Setting

mutual

/-- The configuration after an option. -/
def apply (c : Config) : Setting → Config
  | missing => c
  | enabled on => { c with enabled := on }
  | invariants on => { c with invariants := on }
  | initializers on => { c with initializers := on }
  | logger present => { c with logging := present }
  | group options => applyAll c options

/-- The configuration after a list of options. -/
def applyAll (c : Config) : List Setting → Config
  | [] => c
  | o :: options => applyAll (apply c o) options

end

mutual

/-- An option as named values; a group stands for its options. -/
def attributesOf : Setting → List (String × String)
  | missing => [("nil", "<nil>")]
  | enabled on => [("enabled", toString on)]
  | invariants on => [("invariants", toString on)]
  | initializers on => [("initializers", toString on)]
  | logger present => [("logger", toString present)]
  | group options => attributes options

/-- A list of options as named values. -/
def attributes : List Setting → List (String × String)
  | [] => []
  | o :: options => attributesOf o ++ attributes options

end

/-- The name of a list of options in a log. -/
def logKey : String := "options"

end Setting

/-- The configuration that a list of options makes of the default one. -/
def Config.ofSettings (options : List Setting) : Config := Setting.applyAll {} options

end EarlyEscape
