import EarlyEscape.Config
import EarlyEscape.Text.Quoted

/-!
# Command line switches

Three of the settings of an analysis can be given as Boolean switches in front of the other
arguments of a command line: `-name`, `--name`, `-name=value` or `--name=value`.  Reading stops at
the first argument that is no switch and after the argument `--`.

## Main definitions

* `Switch` : the switches, with the settings they stand for.
* `CommandLine.Fault` : what is wrong with a switch, and its message.
* `CommandLine.usage` : the text that explains the switches.
* `CommandLine.parse` : reads the switches of a command line.
-/

namespace EarlyEscape

/-- A switch of the command line. -/
inductive Switch where
  | enabled
  | initializers
  | invariants
deriving DecidableEq, Repr

namespace Switch

/-- All switches, by name. -/
def all : List Switch := [enabled, initializers, invariants]

/-- The name of a switch. -/
def name : Switch → String
  | enabled => "enabled"
  | initializers => "initializers"
  | invariants => "invariants"

/-- What a switch does. -/
def help : Switch → String
  | enabled => "enable the this-escape category where not suppressed"
  | initializers => "analyze instance initializers"
  | invariants => "verify internal invariants of the analysis"

/-- The setting of a switch in a configuration. -/
def get (c : Config) : Switch → Bool
  | enabled => c.enabled
  | initializers => c.initializers
  | invariants => c.invariants

/-- The configuration with another setting of a switch. -/
def set (c : Config) (value : Bool) : Switch → Config
  | enabled => { c with enabled := value }
  | initializers => { c with initializers := value }
  | invariants => { c with invariants := value }

/-- The switch of a name. -/
def ofName? (s : String) : Option Switch := all.find? fun w => w.name == s

@[simp] theorem get_set (c : Config) (value : Bool) (w : Switch) :
    get (set c value w) w = value := by
  cases w <;> rfl

end Switch

namespace CommandLine

/-- The name of the program in messages. -/
def programName : String := "thisescape"

/-- The texts that stand for true and for false. -/
def boolOfText? (s : String) : Option Bool :=
  if ["1", "t", "T", "true", "TRUE", "True"].contains s then some true
  else if ["0", "f", "F", "false", "FALSE", "False"].contains s then some false
  else none

/-- What is wrong with an argument. -/
inductive Fault where
  /-- The argument begins like a switch but has no name. -/
  | badSyntax (arg : String)
  /-- No switch has the name. -/
  | undefined (name : String)
  /-- The value of a switch is no truth value. -/
  | badValue (w : Switch) (value : String)
  /-- The argument asks for the explanation of the switches. -/
  | help
deriving DecidableEq, Repr

/-- Why a text is no truth value, as the message about a switch ends.  The first switch only says
that it cannot be read; the others say what was read. -/
def valueComplaint (w : Switch) (value : String) : String :=
  match w with
  | .enabled => "parse error"
  | _ => "strconv.ParseBool: parsing " ++ Text.quote value ++ ": invalid syntax"

/-- The message of a fault. -/
def Fault.message : Fault → String
  | badSyntax arg => "bad flag syntax: " ++ arg
  | undefined name => "flag provided but not defined: -" ++ name
  | badValue w value =>
    "invalid boolean value " ++ Text.quote value ++ " for -" ++ w.name ++ ": " ++
      valueComplaint w value
  | help => "flag: help requested"

/-- The explanation of one switch, given the configuration at the start. -/
def usageOf (start : Config) (w : Switch) : String :=
  "  -" ++ w.name ++ "\n    \t" ++ w.help ++ (if w.get start then " (default true)" else "") ++ "\n"

/-- The explanation of all switches, given the configuration at the start. -/
def usage (start : Config) : String :=
  "Usage of " ++ programName ++ ":\n" ++ String.join (Switch.all.map (usageOf start))

/-- What is printed for a fault: its message, unless the explanation was asked for, and the
explanation. -/
def Fault.output (start : Config) (f : Fault) : String :=
  (if f = help then "" else f.message ++ "\n") ++ usage start

/-- One argument: a switch with or without value, the end of the switches, or no switch. -/
inductive Token where
  | other
  | terminator
  | malformed
  | switch (name : List Char) (value : Option (List Char))

/-- The name of a switch and what follows the first equals sign that does not open it. -/
def splitValue (name : List Char) : List Char × Option (List Char) :=
  match name with
  | [] => ([], none)
  | c :: cs =>
    match cs.dropWhile (· != '=') with
    | [] => (c :: cs, none)
    | _ :: value => (c :: cs.takeWhile (· != '='), some value)

/-- What an argument is, its leading dashes told apart. -/
def Token.ofName : List Char → Token
  | [] => malformed
  | c :: cs =>
    if c == '-' || c == '=' then malformed
    else
      let (name, value) := splitValue (c :: cs)
      switch name value

/-- What an argument is. -/
def Token.ofArg (arg : String) : Token :=
  match arg.toList with
  | '-' :: '-' :: [] => terminator
  | '-' :: '-' :: name => .ofName name
  | '-' :: c :: name => .ofName (c :: name)
  | _ => other

/-- The state after some arguments: the configuration, the arguments that are left and, if reading
failed, why. -/
structure Parsed where
  config : Config
  rest : List String
  fault : Option Fault := none

/-- The configuration after a switch, or why it has none.  A value that cannot be read turns the
first switch off. -/
def applySwitch (c : Config) (w : Switch) : Option String → Except (Config × Fault) Config
  | none => .ok (w.set c true)
  | some value =>
    match boolOfText? value with
    | some b => .ok (w.set c b)
    | none => .error (if w = .enabled then w.set c false else c, .badValue w value)

/-- Reads the switches at the start of a list of arguments. -/
def parse (c : Config) : List String → Parsed
  | [] => ⟨c, [], none⟩
  | arg :: args =>
    match Token.ofArg arg with
    | .other => ⟨c, arg :: args, none⟩
    | .terminator => ⟨c, args, none⟩
    | .malformed => ⟨c, arg :: args, some (.badSyntax arg)⟩
    | .switch name value =>
      let name := String.ofList name
      match Switch.ofName? name with
      | none => ⟨c, args, some (if name == "help" || name == "h" then .help else .undefined name)⟩
      | some w =>
        match applySwitch c w (value.map String.ofList) with
        | .ok c => parse c args
        | .error (c, f) => ⟨c, args, some f⟩

end CommandLine

end EarlyEscape
