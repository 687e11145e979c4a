import EarlyEscape.Symbol.Hierarchy

/-!
# Declaring symbols

A table grows by declarations and links.  Every table starts from `SymbolTable.initial`, which
holds the root class with its package and its methods.

## Main definitions

* `SymbolTable.addModule`, `addPackage`, `addClass`, `addVar`, `addMethod` : declarations; each
  gives the identity of what it declares.
* `SymbolTable.arrayOf` : the array type of an element type, one for each element type.
* `SymbolTable.setSuper`, `addInterfaces`, `setOuter`, `setResult` : links.
* `SymbolTable.initial` : the table of the root class.
-/

namespace EarlyEscape

/-- The name every constructor has. -/
def constructorName : String := "<init>"

namespace SymbolTable

/-! ### Changes of one record -/

/-- Changes what is declared about a class. -/
def modifyClass (t : SymbolTable) (c : ClassId) (f : ClassInfo → ClassInfo) : SymbolTable :=
  { t with classes := t.classes.modify c.index f }

/-- Changes what is declared about a method. -/
def modifyMethod (t : SymbolTable) (m : MethodId) (f : MethodInfo → MethodInfo) : SymbolTable :=
  { t with methods := t.methods.modify m.index f }

/-- Changes what is declared about a variable. -/
def modifyVar (t : SymbolTable) (v : VarId) (f : VarInfo → VarInfo) : SymbolTable :=
  { t with vars := t.vars.modify v.index f }

/-! ### Declarations -/

/-- Declares a module. -/
def addModule (t : SymbolTable) (info : ModuleInfo) : ModuleId × SymbolTable :=
  (⟨t.modules.size⟩, { t with modules := t.modules.push info })

/-- Declares a package. -/
def addPackage (t : SymbolTable) (info : PackageInfo) : PackageId × SymbolTable :=
  (⟨t.packages.size⟩, { t with packages := t.packages.push info })

/-- Whether instances of a class refer to an enclosing instance, as far as its place, its
modifiers and its owner tell: top level and static classes and interfaces do not, members of an
interface do not, and code in a static context has no enclosing instance. -/
def derivesOuter (t : SymbolTable) (info : ClassInfo) : Bool :=
  if info.kind == .topLevel || info.flags.hasAny [.static, .interface] then false
  else
    match info.owner with
    | some (.cls c) => !(t.cls c).isInterface || info.kind != .member
    | some (.method m) => !(t.method m).isStatic
    | some (.var v) => !(t.var v).isStatic
    | _ => false

/-- Declares a class. -/
def addClass (t : SymbolTable) (info : ClassInfo) : ClassId × SymbolTable :=
  (⟨t.classes.size⟩,
    { t with classes := t.classes.push { info with hasOuter := t.derivesOuter info } })

/-- Declares a variable. -/
def addVar (t : SymbolTable) (info : VarInfo) : VarId × SymbolTable :=
  (⟨t.vars.size⟩, { t with vars := t.vars.push info })

/-- Declares a method.  It becomes the last method of its class and the owner of those of its
parameters that have none. -/
def addMethod (t : SymbolTable) (info : MethodInfo) : MethodId × SymbolTable :=
  let m : MethodId := ⟨t.methods.size⟩
  let t := { t with methods := t.methods.push info }
  let own (v : VarInfo) : VarInfo := { v with owner := some (v.owner.getD (.method m)) }
  let t := info.params.foldl (fun t v => t.modifyVar v own) t
  let t :=
    match info.owner with
    | none => t
    | some c => t.modifyClass c fun i => { i with methods := i.methods ++ [m] }
  (m, t)

/-- The array type of an element type.  It is declared when it is first asked for. -/
def arrayOf (t : SymbolTable) (elem : ClassId) : ClassId × SymbolTable :=
  let info := t.cls elem
  match info.array with
  | some a => (a, t)
  | none =>
    let a : ClassId := ⟨t.classes.size⟩
    let array : ClassInfo :=
      { name := info.name ++ "[]"
        owner := info.owner
        flags := .of [.publicAccess, .final]
        kind := .array
        super := some .object
        elem := some elem }
    let t := { t with classes := t.classes.push array }
    (a, t.modifyClass elem fun i => { i with array := some a })

/-! ### Links -/

/-- Sets the superclass of a class. -/
def setSuper (t : SymbolTable) (c : ClassId) (super : Option ClassId) : SymbolTable :=
  t.modifyClass c fun i => { i with super }

/-- Adds interfaces to those of a class. -/
def addInterfaces (t : SymbolTable) (c : ClassId) (interfaces : List ClassId) : SymbolTable :=
  t.modifyClass c fun i => { i with interfaces := i.interfaces ++ interfaces }

/-- Sets whether instances of a class refer to an enclosing instance. -/
def setOuter (t : SymbolTable) (c : ClassId) (hasOuter : Bool) : SymbolTable :=
  t.modifyClass c fun i => { i with hasOuter }

/-- Sets the result type of a method. -/
def setResult (t : SymbolTable) (m : MethodId) (result : Option ClassId) : SymbolTable :=
  t.modifyMethod m fun i => { i with result }

/-! ### The root class -/

/-- The methods of the root class: name, modifiers and parameters. -/
def rootMethods : List (String × List Modifier × List VarInfo) :=
  [(constructorName, [.publicAccess], []),
    ("getClass", [.publicAccess, .final, .native], []),
    ("hashCode", [.publicAccess, .native], []),
    ("equals", [.publicAccess], [{ name := "obj", type := some .object, kind := .param }]),
    ("clone", [.protectedAccess, .native], []),
    ("toString", [.publicAccess], []),
    ("notify", [.publicAccess, .final, .native], []),
    ("notifyAll", [.publicAccess, .final, .native], []),
    ("wait", [.publicAccess, .final], []),
    ("wait", [.publicAccess, .final, .native], [{ name := "timeoutMillis", kind := .param }]),
    ("finalize", [.protectedAccess], [])]

/-- Declares one method of the root class with its parameters. -/
def addRootMethod (t : SymbolTable) (spec : String × List Modifier × List VarInfo) : SymbolTable :=
  let (name, modifiers, params) := spec
  let (ids, t) := params.foldl
    (fun (ids, t) p => let (v, t) := t.addVar p; (ids ++ [v], t)) (([] : List VarId), t)
  (t.addMethod
    { name, owner := some .object, flags := .of modifiers, params := ids
      isConstructor := name == constructorName }).2

/-- The table of the root class, its package and its methods. -/
def initial : SymbolTable :=
  let (lang, t) := ({} : SymbolTable).addPackage { name := "java.lang" }
  let (_, t) := t.addClass
    { name := "Object", owner := some (.package lang), flags := .of [.publicAccess] }
  rootMethods.foldl addRootMethod t

end SymbolTable

end EarlyEscape
