/-! # Command line arguments

* `Invocation` — what the arguments ask for.
* `Arguments.read` — reads the arguments of a canonicalization one by one.
  Options may stand before or after the file; a value is attached to its
  option or follows it. No option but the one for identifier names may be
  repeated.
* `Invocation.parse` — reads all arguments.
-/

namespace CanonicalXml.CommandLine

structure Job where
  file : String
  algorithm : String
  reference : Option String
  idNames : List String
  inclusivePrefixes : String
  propagateDefault : Bool
  secure : Bool
  output : Option String
deriving DecidableEq

inductive Invocation where
  | version
  | info
  | canonicalize (job : Job)
  | misuse
deriving DecidableEq

/-- The options that stand alone. -/
inductive Switch where
  | propagateDefault
  | secure
  | verbose
deriving DecidableEq

/-- The options that take a value. -/
inductive Setting where
  | algorithm
  | reference
  | idName
  | inclusivePrefixes
  | output
deriving DecidableEq

def Switch.ofLong? : String → Option Switch
  | "propagate-default-ns" => some .propagateDefault
  | "secure" => some .secure
  | "verbose" => some .verbose
  | _ => none

def Switch.ofLetter? : Char → Option Switch
  | 'v' => some .verbose
  | _ => none

def Setting.ofLong? : String → Option Setting
  | "algorithm" => some .algorithm
  | "reference" => some .reference
  | "id-attr" => some .idName
  | "inclusive-prefixes" => some .inclusivePrefixes
  | "output" => some .output
  | _ => none

def Setting.ofLetter? : Char → Option Setting
  | 'a' => some .algorithm
  | 'r' => some .reference
  | 'o' => some .output
  | _ => none

structure Arguments where
  file : Option String := none
  algorithm : Option String := none
  reference : Option String := none
  idNames : List String := []
  inclusivePrefixes : Option String := none
  output : Option String := none
  switches : List Switch := []
deriving DecidableEq

namespace Arguments

def turnOn (a : Arguments) (s : Switch) : Option Arguments :=
  if a.switches.contains s then none else some { a with switches := s :: a.switches }

/-- Takes the file, once. A path is not empty. -/
def setFile (a : Arguments) (path : String) : Option Arguments :=
  if a.file.isSome || path.isEmpty then none else some { a with file := some path }

def set (a : Arguments) (s : Setting) (value : String) : Option Arguments :=
  match s with
  | .algorithm => if a.algorithm.isSome then none else some { a with algorithm := some value }
  | .reference => if a.reference.isSome then none else some { a with reference := some value }
  | .idName => some { a with idNames := a.idNames ++ [value] }
  | .inclusivePrefixes =>
    if a.inclusivePrefixes.isSome then none else some { a with inclusivePrefixes := some value }
  | .output =>
    if a.output.isSome || value.isEmpty then none else some { a with output := some value }

/-- Takes an option by its long name, with the value attached to it. The result says which
option is still waiting for its value. -/
def long (a : Arguments) (name : String) (attached : Option String) :
    Option (Arguments × Option Setting) :=
  match Switch.ofLong? name, Setting.ofLong? name, attached with
  | some s, _, none => (a.turnOn s).map (·, none)
  | none, some s, some value => (a.set s value).map (·, none)
  | none, some s, none => some (a, some s)
  | _, _, _ => none

/-- Takes a row of letters. What follows the letter of an option with a value is that
value, with or without an equals sign. -/
def letters (a : Arguments) : List Char → Option (Arguments × Option Setting)
  | [] => some (a, none)
  | c :: cs =>
    match Switch.ofLetter? c, Setting.ofLetter? c with
    | some s, _ => (a.turnOn s).bind (letters · cs)
    | none, none => none
    | none, some s =>
      match cs with
      | [] => some (a, some s)
      | '=' :: value => (a.set s (String.ofList value)).map (·, none)
      | value => (a.set s (String.ofList value)).map (·, none)

/-- Whether an argument is an option, and so cannot be the value of one. -/
def isOption (arg : String) : Bool :=
  match arg.toList with
  | '-' :: _ :: _ => true
  | _ => false

/-- Takes an argument that is not the value of the option before it. -/
def take (a : Arguments) (arg : String) : Option (Arguments × Option Setting) :=
  match arg.toList with
  | '-' :: '-' :: cs =>
    match cs.dropWhile (· ≠ '=') with
    | [] => a.long (String.ofList cs) none
    | _ :: value => a.long (String.ofList (cs.takeWhile (· ≠ '='))) (some (String.ofList value))
  | '-' :: c :: cs => a.letters (c :: cs)
  | _ => (a.setFile arg).map (·, none)

/-- Takes arguments in order; `waiting` is the option that the next one is the value of.
After two hyphens there are no options any more. -/
def read (a : Arguments) (waiting : Option Setting) : List String → Option Arguments
  | [] => if waiting.isSome then none else some a
  | arg :: rest =>
    match waiting with
    | some s => if isOption arg then none else (a.set s arg).bind (read · none rest)
    | none =>
      if arg = "--" then rest.foldlM setFile a
      else (a.take arg).bind fun (a, waiting) => read a waiting rest

/-- The job that the arguments describe. The file is required. -/
def job? (a : Arguments) : Option Job :=
  a.file.map fun file => {
    file
    algorithm := a.algorithm.getD "c14n"
    reference := a.reference
    idNames := a.idNames
    inclusivePrefixes := a.inclusivePrefixes.getD ""
    propagateDefault := a.switches.contains .propagateDefault
    secure := a.switches.contains .secure
    output := a.output }

end Arguments

def asksForVersion (arg : String) : Bool :=
  arg = "--version" || ['-', 'V'].isPrefixOf arg.toList

def Invocation.parse : List String → Invocation
  | [] => .misuse
  | command :: rest =>
    if command = "c14n" then
      match (Arguments.read {} none rest).bind Arguments.job? with
      | some job => .canonicalize job
      | none => .misuse
    else if command = "info" then
      if rest.isEmpty || rest = ["--"] then .info else .misuse
    else if asksForVersion command then .version
    else .misuse

end CanonicalXml.CommandLine
