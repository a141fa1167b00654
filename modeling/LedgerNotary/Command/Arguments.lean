import LedgerNotary.Message

/-! The arguments of the command line.

The program and each action is a level of its own: options of the program stand in front of the
action, those of the action behind it. A value stands in the next argument or behind an equals
sign, and does not begin with a minus sign unless it is nothing else; behind two minus signs all
arguments are operands. Arguments are taken in turn, and of several reasons to stop the first
counts. A value in an argument of its own is looked at only when the next option, flag or operand
of its level comes up or the level ends, so an action with all its arguments goes before the value
that stands in front of its name. -/

namespace LedgerNotary.Command

inductive Action
  | inspectProfile (file : String)
  | createProfile (name : String) (addresses : List String) (out : String)
  | consumed (state : Option StateRef)
  | demo (inputs : UInt32)
deriving DecidableEq

structure Invocation where
  db : Option String
  log : Option String
  mode : Option Mode
  action : Action
deriving DecidableEq

/-- Why nothing is run: the arguments make no sense, or they ask for help or for the version. -/
inductive Stop
  | usage
  | help
  | version
deriving DecidableEq, Repr

inductive Token
  | escape
  | named (name : String)
  | assigned (name value : String)
  | plain (text : String)
deriving DecidableEq, Repr

/-- The name that a single letter stands for. -/
def nameOfLetter (c : Char) : String :=
  if c = 'h' then "help" else if c = 'V' then "version" else String.singleton c

/-- Of several letters behind one minus sign only the first counts, since none takes a value and
those that are known end the run. -/
def Token.ofChars : List Char → Token
  | ['-', '-'] => .escape
  | '-' :: '-' :: s =>
    let name := s.takeWhile (· != '=')
    if name.length < s.length then
      .assigned (String.ofList name) (String.ofList (s.drop (name.length + 1)))
    else .named (String.ofList name)
  | '-' :: c :: _ => .named (nameOfLetter c)
  | s => .plain (String.ofList s)

def Token.ofText (arg : String) : Token := ofChars arg.toList

/-- Adds a value to what has been read of a level, if it can be there. -/
abbrev Put (σ : Type) := σ → String → Except Stop σ

/-- What may stand on a level: flags, options, operands if it takes any, and actions. -/
structure Level (σ : Type) where
  flags : List (String × Stop)
  options : List (String × Put σ)
  operand : Option (Put σ)
  actions : List String

/-- What has been read of a level, and what came last and is not yet added: where it belongs, and
the value unless that is still to come. -/
structure Scan (σ : Type) where
  read : σ
  pending : Option (Put σ × Option String)

namespace Scan

variable {σ : Type}

def settle (s : Scan σ) : Except Stop σ :=
  match s.pending with
  | none => .ok s.read
  | some (put, some value) => put s.read value
  | some (_, none) => .error .usage

/-- Where the next plain argument goes as a value. -/
def awaiting (s : Scan σ) : Option (Put σ) :=
  match s.pending with
  | some (put, none) => some put
  | _ => none

/-- Settles, and leaves an option or operand pending. -/
def next (s : Scan σ) (put : Put σ) (value : Option String) : Except Stop (Scan σ) := do
  return ⟨← s.settle, some (put, value)⟩

end Scan

namespace Level

variable {σ : Type}

def takeOperand (l : Level σ) (s : Scan σ) (text : String) : Except Stop (Scan σ) :=
  match l.operand with
  | some put => s.next put (some text)
  | none => .error .usage

/-- A flag ends the run, an option waits for its value. -/
def takeName (l : Level σ) (s : Scan σ) (name : String) : Except Stop (Scan σ) := do
  match l.flags.lookup name, l.options.lookup name with
  | some stop, _ =>
    let _ ← s.settle
    throw stop
  | none, some put => s.next put none
  | none, none => throw .usage

def takeAssigned (l : Level σ) (s : Scan σ) (name value : String) : Except Stop (Scan σ) := do
  match l.options.lookup name with
  | some put => return ⟨← put (← s.settle) value, none⟩
  | none => throw .usage

/-- Reads a level up to the name of an action, which is left with all behind it. -/
def scan (l : Level σ) (s : Scan σ) : List String → Except Stop (Scan σ × List String)
  | [] => .ok (s, [])
  | arg :: rest =>
    match Token.ofText arg, s.awaiting with
    | .plain text, some put => l.scan { s with pending := some (put, some text) } rest
    | .plain text, none =>
      if text ∈ l.actions then .ok (s, arg :: rest)
      else do l.scan (← l.takeOperand s text) rest
    | .escape, _ => do return (← rest.foldlM l.takeOperand s, [])
    | .named name, _ => do l.scan (← l.takeName s name) rest
    | .assigned name value, _ => do l.scan (← l.takeAssigned s name value) rest

def readAll (l : Level σ) (start : σ) (args : List String) : Except Stop σ := do
  let (s, _) ← l.scan ⟨start, none⟩ args
  s.settle

end Level

/-- Reads the value of something that may be given once. -/
def once {α : Type} (read : String → Except Stop α) (given : Option α) (text : String) :
    Except Stop (Option α) :=
  match given with
  | none => (read text).map some
  | some _ => .error .usage

def required {α : Type} (given : Option α) : Except Stop α :=
  match given with
  | some a => .ok a
  | none => .error .usage

def readText (text : String) : Except Stop String := .ok text

/-- A path, which cannot be empty. -/
def readPath (text : String) : Except Stop String :=
  if text.isEmpty then .error .usage else .ok text

def readMode (text : String) : Except Stop Mode :=
  match Mode.parse? text with
  | some m => .ok m
  | none => .error .usage

def readState (text : String) : Except Stop StateRef :=
  (StateRef.parse text).mapError fun _ => .usage

/-- A count of 32 bits; zero may have a minus sign. -/
def readCount (text : String) : Except Stop UInt32 :=
  let n := match text.toList with
    | '-' :: s => if Decimal.digits? s = some 0 then some 0 else none
    | s => Decimal.uint32? s
  match n with
  | some n => .ok n
  | none => .error .usage

def commonFlags : List (String × Stop) := [("help", .help)]

def inspectLevel : Level (Option String) where
  flags := commonFlags
  options := []
  operand := some (once readPath)
  actions := []

structure ProfileOptions where
  name : Option String
  addresses : List String
  out : Option String
deriving DecidableEq

def createLevel : Level ProfileOptions where
  flags := commonFlags
  options := [
    ("name", fun given text => return { given with name := ← once readText given.name text }),
    ("address", fun given text => return { given with addresses := given.addresses ++ [text] }),
    ("out", fun given text => return { given with out := ← once readPath given.out text })]
  operand := none
  actions := []

def consumedLevel : Level (Option StateRef) where
  flags := commonFlags
  options := [("state", once readState)]
  operand := none
  actions := []

def demoLevel : Level (Option UInt32) where
  flags := commonFlags
  options := [("inputs", once readCount)]
  operand := none
  actions := []

structure GlobalOptions where
  db : Option String
  log : Option String
  mode : Option Mode
deriving DecidableEq

def actionNames : List String :=
  ["inspect-node-info", "new-node-info", "consumed", "notarise-demo", "help"]

def topLevel : Level GlobalOptions where
  flags := commonFlags ++ [("version", .version)]
  options := [
    ("db", fun given text => return { given with db := ← once readPath given.db text }),
    ("log", fun given text => return { given with log := ← once readText given.log text }),
    ("mode", fun given text => return { given with mode := ← once readMode given.mode text })]
  operand := none
  actions := actionNames

/-- What a request for help stops with: it may name one action. -/
def helpOn : List String → Stop
  | [] => .help
  | [name] => if name ∈ actionNames then .help else .usage
  | _ => .usage

def Action.parse (name : String) (args : List String) : Except Stop Action := do
  if name = "inspect-node-info" then
    return .inspectProfile (← required (← inspectLevel.readAll none args))
  else if name = "new-node-info" then
    let given ← createLevel.readAll ⟨none, [], none⟩ args
    return .createProfile (← required given.name) given.addresses (← required given.out)
  else if name = "consumed" then return .consumed (← consumedLevel.readAll none args)
  else if name = "notarise-demo" then return .demo ((← demoLevel.readAll none args).getD 2)
  else if name = "help" then throw (helpOn args)
  else throw .usage

def Invocation.parse (args : List String) : Except Stop Invocation := do
  let (s, rest) ← topLevel.scan ⟨⟨none, none, none⟩, none⟩ args
  match rest with
  | [] => throw .usage
  | name :: args =>
    let action ← Action.parse name args
    let given ← s.settle
    return ⟨given.db, given.log, given.mode, action⟩

end LedgerNotary.Command
