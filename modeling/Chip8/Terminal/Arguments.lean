import Chip8.Machine
import Chip8.Numeral

/-!
The arguments of the program. They are read from left to right, and the first mistake or the first
request for the version or for help decides.
-/

namespace Chip8.Terminal

def defaultIps : Nat := 700

structure Settings where
  rom : String
  ips : Nat := defaultIps
  maxFrames : Option Nat := none
  seed : Option Nat := none
  dialect : Dialect := {}
  headless : Bool := false
deriving DecidableEq, Repr

def Settings.stepsPerFrame (s : Settings) : Nat := max 1 (s.ips / Registers.ticksPerSecond)

inductive Request
  | run (settings : Settings)
  | version
  | help
deriving DecidableEq, Repr

inductive Choice
  | ips
  | maxFrames
  | seed
  | shiftUsesVy
  | jumpUsesVx
  | headless
  | version
  | help
deriving DecidableEq, Repr

namespace Choice

def all : List Choice :=
  [ips, maxFrames, seed, shiftUsesVy, jumpUsesVx, headless, version, help]

def longName : Choice → String
  | ips => "ips"
  | maxFrames => "max-frames"
  | seed => "seed"
  | shiftUsesVy => "shift-uses-vy"
  | jumpUsesVx => "jump-uses-vx"
  | headless => "headless"
  | version => "version"
  | help => "help"

def letter? : Choice → Option Char
  | ips => some 'i'
  | maxFrames => some 'n'
  | version => some 'V'
  | help => some 'h'
  | _ => none

def takesValue : Choice → Bool
  | ips | maxFrames | seed => true
  | _ => false

def ofLongName? (name : List Char) : Option Choice := all.find? fun o => o.longName.toList == name

def ofLetter? (c : Char) : Option Choice := all.find? fun o => o.letter? == some c

end Choice

inductive UsageError
  | unknownOption (argument : String)
  | missingValue (choice : Choice)
  | unexpectedValue (choice : Choice)
  | invalidValue (choice : Choice) (value : String)
  | repeated (choice : Choice)
  | secondPath (argument : String)
  | emptyPath
  | missingPath
deriving DecidableEq, Repr

def UsageError.message : UsageError → String
  | unknownOption argument => String.join ["unexpected argument '", argument, "'"]
  | missingValue o => String.join ["--", o.longName, " needs a value"]
  | unexpectedValue o => String.join ["--", o.longName, " takes no value"]
  | invalidValue o value => String.join ["invalid value '", value, "' for --", o.longName]
  | repeated o => String.join ["--", o.longName, " is given twice"]
  | secondPath argument => String.join ["unexpected argument '", argument, "'"]
  | emptyPath => "the path of the program is empty"
  | missingPath => "the path of a program is required"

inductive Token
  | path
  | endOfOptions
  | option (choice : Option Choice) (value : Option (List Char))

/-- A long option is cut at its first equals sign. -/
def Token.ofLong (cs : List Char) : Token :=
  let name := cs.takeWhile (· ≠ '=')
  match cs.dropWhile (· ≠ '=') with
  | [] => .option (Choice.ofLongName? name) none
  | _ :: value => .option (Choice.ofLongName? name) (some value)

/-- A letter may have its value right behind it, with or without an equals sign. -/
def Token.ofShort (c : Char) (cs : List Char) : Token :=
  match Choice.ofLetter? c with
  | none => .option none none
  | some o =>
    if o.takesValue then
      match cs with
      | [] => .option (some o) none
      | '=' :: value => .option (some o) (some value)
      | value => .option (some o) (some value)
    else .option (some o) none

/-- A lone minus sign is a path. -/
def Token.ofText : List Char → Token
  | ['-', '-'] => .endOfOptions
  | '-' :: '-' :: cs => .ofLong cs
  | '-' :: c :: cs => .ofShort c cs
  | _ => .path

/-- A number in decimal up to a limit; a plus sign may stand in front of it. -/
def readCount? (limit : Nat) : List Char → Option Nat
  | '+' :: ds => (Numeral.read? 10 ds).filter (· ≤ limit)
  | ds => (Numeral.read? 10 ds).filter (· ≤ limit)

/-- A rate has 32 bits, and zero may be written with a minus sign. -/
def readRate? : List Char → Option Nat
  | '-' :: ds => (Numeral.read? 10 ds).filter (· = 0)
  | cs => readCount? (UInt32.size - 1) cs

structure Draft where
  rom : Option String := none
  ips : Option Nat := none
  maxFrames : Option Nat := none
  seed : Option Nat := none
  shiftUsesVy : Bool := false
  jumpUsesVx : Bool := false
  headless : Bool := false

namespace Draft

def setPath (d : Draft) (path : String) : Except UsageError Draft :=
  match d.rom with
  | some _ => .error (.secondPath path)
  | none => if path = "" then .error .emptyPath else .ok { d with rom := some path }

def value (choice : Choice) (old read : Option Nat) (text : List Char) : Except UsageError Nat :=
  match old, read with
  | some _, _ => .error (.repeated choice)
  | none, some n => .ok n
  | none, none => .error (.invalidValue choice (String.ofList text))

def setValue (d : Draft) (choice : Choice) (text : List Char) : Except UsageError Draft :=
  match choice with
  | .ips => (value choice d.ips (readRate? text) text).map fun n => { d with ips := some n }
  | .maxFrames =>
    (value choice d.maxFrames (readCount? (UInt64.size - 1) text) text).map fun n =>
      { d with maxFrames := some n }
  | .seed =>
    (value choice d.seed (readCount? (UInt64.size - 1) text) text).map fun n =>
      { d with seed := some n }
  | _ => .error (.unexpectedValue choice)

def setFlag (d : Draft) (choice : Choice) : Except UsageError Draft :=
  match choice with
  | .shiftUsesVy =>
    if d.shiftUsesVy then .error (.repeated choice) else .ok { d with shiftUsesVy := true }
  | .jumpUsesVx =>
    if d.jumpUsesVx then .error (.repeated choice) else .ok { d with jumpUsesVx := true }
  | .headless => if d.headless then .error (.repeated choice) else .ok { d with headless := true }
  | _ => .error (.missingValue choice)

def finish (d : Draft) : Except UsageError Request :=
  match d.rom with
  | none => .error .missingPath
  | some rom =>
    let dialect := { shiftUsesVy := d.shiftUsesVy, jumpUsesVx := d.jumpUsesVx }
    .ok <| .run
      { rom := rom, ips := d.ips.getD defaultIps, maxFrames := d.maxFrames, seed := d.seed
        dialect := dialect, headless := d.headless }

def read (d : Draft) : List String → Except UsageError Request
  | [] => d.finish
  | argument :: rest =>
    match Token.ofText argument.toList with
    | .path => (d.setPath argument).bind fun d => d.read rest
    | .endOfOptions => (rest.foldlM setPath d).bind finish
    | .option none _ => .error (.unknownOption argument)
    | .option (some .version) none => .ok .version
    | .option (some .help) none => .ok .help
    | .option (some choice) (some value) => (d.setValue choice value).bind fun d => d.read rest
    | .option (some choice) none =>
      if choice.takesValue then
        match rest with
        | [] => .error (.missingValue choice)
        | value :: rest =>
          if value.toList.head? = some '-' then .error (.missingValue choice)
          else (d.setValue choice value.toList).bind fun d => d.read rest
      else (d.setFlag choice).bind fun d => d.read rest

end Draft

def Request.ofArguments (arguments : List String) : Except UsageError Request :=
  ({} : Draft).read arguments

end Chip8.Terminal
