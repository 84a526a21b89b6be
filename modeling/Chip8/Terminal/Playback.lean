import Chip8.Screen.Text
import Chip8.Terminal.Arguments
import Chip8.Terminal.Frame

/-!
A program played frame by frame: what is written to the terminal, what is reported, and how it
ends. After each frame the timers tick once, and a frame that touched the screen shows it.
-/

namespace Chip8.Terminal

structure FileError where
  text : String
  number : Nat
deriving DecidableEq, Repr

namespace FileError

def notFound : FileError := ⟨"No such file or directory", 2⟩

def notDirectory : FileError := ⟨"Not a directory", 20⟩

def isDirectory : FileError := ⟨"Is a directory", 21⟩

def nameTooLong : FileError := ⟨"File name too long", 36⟩

def message (e : FileError) : String :=
  String.join [e.text, " (os error ", Numeral.decimal e.number, ")"]

end FileError

inductive Failure
  | unreadable (path : String) (cause : FileError)
  | stopped (cause : Stop)
deriving DecidableEq, Repr

def Failure.message : Failure → String
  | unreadable path cause => String.join ["reading ", path, "\n\nCaused by:\n    ", cause.message]
  | stopped cause => cause.message

inductive Ending
  | finished
  | frameLimit
  | failed (failure : Failure)
deriving DecidableEq, Repr

def Ending.code : Ending → Nat
  | failed _ => 1
  | _ => 0

inductive Output
  | bell
  | picture (screen : Screen)
deriving DecidableEq, Repr

/-- A picture is shown on a cleared terminal, from the top left. -/
def Output.text : Output → String
  | bell => "\x07"
  | picture screen => String.join ["\x1b[2J\x1b[H", screen.render]

inductive Notice
  | loaded (size : Nat) (path : String)
  | waiting (pc : Word) (register : Nat)
  | faulted (pc : Word) (cause : Stop)
  | ended (ending : Ending)
deriving DecidableEq, Repr

namespace Notice

open Numeral (decimal hex)

/-- A failure is an error of the program itself and has no level. -/
def level? : Notice → Option Level
  | loaded _ _ => some .info
  | waiting _ _ | faulted _ _ => some .warn
  | ended (.failed _) => none
  | ended _ => some .info

def message : Notice → String
  | loaded size path => String.join ["read ", decimal size, " bytes from '", path, "'"]
  | waiting pc x =>
    String.join
      ["program at 0x", hex 3 pc.toNat, " is waiting for a key into V", hex 1 x,
       ", this host has no keyboard input"]
  | faulted pc cause => String.join ["fault at 0x", hex 3 pc.toNat, ": ", cause.message]
  | ended .finished => "program finished"
  | ended .frameLimit => "frame limit reached"
  | ended (.failed failure) => String.join ["Error: ", failure.message]

def text (n : Notice) : String :=
  match n.level? with
  | some level => String.join [level.name, " ", n.message]
  | none => n.message

end Notice

structure Playback where
  machine : Machine
  /-- Whether a wait for a key has been reported. -/
  warned : Bool := false
  output : List Output := []
  notices : List Notice := []
  ending : Option Ending := none

namespace Playback

def start (s : Settings) (file : Except FileError (Array Byte)) (random : RandomSource) :
    Playback :=
  let machine := Machine.fresh s.dialect random
  match file with
  | .error cause => { machine := machine, ending := some (.failed (.unreadable s.rom cause)) }
  | .ok program =>
    let notices := [.loaded program.size s.rom]
    let reply := machine.load program
    match reply.result with
    | .error cause =>
      { machine := machine, notices := notices, ending := some (.failed (.stopped cause)) }
    | .ok () => { machine := reply.machine, notices := notices }

def pictures (s : Settings) (f : Frame) : List Output :=
  if f.dirty && !s.headless then [.picture f.machine.screen] else []

/-- One more frame. A wait for a key is reported the first time only. -/
def next (s : Settings) (p : Playback) : Playback :=
  let f := frame s.stepsPerFrame p.machine
  let bells := List.replicate f.bells Output.bell
  match f.ending with
  | .stopped pc cause =>
    { p with
      machine := f.machine
      output := p.output ++ bells
      notices := p.notices ++ [.faulted pc cause]
      ending := some (.failed (.stopped cause)) }
  | .parked =>
    { p with
      machine := f.machine
      output := p.output ++ bells ++ pictures s f
      ending := some .finished }
  | .blocked pc x =>
    { p with
      machine := f.machine.tick.machine
      warned := true
      output := p.output ++ bells ++ pictures s f
      notices := if p.warned then p.notices else p.notices ++ [.waiting pc x] }
  | .spent =>
    { p with
      machine := f.machine.tick.machine
      output := p.output ++ bells ++ pictures s f }

def play (s : Settings) : Nat → Playback → Playback
  | 0, p => p
  | n + 1, p =>
    match p.ending with
    | some _ => p
    | none => play s n (p.next s)

/-- A program that has not ended by itself ends at the frame limit. -/
def cut (p : Playback) : Playback :=
  match p.ending with
  | some _ => p
  | none => { p with ending := some .frameLimit }

end Playback

end Chip8.Terminal
