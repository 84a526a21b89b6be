import Chip8.Machine.Step

/-!
One frame of a program: a number of steps, cut short when the machine stops, waits for a key, or
comes back to the address it has just left, which is how programs end.
-/

namespace Chip8.Terminal

inductive FrameEnd
  | spent
  | blocked (pc : Word) (register : Nat)
  | parked
  | stopped (pc : Word) (cause : Stop)
deriving DecidableEq, Repr

/-- A frame so far: the machine, how often the tone has started, and whether a step has touched
the screen. -/
structure Frame where
  machine : Machine
  bells : Nat := 0
  dirty : Bool := false
  ending : FrameEnd := .spent

namespace Frame

def note (f : Frame) (m : Machine) : Option Signal → Frame
  | some .screenDirty => { f with machine := m, dirty := true }
  | some (.sound .on) => { f with machine := m, bells := f.bells + 1 }
  | _ => { f with machine := m }

def run : Nat → Frame → Frame
  | 0, f => f
  | n + 1, f =>
    let pc := f.machine.registers.pc
    let reply := f.machine.step
    match reply.result with
    | .error stop => { f with machine := reply.machine, ending := .stopped pc stop }
    | .ok { nextPc := _, signal := some (.blockedOnKey x) } =>
      { f with machine := reply.machine, ending := .blocked pc x }
    | .ok { nextPc := nextPc, signal := signal } =>
      let f := f.note reply.machine signal
      if nextPc = pc then { f with ending := .parked } else run n f

end Frame

def frame (n : Nat) (m : Machine) : Frame := Frame.run n { machine := m }

end Chip8.Terminal
