import Chip8.Instruction.Decode
import Chip8.Machine.Effect
import Chip8.Machine.Event

/-!
The operations of a machine: executing an instruction, one step from the program counter, the tick
of the timers, reset and load. Each answers with a result, the machine after it, and what it logs.
A machine that stops is left as it was, and so is one that is changed in place when it meets a fault
(`InPlace.agrees_step`).
-/

namespace Chip8

structure Reply (α : Type) where
  result : Except Stop α
  machine : Machine
  log : List Event := []

namespace Machine

/-- Executes an instruction as if it stood at the program counter. -/
@[inline] def execute (m : Machine) (i : Instruction) : Reply Step :=
  match i.effect m with
  | .error stop => { result := .error stop, machine := m }
  | .ok e =>
    let pc := e.flow.target m.registers.pc
    { result := .ok { nextPc := pc, signal := e.signal }
      machine := { e.machine with registers := { e.machine.registers with pc := pc } }
      log := i.notes }

/-- Looks for the key that is awaited for a register. Without a new press nothing changes. -/
def poll (m : Machine) (x : Nat) : Reply Step :=
  match m.keypad.takePress with
  | none =>
    { result := .ok { nextPc := m.registers.pc, signal := some (.blockedOnKey x) }, machine := m }
  | some (key, keypad) =>
    match operand x with
    | .error stop => { result := .error stop, machine := m, log := [.keyTaken key.val x] }
    | .ok target =>
      let pc := m.registers.pc.advance 2
      let registers := { m.registers.set target (UInt8.ofNat key.val) with pc := pc }
      { result := .ok { nextPc := pc, signal := none }
        machine := { m with keypad := keypad, registers := registers, waiting := none }
        log := [.keyTaken key.val x] }

@[inline] def step (m : Machine) : Reply Step :=
  match m.waiting with
  | some x => m.poll x
  | none =>
    match Instruction.decode m.fetch with
    | .error fault => { result := .error (.fault fault), machine := m }
    | .ok i =>
      let reply := m.execute i
      { reply with log := .executing m.registers.pc m.fetch i :: reply.log }

def tick (m : Machine) : Reply (Option SoundEdge) :=
  let (registers, edge) := m.registers.tick
  { result := .ok edge
    machine := { m with registers := registers }
    log := (edge.map Event.sound).toList }

/-- Back to the state of a machine just switched on. The dialect stays, and so does the place in
the random stream. -/
def reset (m : Machine) : Reply Unit :=
  { result := .ok ()
    machine :=
      { m with
        memory := Memory.blank
        registers := {}
        stack := {}
        screen := Screen.blank
        keypad := {}
        waiting := none }
    log := [.resetting] }

def load (m : Machine) (program : Array Byte) : Reply Unit :=
  match m.memory.load program with
  | .error fault => { result := .error (.fault fault), machine := m }
  | .ok memory =>
    { result := .ok (), machine := { m with memory := memory }, log := [.loaded program.size] }

theorem machine_execute_of_error {m : Machine} {i : Instruction} {stop : Stop}
    (h : (m.execute i).result = .error stop) : (m.execute i).machine = m := by
  unfold execute at *
  split <;> simp_all

theorem machine_step_of_error {m : Machine} {stop : Stop} (h : m.step.result = .error stop) :
    m.step.machine = m := by
  unfold step at *
  split
  · rename_i x hw
    simp only [hw] at h
    unfold poll at *
    split <;> simp_all
    split <;> simp_all
  · rename_i hw
    simp only [hw] at h
    split
    · rfl
    · rename_i i hi
      simp only [hi] at h
      exact machine_execute_of_error h

end Machine

end Chip8
