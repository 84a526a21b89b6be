import Chip8.Machine.Step

/-!
The operations as data, so that a history of a machine is a list of them.
-/

namespace Chip8

/-- What can be done to a machine from outside. -/
inductive Operation
  | load (program : Array Byte)
  | reset
  | step
  | execute (instruction : Instruction)
  | tick
  | press (key : Byte)
  | release (key : Byte)
  | takePress
  | discardPresses
  | clearKeys
deriving DecidableEq, Repr

inductive Answer
  | done
  | stepped (step : Step)
  | edge (edge : Option SoundEdge)
  | key (key : Option (Fin 16))
deriving DecidableEq, Repr

def Reply.map {α β : Type} (f : α → β) (r : Reply α) : Reply β :=
  { result := r.result.map f, machine := r.machine, log := r.log }

namespace Machine

/-- The machine with another keypad, or as it was if the key is not on the pad. -/
def withKeypad (m : Machine) : Except Fault Keypad → Reply Answer
  | .ok keypad => { result := .ok .done, machine := { m with keypad := keypad } }
  | .error fault => { result := .error (.fault fault), machine := m }

def perform (m : Machine) : Operation → Reply Answer
  | .load program => (m.load program).map fun _ => .done
  | .reset => m.reset.map fun _ => .done
  | .step => m.step.map .stepped
  | .execute i => (m.execute i).map .stepped
  | .tick => m.tick.map .edge
  | .press k => m.withKeypad (m.keypad.press k)
  | .release k => m.withKeypad (m.keypad.release k)
  | .takePress =>
    match m.keypad.takePress with
    | none => { result := .ok (.key none), machine := m }
    | some (k, keypad) => { result := .ok (.key (some k)), machine := { m with keypad := keypad } }
  | .discardPresses => m.withKeypad (.ok m.keypad.discardPresses)
  | .clearKeys => m.withKeypad (.ok {})

/-- Performs operations in turn; one that is refused leaves the machine as it was. -/
def performAll (m : Machine) (ops : List Operation) : Machine :=
  ops.foldl (fun m op => (m.perform op).machine) m

end Machine

end Chip8
