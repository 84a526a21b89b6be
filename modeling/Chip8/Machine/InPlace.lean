import Chip8.Machine.Step

/-!
The machine changed in place. An instruction is carried out by one write after another, in the order
in which they are made, and nothing takes back what has been written or logged before a stop.
`Machine.execute` and `Machine.step` answer with a whole new machine instead, and with the old one
when they stop.
-/

namespace Chip8

/-- A run on a machine and its log. Where it stops, both are left as they are then. -/
abbrev InPlace := EStateM Stop (Machine × List Event)

namespace InPlace

def machine : InPlace Machine := return (← get).1

def change (f : Machine → Machine) : InPlace Unit := modify fun (m, log) => (f m, log)

def note (e : Event) : InPlace Unit := modify fun (m, log) => (m, log ++ [e])

def register (n : Nat) : InPlace (Fin 16) :=
  match operand n with
  | .ok x => return x
  | .error stop => throw stop

def getV (n : Nat) : InPlace Byte := do
  let x ← register n
  return (← machine).registers.get x

def changeRegisters (f : Registers → Registers) : InPlace Unit :=
  change fun m => { m with registers := f m.registers }

def setV (n : Nat) (b : Byte) : InPlace Unit := do
  let x ← register n
  changeRegisters (·.set x b)

def setFlag (b : Bool) : InPlace Unit := changeRegisters (·.setFlag b)

def write (a : Word) (b : Byte) : InPlace Unit :=
  change fun m => { m with memory := m.memory.write a b }

def push (a : Word) : InPlace Unit := do
  match (← machine).stack.push a with
  | .error fault => throw (.fault fault)
  | .ok stack => change fun m => { m with stack := stack }

def pop : InPlace Word := do
  match (← machine).stack.pop with
  | .error fault => throw (.fault fault)
  | .ok (address, rest) =>
    change fun m => { m with stack := rest }
    return address

/-- A value is drawn before its register is looked up. -/
def takeRandom : InPlace Byte := do
  let (byte, rest) := (← machine).random.next
  change fun m => { m with random := rest }
  return byte

def index : InPlace Word := return (← machine).registers.index

def dumpTo (a : Word) (k : Nat) : InPlace Unit := do
  write (a.advance (UInt16.ofNat k)) (← getV k)

def restoreFrom (a : Word) (k : Nat) : InPlace Unit := do
  setV k ((← machine).memory.read (a.advance (UInt16.ofNat k)))

def next (pc : Word) : Step := ⟨pc.advance 2, none⟩

def skipIf (pc : Word) (condition : Bool) : Step :=
  if condition then ⟨pc.advance 4, none⟩ else next pc

/-- Carries out the instruction at an address and tells where to go on. The program counter is not
moved yet. -/
def carryOut (pc : Word) : Instruction → InPlace Step
  | .clearScreen => do
    change fun m => { m with screen := Screen.blank }
    return ⟨pc.advance 2, some .screenDirty⟩
  | .ret => return ⟨← pop, none⟩
  | .sys a => do
    note (.ignoredRoutine a)
    return next pc
  | .jump a => return ⟨a, none⟩
  | .call a => do
    push (pc.advance 2)
    return ⟨a, none⟩
  | .skipByte test x b => do
    let vx ← getV x
    return skipIf pc (test.holds vx b)
  | .skipRegister test x y => do
    let vx ← getV x
    let vy ← getV y
    return skipIf pc (test.holds vx vy)
  | .setByte x b => do
    setV x b
    return next pc
  | .addByte x b => do
    setV x ((← getV x) + b)
    return next pc
  | .combine op x y => do
    let (value, flag) := op.apply (← getV x) (← getV y)
    setV x value
    flag.forM setFlag
    return next pc
  | .shift direction x y => do
    let source := (← machine).dialect.shiftSource x y
    let (value, flag) := direction.apply (← getV source)
    setV x value
    setFlag flag
    return next pc
  | .setIndex a => do
    changeRegisters (·.setIndex a)
    return next pc
  | .jumpOffset a => do
    let x := (← machine).dialect.offsetRegister a
    return ⟨a.advance (← getV x).toUInt16, none⟩
  | .random x mask => do
    let byte ← takeRandom
    setV x (byte &&& mask)
    return next pc
  | .draw x y rows => do
    let vx ← getV x
    let vy ← getV y
    let rows ← register rows.toNat
    let m ← machine
    let (screen, collision) := m.screen.draw vx vy (m.memory.block m.registers.index rows.val)
    change fun m => { m with screen := screen }
    setFlag collision
    return ⟨pc.advance 2, some .screenDirty⟩
  | .skipKey held x => do
    let vx ← getV x
    let pressed := (← machine).keypad.isPressed (vx % 16)
    return skipIf pc (pressed == held)
  | .readDelay x => do
    setV x (← machine).registers.delay
    return next pc
  | .waitKey x => do
    note (.awaitingKey x)
    change fun m => { m with waiting := some x }
    change fun m => { m with keypad := m.keypad.discardPresses }
    return ⟨pc, some (.blockedOnKey x)⟩
  | .setDelay x => do
    let vx ← getV x
    changeRegisters fun r => { r with delay := vx }
    return next pc
  | .setSound x => do
    let vx ← getV x
    let before := (← machine).registers.sound
    changeRegisters fun r => { r with sound := vx }
    return ⟨pc.advance 2, (SoundEdge.between before vx).map .sound⟩
  | .addIndex x => do
    let vx ← getV x
    changeRegisters fun r => r.setIndex (r.index + vx.toUInt16)
    return next pc
  | .pointGlyph x => do
    let vx ← getV x
    changeRegisters (·.setIndex (Font.glyphAddress (vx.toNat % 16)))
    return next pc
  | .storeDecimal x => do
    let vx ← getV x
    let a ← index
    write a (vx / 100)
    write (a.advance 1) (vx / 10 % 10)
    write (a.advance 2) (vx % 10)
    return next pc
  | .dump x => do
    let a ← index
    forM (List.range (x + 1)) (dumpTo a)
    return next pc
  | .restore x => do
    let a ← index
    forM (List.range (x + 1)) (restoreFrom a)
    return next pc

def execute (i : Instruction) : InPlace Step := do
  let step ← carryOut (← machine).registers.pc i
  changeRegisters fun r => { r with pc := step.nextPc }
  return step

/-- The press of a key is noted before the register that awaits it is looked up. -/
def deliver (key : Fin 16) (x : Nat) : InPlace Step := do
  note (.keyTaken key.val x)
  setV x (UInt8.ofNat key.val)
  change fun m => { m with waiting := none }
  changeRegisters fun r => { r with pc := r.pc.advance 2 }
  return ⟨(← machine).registers.pc, none⟩

def poll (x : Nat) : InPlace Step := do
  let m ← machine
  match m.keypad.takePress with
  | none => return ⟨m.registers.pc, some (.blockedOnKey x)⟩
  | some (key, keypad) =>
    change fun m => { m with keypad := keypad }
    deliver key x

def step : InPlace Step := do
  let m ← machine
  match m.waiting with
  | some x => poll x
  | none =>
    match Instruction.decode m.fetch with
    | .error fault => throw (.fault fault)
    | .ok i =>
      note (.executing m.registers.pc m.fetch i)
      execute i

def reply {α : Type} (run : InPlace α) (m : Machine) (log : List Event) : Reply α :=
  match run.run (m, log) with
  | .ok a (left, log) => { result := .ok a, machine := left, log := log }
  | .error stop (left, log) => { result := .error stop, machine := left, log := log }

end InPlace

end Chip8
