import Chip8.Machine.Operation

/-!
Histories of a machine: the operations performed on it since it was switched on. `Performs` says
once, case by case, what an operation can do, and `performs_perform` that it does nothing else, so
that what a history preserves is shown by the cases of one operation.
-/

namespace Chip8

/-- An instruction is executed only if some word stands for it. -/
def Operation.Decoded : Operation → Prop
  | .execute i => ∃ w, Instruction.decode w = .ok i
  | _ => True

theorem map_eq_error_iff {ε α β : Type} {x : Except ε α} {f : α → β} {e : ε} :
    x.map f = .error e ↔ x = .error e := by
  cases x <;> simp [Except.map]

theorem Reply.result_map_eq_error_iff {α β : Type} {f : α → β} {r : Reply α} {stop : Stop} :
    (r.map f).result = .error stop ↔ r.result = .error stop :=
  map_eq_error_iff

/-- A place in a list one longer is its end, or a place in the list. -/
theorem split_concat_cases {α : Type} {xs before after : List α} {last x : α}
    (h : xs ++ [last] = before ++ x :: after) :
    (before = xs ∧ x = last ∧ after = []) ∨
      ∃ init, xs = before ++ x :: init ∧ after = init ++ [last] := by
  rcases List.eq_nil_or_concat after with rfl | ⟨init, final, rfl⟩
  · obtain ⟨hxs, hlast⟩ := List.append_inj' h rfl
    exact .inl ⟨hxs.symm, (List.singleton_inj.mp hlast).symm, rfl⟩
  · rw [List.concat_eq_append, ← List.cons_append, ← List.append_assoc] at h
    obtain ⟨hxs, hlast⟩ := List.append_inj' h rfl
    rw [List.concat_eq_append, hlast]
    exact .inr ⟨init, hxs, rfl⟩

namespace Machine

/-- The instruction that an operation is to execute. A machine that waits for a key executes
none. -/
def instruction? (m : Machine) : Operation → Option Instruction
  | .step => if m.waiting = none then Instruction.ofWord? m.fetch else none
  | .execute i => some i
  | _ => none

theorem instruction?_step_eq_some_iff {m : Machine} {i : Instruction} :
    m.instruction? .step = some i ↔ m.waiting = none ∧ Instruction.decode m.fetch = .ok i := by
  rw [Instruction.decode_eq_ok_iff, ← Instruction.ofWord?_eq_some_iff, instruction?]
  split <;> simp_all

/-- The instruction that an operation does execute: none if it is refused. -/
def executed? (m : Machine) (op : Operation) : Option Instruction :=
  if (m.perform op).result.isOk then m.instruction? op else none

def replies (m : Machine) : List Operation → List (Except Stop Answer × List Event)
  | [] => []
  | op :: ops =>
    ((m.perform op).result, (m.perform op).log) :: (m.perform op).machine.replies ops

def executions (m : Machine) : List Operation → List Instruction
  | [] => []
  | op :: ops => (m.executed? op).toList ++ (m.perform op).machine.executions ops

def after (m : Machine) (e : Effect) : Machine :=
  { e.machine with
    registers := { e.machine.registers with pc := e.flow.target m.registers.pc } }

@[simp] theorem keypad_after (m : Machine) (e : Effect) : (m.after e).keypad = e.machine.keypad :=
  rfl

@[simp] theorem waiting_after (m : Machine) (e : Effect) :
    (m.after e).waiting = e.machine.waiting := rfl

@[simp] theorem stack_after (m : Machine) (e : Effect) : (m.after e).stack = e.machine.stack := rfl

theorem machine_reset (m : Machine) : m.reset.machine = fresh m.dialect m.random := rfl

@[simp] theorem memory_fresh (d : Dialect) (r : RandomSource) : (fresh d r).memory = Memory.blank :=
  rfl

@[simp] theorem dialect_fresh (d : Dialect) (r : RandomSource) : (fresh d r).dialect = d := rfl

@[simp] theorem random_fresh (d : Dialect) (r : RandomSource) : (fresh d r).random = r := rfl

theorem step_eq_poll {m : Machine} {x : Nat} (hw : m.waiting = some x) : m.step = m.poll x := by
  simp only [step, hw]

theorem result_step_of_decode {m : Machine} {i : Instruction} (hw : m.waiting = none)
    (hi : Instruction.decode m.fetch = .ok i) : m.step.result = (m.execute i).result := by
  simp only [step, hw, hi]

theorem machine_step_of_decode {m : Machine} {i : Instruction} (hw : m.waiting = none)
    (hi : Instruction.decode m.fetch = .ok i) : m.step.machine = (m.execute i).machine := by
  simp only [step, hw, hi]

theorem execute_of_effect {m : Machine} {i : Instruction} {e : Effect} (he : i.effect m = .ok e) :
    m.execute i =
      { result := .ok ⟨e.flow.target m.registers.pc, e.signal⟩
        machine := m.after e
        log := i.notes } := by
  simp only [execute, he]
  rfl

theorem result_execute_eq_error_iff {m : Machine} {i : Instruction} {stop : Stop} :
    (m.execute i).result = .error stop ↔ i.effect m = .error stop := by
  cases he : i.effect m with
  | error s => simp [execute, he]
  | ok e => simp [execute_of_effect he]

theorem exists_effect_of_step {m : Machine} {i : Instruction} {s : Step} (hw : m.waiting = none)
    (hi : Instruction.decode m.fetch = .ok i) (hs : m.step.result = .ok s) :
    ∃ e, i.effect m = .ok e ∧ s = ⟨e.flow.target m.registers.pc, e.signal⟩ ∧
      m.step.machine = m.after e := by
  rw [result_step_of_decode hw hi] at hs
  rw [machine_step_of_decode hw hi]
  rcases he : i.effect m with stop | e
  · rw [result_execute_eq_error_iff.mpr he] at hs
    cases hs
  · rw [execute_of_effect he] at hs ⊢
    cases hs
    exact ⟨e, rfl, rfl, rfl⟩

/-- What an operation can answer, and the machine it then leaves. -/
inductive Performs (m : Machine) : Operation → Except Stop Answer → Machine → Prop
  | refused {op : Operation} {stop : Stop} : Performs m op (.error stop) m
  | executed {op : Operation} {i : Instruction} {e : Effect} (hi : m.instruction? op = some i)
      (he : i.effect m = .ok e) :
      Performs m op (.ok (.stepped ⟨e.flow.target m.registers.pc, e.signal⟩)) (m.after e)
  | blocked {x : Nat} (hw : m.waiting = some x) (hp : m.keypad.takePress = none) :
      Performs m .step (.ok (.stepped ⟨m.registers.pc, some (.blockedOnKey x)⟩)) m
  | resumed {x key : Fin 16} {keypad : Keypad} (hw : m.waiting = some x.val)
      (hp : m.keypad.takePress = some (key, keypad)) :
      Performs m .step (.ok (.stepped ⟨m.registers.pc.advance 2, none⟩))
        { m with
          keypad := keypad
          registers :=
            { m.registers.set x (UInt8.ofNat key.val) with pc := m.registers.pc.advance 2 }
          waiting := none }
  | loaded {program : Array Byte} {memory : Memory} (h : m.memory.load program = .ok memory) :
      Performs m (.load program) (.ok .done) { m with memory := memory }
  | reset : Performs m .reset (.ok .done) m.reset.machine
  | ticked :
      Performs m .tick (.ok (.edge m.registers.tick.2)) { m with registers := m.registers.tick.1 }
  | pressed {b : Byte} {key : Fin 16} (h : b.toNat = key.val) :
      Performs m (.press b) (.ok .done) { m with keypad := m.keypad.down key }
  | released {b : Byte} {key : Fin 16} (h : b.toNat = key.val) :
      Performs m (.release b) (.ok .done) { m with keypad := m.keypad.up key }
  | untaken (hp : m.keypad.takePress = none) : Performs m .takePress (.ok (.key none)) m
  | taken {key : Fin 16} {keypad : Keypad} (hp : m.keypad.takePress = some (key, keypad)) :
      Performs m .takePress (.ok (.key (some key))) { m with keypad := keypad }
  | discarded :
      Performs m .discardPresses (.ok .done) { m with keypad := m.keypad.discardPresses }
  | cleared : Performs m .clearKeys (.ok .done) { m with keypad := {} }

/-- What an operation leaves alone that executes no instruction. -/
structure Idle (m : Machine) (op : Operation) (m' : Machine) : Prop where
  random : m'.random = m.random
  stack : op ≠ .reset → m'.stack = m.stack
  delay : op ≠ .reset → op ≠ .tick → m'.registers.delay = m.registers.delay
  sound : op ≠ .reset → op ≠ .tick → m'.registers.sound = m.registers.sound

theorem performs_execute {m : Machine} {op : Operation} {i : Instruction}
    (hi : m.instruction? op = some i) :
    Performs m op ((m.execute i).result.map .stepped) (m.execute i).machine := by
  unfold execute
  cases he : i.effect m with
  | error stop => exact .refused
  | ok e => exact .executed hi he

theorem performs_poll {m : Machine} {x : Nat} (hw : m.waiting = some x) :
    Performs m .step ((m.poll x).result.map .stepped) (m.poll x).machine := by
  unfold poll
  cases hp : m.keypad.takePress with
  | none => exact .blocked hw hp
  | some taken =>
    by_cases hx : x < 16
    · rw [operand_of_lt hx]
      exact .resumed (x := ⟨x, hx⟩) hw hp
    · rw [operand_eq_error_iff.mpr (Nat.le_of_not_lt hx)]
      exact .refused

theorem performs_step (m : Machine) :
    Performs m .step (m.step.result.map .stepped) m.step.machine := by
  unfold step
  cases hw : m.waiting with
  | some x => exact performs_poll hw
  | none =>
    cases hd : Instruction.decode m.fetch with
    | error fault => exact .refused
    | ok i =>
      exact performs_execute (instruction?_step_eq_some_iff.mpr ⟨hw, hd⟩)

/-- An operation does nothing that is not listed. -/
theorem performs_perform (m : Machine) (op : Operation) :
    Performs m op (m.perform op).result (m.perform op).machine := by
  cases op with
  | load program =>
    simp only [perform, load]
    cases h : m.memory.load program with
    | error fault => exact .refused
    | ok memory => exact .loaded h
  | reset => exact .reset
  | step => exact performs_step m
  | execute i => exact performs_execute rfl
  | tick => exact .ticked
  | press b =>
    simp only [perform, Keypad.press]
    cases h : Keypad.key? b with
    | error fault => exact .refused
    | ok key => exact .pressed (Keypad.key?_eq_ok_iff.mp h)
  | release b =>
    simp only [perform, Keypad.release]
    cases h : Keypad.key? b with
    | error fault => exact .refused
    | ok key => exact .released (Keypad.key?_eq_ok_iff.mp h)
  | takePress =>
    simp only [perform]
    cases h : m.keypad.takePress with
    | none => exact .untaken h
    | some taken => exact .taken h
  | discardPresses => exact .discarded
  | clearKeys => exact .cleared

theorem executed?_eq_some_iff {m : Machine} {op : Operation} {i : Instruction} :
    m.executed? op = some i ↔ (m.perform op).result.isOk = true ∧ m.instruction? op = some i := by
  unfold executed?
  split <;> simp_all

theorem Performs.effect {m m' : Machine} {op : Operation} {result : Except Stop Answer}
    {i : Instruction} (hp : Performs m op result m') (hok : result.isOk = true)
    (hi : m.instruction? op = some i) : ∃ e, i.effect m = .ok e ∧ m' = m.after e := by
  cases hp with
  | @executed _ j e hj he =>
    obtain rfl : j = i := Option.some.inj (hj.symm.trans hi)
    exact ⟨e, he, rfl⟩
  | refused => cases hok
  | blocked hw | resumed hw => simp [instruction?, hw] at hi
  | loaded | reset | ticked | pressed | released | untaken | taken | discarded | cleared =>
    cases hi

theorem effect_of_executed? {m : Machine} {op : Operation} {i : Instruction}
    (h : m.executed? op = some i) :
    ∃ e, i.effect m = .ok e ∧ (m.perform op).machine = m.after e := by
  obtain ⟨hok, hi⟩ := executed?_eq_some_iff.mp h
  exact (m.performs_perform op).effect hok hi

theorem executed?_of_effect {m : Machine} {op : Operation} {i : Instruction} {e : Effect}
    (hi : m.instruction? op = some i) (he : i.effect m = .ok e) : m.executed? op = some i := by
  refine executed?_eq_some_iff.mpr ⟨?_, hi⟩
  cases op with
  | step =>
    obtain ⟨hw, hd⟩ := instruction?_step_eq_some_iff.mp hi
    rw [perform, Reply.map, result_step_of_decode hw hd, execute_of_effect he]
    rfl
  | execute j =>
    cases hi
    rw [perform, Reply.map, execute_of_effect he]
    rfl
  | _ => cases hi

theorem machine_perform_of_effect {m : Machine} {op : Operation} {i : Instruction} {e : Effect}
    (hi : m.instruction? op = some i) (he : i.effect m = .ok e) :
    (m.perform op).machine = m.after e := by
  obtain ⟨other, hother, hm⟩ := effect_of_executed? (executed?_of_effect hi he)
  obtain rfl := Except.ok.inj (he.symm.trans hother)
  exact hm

theorem isOk_perform_step (m : Machine) :
    (m.perform .step).result.isOk = m.step.result.isOk := by
  show (m.step.result.map Answer.stepped).isOk = _
  cases m.step.result <;> rfl

theorem executed?_step_of_error {m : Machine} {stop : Stop} (hs : m.step.result = .error stop) :
    m.executed? .step = none := by
  rw [executed?, isOk_perform_step, hs]
  rfl

theorem executed?_step_of_waiting {m : Machine} {x : Nat} (hw : m.waiting = some x) :
    m.executed? .step = none := by
  simp [executed?, instruction?, hw]

theorem Performs.idle {m m' : Machine} {op : Operation} {result : Except Stop Answer}
    (hp : Performs m op result m')
    (hno : ∀ i, result.isOk = true → m.instruction? op ≠ some i) : m.Idle op m' := by
  cases hp with
  | executed hi he => exact absurd hi (hno _ rfl)
  | reset =>
    have hrandom : m.reset.machine.random = m.random := by rw [machine_reset, random_fresh]
    exact ⟨hrandom, fun h => absurd rfl h, fun h => absurd rfl h, fun h => absurd rfl h⟩
  | ticked => exact ⟨rfl, fun _ => rfl, fun _ h => absurd rfl h, fun _ h => absurd rfl h⟩
  | refused | blocked | resumed | loaded | pressed | released | untaken | taken | discarded
  | cleared => exact ⟨rfl, fun _ => rfl, fun _ _ => rfl, fun _ _ => rfl⟩

theorem idle_of_executed?_eq_none {m : Machine} {op : Operation} (h : m.executed? op = none) :
    m.Idle op (m.perform op).machine := by
  refine (m.performs_perform op).idle ?_
  intro i hok hi
  rw [executed?_eq_some_iff.mpr ⟨hok, hi⟩] at h
  cases h

@[simp] theorem performAll_nil (m : Machine) : m.performAll [] = m := rfl

@[simp] theorem performAll_cons (m : Machine) (op : Operation) (ops : List Operation) :
    m.performAll (op :: ops) = (m.perform op).machine.performAll ops := rfl

theorem performAll_append (m : Machine) (ops more : List Operation) :
    m.performAll (ops ++ more) = (m.performAll ops).performAll more := by
  simp [performAll]

theorem performAll_concat (m : Machine) (ops : List Operation) (op : Operation) :
    m.performAll (ops ++ [op]) = ((m.performAll ops).perform op).machine := by
  rw [performAll_append]
  rfl

theorem replies_append (m : Machine) (ops more : List Operation) :
    m.replies (ops ++ more) = m.replies ops ++ (m.performAll ops).replies more := by
  induction ops generalizing m with
  | nil => rfl
  | cons op ops ih => rw [List.cons_append, replies, ih, replies, List.cons_append, performAll_cons]

theorem executions_append (m : Machine) (ops more : List Operation) :
    m.executions (ops ++ more) = m.executions ops ++ (m.performAll ops).executions more := by
  induction ops generalizing m with
  | nil => rfl
  | cons op ops ih =>
    rw [List.cons_append, executions, ih, executions, List.append_assoc, performAll_cons]

theorem performAll_replicate {m : Machine} {op : Operation} (h : (m.perform op).machine = m)
    (n : Nat) : m.performAll (List.replicate n op) = m := by
  induction n with
  | zero => rfl
  | succ n ih => rw [List.replicate_succ, performAll_cons, h, ih]

/-- A program that fits is what is read afterwards, from the start of the program area on. -/
theorem read_perform_load {m : Machine} {p : Array Byte} (h : p.size ≤ Memory.programRoom)
    (a : Word) :
    (m.perform (.load p)).machine.memory.read a =
      if Memory.programStart ≤ a.cell.val then
        p[a.cell.val - Memory.programStart]?.getD (m.memory.read a)
      else m.memory.read a := by
  rcases hl : m.memory.load p with fault | memory
  · simp [Memory.load, h] at hl
  · simp only [perform, load, hl, Reply.map]
    exact Memory.read_load hl a

theorem read_perform_load_of_lt {m : Machine} {p : Array Byte} {a : Word}
    (h : p.size ≤ Memory.programRoom) (ha : Memory.programStart ≤ a.cell.val)
    (hlt : a.cell.val - Memory.programStart < p.size) :
    (m.perform (.load p)).machine.memory.read a = p[a.cell.val - Memory.programStart] := by
  rw [read_perform_load h, if_pos ha, Array.getElem?_eq_getElem hlt, Option.getD_some]

/-- The states a machine can be in, if it executes decoded instructions only. -/
inductive Reachable : Machine → Prop
  | fresh (dialect : Dialect) (random : RandomSource) : Reachable (fresh dialect random)
  | perform {m : Machine} {op : Operation} (h : Reachable m) (hop : op.Decoded) :
      Reachable (m.perform op).machine

theorem Reachable.performAll {m : Machine} {ops : List Operation} (h : m.Reachable)
    (hops : ∀ op ∈ ops, op.Decoded) : (m.performAll ops).Reachable := by
  induction ops generalizing m with
  | nil => exact h
  | cons op ops ih =>
    rw [List.forall_mem_cons] at hops
    exact ih (h.perform hops.1) hops.2

end Machine

end Chip8
