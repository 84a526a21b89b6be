import Chip8.Proofs.WellFormed

/-!
Steps and ticks in any order. Away from the instructions that read or set a timer, a step has no use
for the timers and a tick has none for the rest of the machine, so a run of steps and ticks is two
runs side by side: that of the steps alone and that of the ticks alone (`performAll_interleaving`).
How the two are interleaved makes no difference: `interleavings_agree`.
-/

namespace Chip8

def Instruction.timed : Instruction → Bool
  | readDelay _ | setDelay _ | setSound _ => true
  | _ => false

def Machine.withTimersOf (m t : Machine) : Machine :=
  { m with
    registers := { m.registers with delay := t.registers.delay, sound := t.registers.sound } }

def Reply.withTimersOf {α : Type} (r : Reply α) (t : Machine) : Reply α :=
  { r with machine := r.machine.withTimersOf t }

theorem Instruction.effect_withTimersOf {i : Instruction} (hi : i.timed = false) (m t : Machine) :
    i.effect (m.withTimersOf t) =
      (i.effect m).map fun e => { e with machine := e.machine.withTimersOf t } := by
  cases i with
  | readDelay x | setDelay x | setSound x => cases hi
  | clearScreen | sys a | jump a | setIndex a | waitKey x => rfl
  | ret =>
    simp only [effect, Machine.withTimersOf]
    cases m.stack.pop <;> rfl
  | call a =>
    simp only [effect, Machine.withTimersOf]
    cases m.stack.push (m.registers.pc.advance 2) <;> rfl
  | combine op x y =>
    simp only [effect, Machine.withTimersOf]
    cases operand x with
    | error stop => rfl
    | ok x =>
      cases operand y with
      | error stop => rfl
      | ok y => cases op <;> rfl
  | skipRegister test x y =>
    simp only [effect, Machine.withTimersOf]
    cases operand x with
    | error stop => rfl
    | ok x => cases operand y <;> rfl
  | shift direction x y =>
    simp only [effect, Machine.withTimersOf]
    cases operand (m.dialect.shiftSource x y) with
    | error stop => rfl
    | ok s => cases operand x <;> rfl
  | draw x y rows =>
    simp only [effect, Machine.withTimersOf]
    cases operand x with
    | error stop => rfl
    | ok x =>
      cases operand y with
      | error stop => rfl
      | ok y => cases operand rows.toNat <;> rfl
  | jumpOffset a =>
    simp only [effect, Machine.withTimersOf]
    cases operand (m.dialect.offsetRegister a) <;> rfl
  | skipByte test x b | setByte x b | addByte x b | random x mask | skipKey held x | addIndex x
  | pointGlyph x | storeDecimal x | dump x | restore x =>
    simp only [effect, Machine.withTimersOf]
    cases operand x <;> rfl

namespace Operation

/-- The operations are `n` steps and `k` ticks in some order. -/
def Interleaving (n k : Nat) (ops : List Operation) : Prop :=
  ops.Perm (List.replicate n step ++ List.replicate k tick)

variable {n k : Nat} {ops : List Operation}

theorem Interleaving.kinds (h : Interleaving n k ops) : ∀ op ∈ ops, op = step ∨ op = tick := by
  intro op hop
  rcases List.mem_append.mp (h.mem_iff.mp hop) with hop | hop
  · exact .inl (List.eq_of_mem_replicate hop)
  · exact .inr (List.eq_of_mem_replicate hop)

theorem Interleaving.count_step (h : Interleaving n k ops) : ops.count step = n := by
  rw [h.count_eq]
  simp [List.count_replicate]

theorem Interleaving.count_tick (h : Interleaving n k ops) : ops.count tick = k := by
  rw [h.count_eq]
  simp [List.count_replicate]

end Operation

namespace Machine

/-- What the operations of one kind answer and log, in turn. -/
def repliesTo (m : Machine) (kind : Operation) :
    List Operation → List (Except Stop Answer × List Event)
  | [] => []
  | op :: ops =>
    (if op = kind then [((m.perform op).result, (m.perform op).log)] else []) ++
      (m.perform op).machine.repliesTo kind ops

def Untimed (m : Machine) (ops : List Operation) : Prop :=
  ∀ i ∈ m.executions ops, i.timed = false

variable {m t : Machine} {i : Instruction} {op : Operation} {ops : List Operation}

theorem withTimersOf_self (m : Machine) : m.withTimersOf m = m := rfl

theorem tick_withTimersOf (m t : Machine) :
    (m.withTimersOf t).perform .tick =
      { t.perform .tick with machine := m.withTimersOf (t.perform .tick).machine } := rfl

theorem execute_withTimersOf (hi : i.timed = false) (m t : Machine) :
    (m.withTimersOf t).execute i = (m.execute i).withTimersOf t := by
  simp only [execute, Instruction.effect_withTimersOf hi]
  cases i.effect m <;> rfl

theorem poll_withTimersOf (m t : Machine) (x : Nat) :
    (m.withTimersOf t).poll x = (m.poll x).withTimersOf t := by
  simp only [poll, withTimersOf]
  cases m.keypad.takePress with
  | none => rfl
  | some taken => cases operand x <;> rfl

theorem step_withTimersOf (hm : ∀ i, m.instruction? .step = some i → i.timed = false)
    (t : Machine) : (m.withTimersOf t).step = m.step.withTimersOf t := by
  have hfetch : (m.withTimersOf t).fetch = m.fetch := rfl
  have hwaiting : (m.withTimersOf t).waiting = m.waiting := rfl
  simp only [step, hfetch, hwaiting]
  cases hw : m.waiting with
  | some x => exact poll_withTimersOf m t x
  | none =>
    cases hd : Instruction.decode m.fetch with
    | error fault => rfl
    | ok i =>
      simp only [execute_withTimersOf (hm i (instruction?_step_eq_some_iff.mpr ⟨hw, hd⟩))]
      rfl

theorem perform_step_withTimersOf (hm : ∀ i, m.instruction? .step = some i → i.timed = false)
    (t : Machine) : (m.withTimersOf t).perform .step = (m.perform .step).withTimersOf t :=
  congrArg (Reply.map Answer.stepped) (step_withTimersOf hm t)

theorem untimed_cons_iff :
    m.Untimed (op :: ops) ↔
      (∀ i, m.executed? op = some i → i.timed = false) ∧ (m.perform op).machine.Untimed ops := by
  simp only [Untimed, executions, List.forall_mem_append, Option.mem_toList]

/-- The instructions for the timers never fault, so a step that is to execute one does. -/
theorem untimed_of_executed? (h : ∀ i, m.executed? .step = some i → i.timed = false) :
    ∀ i, m.instruction? .step = some i → i.timed = false := by
  intro i hi
  have hdecoded : Operation.Decoded .step := trivial
  have hfits : i.FitsWord := fitsWord_of_instruction? hdecoded hi
  cases ht : i.timed with
  | false => rfl
  | true =>
    obtain ⟨e, he⟩ : ∃ e, i.effect m = .ok e := by
      apply Instruction.exists_effect hfits
      · rintro a rfl
        cases ht
      · rintro rfl
        cases ht
    rw [h i (executed?_of_effect hi he)] at ht
    cases ht

/-- If the steps among the operations leave the timers alone, then so do as many steps with no
ticks between them. -/
theorem Untimed.steps (hops : ∀ op ∈ ops, op = .step ∨ op = .tick)
    (h : (m.withTimersOf t).Untimed ops) :
    m.Untimed (List.replicate (ops.count .step) .step) := by
  induction ops generalizing m t with
  | nil => exact fun i hi => nomatch hi
  | cons op ops ih =>
    rw [List.forall_mem_cons] at hops
    obtain ⟨hhead, htail⟩ := untimed_cons_iff.mp h
    obtain ⟨rfl | rfl, hops⟩ := hops
    · have hm : ∀ i, m.instruction? .step = some i → i.timed = false :=
        untimed_of_executed? (m := m.withTimersOf t) hhead
      rw [perform_step_withTimersOf hm] at htail
      rw [List.count_cons_self, List.replicate_succ, untimed_cons_iff]
      exact ⟨fun i hi => hm i (executed?_eq_some_iff.mp hi).2, ih hops htail⟩
    · rw [tick_withTimersOf] at htail
      rw [List.count_cons_of_ne (by decide)]
      exact ih hops htail

/-- A run of steps and ticks is the run of the steps and the run of the ticks, side by side. -/
theorem performAll_withTimersOf (hops : ∀ op ∈ ops, op = .step ∨ op = .tick)
    (h : m.Untimed (List.replicate (ops.count .step) .step)) :
    let steps := List.replicate (ops.count .step) Operation.step
    let ticks := List.replicate (ops.count .tick) Operation.tick
    (m.withTimersOf t).performAll ops = (m.performAll steps).withTimersOf (t.performAll ticks) ∧
      (m.withTimersOf t).repliesTo .step ops = m.replies steps ∧
      (m.withTimersOf t).repliesTo .tick ops = t.replies ticks := by
  induction ops generalizing m t with
  | nil => exact ⟨rfl, rfl, rfl⟩
  | cons op ops ih =>
    rw [List.forall_mem_cons] at hops
    obtain ⟨rfl | rfl, hops⟩ := hops
    · rw [List.count_cons_self, List.replicate_succ, untimed_cons_iff] at h
      obtain ⟨hmachine, hsteps, hticks⟩ := ih (t := t) hops h.2
      have hperform := perform_step_withTimersOf (untimed_of_executed? h.1) t
      rw [performAll_cons, repliesTo, repliesTo, hperform, List.count_cons_self,
        List.count_cons_of_ne (by decide), List.replicate_succ, if_pos rfl, if_neg (by decide)]
      exact ⟨hmachine, congrArg (_ :: ·) hsteps, hticks⟩
    · rw [List.count_cons_of_ne (by decide)] at h
      obtain ⟨hmachine, hsteps, hticks⟩ := ih (t := (t.perform .tick).machine) hops h
      rw [performAll_cons, repliesTo, repliesTo, tick_withTimersOf, List.count_cons_self,
        List.count_cons_of_ne (by decide), List.replicate_succ, if_neg (by decide), if_pos rfl]
      exact ⟨hmachine, hsteps, congrArg (_ :: ·) hticks⟩

theorem performAll_interleaving {n k : Nat} (hops : Operation.Interleaving n k ops)
    (h : m.Untimed (List.replicate n .step)) :
    let steps := List.replicate n Operation.step
    let ticks := List.replicate k Operation.tick
    m.performAll ops = (m.performAll steps).withTimersOf (m.performAll ticks) ∧
      m.repliesTo .step ops = m.replies steps ∧ m.repliesTo .tick ops = m.replies ticks := by
  rw [← hops.count_step] at h
  have hrun := performAll_withTimersOf (t := m) hops.kinds h
  rwa [withTimersOf_self, hops.count_step, hops.count_tick] at hrun

/-- However `n` steps and `k` ticks are interleaved, the machine ends in the same state, the steps
answer and log the same in turn, and so do the ticks, if in one of the orders no step executes an
instruction that reads or sets a timer. -/
theorem interleavings_agree (m : Machine) (n k : Nat) (ops more : List Operation)
    (hops : Operation.Interleaving n k ops) (hmore : Operation.Interleaving n k more)
    (huntimed : ∀ i ∈ m.executions ops, i.timed = false) :
    m.performAll more = m.performAll ops ∧
      m.repliesTo .step more = m.repliesTo .step ops ∧
      m.repliesTo .tick more = m.repliesTo .tick ops := by
  have hsteps : m.Untimed (List.replicate n .step) := by
    rw [← hops.count_step]
    exact Untimed.steps (t := m) hops.kinds huntimed
  obtain ⟨hstate, hstep, htick⟩ := performAll_interleaving hops hsteps
  obtain ⟨hstate', hstep', htick'⟩ := performAll_interleaving hmore hsteps
  exact ⟨hstate'.trans hstate.symm, hstep'.trans hstep.symm, htick'.trans htick.symm⟩

/-- A tone that is to stop at the next tick, whether the step comes before it or after it. -/
theorem interleavings_agree_of_last_tick :
    let m := (fresh {} (.ofSeed 8)).performAll [.execute (.setByte 3 1), .execute (.setSound 3)]
    Operation.Interleaving 1 1 [.step, .tick] ∧ Operation.Interleaving 1 1 [.tick, .step] ∧
      (∀ i ∈ m.executions [.step, .tick], i.timed = false) ∧
      m.repliesTo .tick [.tick, .step] = [(.ok (.edge (some .off)), [.sound .off])] ∧
      m.repliesTo .tick [.step, .tick] = [(.ok (.edge (some .off)), [.sound .off])] := by
  intro m
  have hops : Operation.Interleaving 1 1 [.step, .tick] := List.Perm.refl _
  have hmore : Operation.Interleaving 1 1 [.tick, .step] := List.Perm.swap _ _ _
  have hfetch : m.fetch = 0 := by
    show Memory.blank.readWord 0x204 = 0
    rw [Memory.readWord, Memory.read_blank, Memory.read_blank]
    rfl
  have huntimed : ∀ i ∈ m.executions [.step, .tick], i.timed = false := by
    refine untimed_cons_iff.mpr ⟨?_, fun i hi => nomatch hi⟩
    intro i hi
    have hi := (executed?_eq_some_iff.mp hi).2
    rw [instruction?, hfetch] at hi
    cases hi
    rfl
  have hedge : m.registers.tick.2 = some .off := by decide
  have htick : m.repliesTo .tick [.tick, .step] = [(.ok (.edge (some .off)), [.sound .off])] := by
    simp [repliesTo, perform, tick, Reply.map, Except.map, hedge]
  obtain ⟨-, -, hagree⟩ := interleavings_agree m 1 1 _ _ hops hmore huntimed
  exact ⟨hops, hmore, huntimed, htick, hagree ▸ htick⟩

end Machine

end Chip8
