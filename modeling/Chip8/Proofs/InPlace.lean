import Chip8.Machine.InPlace

/-!
Instructions carried out in place come to what they come to as a whole (`agrees_execute`,
`agrees_step`), also in the machine that a fault leaves. Only an operand out of range may leave a
machine behind that is half changed.
-/

namespace Chip8

namespace InPlace

/-- The run ends as the effect tells: in its machine, with the notes of the instruction added to the
log, or in the machine and the log from before, if a fault stops it. -/
def Follows (m : Machine) (log : List Event) (i : Instruction)
    (run : EStateM.Result Stop (Machine × List Event) Step) : Except Stop Effect → Prop
  | .ok e => run = .ok ⟨e.flow.target m.registers.pc, e.signal⟩ (e.machine, log ++ i.notes)
  | .error (.fault fault) => run = .error (.fault fault) (m, log)
  | .error .badOperand => ∃ left, run = .error .badOperand (left, log)

/-- The same answer, the same log, and the same machine unless an operand is out of range. -/
structure Agrees {α : Type} (r whole : Reply α) : Prop where
  result : r.result = whole.result
  log : r.log = whole.log
  machine : whole.result ≠ .error .badOperand → r.machine = whole.machine

variable {m : Machine} {log : List Event} {i : Instruction} {n : Nat} {stop : Stop}

theorem run_machine_bind {α : Type} (m : Machine) (log : List Event) (f : Machine → InPlace α) :
    (machine >>= f).run (m, log) = (f m).run (m, log) := rfl

theorem run_index_bind {α : Type} (m : Machine) (log : List Event) (f : Word → InPlace α) :
    (index >>= f).run (m, log) = (f m.registers.index).run (m, log) := rfl

theorem run_takeRandom_bind {α : Type} (m : Machine) (log : List Event) (f : Byte → InPlace α) :
    (takeRandom >>= f).run (m, log) =
      (f m.random.next.1).run ({ m with random := m.random.next.2 }, log) := rfl

theorem run_change_bind {α : Type} (m : Machine) (log : List Event) (f : Machine → Machine)
    (g : Unit → InPlace α) : (change f >>= g).run (m, log) = (g ()).run (f m, log) := rfl

theorem run_forM {body : Nat → InPlace Unit} (after : Nat → Machine)
    (h : ∀ k < n, (body k).run (after k, log) = .ok () (after (k + 1), log)) :
    (forM (List.range n) body).run (after 0, log) = .ok () (after n, log) := by
  induction n with
  | zero => rfl
  | succ n ih =>
    rw [List.range_succ, List.forM_append, EStateM.run_bind,
      ih fun k hk => h k (Nat.lt_succ_of_lt hk)]
    simp [h]

/-- A loop stops where its body does. -/
theorem run_forM_of_error {body : Nat → InPlace Unit} {k : Nat} (after : Nat → Machine)
    (hk : k < n) (h : ∀ j < k, (body j).run (after j, log) = .ok () (after (j + 1), log))
    {left : Machine × List Event} (hstop : (body k).run (after k, log) = .error stop left) :
    (forM (List.range n) body).run (after 0, log) = .error stop left := by
  induction n with
  | zero => cases hk
  | succ n ih =>
    rw [List.range_succ, List.forM_append, EStateM.run_bind]
    rcases Nat.lt_succ_iff_lt_or_eq.mp hk with hlt | rfl
    · rw [ih hlt]
    · rw [run_forM after h]
      simp [hstop]

theorem follows_ok {e : Effect} {run} (hi : i.notes = [])
    (h : run = .ok ⟨e.flow.target m.registers.pc, e.signal⟩ (e.machine, log)) :
    Follows m log i run (.ok e) := by
  rw [Follows, hi, List.append_nil]
  exact h

/-- A register that is looked up where the run stands. -/
theorem follows_register {now : Machine} {f : Fin 16 → Except Stop Effect} {g : Fin 16 → InPlace Step}
    (h : ∀ k : Fin 16, k.val = n → Follows m log i ((g k).run (now, log)) (f k)) :
    Follows m log i ((register n >>= g).run (now, log)) (operand n >>= f) := by
  rw [EStateM.run_bind, register]
  rcases operand_cases n with ⟨k, rfl, hk⟩ | hk
  · rw [hk]
    exact h k rfl
  · rw [hk]
    exact ⟨now, rfl⟩

theorem follows_getV {f : Fin 16 → Except Stop Effect} {g : Byte → InPlace Step}
    (h : ∀ k : Fin 16, k.val = n →
      Follows m log i ((g (m.registers.get k)).run (m, log)) (f k)) :
    Follows m log i ((getV n >>= g).run (m, log)) (operand n >>= f) := by
  rw [getV, bind_assoc]
  exact follows_register h

theorem follows_setV {now : Machine} {b : Byte} {f : Fin 16 → Except Stop Effect}
    {g : Unit → InPlace Step}
    (h : ∀ k : Fin 16, k.val = n → Follows m log i
      ((g ()).run ({ now with registers := now.registers.set k b }, log)) (f k)) :
    Follows m log i ((setV n b >>= g).run (now, log)) (operand n >>= f) := by
  rw [setV, bind_assoc]
  exact follows_register h

theorem run_setV (m : Machine) (log : List Event) (k : Fin 16) (b : Byte) :
    (setV k.val b).run (m, log) = .ok () ({ m with registers := m.registers.set k b }, log) := by
  rw [setV, register, operand_of_lt k.isLt]
  rfl

theorem run_push (m : Machine) (log : List Event) (a : Word) :
    (push a).run (m, log) =
      match m.stack.push a with
      | .error fault => .error (.fault fault) (m, log)
      | .ok stack => .ok () ({ m with stack := stack }, log) := by
  rw [push, run_machine_bind]
  cases m.stack.push a <;> rfl

theorem run_pop (m : Machine) (log : List Event) :
    pop.run (m, log) =
      match m.stack.pop with
      | .error fault => .error (.fault fault) (m, log)
      | .ok (a, rest) => .ok a ({ m with stack := rest }, log) := by
  rw [pop, run_machine_bind]
  cases m.stack.pop <;> rfl

theorem run_skipIf (s : Machine × List Event) (pc : Word) (condition : Bool) :
    (return skipIf pc condition : InPlace Step).run s =
      .ok ⟨(Flow.skipIf condition).target pc, none⟩ s := by
  cases condition <;> rfl

/-- A loop over the registers, from V0 on. Past VF there is none. -/
theorem follows_forM {now : Machine} {x : Nat} {body : Nat → InPlace Unit}
    {f : Fin 16 → Except Stop Effect} {g : Unit → InPlace Step} (after : Nat → Machine)
    (hstart : now = after 0)
    (h : ∀ k : Fin 16, (body k.val).run (after k.val, log) = .ok () (after (k.val + 1), log))
    (hstop : (body 16).run (after 16, log) = .error .badOperand (after 16, log))
    (hend : ∀ k : Fin 16, k.val = x →
      Follows m log i ((g ()).run (after (k.val + 1), log)) (f k)) :
    Follows m log i ((forM (List.range (x + 1)) body >>= g).run (now, log))
      (operand x >>= f) := by
  rw [EStateM.run_bind, hstart]
  rcases operand_cases x with ⟨k, rfl, hk⟩ | hx
  · have hloop := run_forM (n := k.val + 1) after fun j hj => h ⟨j, by omega⟩
    rw [hk, hloop]
    exact hend k rfl
  · have hlt := operand_eq_error_iff.mp hx
    rw [hx, run_forM_of_error (k := 16) after (by omega) (fun j hj => h ⟨j, hj⟩) hstop]
    exact ⟨after 16, rfl⟩

/-- The machine when V0, V1, … up to the one before register `k` have gone to memory. -/
def dumped (m : Machine) (a : Word) (k : Nat) : Machine :=
  { m with memory := m.memory.store a (m.registers.v.toList.take k) }

def restored (m : Machine) (a : Word) (k : Nat) : Machine :=
  { m with registers := m.registers.setAll (m.memory.block a k) }

theorem run_dumpTo (m : Machine) (log : List Event) (a : Word) (k : Fin 16) :
    (dumpTo a k.val).run (dumped m a k.val, log) = .ok () (dumped m a (k.val + 1), log) := by
  have hlen : (m.registers.v.toList.take k.val).length = k.val := by simp
  have hk : m.registers.v.toList[k.val]? = some (m.registers.get k) := by
    rw [Vector.getElem?_toList, Vector.getElem?_eq_getElem k.isLt]
    rfl
  rw [dumped, dumped, List.take_add_one, hk, Option.toList_some, Memory.store_concat, hlen, dumpTo,
    getV, register, operand_of_lt k.isLt]
  rfl

theorem run_restoreFrom (m : Machine) (log : List Event) (a : Word) (k : Fin 16) :
    (restoreFrom a k.val).run (restored m a k.val, log) =
      .ok () (restored m a (k.val + 1), log) := by
  have hbytes : (m.memory.block a k.val).length = k.val := m.memory.length_block a k.val
  rw [restored, restored, Memory.block_succ, Registers.setAll_concat _ hbytes]
  exact run_setV _ log k _

-- the second step from an address is made over the end of memory, where it may have wrapped
theorem store_three (memory : Memory) (a : Word) (b c d : Byte) :
    memory.store a [b, c, d] = ((memory.write a b).write (a.advance 1) c).write (a.advance 2) d :=
  Memory.write_congr _ (a.cell_advance_one_advance 1) d

/-- Carrying an instruction out in place leaves what its effect tells. -/
theorem follows_carryOut (m : Machine) (log : List Event) (i : Instruction) :
    Follows m log i ((carryOut m.registers.pc i).run (m, log)) (i.effect m) := by
  cases i with
  | clearScreen | jump a | setIndex a => exact follows_ok rfl rfl
  | sys a | waitKey x => rfl
  | ret =>
    simp only [Instruction.effect, carryOut, EStateM.run_bind, run_pop]
    cases m.stack.pop with
    | error fault => rfl
    | ok popped => exact follows_ok rfl rfl
  | call a =>
    simp only [Instruction.effect, carryOut, EStateM.run_bind, run_push]
    cases m.stack.push (m.registers.pc.advance 2) with
    | error fault => rfl
    | ok stack => exact follows_ok rfl rfl
  | setByte x b => exact follows_setV fun k hk => follows_ok rfl rfl
  | setDelay x | setSound x | addIndex x | pointGlyph x =>
    exact follows_getV fun k hk => follows_ok rfl rfl
  | skipByte test x b | skipKey held x =>
    exact follows_getV fun k hk => follows_ok rfl (run_skipIf _ _ _)
  | skipRegister test x y =>
    exact follows_getV fun j hj => follows_getV fun k hk => follows_ok rfl (run_skipIf _ _ _)
  | addByte x b =>
    refine follows_getV ?_
    rintro k rfl
    rw [EStateM.run_bind, run_setV]
    exact follows_ok rfl rfl
  | readDelay x =>
    rw [carryOut, run_machine_bind]
    exact follows_setV fun k hk => follows_ok rfl rfl
  | random x mask =>
    rw [carryOut, run_takeRandom_bind]
    exact follows_setV fun k hk => follows_ok rfl rfl
  | combine op x y =>
    refine follows_getV ?_
    rintro j rfl
    refine follows_getV fun k hk => ?_
    simp only [EStateM.run_bind, run_setV]
    cases op <;> exact follows_ok rfl rfl
  | shift direction x y =>
    rw [carryOut, run_machine_bind]
    exact follows_getV fun j hj => follows_setV fun k hk => follows_ok rfl rfl
  | jumpOffset a =>
    rw [carryOut, run_machine_bind]
    exact follows_getV fun k hk => follows_ok rfl rfl
  | draw x y rows =>
    exact follows_getV fun j hj => follows_getV fun k hk => follows_register fun l hl =>
      follows_ok rfl rfl
  | storeDecimal x =>
    refine follows_getV fun k hk => follows_ok rfl ?_
    rw [decimalDigits, store_three]
    rfl
  | dump x =>
    rw [carryOut, run_index_bind]
    exact follows_forM (dumped m m.registers.index) rfl (run_dumpTo m log _) rfl
      fun k hk => follows_ok rfl rfl
  | restore x =>
    have hstart : m = restored m m.registers.index 0 := by
      rw [restored, Memory.block, Registers.setAll_nil]
    rw [carryOut, run_index_bind]
    exact follows_forM (restored m m.registers.index) hstart (run_restoreFrom m log _) rfl
      fun k hk => follows_ok rfl rfl

/-- Executing in place is executing as a whole, with its log after the one there is. -/
theorem agrees_execute (m : Machine) (log : List Event) (i : Instruction) :
    Agrees ((execute i).reply m log) { m.execute i with log := log ++ (m.execute i).log } := by
  have h := follows_carryOut m log i
  rw [reply, execute, run_machine_bind, EStateM.run_bind, Machine.execute]
  match i.effect m, h with
  | .ok e, h =>
    rw [Follows] at h
    rw [h]
    exact ⟨rfl, rfl, fun _ => rfl⟩
  | .error (.fault fault), h =>
    rw [Follows] at h
    rw [h]
    exact ⟨rfl, (List.append_nil log).symm, fun _ => rfl⟩
  | .error .badOperand, h =>
    obtain ⟨left, h⟩ := h
    rw [h]
    exact ⟨rfl, (List.append_nil log).symm, fun hs => absurd rfl hs⟩

theorem run_deliver (m : Machine) (log : List Event) (key x : Fin 16) :
    (deliver key x.val).run (m, log) =
      .ok ⟨m.registers.pc.advance 2, none⟩
        ({ m with
            registers :=
              { m.registers.set x (UInt8.ofNat key.val) with pc := m.registers.pc.advance 2 }
            waiting := none },
          log ++ [.keyTaken key.val x.val]) := by
  rw [deliver, setV, register, operand_of_lt x.isLt]
  rfl

theorem run_deliver_of_badOperand {x : Nat} (hx : operand x = .error .badOperand) (m : Machine)
    (log : List Event) (key : Fin 16) :
    (deliver key x).run (m, log) = .error .badOperand (m, log ++ [.keyTaken key.val x]) := by
  rw [deliver, setV, register, hx]
  rfl

theorem agrees_poll (m : Machine) (x : Nat) : Agrees ((poll x).reply m []) (m.poll x) := by
  rw [reply, poll, run_machine_bind, Machine.poll]
  cases m.keypad.takePress with
  | none => exact ⟨rfl, rfl, fun _ => rfl⟩
  | some taken =>
    obtain ⟨key, keypad⟩ := taken
    dsimp only
    rw [run_change_bind]
    rcases operand_cases x with ⟨k, rfl, hk⟩ | hx
    · rw [run_deliver, hk]
      exact ⟨rfl, rfl, fun _ => rfl⟩
    · rw [run_deliver_of_badOperand hx, hx]
      exact ⟨rfl, rfl, fun hs => absurd rfl hs⟩

/-- A step in place is a step as a whole. -/
theorem agrees_step (m : Machine) : Agrees (step.reply m []) m.step := by
  rw [reply, step, run_machine_bind, Machine.step]
  cases m.waiting with
  | some x => exact agrees_poll m x
  | none =>
    dsimp only
    cases Instruction.decode m.fetch with
    | error fault => exact ⟨rfl, rfl, fun _ => rfl⟩
    | ok i => exact agrees_execute m [.executing m.registers.pc m.fetch i] i

end InPlace

end Chip8
