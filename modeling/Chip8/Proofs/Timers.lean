import Chip8.Proofs.Footprint
import Chip8.Proofs.History
import Mathlib.Data.List.Induction

/-!
The timers against their history. A timer is put to a value by its own instruction and to zero by a
reset, and nothing but the ticks counts it down: no step does, whatever it executes and whether it
blocks or faults. Main statement: `timers_of_history`.
-/

namespace Chip8

/-- The two timers, which go by one rule. -/
inductive Timer
  | delay
  | sound
deriving DecidableEq, Repr

namespace Timer

def value : Timer → Registers → Byte
  | delay, r => r.delay
  | sound, r => r.sound

def setter : Timer → Nat → Instruction
  | delay => .setDelay
  | sound => .setSound

/-- The operation executes the timer's instruction with this value in its register. -/
def PutTo (t : Timer) (m : Machine) (op : Operation) (b : Byte) : Prop :=
  ∃ x : Fin 16, m.executed? op = some (t.setter x.val) ∧ m.registers.get x = b

def Spared (t : Timer) (m : Machine) (op : Operation) : Prop :=
  op ≠ .reset ∧ ∀ b, ¬ t.PutTo m op b

def Undisturbed (t : Timer) (m : Machine) (ops : List Operation) : Prop :=
  ∀ before op after, ops = before ++ op :: after → t.Spared (m.performAll before) op

/-- The timer was last put to a value just before the operations `since`, and not reset later. -/
def LastPutTo (t : Timer) (m : Machine) (ops since : List Operation) (b : Byte) : Prop :=
  ∃ before op, ops = before ++ op :: since ∧ t.PutTo (m.performAll before) op b ∧
    t.Undisturbed ((m.performAll before).perform op).machine since

variable {t : Timer} {m : Machine} {op : Operation} {ops : List Operation} {b : Byte}

theorem value_after (t : Timer) (m : Machine) (e : Effect) :
    t.value (m.after e).registers = t.value e.machine.registers := by
  cases t <;> rfl

theorem value_of_setter {x : Fin 16} {e : Effect} (he : (t.setter x.val).effect m = .ok e) :
    t.value e.machine.registers = m.registers.get x := by
  cases t with
  | delay | sound =>
    simp only [setter, Instruction.effect, operand_of_lt x.isLt] at he
    cases he
    rfl

theorem lt_of_setter {x : Nat} {e : Effect} (he : (t.setter x).effect m = .ok e) : x < 16 := by
  rcases operand_cases x with ⟨k, rfl, -⟩ | hx
  · exact k.isLt
  · cases t with
    | delay | sound =>
      simp only [setter, Instruction.effect, hx] at he
      cases he

theorem value_of_other {i : Instruction} {e : Effect} (he : i.effect m = .ok e)
    (hi : ∀ x, i ≠ t.setter x) : t.value e.machine.registers = t.value m.registers := by
  cases t with
  | delay => exact (Instruction.footprint_of_effect he).delay hi
  | sound => exact (Instruction.footprint_of_effect he).sound hi

theorem value_of_putTo (h : t.PutTo m op b) : t.value (m.perform op).machine.registers = b := by
  obtain ⟨x, hex, hb⟩ := h
  obtain ⟨e, he, hm⟩ := Machine.effect_of_executed? hex
  rw [hm, value_after, value_of_setter he, hb]

theorem value_of_idle {m' : Machine} (h : m.Idle op m') (hreset : op ≠ .reset)
    (htick : op ≠ .tick) : t.value m'.registers = t.value m.registers := by
  cases t with
  | delay => exact h.delay hreset htick
  | sound => exact h.sound hreset htick

theorem value_tick (t : Timer) (m : Machine) :
    t.value (m.perform .tick).machine.registers = Registers.countDown (t.value m.registers) := by
  cases t <;> rfl

theorem value_reset (t : Timer) (m : Machine) :
    t.value (m.perform .reset).machine.registers = 0 := by
  cases t <;> rfl

theorem Spared.value_eq (h : t.Spared m op) (htick : op ≠ .tick) :
    t.value (m.perform op).machine.registers = t.value m.registers := by
  obtain ⟨hreset, hput⟩ := h
  rcases hex : m.executed? op with _ | i
  · exact value_of_idle (Machine.idle_of_executed?_eq_none hex) hreset htick
  · obtain ⟨e, he, hm⟩ := Machine.effect_of_executed? hex
    rw [hm, value_after]
    apply value_of_other he
    rintro x rfl
    exact hput _ ⟨⟨x, lt_of_setter he⟩, hex, rfl⟩

/-- An operation that spares the timer counts it down by one if it is a tick. -/
theorem Spared.toNat_value (h : t.Spared m op) :
    (t.value (m.perform op).machine.registers).toNat =
      (t.value m.registers).toNat - [op].count .tick := by
  by_cases htick : op = .tick
  · rw [htick, value_tick, Registers.toNat_countDown]
    rfl
  · rw [h.value_eq htick, List.count_singleton, if_neg (by simpa using htick), Nat.sub_zero]

theorem undisturbed_nil (t : Timer) (m : Machine) : t.Undisturbed m [] :=
  fun before _ _ h => by simp at h

theorem undisturbed_cons_iff :
    t.Undisturbed m (op :: ops) ↔ t.Spared m op ∧ t.Undisturbed (m.perform op).machine ops := by
  refine ⟨fun h => ⟨h [] op ops rfl, ?_⟩, ?_⟩
  · intro before next after hsplit
    exact h (op :: before) next after (congrArg (op :: ·) hsplit)
  · rintro ⟨hop, hops⟩ (_ | ⟨first, before⟩) next after hsplit
    · obtain ⟨rfl, -⟩ := List.cons.inj hsplit
      exact hop
    · obtain ⟨rfl, htail⟩ := List.cons.inj hsplit
      exact hops before next after htail

theorem Undisturbed.concat (h : t.Undisturbed m ops) (hop : t.Spared (m.performAll ops) op) :
    t.Undisturbed m (ops ++ [op]) := by
  intro before next after hsplit
  rcases split_concat_cases hsplit with ⟨rfl, rfl, -⟩ | ⟨init, hops, -⟩
  · exact hop
  · exact h before next init hops

/-- Left to its ticks, a timer counts down once for each and stays at zero. -/
theorem Undisturbed.toNat_value (h : t.Undisturbed m ops) :
    (t.value (m.performAll ops).registers).toNat =
      (t.value m.registers).toNat - ops.count .tick := by
  induction ops generalizing m with
  | nil => rfl
  | cons op ops ih =>
    obtain ⟨hop, hops⟩ := undisturbed_cons_iff.mp h
    have hcount : (op :: ops).count .tick = [op].count .tick + ops.count .tick := by
      rw [← List.count_append, List.singleton_append]
    rw [Machine.performAll_cons, ih hops, hop.toNat_value, hcount, Nat.sub_sub]

theorem LastPutTo.toNat_value {since : List Operation} (h : t.LastPutTo m ops since b) :
    (t.value (m.performAll ops).registers).toNat = b.toNat - since.count .tick := by
  obtain ⟨before, op, rfl, hput, hsince⟩ := h
  rw [Machine.performAll_append, Machine.performAll_cons, hsince.toNat_value,
    value_of_putTo hput]

theorem LastPutTo.concat {since : List Operation} (h : t.LastPutTo m ops since b)
    (hop : t.Spared (m.performAll ops) op) :
    t.LastPutTo m (ops ++ [op]) (since ++ [op]) b := by
  obtain ⟨before, put, rfl, hput, hsince⟩ := h
  rw [Machine.performAll_append, Machine.performAll_cons] at hop
  exact ⟨before, put, by simp, hput, hsince.concat hop⟩

/-- A timer that starts at zero is there still, or it has been put to a value since. -/
theorem exists_lastPutTo_or (h : t.value m.registers = 0) (ops : List Operation) :
    (∃ since b, t.LastPutTo m ops since b) ∨ t.value (m.performAll ops).registers = 0 := by
  induction ops using List.reverseRecOn with
  | nil => exact .inr h
  | append_singleton ops op ih =>
    rw [Machine.performAll_concat]
    by_cases hreset : op = .reset
    · rw [hreset]
      exact .inr (value_reset t _)
    by_cases hput : ∃ b, t.PutTo (m.performAll ops) op b
    · obtain ⟨b, hput⟩ := hput
      exact .inl ⟨[], b, ops, op, rfl, hput, undisturbed_nil t _⟩
    have hop : t.Spared (m.performAll ops) op := ⟨hreset, not_exists.mp hput⟩
    rcases ih with ⟨since, b, hlast⟩ | hzero
    · exact .inl ⟨_, b, hlast.concat hop⟩
    · right
      rw [← UInt8.toNat_inj, hop.toNat_value, hzero]
      exact Nat.zero_sub _

end Timer

namespace Machine

theorem get_perform_of_readDelay {m : Machine} {op : Operation} {x : Fin 16}
    (hex : m.executed? op = some (.readDelay x.val)) :
    (m.perform op).machine.registers.get x = m.registers.delay := by
  obtain ⟨e, he, hm⟩ := effect_of_executed? hex
  simp only [Instruction.effect, operand_of_lt x.isLt] at he
  cases he
  rw [hm]
  exact (Registers.get_set _ x x _).trans (if_pos rfl)

/-- Each timer holds the value it was last put to since the machine was switched on or reset, less
the ticks since then, and zero if it has not been put to any. What `FX07` reads is the delay timer
at that moment. -/
theorem timers_of_history (dialect : Dialect) (random : RandomSource) (ops : List Operation) :
    let start := fresh dialect random
    let m := start.performAll ops
    (∀ t : Timer,
      (∀ since b, t.LastPutTo start ops since b →
        (t.value m.registers).toNat = b.toNat - since.count .tick) ∧
      ((∀ since b, ¬ t.LastPutTo start ops since b) → t.value m.registers = 0)) ∧
    ∀ op (x : Fin 16), m.executed? op = some (.readDelay x.val) →
      (m.perform op).machine.registers.get x = m.registers.delay := by
  intro start m
  refine ⟨?_, fun op x => get_perform_of_readDelay⟩
  intro t
  refine ⟨fun since b h => h.toNat_value, ?_⟩
  intro hnone
  have hstart : t.value start.registers = 0 := by cases t <;> rfl
  rcases Timer.exists_lastPutTo_or hstart ops with ⟨since, b, h⟩ | h
  · exact absurd h (hnone since b)
  · exact h

/-- Three ticks and an instruction for the other timer, after the delay timer is put to two. -/
theorem timers_of_history_past_zero :
    let start := fresh {} (.ofSeed 8)
    let since := [Operation.tick, .execute (.setSound 3), .tick, .tick]
    let ops := [Operation.execute (.setByte 3 2), .execute (.setDelay 3)] ++ since
    Timer.delay.LastPutTo start ops since 2 ∧
      ((start.performAll ops).registers.delay).toNat = 2 - 3 := by
  intro start since ops
  have hspared : ∀ (m : Machine) (op : Operation),
      op = .tick ∨ op = .execute (.setSound 3) → Timer.delay.Spared m op := by
    rintro m op (rfl | rfl)
    · exact ⟨nofun, fun b h => by obtain ⟨x, hex, -⟩ := h; cases hex⟩
    · refine ⟨nofun, ?_⟩
      rintro b ⟨x, hex, -⟩
      cases hex
  have hlast : Timer.delay.LastPutTo start ops since 2 := by
    refine ⟨[.execute (.setByte 3 2)], .execute (.setDelay 3), rfl, ⟨3, rfl, rfl⟩, ?_⟩
    simp only [since, Timer.undisturbed_cons_iff]
    exact ⟨hspared _ _ (.inl rfl), hspared _ _ (.inr rfl), hspared _ _ (.inl rfl),
      hspared _ _ (.inl rfl), Timer.undisturbed_nil _ _⟩
  exact ⟨hlast, ((timers_of_history {} (.ofSeed 8) ops).1 .delay).1 since 2 hlast⟩

end Machine

end Chip8
