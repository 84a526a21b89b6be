import Chip8.Proofs.KeyWait
import Chip8.Proofs.Stores

/-!
What a step can change, over all the parts of a machine at once: an instruction writes to its own
parts only (`writes_of_effect`), a poll that finds a key ends the wait for it, and every other step
leaves the machine as it was. Main statement: `writes_of_step`.
-/

namespace Chip8

def Operator.SetsFlag : Operator → Prop
  | add | sub | subFrom => True
  | _ => False

theorem Operator.snd_apply_eq_none {op : Operator} (h : ¬ op.SetsFlag) (a b : Byte) :
    (op.apply a b).2 = none := by
  cases op with
  | add | sub | subFrom => exact absurd trivial h
  | copy | or | and | xor => rfl

theorem val_of_operand {n : Nat} {x : Fin 16} (h : operand n = .ok x) : x.val = n := by
  rcases operand_cases n with ⟨k, hk, hn⟩ | hn
  · rw [hn] at h
    cases h
    exact hk
  · rw [hn] at h
    cases h

theorem Registers.get_setResult_of_ne (r : Registers) {x k : Fin 16} {value : Byte}
    {b : Option Bool} (hx : x ≠ k) (hb : b = none ∨ flag ≠ k) :
    (r.setResult x value b).get k = r.get k := by
  cases b with
  | none => rw [get_setResult_none, if_neg hx]
  | some b =>
    have hflag : flag ≠ k := hb.resolve_left (by simp)
    rw [get_setResult_some, if_neg hflag, if_neg hx]

namespace Instruction

/-- The registers among V0 to VF that an instruction writes to when it is executed. A key wait
writes to its register later. -/
def Writes : Instruction → Fin 16 → Prop
  | setByte x _, k | addByte x _, k | random x _, k | readDelay x, k => k.val = x
  | combine op x _, k => k.val = x ∨ (op.SetsFlag ∧ k = Registers.flag)
  | shift _ x _, k => k.val = x ∨ k = Registers.flag
  | draw _ _ _, k => k = Registers.flag
  | restore x, k => k.val ≤ x
  | _, _ => False

variable {i : Instruction} {m : Machine} {e : Effect}

theorem get_of_effect (he : i.effect m = .ok e) {k : Fin 16} (hk : ¬ i.Writes k) :
    e.machine.registers.get k = m.registers.get k := by
  cases i with
  | setByte x b | addByte x b | random x b | readDelay x =>
    simp only [effect, bind_eq_ok_iff] at he
    obtain ⟨a, ha, he⟩ := he
    cases he
    obtain rfl := val_of_operand ha
    exact (Registers.get_set _ a k _).trans (if_neg fun h => hk (congrArg Fin.val h.symm))
  | combine op x y =>
    simp only [effect, bind_eq_ok_iff] at he
    obtain ⟨a, ha, b, -, he⟩ := he
    cases he
    obtain rfl := val_of_operand ha
    apply Registers.get_setResult_of_ne
    · exact fun h => hk (.inl (congrArg Fin.val h.symm))
    · by_cases hop : op.SetsFlag
      · exact .inr fun h => hk (.inr ⟨hop, h.symm⟩)
      · exact .inl (Operator.snd_apply_eq_none hop _ _)
  | shift direction x y =>
    simp only [effect, bind_eq_ok_iff] at he
    obtain ⟨s, -, a, ha, he⟩ := he
    cases he
    obtain rfl := val_of_operand ha
    apply Registers.get_setResult_of_ne
    · exact fun h => hk (.inl (congrArg Fin.val h.symm))
    · exact .inr fun h => hk (.inr h.symm)
  | draw x y rows =>
    simp only [effect, bind_eq_ok_iff] at he
    obtain ⟨a, -, b, -, c, -, he⟩ := he
    cases he
    exact (Registers.get_setFlag _ _ k).trans (if_neg fun h => hk h.symm)
  | restore x =>
    simp only [effect, bind_eq_ok_iff] at he
    obtain ⟨a, ha, he⟩ := he
    cases he
    obtain rfl := val_of_operand ha
    have hlt : ¬ k.val < a.val + 1 := fun h => hk (Nat.le_of_lt_succ h)
    rw [Registers.get_setAll, Memory.getElem?_block, if_neg hlt]
    rfl
  -- from here on no register among V0 to VF is written to
  | ret | call a =>
    simp only [effect, bind_eq_ok_iff, mapError_eq_ok_iff] at he
    obtain ⟨_, -, he⟩ := he
    cases he
    rfl
  | clearScreen | sys a | jump a | setIndex a | waitKey x =>
    cases he
    rfl
  | skipRegister test x y =>
    simp only [effect, bind_eq_ok_iff] at he
    obtain ⟨a, -, b, -, he⟩ := he
    cases he
    rfl
  | _ =>
    simp only [effect, bind_eq_ok_iff] at he
    obtain ⟨a, -, he⟩ := he
    cases he
    rfl

/-- Two instructions store to memory, one byte after another from I on. -/
theorem window_of_effect (he : i.effect m = .ok e) {a : Word}
    (hne : e.machine.memory.read a ≠ m.memory.read a) :
    ¬ Font.Covers a.cell.val ∧
      ((∃ x, i = storeDecimal x ∧ ∃ k ≤ 2, a.cell.val = (m.registers.index.toNat + k) % 4096) ∨
       ∃ x, i = dump x ∧ ∃ k ≤ x, a.cell.val = (m.registers.index.toNat + k) % 4096) := by
  cases i with
  | storeDecimal x =>
    simp only [effect, bind_eq_ok_iff] at he
    obtain ⟨b, -, he⟩ := he
    cases he
    have hlength : (decimalDigits (m.registers.get b)).length = 3 := rfl
    obtain ⟨hfont, k, hk, ha⟩ := Memory.window_of_read_store_ne (by omega) hne
    exact ⟨hfont, .inl ⟨x, rfl, k, by omega, ha⟩⟩
  | dump x =>
    simp only [effect, bind_eq_ok_iff] at he
    obtain ⟨b, hb, he⟩ := he
    cases he
    obtain rfl := val_of_operand hb
    have hlength : (m.registers.v.toList.take (b.val + 1)).length = b.val + 1 := by
      rw [List.length_take, Vector.length_toList]
      omega
    obtain ⟨hfont, k, hk, ha⟩ := Memory.window_of_read_store_ne (by omega) hne
    exact ⟨hfont, .inr ⟨b, rfl, k, by omega, ha⟩⟩
  | _ =>
    rw [(footprint_of_effect he).memory (by simp) (by simp)] at hne
    exact absurd rfl hne

theorem paints_iff : i.paints = true ↔ i = clearScreen ∨ ∃ x y rows, i = draw x y rows := by
  cases i <;> simp [paints]

end Instruction

def Reply.signal? (r : Reply Step) : Option Signal := r.result.toOption.bind Step.signal

namespace Machine

/-- What a step can have changed, part by part, if it executes an instruction or none, signals
something or nothing and leaves the machine `m'`. -/
structure WritesWithin (m : Machine) (executed : Option Instruction) (signal : Option Signal)
    (m' : Machine) : Prop where
  /-- Only the two stores write to memory, from I on and round the end, and never to the font. -/
  memory : ∀ a : Word, m'.memory.read a ≠ m.memory.read a → ¬ Font.Covers a.cell.val ∧
    ((∃ x, executed = some (.storeDecimal x) ∧
        ∃ k ≤ 2, a.cell.val = (m.registers.index.toNat + k) % 4096) ∨
      ∃ x, executed = some (.dump x) ∧
        ∃ k ≤ x, a.cell.val = (m.registers.index.toNat + k) % 4096)
  screen : m'.screen ≠ m.screen → signal = some .screenDirty
  dirty : signal = some .screenDirty ↔
    executed = some .clearScreen ∨ ∃ x y rows, executed = some (.draw x y rows)
  stack : (∀ a, executed ≠ some (.call a)) → executed ≠ some .ret → m'.stack = m.stack
  call : ∀ a, executed = some (.call a) →
    m'.stack.frames = m.registers.pc.advance 2 :: m.stack.frames
  ret : executed = some .ret → ∃ a, m.stack.frames = a :: m'.stack.frames
  index : (∀ a, executed ≠ some (.setIndex a)) → (∀ x, executed ≠ some (.addIndex x)) →
    (∀ x, executed ≠ some (.pointGlyph x)) → m'.registers.index = m.registers.index
  delay : (∀ x, executed ≠ some (.setDelay x)) → m'.registers.delay = m.registers.delay
  sound : (∀ x, executed ≠ some (.setSound x)) → m'.registers.sound = m.registers.sound
  /-- A register is written to by the instruction, or by the end of the wait for it. -/
  registers : ∀ k, m'.registers.get k ≠ m.registers.get k →
    (∃ i, executed = some i ∧ i.Writes k) ∨ (m.waiting = some k.val ∧ m'.waiting = none)
  held : m'.keypad.held = m.keypad.held
  /-- A key wait begins with no press latched, or it ends and takes one. -/
  keys : m'.keypad ≠ m.keypad ∨ m'.waiting ≠ m.waiting →
    (∃ x, executed = some (.waitKey x) ∧ m'.waiting = some x ∧ ∀ key, ¬ m'.keypad.Latched key) ∨
      ∃ x key, m.waiting = some x ∧ m'.waiting = none ∧
        m.keypad.takePress = some (key, m'.keypad)
  random : (∀ x mask, executed ≠ some (.random x mask)) → m'.random = m.random
  taken : ∀ x mask, executed = some (.random x mask) → m'.random = m.random.next.2
  dialect : m'.dialect = m.dialect

variable {m : Machine}

theorem writes_of_effect {i : Instruction} {e : Effect} (he : i.effect m = .ok e) :
    m.WritesWithin (some i) e.signal (m.after e) := by
  have hfoot := Instruction.footprint_of_effect he
  constructor
  case memory =>
    intro a ha
    simpa only [Option.some.injEq] using Instruction.window_of_effect he ha
  case screen =>
    intro hne
    rw [Instruction.signal_eq_screenDirty_iff he]
    by_contra hpaints
    exact hne (Instruction.screen_of_effect he (Bool.eq_false_iff.mpr hpaints))
  case dirty =>
    rw [Instruction.signal_eq_screenDirty_iff he, Instruction.paints_iff]
    simp only [Option.some.injEq]
  case stack =>
    intro hcall hret
    exact hfoot.stack (fun a h => hcall a (congrArg some h)) fun h => hret (congrArg some h)
  case call =>
    intro a ha
    obtain rfl : i = .call a := Option.some.inj ha
    exact (Instruction.frames_of_effect_call he).2
  case ret =>
    intro hr
    obtain rfl : i = .ret := Option.some.inj hr
    obtain ⟨a, -, hframes⟩ := Instruction.frames_of_effect_ret he
    exact ⟨a, hframes⟩
  case index =>
    intro hset hadd hpoint
    exact hfoot.index (fun a h => hset a (congrArg some h)) (fun x h => hadd x (congrArg some h))
      fun x h => hpoint x (congrArg some h)
  case delay =>
    intro hset
    exact hfoot.delay fun x h => hset x (congrArg some h)
  case sound =>
    intro hset
    exact hfoot.sound fun x h => hset x (congrArg some h)
  case registers =>
    intro k hne
    refine .inl ⟨i, rfl, ?_⟩
    by_contra hk
    exact hne (Instruction.get_of_effect he hk)
  case held => exact held_of_effect he
  case keys =>
    intro hne
    by_cases hi : ∃ x, i = .waitKey x
    · obtain ⟨x, rfl⟩ := hi
      cases he
      exact .inl ⟨x, rfl, rfl, m.keypad.not_latched_discardPresses⟩
    · rw [not_exists] at hi
      rcases hne with hne | hne
      · exact absurd (hfoot.keypad hi) hne
      · exact absurd (hfoot.waiting hi) hne
  case random =>
    intro hno
    exact hfoot.random fun x mask h => hno x mask (congrArg some h)
  case taken =>
    intro x mask h
    obtain ⟨hno, -⟩ | ⟨-, hr⟩ := Instruction.random_of_effect he
    · exact absurd (Option.some.inj h) (hno x mask)
    · exact hr
  case dialect => exact hfoot.dialect

theorem writes_of_unchanged {signal : Option Signal} (hs : signal ≠ some .screenDirty) :
    m.WritesWithin none signal m where
  memory a h := absurd rfl h
  screen h := absurd rfl h
  dirty := by simp [hs]
  stack _ _ := rfl
  call _ h := by cases h
  ret h := by cases h
  index _ _ _ := rfl
  delay _ := rfl
  sound _ := rfl
  registers k h := absurd rfl h
  held := rfl
  keys h := by simp at h
  random _ := rfl
  taken _ _ h := by cases h
  dialect := rfl

theorem writes_of_resumed {x key : Fin 16} {keypad : Keypad} (pc : Word)
    (hw : m.waiting = some x.val) (hp : m.keypad.takePress = some (key, keypad)) :
    m.WritesWithin none none
      { m with
        keypad := keypad
        registers := { m.registers.set x (UInt8.ofNat key.val) with pc := pc }
        waiting := none } where
  __ : m.WritesWithin none none m := writes_of_unchanged (by simp)
  registers := by
    intro k hne
    have hk : x = k := by
      by_contra hxk
      exact hne ((m.registers.get_set x k _).trans (if_neg hxk))
    exact .inr ⟨hk ▸ hw, rfl⟩
  held := Keypad.held_of_takePress hp
  keys _ := .inr ⟨x.val, key, hw, rfl, hp⟩

theorem decode_of_executed? {i : Instruction} (h : m.executed? .step = some i) :
    m.waiting = none ∧ Instruction.decode m.fetch = .ok i :=
  instruction?_step_eq_some_iff.mp (executed?_eq_some_iff.mp h).2

/-- A step of any machine changes what the instruction that it has fetched writes to, or the parts
of a key wait that ends, and nothing else. -/
theorem writes_of_step (m : Machine) :
    (∀ i, m.executed? .step = some i → m.waiting = none ∧ Instruction.decode m.fetch = .ok i) ∧
      m.WritesWithin (m.executed? .step) m.step.signal? m.step.machine := by
  refine ⟨fun i h => decode_of_executed? h, ?_⟩
  rcases hs : m.step.result with stop | s
  · rw [executed?_step_of_error hs, machine_step_of_error hs, Reply.signal?, hs]
    exact writes_of_unchanged (by simp [Except.toOption])
  · -- a step that succeeds executes an instruction, or polls with or without a key
    have hp := m.performs_step
    rw [hs] at hp
    rw [Reply.signal?, hs]
    generalize m.step.machine = m' at hp ⊢
    cases hp with
    | executed hi he =>
      rw [executed?_of_effect hi he]
      exact writes_of_effect he
    | blocked hw hp =>
      rw [executed?_step_of_waiting hw]
      exact writes_of_unchanged (by simp [Except.toOption])
    | resumed hw hp =>
      rw [executed?_step_of_waiting hw]
      exact writes_of_resumed _ hw hp

end Machine

end Chip8
