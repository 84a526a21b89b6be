import Chip8.Instruction.Decode
import Chip8.Machine.Effect

/-!
What an instruction can touch. `Instruction.effect` is opened here once for each question: which
parts an instruction leaves alone (`footprint_of_effect`), what becomes of the call stack
(`stack_of_effect`), where a jump can lead (`goto_of_effect`) and which instructions are refused
(`effect_eq_error_iff`). What follows cites these, and opens the instructions only where it
runs them on two machines side by side.
-/

namespace Chip8

theorem bind_eq_ok_iff {α β : Type} {x : Except Stop α} {f : α → Except Stop β} {r : β} :
    (x >>= f) = .ok r ↔ ∃ a, x = .ok a ∧ f a = .ok r := by
  cases x <;> simp [bind, Except.bind]

theorem mapError_eq_ok_iff {α : Type} {x : Except Fault α} {a : α} :
    x.mapError Stop.fault = .ok a ↔ x = .ok a := by
  rcases x with fault | b
  · exact ⟨nofun, nofun⟩
  · show Except.ok b = .ok a ↔ _
    rw [Except.ok.injEq, Except.ok.injEq]

theorem Registers.setResult_eq (r : Registers) (x : Fin 16) (value : Byte) (flag : Option Bool) :
    ∃ v, r.setResult x value flag = { r with v := v } := by
  cases flag with
  | none => exact ⟨_, rfl⟩
  | some flag => exact ⟨_, rfl⟩

@[simp] theorem Flow.skipIf_ne_goto (condition : Bool) (a : Word) :
    Flow.skipIf condition ≠ .goto a := by
  cases condition <;> exact nofun

@[simp] theorem Flow.skipIf_ne_stay (condition : Bool) : Flow.skipIf condition ≠ .stay := by
  cases condition <;> exact nofun

namespace Instruction

/-- What an instruction leaves alone when it succeeds, where it does not go, and what it does not
signal. The program counter is moved only after it. -/
structure Footprint (i : Instruction) (m : Machine) (e : Effect) : Prop where
  pc : e.machine.registers.pc = m.registers.pc
  dialect : e.machine.dialect = m.dialect
  index : (∀ a, i ≠ setIndex a) → (∀ x, i ≠ addIndex x) → (∀ x, i ≠ pointGlyph x) →
    e.machine.registers.index = m.registers.index
  delay : (∀ x, i ≠ setDelay x) → e.machine.registers.delay = m.registers.delay
  sound : (∀ x, i ≠ setSound x) → e.machine.registers.sound = m.registers.sound
  memory : (∀ x, i ≠ storeDecimal x) → (∀ x, i ≠ dump x) → e.machine.memory = m.memory
  stack : (∀ a, i ≠ call a) → i ≠ ret → e.machine.stack = m.stack
  screen : i ≠ clearScreen → (∀ x y n, i ≠ draw x y n) → e.machine.screen = m.screen
  keypad : (∀ x, i ≠ waitKey x) → e.machine.keypad = m.keypad
  waiting : (∀ x, i ≠ waitKey x) → e.machine.waiting = m.waiting
  random : (∀ x b, i ≠ .random x b) → e.machine.random = m.random
  flow : (∀ a, i ≠ jump a) → (∀ a, i ≠ call a) → i ≠ ret → (∀ a, i ≠ jumpOffset a) →
    ∀ a, e.flow ≠ .goto a
  stay : (∀ x, i ≠ waitKey x) → e.flow ≠ .stay
  signal : i ≠ clearScreen → (∀ x y n, i ≠ draw x y n) → (∀ x, i ≠ waitKey x) →
    (∀ x, i ≠ setSound x) → e.signal = none

theorem footprint_of_effect {i : Instruction} {m : Machine} {e : Effect}
    (h : i.effect m = .ok e) : i.Footprint m e := by
  cases i with
  | clearScreen | sys a | jump a | setIndex a | waitKey x =>
    cases h
    constructor <;> simp [Registers.setIndex]
  | ret | call a =>
    simp only [effect, bind_eq_ok_iff, mapError_eq_ok_iff] at h
    obtain ⟨_, -, h⟩ := h
    cases h
    constructor <;> simp
  | combine op x y | shift direction x y =>
    simp only [effect, bind_eq_ok_iff] at h
    obtain ⟨a, -, b, -, h⟩ := h
    cases h
    -- a result goes through `setResult`, which does not reduce before its flag is known
    obtain ⟨v, hv⟩ := m.registers.setResult_eq _ _ _
    rw [hv]
    constructor <;> simp
  | draw x y rows =>
    simp only [effect, bind_eq_ok_iff] at h
    obtain ⟨a, -, b, -, c, -, h⟩ := h
    cases h
    constructor <;> simp [Registers.setFlag, Registers.set]
  | skipRegister test x y =>
    simp only [effect, bind_eq_ok_iff] at h
    obtain ⟨a, -, b, -, h⟩ := h
    cases h
    constructor <;> simp
  | _ =>
    simp only [effect, bind_eq_ok_iff] at h
    obtain ⟨a, -, h⟩ := h
    cases h
    constructor <;> simp [Registers.set, Registers.setIndex, Registers.setAll]

theorem effect_call_of_lt {m : Machine} (a : Word) (h : m.stack.depth < 16) :
    (call a).effect m = .ok
      { machine := { m with stack := ⟨m.registers.pc.advance 2 :: m.stack.frames⟩ }
        flow := .goto a } := by
  have hp : m.stack.push (m.registers.pc.advance 2) =
      .ok ⟨m.registers.pc.advance 2 :: m.stack.frames⟩ :=
    CallStack.push_eq_ok_iff.mpr ⟨h, rfl⟩
  simp only [effect, hp]
  rfl

theorem effect_call_of_le {m : Machine} (a : Word) (h : 16 ≤ m.stack.depth) :
    (call a).effect m = .error (.fault (.stackOverflow (m.registers.pc.advance 2))) := by
  have hp : m.stack.push (m.registers.pc.advance 2) =
      .error (.stackOverflow (m.registers.pc.advance 2)) :=
    if_pos (m.stack.isFull_iff.mpr h)
  simp only [effect, hp]
  rfl

theorem effect_ret_of_cons {m : Machine} {a : Word} {rest : List Word}
    (h : m.stack.frames = a :: rest) :
    ret.effect m = .ok { machine := { m with stack := ⟨rest⟩ }, flow := .goto a } := by
  simp only [effect, CallStack.pop, h]
  rfl

theorem effect_ret_of_nil {m : Machine} (h : m.stack.frames = []) :
    ret.effect m = .error (.fault .stackUnderflow) := by
  simp only [effect, CallStack.pop, h]
  rfl

theorem frames_of_effect_call {a : Word} {m : Machine} {e : Effect}
    (h : (call a).effect m = .ok e) :
    m.stack.depth < 16 ∧ e.machine.stack.frames = m.registers.pc.advance 2 :: m.stack.frames := by
  by_cases hd : m.stack.depth < 16
  · rw [effect_call_of_lt a hd] at h
    cases h
    exact ⟨hd, rfl⟩
  · rw [effect_call_of_le a (Nat.le_of_not_lt hd)] at h
    cases h

theorem frames_of_effect_ret {m : Machine} {e : Effect} (h : ret.effect m = .ok e) :
    ∃ a, e.flow = .goto a ∧ m.stack.frames = a :: e.machine.stack.frames := by
  cases hf : m.stack.frames with
  | nil =>
    rw [effect_ret_of_nil hf] at h
    cases h
  | cons a rest =>
    rw [effect_ret_of_cons hf] at h
    cases h
    exact ⟨a, rfl, rfl⟩

theorem effect_pointGlyph (m : Machine) (x : Fin 16) :
    (pointGlyph x.val).effect m = .ok
      { machine :=
        { m with
          registers := m.registers.setIndex
            (Font.glyphAddress ((m.registers.get x).toNat % 16)) } } := by
  simp only [effect, operand_of_lt x.isLt]
  rfl

theorem effect_draw (m : Machine) (x y : Fin 16) (rows : Byte) (h : rows.toNat < 16) :
    (draw x.val y.val rows).effect m =
      let drawn := m.screen.draw (m.registers.get x) (m.registers.get y)
        (m.memory.block m.registers.index rows.toNat)
      .ok
        { machine := { m with screen := drawn.1, registers := m.registers.setFlag drawn.2 }
          signal := some .screenDirty } := by
  simp only [effect, operand_of_lt x.isLt, operand_of_lt y.isLt, operand_of_lt h]
  rfl

/-- A call puts one address on the stack, a return takes one off, and nothing else touches it. -/
theorem stack_of_effect {i : Instruction} {m : Machine} {e : Effect} (h : i.effect m = .ok e) :
    ((∀ a, i ≠ call a) ∧ i ≠ ret ∧ e.machine.stack = m.stack) ∨
    (∃ a, i = call a ∧ m.stack.depth < 16 ∧
      e.machine.stack.frames = m.registers.pc.advance 2 :: m.stack.frames) ∨
    (i = ret ∧ ∃ a, e.flow = .goto a ∧ m.stack.frames = a :: e.machine.stack.frames) := by
  by_cases hc : ∃ a, i = call a
  · obtain ⟨a, rfl⟩ := hc
    exact .inr (.inl ⟨a, rfl, frames_of_effect_call h⟩)
  rw [not_exists] at hc
  by_cases hr : i = ret
  · subst hr
    exact .inr (.inr ⟨rfl, frames_of_effect_ret h⟩)
  · exact .inl ⟨hc, hr, (footprint_of_effect h).stack hc hr⟩

/-- Only four instructions name the address to go on at. -/
theorem goto_of_effect {i : Instruction} {m : Machine} {e : Effect} {a : Word}
    (h : i.effect m = .ok e) (hg : e.flow = .goto a) :
    i = jump a ∨ i = call a ∨ (i = ret ∧ a ∈ m.stack.frames) ∨
      ∃ b k, i = jumpOffset b ∧ a = b.advance k := by
  cases i with
  | jump b =>
    cases h
    cases hg
    exact .inl rfl
  | call b =>
    simp only [effect, bind_eq_ok_iff] at h
    obtain ⟨stack, -, h⟩ := h
    cases h
    cases hg
    exact .inr (.inl rfl)
  | ret =>
    obtain ⟨b, hb, hf⟩ := frames_of_effect_ret h
    obtain rfl : b = a := Flow.goto.inj (hb.symm.trans hg)
    exact .inr (.inr (.inl ⟨rfl, by simp [hf]⟩))
  | jumpOffset b =>
    simp only [effect, bind_eq_ok_iff] at h
    obtain ⟨x, -, h⟩ := h
    cases h
    cases hg
    exact .inr (.inr (.inr ⟨b, _, rfl, rfl⟩))
  | _ => exact absurd hg ((footprint_of_effect h).flow nofun nofun nofun nofun a)

/-- Whatever is put into the index register is cut down to twelve bits. -/
theorem index_of_effect {i : Instruction} {m : Machine} {e : Effect} (h : i.effect m = .ok e) :
    e.machine.registers.index = m.registers.index ∨
      ∃ a : Word, e.machine.registers.index = a.nnn := by
  cases i with
  | setIndex a =>
    cases h
    exact .inr ⟨a, rfl⟩
  | addIndex x | pointGlyph x =>
    simp only [effect, bind_eq_ok_iff] at h
    obtain ⟨x, -, h⟩ := h
    cases h
    exact .inr ⟨_, rfl⟩
  | _ => exact .inl ((footprint_of_effect h).index nofun nofun nofun)

/-- Memory changes only by a store at the address in I. -/
theorem memory_of_effect {i : Instruction} {m : Machine} {e : Effect} (h : i.effect m = .ok e) :
    e.machine.memory = m.memory ∨
      ∃ bytes, e.machine.memory = m.memory.store m.registers.index bytes := by
  cases i with
  | storeDecimal x | dump x =>
    simp only [effect, bind_eq_ok_iff] at h
    obtain ⟨x, -, h⟩ := h
    cases h
    exact .inr ⟨_, rfl⟩
  | _ => exact .inl ((footprint_of_effect h).memory nofun nofun)

/-- The source moves on by one value for each random value taken. -/
theorem random_of_effect {i : Instruction} {m : Machine} {e : Effect} (h : i.effect m = .ok e) :
    ((∀ x mask, i ≠ random x mask) ∧ e.machine.random = m.random) ∨
      (∃ x mask, i = random x mask) ∧ e.machine.random = m.random.next.2 := by
  by_cases hi : ∃ x mask, i = random x mask
  · obtain ⟨x, mask, rfl⟩ := hi
    simp only [effect, bind_eq_ok_iff] at h
    obtain ⟨x, -, h⟩ := h
    cases h
    exact .inr ⟨⟨_, _, rfl⟩, rfl⟩
  · have hi : ∀ x mask, i ≠ random x mask := by
      rintro x mask rfl
      exact hi ⟨x, mask, rfl⟩
    exact .inl ⟨hi, (footprint_of_effect h).random hi⟩

/-- The screen, the key wait and the sound timer are signalled, each by its own instructions. -/
theorem signal_of_effect {i : Instruction} {m : Machine} {e : Effect} {s : Signal}
    (h : i.effect m = .ok e) (hs : e.signal = some s) :
    (s = .screenDirty ∧ (i = clearScreen ∨ ∃ x y n, i = draw x y n)) ∨
    (∃ x, s = .blockedOnKey x ∧ i = waitKey x) ∨
    (∃ edge x, s = .sound edge ∧ i = setSound x) := by
  cases i with
  | clearScreen =>
    cases h
    cases hs
    exact .inl ⟨rfl, .inl rfl⟩
  | waitKey x =>
    cases h
    cases hs
    exact .inr (.inl ⟨x, rfl, rfl⟩)
  | draw x y rows =>
    simp only [effect, bind_eq_ok_iff] at h
    obtain ⟨a, -, b, -, c, -, h⟩ := h
    cases h
    cases hs
    exact .inl ⟨rfl, .inr ⟨x, y, rows, rfl⟩⟩
  | setSound x =>
    simp only [effect, bind_eq_ok_iff] at h
    obtain ⟨a, -, h⟩ := h
    cases h
    obtain ⟨edge, -, rfl⟩ := Option.map_eq_some_iff.mp hs
    exact .inr (.inr ⟨edge, x, rfl, rfl⟩)
  | _ =>
    rw [(footprint_of_effect h).signal nofun nofun nofun nofun] at hs
    cases hs

def paints : Instruction → Bool
  | clearScreen | draw _ _ _ => true
  | _ => false

theorem signal_eq_screenDirty_iff {i : Instruction} {m : Machine} {e : Effect}
    (he : i.effect m = .ok e) : e.signal = some .screenDirty ↔ i.paints = true := by
  constructor
  · intro hs
    rcases signal_of_effect he hs with ⟨-, rfl | ⟨x, y, n, rfl⟩⟩ | ⟨x, hx, -⟩ | ⟨edge, x, hx, -⟩
    · rfl
    · rfl
    · cases hx
    · cases hx
  · intro hi
    cases i with
    | clearScreen =>
      cases he
      rfl
    | draw x y rows =>
      simp only [effect, bind_eq_ok_iff] at he
      obtain ⟨a, -, b, -, c, -, he⟩ := he
      cases he
      rfl
    | _ => cases hi

theorem screen_of_effect {i : Instruction} {m : Machine} {e : Effect} (he : i.effect m = .ok e)
    (hi : i.paints = false) : e.machine.screen = m.screen := by
  apply (footprint_of_effect he).screen
  · rintro rfl
    cases hi
  · rintro x y n rfl
    cases hi

/-- With operands that fit into a word, all instructions but calls and returns succeed. -/
theorem exists_effect {i : Instruction} {m : Machine} (hi : i.FitsWord)
    (hc : ∀ a, i ≠ call a) (hr : i ≠ ret) : ∃ e, i.effect m = .ok e := by
  cases i with
  | call a => exact absurd rfl (hc a)
  | ret => exact absurd rfl hr
  | clearScreen | sys a | jump a | setIndex a | waitKey x => exact ⟨_, rfl⟩
  | skipRegister test x y | combine op x y =>
    obtain ⟨hx, hy⟩ := hi
    simp only [effect, operand_of_lt hx, operand_of_lt hy]
    exact ⟨_, rfl⟩
  | shift direction x y =>
    obtain ⟨hx, hy⟩ := hi
    have hs : m.dialect.shiftSource x y < 16 := by
      unfold Dialect.shiftSource
      split <;> assumption
    simp only [effect, operand_of_lt hx, operand_of_lt hs]
    exact ⟨_, rfl⟩
  | jumpOffset a =>
    have ha : a.toNat < 4096 := hi
    have hx : m.dialect.offsetRegister a < 16 := by
      unfold Dialect.offsetRegister
      split <;> omega
    simp only [effect, operand_of_lt hx]
    exact ⟨_, rfl⟩
  | draw x y rows =>
    obtain ⟨hx, hy, hn⟩ := hi
    simp only [effect, operand_of_lt hx, operand_of_lt hy, operand_of_lt hn]
    exact ⟨_, rfl⟩
  | _ =>
    simp only [effect, operand_of_lt hi]
    exact ⟨_, rfl⟩

theorem effect_eq_error_iff {i : Instruction} {m : Machine} {stop : Stop} (hi : i.FitsWord) :
    i.effect m = .error stop ↔
      (i = ret ∧ m.stack.frames = [] ∧ stop = .fault .stackUnderflow) ∨
      (∃ a, i = call a ∧ 16 ≤ m.stack.depth ∧
        stop = .fault (.stackOverflow (m.registers.pc.advance 2))) := by
  by_cases hc : ∃ a, i = call a
  · obtain ⟨a, rfl⟩ := hc
    by_cases hd : m.stack.depth < 16
    · simp [effect_call_of_lt a hd, Nat.not_le_of_lt hd]
    · simp [effect_call_of_le a (Nat.le_of_not_lt hd), Nat.le_of_not_lt hd, eq_comm]
  rw [not_exists] at hc
  by_cases hr : i = ret
  · subst hr
    cases hf : m.stack.frames with
    | nil => simp [effect_ret_of_nil hf, eq_comm]
    | cons a rest => simp [effect_ret_of_cons hf]
  · obtain ⟨e, he⟩ := exists_effect (m := m) hi hc hr
    simp [he, hc, hr]

end Instruction

end Chip8
