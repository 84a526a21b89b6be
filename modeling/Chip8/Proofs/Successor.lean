import Chip8.Proofs.Footprint
import Chip8.Proofs.History
import Chip8.Proofs.Stores

/-!
Where a machine goes on after a step, read off the word it has fetched: to the address that a jump
names, to the return address, past the next instruction or to it, always round the end of memory.
Main statement: `successor_of_step`.
-/

namespace Chip8

namespace Instruction

def Sequential : Instruction → Prop
  | jump _ | call _ | ret | jumpOffset _ | waitKey _ | skipByte _ _ _ | skipRegister _ _ _
  | skipKey _ _ => False
  | _ => True

theorem flow_of_sequential {i : Instruction} {m : Machine} {e : Effect} (hi : i.Sequential)
    (h : i.effect m = .ok e) : e.flow = .next := by
  cases i with
  | jump a | call a | ret | jumpOffset a | waitKey x | skipByte test x b | skipRegister test x y
  | skipKey held x => exact hi.elim
  | clearScreen | sys a | setIndex a =>
    cases h
    rfl
  | combine op x y | shift direction x y =>
    simp only [effect, bind_eq_ok_iff] at h
    obtain ⟨a, -, b, -, h⟩ := h
    cases h
    rfl
  | draw x y rows =>
    simp only [effect, bind_eq_ok_iff] at h
    obtain ⟨a, -, b, -, c, -, h⟩ := h
    cases h
    rfl
  | _ =>
    simp only [effect, bind_eq_ok_iff] at h
    obtain ⟨a, -, h⟩ := h
    cases h
    rfl

def Skips : Instruction → Prop
  | skipByte _ _ _ | skipRegister _ _ _ | skipKey _ _ => True
  | _ => False

end Instruction

/-- The low digit of a byte names a key. -/
theorem Keypad.isPressed_iff_held (p : Keypad) (b : Byte) :
    p.isPressed (b % 16) = true ↔ p.Held ⟨b.toNat % 16, Nat.mod_lt _ (by decide)⟩ := by
  have hb : (b % 16).toNat = b.toNat % 16 := UInt8.toNat_mod b 16
  have hlt : b.toNat % 16 < 16 := Nat.mod_lt _ (by decide)
  rw [isPressed, hb, Vector.getElem?_eq_getElem hlt]
  rfl

namespace Machine

def vx (m : Machine) (w : Word) : Byte := m.registers.get ⟨w.x, w.x_lt⟩

def vy (m : Machine) (w : Word) : Byte := m.registers.get ⟨w.y, w.y_lt⟩

/-- The word is one of the six skips, and what it asks of the registers or the keys is so. -/
def TakesSkip (m : Machine) (w : Word) : Prop :=
  match w.family with
  | 0x3 => m.vx w = w.nn
  | 0x4 => m.vx w ≠ w.nn
  | 0x5 => w.n = 0 ∧ m.vx w = m.vy w
  | 0x9 => w.n = 0 ∧ m.vx w ≠ m.vy w
  | 0xE =>
    let key : Fin 16 := ⟨(m.vx w).toNat % 16, Nat.mod_lt _ (by decide)⟩
    (w.nn = 0x9E ∧ m.keypad.Held key) ∨ (w.nn = 0xA1 ∧ ¬ m.keypad.Held key)
  | _ => False

/-- Where a word leads. Each word is of one kind only: a jump or a call, a return, an offset jump,
a key wait, a skip that is taken, or another. -/
structure Successor (m : Machine) (w next : Word) : Prop where
  jump : w.family = 0x1 ∨ w.family = 0x2 → next = w.nnn
  ret : w = 0x00EE → ∃ rest, m.stack.frames = next :: rest
  offset : w.family = 0xB → next.toNat =
    (w.nnn.toNat + (if m.dialect.jumpUsesVx then m.vx w else m.registers.get 0).toNat) % 4096
  wait : w.family = 0xF → w.nn = 0x0A → next = m.registers.pc
  skip : m.TakesSkip w → next.toNat = (m.registers.pc.toNat + 4) % 4096
  other : w.family ≠ 0x1 → w.family ≠ 0x2 → w ≠ 0x00EE → w.family ≠ 0xB →
    (w.family = 0xF → w.nn ≠ 0x0A) → ¬ m.TakesSkip w →
    next.toNat = (m.registers.pc.toNat + 2) % 4096

variable {m : Machine} {w : Word} {i : Instruction} {e : Effect}

theorem TakesSkip.skips (h : m.TakesSkip w) (hi : Instruction.ofWord? w = some i) : i.Skips := by
  unfold TakesSkip at h
  split at h
  case h_1 hf | h_2 hf =>
    simp only [Instruction.ofWord?, hf, Option.some.injEq] at hi
    subst hi
    trivial
  case h_3 hf | h_4 hf =>
    simp only [Instruction.ofWord?, hf, h.1, if_true, Option.some.injEq] at hi
    subst hi
    trivial
  case h_5 hf =>
    rcases h with ⟨hn, -⟩ | ⟨hn, -⟩
    · simp [Instruction.ofWord?, Instruction.ofKeyByte?, hf, hn] at hi
      subst hi
      trivial
    · simp [Instruction.ofWord?, Instruction.ofKeyByte?, hf, hn] at hi
      subst hi
      trivial
  case h_6 => exact h.elim

/-- A skip is taken if what its word asks is so. -/
theorem flow_of_skips (hi : Instruction.ofWord? w = some i) (hs : i.Skips)
    (he : i.effect m = .ok e) : ∃ c, e.flow = .skipIf c ∧ (c = true ↔ m.TakesSkip w) := by
  obtain ⟨hfits, hcode⟩ := Instruction.fitsWord_and_code_of_ofWord? hi
  cases i with
  | skipByte test x b =>
    cases test with
    | equal | different =>
      obtain ⟨hf, rfl, hb⟩ := Instruction.fields_of_byteForm hfits b.toNat_lt hcode
      obtain rfl : w.nn = b := UInt8.toNat_inj.mp hb
      simp only [Instruction.effect, operand_of_lt w.x_lt] at he
      cases he
      exact ⟨_, rfl, by simp [TakesSkip, hf, vx, Comparison.holds]⟩
  | skipRegister test x y =>
    cases test with
    | equal | different =>
      obtain ⟨hf, rfl, rfl, hn⟩ :=
        Instruction.fields_of_pairForm hfits.1 hfits.2 (by decide) hcode
      simp only [Instruction.effect, operand_of_lt w.x_lt, operand_of_lt w.y_lt] at he
      cases he
      exact ⟨_, rfl, by simp [TakesSkip, hf, hn, vx, vy, Comparison.holds]⟩
  | skipKey held x =>
    cases held with
    | true | false =>
      obtain ⟨hf, rfl, hn⟩ := Instruction.fields_of_byteForm hfits (by decide) hcode
      simp only [Instruction.effect, operand_of_lt w.x_lt] at he
      cases he
      exact ⟨_, rfl, by
        simp [TakesSkip, hf, ← UInt8.toNat_inj, hn, vx, ← Keypad.isPressed_iff_held]⟩
  | _ => exact hs.elim

theorem flow_of_jump (hf : w.family = 0x1 ∨ w.family = 0x2)
    (hi : Instruction.ofWord? w = some i) (he : i.effect m = .ok e) : e.flow = .goto w.nnn := by
  rcases hf with hf | hf
  · simp only [Instruction.ofWord?, hf, Option.some.injEq] at hi
    subst hi
    cases he
    rfl
  · simp only [Instruction.ofWord?, hf, Option.some.injEq] at hi
    subst hi
    simp only [Instruction.effect, bind_eq_ok_iff] at he
    obtain ⟨stack, -, he⟩ := he
    cases he
    rfl

theorem flow_of_ret (hw : w = 0x00EE) (hi : Instruction.ofWord? w = some i)
    (he : i.effect m = .ok e) : ∃ a rest, e.flow = .goto a ∧ m.stack.frames = a :: rest := by
  subst hw
  obtain rfl : .ret = i := Option.some.inj hi
  obtain ⟨a, hg, hf⟩ := Instruction.frames_of_effect_ret he
  exact ⟨a, _, hg, hf⟩

theorem flow_of_offset (hf : w.family = 0xB) (hi : Instruction.ofWord? w = some i)
    (he : i.effect m = .ok e) :
    let offset := if m.dialect.jumpUsesVx then m.vx w else m.registers.get 0
    e.flow = .goto (w.nnn.advance offset.toUInt16) := by
  simp only [Instruction.ofWord?, hf, Option.some.injEq] at hi
  subst hi
  have hx : w.nnn.toNat / 256 = w.x := by
    rw [Word.toNat_nnn, Word.x]
    omega
  cases hd : m.dialect.jumpUsesVx with
  | false =>
    simp only [Instruction.effect, Dialect.offsetRegister, hd] at he
    cases he
    rfl
  | true =>
    simp only [Instruction.effect, Dialect.offsetRegister, hd, if_true, hx,
      operand_of_lt w.x_lt] at he
    cases he
    rfl

theorem flow_of_wait (hf : w.family = 0xF) (hn : w.nn = 0x0A)
    (hi : Instruction.ofWord? w = some i) (he : i.effect m = .ok e) : e.flow = .stay := by
  simp [Instruction.ofWord?, Instruction.ofDeviceByte?, hf, hn] at hi
  subst hi
  cases he
  rfl

/-- A word that is not one of those that lead elsewhere stands for an instruction that goes on. -/
theorem sequential_of_ofWord? (hi : Instruction.ofWord? w = some i) (h1 : w.family ≠ 0x1)
    (h2 : w.family ≠ 0x2) (hret : w ≠ 0x00EE) (hB : w.family ≠ 0xB)
    (hwait : w.family = 0xF → w.nn ≠ 0x0A) : i.Sequential ∨ i.Skips := by
  obtain ⟨hfits, hcode⟩ := Instruction.fitsWord_and_code_of_ofWord? hi
  cases i with
  | jump a => exact absurd (Instruction.fields_of_addressForm hfits hcode).1 h1
  | call a => exact absurd (Instruction.fields_of_addressForm hfits hcode).1 h2
  | jumpOffset a => exact absurd (Instruction.fields_of_addressForm hfits hcode).1 hB
  | ret => exact absurd (UInt16.toNat_inj.mp hcode.symm) hret
  | waitKey x =>
    obtain ⟨hf, -, hn⟩ := Instruction.fields_of_byteForm hfits (by decide) hcode
    exact absurd (UInt8.toNat_inj.mp hn) (hwait hf)
  | skipByte test x b | skipRegister test x y | skipKey held x => exact .inr trivial
  | _ => exact .inl trivial

theorem successor_of_effect (hi : Instruction.ofWord? w = some i) (he : i.effect m = .ok e) :
    m.Successor w (e.flow.target m.registers.pc) := by
  constructor
  case jump =>
    intro hf
    rw [flow_of_jump hf hi he]
    rfl
  case ret =>
    intro hw
    obtain ⟨a, rest, hg, hs⟩ := flow_of_ret hw hi he
    rw [hg]
    exact ⟨rest, hs⟩
  case offset =>
    intro hf
    rw [flow_of_offset hf hi he]
    exact Word.toNat_advance _ _
  case wait =>
    intro hf hn
    rw [flow_of_wait hf hn hi he]
    rfl
  case skip =>
    intro hskip
    obtain ⟨c, hc, hiff⟩ := flow_of_skips hi (hskip.skips hi) he
    rw [hc, hiff.mpr hskip]
    exact Word.toNat_advance _ _
  case other =>
    intro h1 h2 hret hB hwait hskip
    rcases sequential_of_ofWord? hi h1 h2 hret hB hwait with hs | hs
    · rw [Instruction.flow_of_sequential hs he]
      exact Word.toNat_advance _ _
    · obtain ⟨c, hc, hiff⟩ := flow_of_skips hi hs he
      rw [hc, Bool.eq_false_iff.mpr (mt hiff.mp hskip)]
      exact Word.toNat_advance _ _

/-- A step succeeds unless it returns from nowhere or calls too deep. -/
theorem exists_result_step (hw : m.waiting = none) (hi : Instruction.decode m.fetch = .ok i)
    (hret : m.fetch = 0x00EE → m.stack.frames ≠ [])
    (hcall : m.fetch.family = 0x2 → m.stack.depth < 16) : ∃ s, m.step.result = .ok s := by
  rcases hs : m.step.result with stop | s
  · rw [result_step_of_decode hw hi, result_execute_eq_error_iff,
      Instruction.effect_eq_error_iff (Instruction.decode_eq_ok_iff.mp hi).1] at hs
    rcases hs with ⟨rfl, hempty, -⟩ | ⟨a, rfl, hfull, -⟩
    · exact absurd hempty (hret (Instruction.decode_eq_ok_ret_iff.mp hi))
    · have hfamily : m.fetch.family = 0x2 := Instruction.exists_decode_eq_ok_call_iff.mp ⟨a, hi⟩
      exact absurd (hcall hfamily) (Nat.not_lt_of_le hfull)
  · exact ⟨s, rfl⟩

/-- A step of a machine that waits for no key, at a word that stands for an instruction: it succeeds
unless it returns from nowhere or calls too deep, and then the machine goes on where the word leads
and says so. -/
theorem successor_of_step {m : Machine} {i : Instruction} (hw : m.waiting = none)
    (hi : Instruction.decode m.fetch = .ok i) :
    ((m.fetch = 0x00EE → m.stack.frames ≠ []) → (m.fetch.family = 0x2 → m.stack.depth < 16) →
      ∃ s, m.step.result = .ok s) ∧
    ∀ s, m.step.result = .ok s →
      m.step.machine.registers.pc = s.nextPc ∧ m.Successor m.fetch s.nextPc := by
  refine ⟨exists_result_step hw hi, ?_⟩
  intro s hs
  obtain ⟨e, he, rfl, hm⟩ := exists_effect_of_step hw hi hs
  have hword : Instruction.ofWord? m.fetch = some i :=
    Instruction.ofWord?_eq_some_iff.mpr (Instruction.decode_eq_ok_iff.mp hi)
  rw [hm]
  exact ⟨rfl, successor_of_effect hword he⟩

/-- The last word of memory is a skip, which two different registers make it take. It leads past the
first word of memory. -/
theorem successor_of_last_skip :
    let m := (fresh {} (.ofSeed 8)).performAll
      [.execute (.setByte 0 0x90), .execute (.setByte 1 0x10), .execute (.setIndex 0xFFE),
        .execute (.dump 1), .execute (.jump 0xFFE)]
    m.waiting = none ∧ Instruction.decode m.fetch = .ok (.skipRegister .different 0 1) ∧
      m.TakesSkip m.fetch ∧
      ∃ s, m.step.result = .ok s ∧ s.nextPc = 0x002 ∧ m.step.machine.registers.pc = 0x002 := by
  intro m
  have hw : m.waiting = none := rfl
  have hpc : m.registers.pc = 0xFFE := rfl
  have h0 : m.registers.get 0 = 0x90 := rfl
  have h1 : m.registers.get 1 = 0x10 := rfl
  have hmemory : m.memory = Memory.blank.store 0xFFE [0x90, 0x10] := rfl
  -- the rest needs no more of the machine, and must not compute its memory
  clear_value m
  have hfetch : m.fetch = 0x9010 := by
    rw [fetch, hpc, hmemory, Memory.readWord,
      Memory.read_store (by decide) _ (k := 0) (by decide) rfl,
      Memory.read_store (by decide) _ (k := 1) (by decide) rfl]
    rfl
  have hi : Instruction.decode m.fetch = .ok (.skipRegister .different 0 1) := by
    rw [hfetch]
    rfl
  have hskip : m.TakesSkip m.fetch := by
    rw [hfetch]
    show (0 : Nat) = 0 ∧ m.registers.get 0 ≠ m.registers.get 1
    rw [h0, h1]
    decide
  obtain ⟨hsucceeds, hlaw⟩ := successor_of_step hw hi
  have hret : m.fetch ≠ 0x00EE := by
    rw [hfetch]
    decide
  have hcall : m.fetch.family ≠ 0x2 := by
    rw [hfetch]
    decide
  obtain ⟨s, hs⟩ := hsucceeds (fun h => absurd h hret) (fun h => absurd h hcall)
  obtain ⟨hm, hsuccessor⟩ := hlaw s hs
  have hnext : s.nextPc = 0x002 := by
    apply UInt16.toNat_inj.mp
    rw [hsuccessor.skip hskip, hpc]
    rfl
  exact ⟨hw, hi, hskip, s, hs, hnext, hm.trans hnext⟩

end Machine

end Chip8
