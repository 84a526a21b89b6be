import Chip8.Proofs.Arithmetic
import Chip8.Proofs.Stores
import Mathlib.Data.Fin.VecNotation

/-!
The two store instructions: the dump of the first registers and the store of a byte in decimal. Both
put bytes into the cells from I on, round the end of memory, except where the font is, and do
nothing else. Main statement: `stores_from_index`.
-/

namespace Chip8

theorem decimalDigits_eq (b : Byte) :
    decimalDigits b = List.ofFn ![b / 100, b / 10 % 10, b % 10] := rfl

/-- The three digits make up the byte. -/
theorem decimal_sum (b : Byte) :
    (b / 100).toNat ≤ 9 ∧ (b / 10 % 10).toNat ≤ 9 ∧ (b % 10).toNat ≤ 9 ∧
      100 * (b / 100).toNat + 10 * (b / 10 % 10).toNat + (b % 10).toNat = b.toNat := by
  have := b.toNat_lt
  simp only [UInt8.toNat_div, UInt8.toNat_mod, UInt8.reduceToNat]
  omega

namespace Machine

/-- The bytes are put into the cells from I on, round the end of memory, and the font keeps its
cells. -/
structure StoresFrom (m : Machine) {n : Nat} (byte : Fin n → Byte) (done : Reply Step) : Prop where
  result : done.result = .ok ⟨m.registers.pc.advance 2, none⟩
  stored : ∀ (k : Fin n) (a : Word), a.cell.val = (m.registers.index.toNat + k.val) % 4096 →
    ¬ Font.Covers a.cell.val → done.machine.memory.read a = byte k
  others : ∀ a : Word,
    (Font.Covers a.cell.val ∨ ∀ k : Fin n, a.cell.val ≠ (m.registers.index.toNat + k.val) % 4096) →
    done.machine.memory.read a = m.memory.read a
  /-- Only memory and the program counter are not what they were. -/
  frame : done.machine =
    { m with
      memory := done.machine.memory
      registers := { m.registers with pc := m.registers.pc.advance 2 } }

def replyOfStore (m : Machine) (bytes : List Byte) : Reply Step where
  result := .ok ⟨m.registers.pc.advance 2, none⟩
  machine :=
    { m with
      memory := m.memory.store m.registers.index bytes
      registers := { m.registers with pc := m.registers.pc.advance 2 } }

theorem execute_storeDecimal (m : Machine) (x : Fin 16) :
    m.execute (.storeDecimal x.val) = m.replyOfStore (decimalDigits (m.registers.get x)) := by
  simp only [execute, Instruction.effect, operand_of_lt x.isLt]
  rfl

theorem storesFrom_replyOfStore (m : Machine) {n : Nat} (hn : n ≤ 4096) (byte : Fin n → Byte) :
    m.StoresFrom byte (m.replyOfStore (List.ofFn byte)) := by
  have hlength : (List.ofFn byte).length ≤ 4096 := by rwa [List.length_ofFn]
  constructor
  case result => rfl
  case stored =>
    intro k a ha hfont
    show (m.memory.store m.registers.index (List.ofFn byte)).read a = byte k
    rw [Memory.read_store hlength m.memory (k := k.val) (by omega) ha, if_neg hfont,
      List.getElem?_ofFn, dif_pos k.isLt]
    rfl
  case others =>
    intro a ha
    show (m.memory.store m.registers.index (List.ofFn byte)).read a = m.memory.read a
    by_contra hne
    obtain ⟨hfont, k, hk, hwindow⟩ := Memory.window_of_read_store_ne hlength hne
    rw [List.length_ofFn] at hk
    rcases ha with ha | ha
    · exact hfont ha
    · exact ha ⟨k, hk⟩ hwindow
  case frame => rfl

theorem result_execute_restore (m : Machine) (x : Fin 16) :
    (m.execute (.restore x.val)).result = .ok ⟨m.registers.pc.advance 2, none⟩ := by
  rw [execute_restore]

theorem storesFrom_dump (m : Machine) (x : Fin 16) :
    m.StoresFrom (fun k : Fin (x.val + 1) => m.registers.get (k.castLE x.isLt))
      (m.execute (.dump x.val)) := by
  rw [execute_dump, Registers.take_eq_ofFn]
  exact m.storesFrom_replyOfStore (by omega) _

theorem storesFrom_storeDecimal (m : Machine) (x : Fin 16) :
    let value := m.registers.get x
    m.StoresFrom ![value / 100, value / 10 % 10, value % 10] (m.execute (.storeDecimal x.val)) := by
  rw [execute_storeDecimal, decimalDigits_eq]
  exact m.storesFrom_replyOfStore (by decide) _

/-- What has been stored is restored, except where the font is. -/
theorem StoresFrom.get_restore {m : Machine} {n : Nat} {byte : Fin n → Byte} {done : Reply Step}
    (h : m.StoresFrom byte done) (x : Fin 16) (k : Fin n) (hk : k.val ≤ x.val)
    (hfont : ¬ Font.Covers ((m.registers.index.toNat + k.val) % 4096)) :
    (done.machine.execute (.restore x.val)).machine.registers.get
      ⟨k.val, Nat.lt_of_le_of_lt hk x.isLt⟩ = byte k := by
  have hindex : done.machine.registers.index = m.registers.index := by rw [h.frame]
  have hcell := m.registers.index.cell_advance_ofNat k.val
  rw [get_execute_restore, if_pos (Fin.mk_le_of_le_val hk), hindex]
  exact h.stored k _ hcell (by rwa [hcell])

/-- The two stores, whatever the machine. The dump puts V0 to VX into the cells from I on, and the
other one the three digits of VX, so that V0 to V2 can be filled with them again. -/
theorem stores_from_index (m : Machine) (x : Fin 16) :
    let word (n : Nat) : Word := UInt16.ofNat (0xF000 + 256 * x.val + n)
    let value := (m.registers.get x).toNat
    m.Obeys (word 0x55)
      (m.StoresFrom fun k : Fin (x.val + 1) => m.registers.get (k.castLE x.isLt)) ∧
    ∃ hundreds tens ones : Byte,
      hundreds.toNat ≤ 9 ∧ tens.toNat ≤ 9 ∧ ones.toNat ≤ 9 ∧
      100 * hundreds.toNat + 10 * tens.toNat + ones.toNat = value ∧
      m.Obeys (word 0x33) fun done =>
        m.StoresFrom ![hundreds, tens, ones] done ∧
        ((∀ k < 3, ¬ Font.Covers ((m.registers.index.toNat + k) % 4096)) →
          done.machine.Obeys 0xF265 fun back =>
            let v (k : Fin 16) := (back.machine.registers.get k).toNat
            (∃ step, back.result = .ok step) ∧ 100 * v 0 + 10 * v 1 + v 2 = value) := by
  intro word value
  obtain ⟨hhundreds, htens, hones, hsum⟩ := decimal_sum (m.registers.get x)
  have hstores := m.storesFrom_storeDecimal x
  refine ⟨obeys_toWord (.dump x.val) x.isLt (m.storesFrom_dump x), _, _, _, hhundreds, htens, hones,
    hsum, obeys_toWord (.storeDecimal x.val) x.isLt ⟨hstores, ?_⟩⟩
  intro hfont
  have hback : (Instruction.restore 2).FitsWord := (2 : Fin 16).isLt
  refine obeys_toWord (.restore 2) hback ⟨⟨_, result_execute_restore _ 2⟩, ?_⟩
  let back := (m.execute (.storeDecimal x.val)).machine.execute (.restore 2)
  have h0 : back.machine.registers.get 0 = m.registers.get x / 100 :=
    hstores.get_restore 2 0 (by decide) (hfont 0 (by decide))
  have h1 : back.machine.registers.get 1 = m.registers.get x / 10 % 10 :=
    hstores.get_restore 2 1 (by decide) (hfont 1 (by decide))
  have h2 : back.machine.registers.get 2 = m.registers.get x % 10 :=
    hstores.get_restore 2 2 (by decide) (hfont 2 (by decide))
  rw [← h0, ← h1, ← h2] at hsum
  exact hsum

/-- The digits of 254 go round the end of memory and come back. -/
theorem stores_from_last_cell :
    let m := (fresh {} (.ofSeed 8)).performAll
      [.execute (.setByte 1 254), .execute (.setIndex 0xFFF)]
    (∀ k < 3, ¬ Font.Covers ((m.registers.index.toNat + k) % 4096)) ∧
      m.Obeys 0xF133 fun done =>
        done.machine.memory.read 0xFFF = 2 ∧ done.machine.memory.read 0x000 = 5 ∧
        done.machine.memory.read 0x001 = 4 ∧
        done.machine.Obeys 0xF265 fun back =>
          let v (k : Fin 16) := (back.machine.registers.get k).toNat
          100 * v 0 + 10 * v 1 + v 2 = 254 := by
  intro m
  have hindex : m.registers.index = 0xFFF := rfl
  have hvalue : (m.registers.get 1).toNat = 254 := rfl
  -- the rest needs no more of the machine, and must not compute its memory
  clear_value m
  have hfont : ∀ k < 3, ¬ Font.Covers ((m.registers.index.toNat + k) % 4096) := by
    rw [hindex]
    decide
  obtain ⟨-, hundreds, tens, ones, hh, ht, ho, hsum, i, hi, hstores, hback⟩ := m.stores_from_index 1
  rw [hvalue] at hsum hback
  have hplace (k : Fin 3) (a : Word) (ha : a.cell.val = ((0xFFF : Word).toNat + k.val) % 4096)
      (hoff : ¬ Font.Covers a.cell.val) :
      (m.execute i).machine.memory.read a = ![hundreds, tens, ones] k :=
    hstores.stored k a (by rw [hindex]; exact ha) hoff
  refine ⟨hfont, i, hi, ?_, ?_, ?_, ?_⟩
  · rw [hplace 0 0xFFF rfl (by decide), ← UInt8.toNat_inj]
    show hundreds.toNat = 2
    omega
  · rw [hplace 1 0x000 rfl (by decide), ← UInt8.toNat_inj]
    show tens.toNat = 5
    omega
  · rw [hplace 2 0x001 rfl (by decide), ← UInt8.toNat_inj]
    show ones.toNat = 4
    omega
  · obtain ⟨j, hj, -, hreading⟩ := hback hfont
    exact ⟨j, hj, hreading⟩

end Machine

end Chip8
