import Chip8.Proofs.Footprint
import Chip8.Proofs.Glyph
import Chip8.Proofs.History

/-!
Stores to memory and reads back from it. A window of cells can begin anywhere, go round the end of
memory and cross the font, where nothing is stored, so a dump and a restore undo each other cell by
cell (`read_store`, `store_block`). Main statement: `dump_restore_of_reachable`.
-/

namespace Chip8

/-- Every cell is reached from every address. -/
theorem Word.exists_cell_eq (a b : Word) : ∃ k < 4096, b.cell.val = (a.toNat + k) % 4096 := by
  refine ⟨(b.cell.val + 4096 - a.toNat % 4096) % 4096, Nat.mod_lt _ (by decide), ?_⟩
  have := b.cell.isLt
  omega

namespace Memory

/-- A store seen from the cell `k` places into its window, or past the end of it. -/
theorem read_store {bytes : List Byte} (h : bytes.length ≤ 4096) (m : Memory) {a b : Word} {k : Nat}
    (hk : k < 4096) (hb : b.cell.val = (a.toNat + k) % 4096) :
    (m.store a bytes).read b =
      if Font.Covers b.cell.val then m.read b else bytes[k]?.getD (m.read b) := by
  induction bytes generalizing m a k with
  | nil => simp [store]
  | cons v bytes ih =>
    have hlength : bytes.length < 4096 := h
    have hone : (a.advance 1).toNat = (a.toNat + 1) % 4096 := a.toNat_advance 1
    cases k with
    | zero =>
      -- for what is left to store, this cell is the last one before the window
      have hcell : a.cell = b.cell := Fin.ext (by rw [hb, Word.val_cell, Nat.add_zero])
      rw [store, ih (by omega) (m.write a v) (a := a.advance 1) (k := 4095) (by omega) (by omega),
        List.getElem?_eq_none (by omega), read_write]
      by_cases hf : Font.Covers b.cell.val
      · simp [hf]
      · simp [hf, hcell]
    | succ k =>
      have hne : a.cell ≠ b.cell := by
        intro heq
        have := congrArg Fin.val heq
        rw [hb, Word.val_cell] at this
        omega
      rw [store, ih (by omega) (m.write a v) (k := k) (by omega) (by omega), read_write,
        if_neg (show ¬ (a.cell = b.cell ∧ _) from fun hw => hne hw.1), List.getElem?_cons_succ]

/-- A store changes cells of its window only, and none of the font. -/
theorem window_of_read_store_ne {bytes : List Byte} (h : bytes.length ≤ 4096) {m : Memory}
    {a b : Word} (hne : (m.store a bytes).read b ≠ m.read b) :
    ¬ Font.Covers b.cell.val ∧ ∃ k < bytes.length, b.cell.val = (a.toNat + k) % 4096 := by
  obtain ⟨k, hk, hb⟩ := Word.exists_cell_eq a b
  rw [read_store h m hk hb] at hne
  by_cases hf : Font.Covers b.cell.val
  · exact absurd (if_pos hf) hne
  · rw [if_neg hf] at hne
    refine ⟨hf, k, ?_, hb⟩
    by_contra hge
    rw [List.getElem?_eq_none (Nat.le_of_not_lt hge)] at hne
    exact hne rfl

/-- What is there already can be stored again without a change. -/
theorem store_block (m : Memory) (a : Word) {n : Nat} (hn : n ≤ 4096) :
    m.store a (m.block a n) = m := by
  apply ext_read
  intro b
  obtain ⟨k, hk, hb⟩ := Word.exists_cell_eq a b
  have hcell : (a.advance (UInt16.ofNat k)).cell = b.cell :=
    Fin.ext ((a.cell_advance_ofNat k).trans hb.symm)
  rw [read_store (by rwa [length_block]) m hk hb, getElem?_block, m.read_congr hcell]
  by_cases hkn : k < n
  · simp [hkn]
  · simp [hkn]

end Memory

/-- The bytes that a dump stores. -/
theorem Registers.take_eq_ofFn (r : Registers) (x : Fin 16) :
    r.v.toList.take (x.val + 1) = List.ofFn fun k : Fin (x.val + 1) => r.get (k.castLE x.isLt) := by
  apply List.ext_getElem?
  intro k
  rw [List.getElem?_ofFn]
  by_cases hk : k < x.val + 1
  · rw [List.getElem?_take_of_lt hk, Vector.getElem?_toList,
      Vector.getElem?_eq_getElem (Nat.lt_of_lt_of_le hk x.isLt), dif_pos hk]
    rfl
  · rw [List.getElem?_take_eq_none (Nat.le_of_not_lt hk), dif_neg hk]

theorem Registers.take_setAll (r : Registers) {bytes : List Byte} {n : Nat}
    (hlength : bytes.length = n) (hn : n ≤ 16) : (r.setAll bytes).v.toList.take n = bytes := by
  apply List.ext_getElem?
  intro k
  by_cases hk : k < n
  · rw [List.getElem?_take_of_lt hk, Vector.getElem?_toList,
      Vector.getElem?_eq_getElem (Nat.lt_of_lt_of_le hk hn)]
    refine (congrArg some (r.get_setAll bytes ⟨k, Nat.lt_of_lt_of_le hk hn⟩)).trans ?_
    rw [List.getElem?_eq_getElem (by rwa [hlength]), Option.getD_some]
  · rw [List.getElem?_take_eq_none (Nat.le_of_not_lt hk), List.getElem?_eq_none (by omega)]

namespace Machine

theorem execute_dump (m : Machine) (x : Fin 16) :
    m.execute (.dump x.val) =
      { result := .ok ⟨m.registers.pc.advance 2, none⟩
        machine :=
          { m with
            memory := m.memory.store m.registers.index (m.registers.v.toList.take (x.val + 1))
            registers := { m.registers with pc := m.registers.pc.advance 2 } } } := by
  simp only [execute, Instruction.effect, operand_of_lt x.isLt]
  rfl

theorem execute_restore (m : Machine) (x : Fin 16) :
    let filled := m.registers.setAll (m.memory.block m.registers.index (x.val + 1))
    m.execute (.restore x.val) =
      { result := .ok ⟨m.registers.pc.advance 2, none⟩
        machine :=
          { m with registers := { filled with pc := m.registers.pc.advance 2 } } } := by
  simp only [execute, Instruction.effect, operand_of_lt x.isLt]
  rfl

/-- A restore takes the registers up to `x` from the cells from I on. -/
theorem get_execute_restore (m : Machine) (x k : Fin 16) :
    (m.execute (.restore x.val)).machine.registers.get k =
      if k ≤ x then m.memory.read (m.registers.index.advance (UInt16.ofNat k.val))
      else m.registers.get k := by
  rw [execute_restore]
  dsimp only
  rw [Registers.get_withPc, Registers.get_setAll, Memory.getElem?_block]
  by_cases hk : k ≤ x
  · rw [if_pos hk, if_pos (Nat.lt_succ_of_le hk), Option.getD_some]
  · rw [if_neg hk, if_neg (fun h => hk (Nat.le_of_lt_succ h)), Option.getD_none]

/-- A dump leaves in each cell of its window the register that belongs there, but for the font. -/
theorem read_execute_dump (m : Machine) {x k : Fin 16} (hk : k ≤ x) :
    let cell := m.registers.index.advance (UInt16.ofNat k.val)
    (m.execute (.dump x.val)).machine.memory.read cell =
      if Font.Covers cell.cell.val then m.memory.read cell else m.registers.get k := by
  intro cell
  have hcell : cell.cell.val = (m.registers.index.toNat + k.val) % 4096 :=
    m.registers.index.cell_advance_ofNat k.val
  rw [execute_dump, Registers.take_eq_ofFn, Memory.read_store (by rw [List.length_ofFn]; omega)
    m.memory (k := k.val) (by omega) hcell, List.getElem?_ofFn, dif_pos (Nat.lt_succ_of_le hk)]
  rfl

/-- Registers that a restore has filled are dumped to where they came from. -/
theorem memory_restore_dump (m : Machine) (x : Fin 16) :
    ((m.execute (.restore x.val)).machine.execute (.dump x.val)).machine.memory = m.memory := by
  rw [execute_dump, execute_restore]
  dsimp only
  rw [m.registers.index_setAll,
    m.registers.take_setAll (Memory.length_block _ _ (x.val + 1)) x.isLt]
  exact m.memory.store_block _ (by omega)

theorem Reachable.fontIntact {m : Machine} (h : m.Reachable) : m.memory.FontIntact := by
  induction h with
  | fresh dialect random => exact Memory.fontIntact_blank
  | perform _ _ ih => exact (performs_perform _ _).fontIntact ih

/-- What comes back into a register from a dump that reached as far: its own value, or the byte of
the font that the dump could not replace. -/
theorem get_dump_restore {m : Machine} (h : m.memory.FontIntact) {x y k : Fin 16} (hyx : y ≤ x)
    (hk : k ≤ y) :
    let cell := (m.registers.index.toNat + k.val) % 4096
    ((m.execute (.dump x.val)).machine.execute (.restore y.val)).machine.registers.get k =
      if Font.Covers cell then Font.byteAt cell else m.registers.get k := by
  intro cell
  have hindex : (m.execute (.dump x.val)).machine.registers.index = m.registers.index := by
    rw [execute_dump]
  have hcell : (m.registers.index.advance (UInt16.ofNat k.val)).cell.val = cell :=
    m.registers.index.cell_advance_ofNat k.val
  rw [get_execute_restore, if_pos hk, hindex, read_execute_dump m (Nat.le_trans hk hyx), hcell]
  by_cases hf : Font.Covers cell
  · rw [if_pos hf, if_pos hf, h _ (by rwa [hcell]), hcell]
  · rw [if_neg hf, if_neg hf]

def pointedAt (m : Machine) (index : Word) : Machine :=
  { m with registers := { m.registers with index := index } }

/-- A dump and a restore of no more registers give each of them back, but for those whose cells lie
in the font. A restore and a dump of as many leave memory as it was. -/
theorem dump_restore_of_reachable {m : Machine} (h : m.Reachable) (index : Word) {x y : Fin 16}
    (hyx : y ≤ x) :
    let dumped := (m.pointedAt index).execute (.dump x.val)
    let back := dumped.machine.execute (.restore y.val)
    let filled := (m.pointedAt index).execute (.restore x.val)
    let again := filled.machine.execute (.dump x.val)
    ((∃ s, dumped.result = .ok s) ∧ (∃ s, back.result = .ok s) ∧
      back.machine.registers.index = index ∧
      (∀ k, y < k → back.machine.registers.get k = m.registers.get k) ∧
      ∀ k ≤ y, back.machine.registers.get k =
        if Font.Covers ((index.toNat + k.val) % 4096) then
          Font.byteAt ((index.toNat + k.val) % 4096)
        else m.registers.get k) ∧
    (∃ s, filled.result = .ok s) ∧ (∃ s, again.result = .ok s) ∧
      ∀ c : Fin 4096, again.machine.memory.cells[c] = m.memory.cells[c] := by
  intro dumped back filled again
  have hdumped : dumped = _ := (m.pointedAt index).execute_dump x
  have hback : back = _ := dumped.machine.execute_restore y
  have hfilled : filled = _ := (m.pointedAt index).execute_restore x
  have hagain : again = _ := filled.machine.execute_dump x
  refine ⟨⟨⟨_, by rw [hdumped]⟩, ⟨_, by rw [hback]⟩, ?_, ?_, ?_⟩, ⟨_, by rw [hfilled]⟩,
    ⟨_, by rw [hagain]⟩, ?_⟩
  · rw [hback, hdumped]
    rfl
  · intro k hk
    refine (get_execute_restore dumped.machine y k).trans ?_
    rw [if_neg (Fin.not_le.mpr hk), hdumped]
    rfl
  · intro k hk
    exact get_dump_restore (m := m.pointedAt index) h.fontIntact hyx hk
  · intro c
    have hmemory : again.machine.memory = m.memory := (m.pointedAt index).memory_restore_dump x
    rw [hmemory]

/-- The second of three registers falls on the first cell of the font, so the top row of the glyph
of zero comes back in its place. -/
theorem dump_restore_at_font_edge :
    let m := (fresh {} (.ofSeed 8)).performAll
      [.execute (.setByte 0 0x11), .execute (.setByte 1 0x22), .execute (.setByte 2 0x33)]
    let dumped := (m.pointedAt 0x04F).execute (.dump 2)
    let back := dumped.machine.execute (.restore 1)
    let again := ((m.pointedAt 0x04F).execute (.restore 2)).machine.execute (.dump 2)
    m.Reachable ∧ (1 : Fin 16) ≤ 2 ∧ back.machine.registers.get 0 = 0x11 ∧
      back.machine.registers.get 1 = 0xF0 ∧ back.machine.registers.get 2 = 0x33 ∧
      ∀ a, again.machine.memory.read a = m.memory.read a := by
  intro m dumped back again
  have hreachable : m.Reachable := by
    apply (Reachable.fresh {} (.ofSeed 8)).performAll
    rw [List.forall_mem_cons, List.forall_mem_cons, List.forall_mem_singleton]
    exact ⟨⟨0x6011, rfl⟩, ⟨0x6122, rfl⟩, ⟨0x6233, rfl⟩⟩
  have hle : (1 : Fin 16) ≤ 2 := by decide
  obtain ⟨⟨-, -, -, hothers, hget⟩, -, -, hmemory⟩ :=
    dump_restore_of_reachable hreachable 0x04F (x := 2) (y := 1) hle
  exact ⟨hreachable, hle, hget 0 (by decide), hget 1 (by decide), hothers 2 (by decide),
    fun a => hmemory a.cell⟩

end Machine

end Chip8
