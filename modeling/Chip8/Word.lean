/-!
Machine words: the fields of an instruction word and the arithmetic of addresses. Memory has 4096
cells, so an address counts modulo 4096 (`toNat_advance`, `cell_advance`).
-/

namespace Chip8

abbrev Byte := UInt8

/-- An instruction, an address, or what a sixteen-bit register holds. -/
abbrev Word := UInt16

namespace Word

/-- The high byte comes first. -/
def ofBytes (high low : Byte) : Word := UInt16.ofNat (256 * high.toNat + low.toNat)

def family (w : Word) : Nat := w.toNat / 4096

def x (w : Word) : Nat := w.toNat / 256 % 16

def y (w : Word) : Nat := w.toNat / 16 % 16

def n (w : Word) : Nat := w.toNat % 16

def nn (w : Word) : Byte := UInt8.ofNat w.toNat

def nnn (w : Word) : Word := w % 4096

/-- The address `k` cells on, round the end of memory. -/
def advance (a k : Word) : Word := (a + k) % 4096

/-- The memory cell an address names; the four high bits do not count. -/
def cell (a : Word) : Fin 4096 := ⟨a.toNat % 4096, Nat.mod_lt _ (by decide)⟩

theorem toNat_ofBytes (high low : Byte) :
    (ofBytes high low).toNat = 256 * high.toNat + low.toNat := by
  have := high.toNat_lt
  have := low.toNat_lt
  simp only [ofBytes, UInt16.toNat_ofNat']
  omega

theorem x_lt (w : Word) : x w < 16 := Nat.mod_lt _ (by decide)

theorem y_lt (w : Word) : y w < 16 := Nat.mod_lt _ (by decide)

theorem toNat_nn (w : Word) : (nn w).toNat = w.toNat % 256 := by simp [nn]

theorem toNat_nnn (w : Word) : (nnn w).toNat = w.toNat % 4096 := by simp [nnn, UInt16.toNat_mod]

theorem nnn_lt (w : Word) : (nnn w).toNat < 4096 := by
  rw [toNat_nnn]
  exact Nat.mod_lt _ (by decide)

theorem toNat_advance (a k : Word) : (advance a k).toNat = (a.toNat + k.toNat) % 4096 := by
  simp only [advance, UInt16.toNat_mod, UInt16.toNat_add, UInt16.reduceToNat]
  omega

theorem advance_lt (a k : Word) : (advance a k).toNat < 4096 := by
  rw [toNat_advance]
  exact Nat.mod_lt _ (by decide)

theorem advance_ne {k : Word} (a : Word) (h : 0 < k.toNat) (hk : k.toNat < 4096) :
    a.advance k ≠ a := by
  intro heq
  have hn := congrArg UInt16.toNat heq
  rw [toNat_advance] at hn
  omega

theorem val_cell (a : Word) : (cell a).val = a.toNat % 4096 := rfl

theorem cell_advance (a k : Word) : (cell (advance a k)).val = (a.toNat + k.toNat) % 4096 := by
  rw [val_cell, toNat_advance, Nat.mod_mod]

theorem cell_advance_ofNat (a : Word) (k : Nat) :
    (cell (advance a (UInt16.ofNat k))).val = (a.toNat + k) % 4096 := by
  rw [cell_advance, UInt16.toNat_ofNat']
  omega

theorem cell_advance_zero (a : Word) : cell (advance a 0) = cell a := by
  apply Fin.ext
  rw [cell_advance, val_cell]
  rfl

theorem cell_advance_one_advance (a : Word) (k : Nat) :
    cell (advance (advance a 1) (UInt16.ofNat k)) = cell (advance a (UInt16.ofNat (k + 1))) := by
  apply Fin.ext
  simp only [cell_advance_ofNat, toNat_advance, UInt16.reduceToNat]
  omega

/-- The number of a cell is an address of it. -/
theorem cell_ofNat (c : Fin 4096) : cell (UInt16.ofNat c.val) = c := by
  apply Fin.ext
  rw [val_cell, UInt16.toNat_ofNat']
  omega

end Word

end Chip8
