import Chip8.Memory
import Mathlib.Data.List.Induction

/-!
Memory after any number of writes. Sixteen addresses name the same cell, and a cell shows the last
write to it, through whichever of them, unless the font is there (`read_writeAll`). Main statement:
`writes_by_cell`, so that only the order of writes to one cell counts.
-/

namespace Chip8

/-- Two addresses name the same cell if they differ by a multiple of the size of memory. -/
theorem Word.cell_eq_iff {a b : Word} : a.cell = b.cell ↔ a.toNat % 4096 = b.toNat % 4096 :=
  Fin.ext_iff

namespace Memory

structure Write where
  address : Word
  value : Byte
deriving DecidableEq, Repr

def writeAll (m : Memory) (writes : List Write) : Memory :=
  writes.foldl (fun m w => m.write w.address w.value) m

def writesTo (cell : Fin 4096) (writes : List Write) : List Write :=
  writes.filter fun w => w.address.cell = cell

/-- The same writes, with those to any one cell in the same order. -/
def Reorders (writes others : List Write) : Prop :=
  ∀ cell, writesTo cell writes = writesTo cell others

variable {m : Memory} {writes others : List Write}

theorem writeAll_concat (m : Memory) (writes : List Write) (w : Write) :
    m.writeAll (writes ++ [w]) = (m.writeAll writes).write w.address w.value := by
  simp [writeAll]

theorem writesTo_concat_of_eq {cell : Fin 4096} {w : Write} (h : w.address.cell = cell) :
    writesTo cell (writes ++ [w]) = writesTo cell writes ++ [w] := by
  simp [writesTo, h]

theorem writesTo_concat_of_ne {cell : Fin 4096} {w : Write} (h : w.address.cell ≠ cell) :
    writesTo cell (writes ++ [w]) = writesTo cell writes := by
  simp [writesTo, h]

theorem getLast?_writesTo (b : Word) (writes : List Write) :
    (writesTo b.cell writes).getLast? =
      writes.findRev? fun w => w.address.toNat % 4096 = b.toNat % 4096 := by
  rw [writesTo, List.getLast?_filter, List.findRev?_eq_find?_reverse]
  simp only [Word.cell_eq_iff]

/-- A cell shows the last write to it, or what was there before if there is none. The font is not
written to. -/
theorem read_writeAll (m : Memory) (writes : List Write) (b : Word) :
    (m.writeAll writes).read b =
      if Font.Covers b.cell.val then m.read b
      else ((writesTo b.cell writes).getLast?.map Write.value).getD (m.read b) := by
  induction writes using List.reverseRecOn with
  | nil => exact (ite_self _).symm
  | append_singleton writes w ih =>
    rw [writeAll_concat, read_write, ih]
    by_cases hf : Font.Covers b.cell.val
    · simp [hf]
    · by_cases hw : w.address.cell = b.cell
      · simp [hf, hw, writesTo_concat_of_eq hw]
      · simp [hf, hw, writesTo_concat_of_ne hw]

theorem reorders_iff :
    Reorders writes others ↔ ∀ w ∈ writes ++ others,
      writesTo w.address.cell writes = writesTo w.address.cell others := by
  refine ⟨fun h w _ => h w.address.cell, fun h cell => ?_⟩
  by_cases hcell : ∃ w ∈ writes ++ others, w.address.cell = cell
  · obtain ⟨w, hw, rfl⟩ := hcell
    exact h w hw
  · -- no write names the cell
    have hnil : ∀ ws, ws ⊆ writes ++ others → writesTo cell ws = [] := by
      intro ws hsub
      refine List.filter_eq_nil_iff.mpr fun w hw hc => hcell ⟨w, hsub hw, ?_⟩
      simpa using hc
    rw [hnil writes (List.subset_append_left _ _), hnil others (List.subset_append_right _ _)]

instance (writes others : List Write) : Decidable (Reorders writes others) :=
  decidable_of_iff _ reorders_iff.symm

theorem writeAll_of_reorders (m : Memory) (h : Reorders writes others) :
    m.writeAll writes = m.writeAll others := by
  apply ext_read
  intro b
  rw [read_writeAll, read_writeAll, h b.cell]

/-- Lists with the same writes to each cell are permutations of each other. -/
theorem Reorders.perm (h : Reorders writes others) : writes.Perm others := by
  rw [List.perm_iff_count]
  intro w
  have hcount : ∀ ws : List Write, (writesTo w.address.cell ws).count w = ws.count w :=
    fun ws => List.count_filter (by simp)
  rw [← hcount writes, ← hcount others, h]

theorem toNat_readWord (m : Memory) (b : Word) :
    (m.readWord b).toNat = 256 * (m.read b).toNat + (m.read (b + 1)).toNat :=
  Word.toNat_ofBytes _ _

theorem read_succ_of_last (m : Memory) {b : Word} (h : b.toNat % 4096 = 0xFFF) :
    m.read (b + 1) = m.read 0 := by
  apply m.read_congr
  rw [Word.cell_eq_iff, UInt16.toNat_add]
  simp only [UInt16.reduceToNat]
  omega

/-- Memory after any writes, one after another. A read shows the last write whose address is the
same modulo the size of memory, or the old byte if there is none or the font is there. A word is
read from two cells, the second of which is the first one of memory if the first is the last. The
order of writes to different cells does not count. -/
theorem writes_by_cell (m : Memory) (writes : List Write) :
    let after := m.writeAll writes
    (∀ b : Word, after.read b =
      if 0x050 ≤ b.toNat % 4096 ∧ b.toNat % 4096 ≤ 0x09F then m.read b
      else ((writes.findRev? fun w => w.address.toNat % 4096 = b.toNat % 4096).map
        Write.value).getD (m.read b)) ∧
    (∀ b : Word, (after.readWord b).toNat =
      256 * (after.read b).toNat +
        (after.read (UInt16.ofNat ((b.toNat + 1) % UInt16.size))).toNat) ∧
    (∀ b : Word, b.toNat % 4096 = 0xFFF → (after.readWord b).toNat =
      256 * (after.read 0xFFF).toNat + (after.read 0).toNat) ∧
    ∀ others, Reorders writes others → writes.Perm others ∧ after = m.writeAll others := by
  intro after
  refine ⟨?_, ?_, ?_, fun others h => ⟨h.perm, m.writeAll_of_reorders h⟩⟩
  · intro b
    have hfont : Font.Covers b.cell.val ↔ 0x050 ≤ b.toNat % 4096 ∧ b.toNat % 4096 ≤ 0x09F :=
      and_congr_right' Nat.lt_succ_iff
    rw [read_writeAll, getLast?_writesTo]
    exact if_congr hfont rfl rfl
  · intro b
    have hnext : b + 1 = UInt16.ofNat ((b.toNat + 1) % UInt16.size) := by
      apply UInt16.toNat_inj.mp
      simp
    rw [← hnext]
    exact after.toNat_readWord b
  · intro b hb
    rw [toNat_readWord, after.read_succ_of_last hb,
      after.read_congr (b := 0xFFF) (Word.cell_eq_iff.mpr hb)]

/-- A cell written to through two of its addresses, the font through another, and the last cell. -/
theorem writes_by_cell_of_aliases :
    let writes : List Write := [⟨0x1300, 1⟩, ⟨0xFFF, 2⟩, ⟨0x1050, 3⟩, ⟨0x300, 4⟩]
    let others : List Write := [⟨0xFFF, 2⟩, ⟨0x1300, 1⟩, ⟨0x300, 4⟩, ⟨0x1050, 3⟩]
    let after := blank.writeAll writes
    after.read 0x2300 = 4 ∧ after.read 0x050 = 0xF0 ∧
      (0xFFFF : Word).toNat % 4096 = 0xFFF ∧ (after.readWord 0xFFFF).toNat = 256 * 2 + 0 ∧
      Reorders writes others ∧ after = blank.writeAll others := by
  intro writes others after
  obtain ⟨hread, -, hlast, hreorder⟩ := blank.writes_by_cell writes
  have hend : (0xFFFF : Word).toNat % 4096 = 0xFFF := by decide
  have hreorders : Reorders writes others := by decide
  have hfourth : after.read 0x2300 = 4 := by
    rw [hread, if_neg (by decide)]
    rfl
  have hsecond : after.read 0xFFF = 2 := by
    rw [hread, if_neg (by decide)]
    rfl
  have hfont : after.read 0x050 = 0xF0 := by
    rw [hread, if_pos (by decide), read_blank]
    decide
  have hfirst : after.read 0 = 0 := by
    have hnone : (writes.findRev? fun w => w.address.toNat % 4096 = (0 : Word).toNat % 4096) =
      none := by decide
    rw [hread, if_neg (by decide), hnone, Option.map_none, Option.getD_none, read_blank]
    decide
  have hword := hlast 0xFFFF hend
  rw [hsecond, hfirst] at hword
  exact ⟨hfourth, hfont, hend, hword, hreorders, (hreorder others hreorders).2⟩

end Memory

end Chip8
