import Chip8.Screen
import Mathlib.Data.List.Nodup

/-!
The pixels that a sprite covers, read off its set bits. A sprite that is no higher than the screen
covers no pixel twice (`nodup_spriteCells`), so drawing it toggles what it covers, once, and leaves
the rest (`get_draw_of_covers`, `get_draw_of_not_covers`), and it collides where it covers a lit
pixel (`draw_collides_iff`).
-/

namespace Chip8

namespace Screen

/-- The sprite, with its top left corner at `x`, `y`, has a set bit over the cell. Bits are counted
from the left. -/
def Covers (x y : Nat) (sprite : List Byte) (c : Cell) : Prop :=
  ∃ row col bits, sprite[row]? = some bits ∧ col < 8 ∧ bits.toNat.testBit (7 - col) = true ∧
    cellAt (x + col) (y + row) = c

variable {s : Screen} {x y : Nat} {bits : Byte} {sprite : List Byte} {cs : List Cell} {c : Cell}

theorem mem_rowCells_iff : c ∈ rowCells x y bits ↔
    ∃ col < 8, bits.toNat.testBit (7 - col) = true ∧ cellAt (x + col) y = c := by
  simp [rowCells, and_assoc]

theorem mem_spriteCells_iff : c ∈ spriteCells x y sprite ↔ Covers x y sprite c := by
  induction sprite generalizing y with
  | nil => simp [spriteCells, Covers]
  | cons bits rest ih =>
    rw [spriteCells, List.mem_append, mem_rowCells_iff, ih]
    constructor
    · rintro (⟨col, hcol, hbit, rfl⟩ | ⟨row, col, b, hb, hcol, hbit, rfl⟩)
      · exact ⟨0, col, bits, rfl, hcol, hbit, rfl⟩
      · exact ⟨row + 1, col, b, hb, hcol, hbit, by rw [Nat.add_assoc, Nat.add_comm 1]⟩
    · rintro ⟨row, col, b, hb, hcol, hbit, rfl⟩
      cases row with
      | zero =>
        cases hb
        exact .inl ⟨col, hcol, hbit, rfl⟩
      | succ row => exact .inr ⟨row, col, b, hb, hcol, hbit, by rw [Nat.add_assoc, Nat.add_comm 1]⟩

theorem cellAt_inj_of_lt {j k : Nat} (hj : j < 8) (hk : k < 8)
    (h : cellAt (x + j) y = cellAt (x + k) y) : j = k := by
  simp only [cellAt, Prod.mk.injEq, Fin.mk.injEq] at h
  omega

theorem nodup_rowCells (x y : Nat) (bits : Byte) : (rowCells x y bits).Nodup := by
  refine List.Nodup.map_on ?_ (List.nodup_range.filter _)
  intro j hj k hk h
  simp only [List.mem_filter, List.mem_range] at hj hk
  exact cellAt_inj_of_lt hj.1 hk.1 h

/-- The rows of a sprite that is no higher than the screen do not meet. -/
theorem nodup_spriteCells (h : sprite.length ≤ 32) : (spriteCells x y sprite).Nodup := by
  induction sprite generalizing y with
  | nil => exact List.nodup_nil
  | cons bits rest ih =>
    rw [List.length_cons] at h
    rw [spriteCells, List.nodup_append]
    refine ⟨nodup_rowCells x y bits, ih (by omega), ?_⟩
    intro c hc d hd
    obtain ⟨col, -, -, rfl⟩ := mem_rowCells_iff.mp hc
    obtain ⟨row, col', b, hb, -, -, rfl⟩ := mem_spriteCells_iff.mp hd
    have hrow : row < rest.length := (List.getElem?_eq_some_iff.mp hb).1
    simp only [cellAt, ne_eq, Prod.mk.injEq, Fin.mk.injEq, not_and]
    omega

/-- There is a collision where a lit pixel has a turn or a dark one has two. -/
theorem plot_collides_iff_count : (s.plot cs).2 = true ↔
    ∃ c, (s.get c = true ∧ 1 ≤ cs.count c) ∨ (s.get c = false ∧ 2 ≤ cs.count c) := by
  induction cs generalizing s with
  | nil => simp [plot]
  | cons d cs ih =>
    cases hd : s.get d with
    | true =>
      have hcount : 1 ≤ (d :: cs).count d := by simp
      exact ⟨fun _ => ⟨d, .inl ⟨hd, hcount⟩⟩, fun _ => by simp [plot, hd]⟩
    | false =>
      simp only [plot, hd, Bool.false_or, ih]
      refine exists_congr fun c => ?_
      -- the turn of `d` is in the screen that the rest is drawn on, and no longer in the count
      rw [get_toggle]
      by_cases hc : d = c
      · subst hc
        simp [hd]
      · simp [hc]

theorem plot_collides_iff (h : cs.Nodup) : (s.plot cs).2 = true ↔ ∃ c ∈ cs, s.get c = true := by
  rw [plot_collides_iff_count]
  refine exists_congr fun c => ?_
  have hcount : cs.count c ≤ 1 := List.nodup_iff_count_le_one.mp h c
  rw [← List.one_le_count_iff]
  constructor
  · rintro (⟨hlit, hc⟩ | ⟨-, hc⟩)
    · exact ⟨hc, hlit⟩
    · omega
  · rintro ⟨hc, hlit⟩
    exact .inl ⟨hlit, hc⟩

section Draw

variable {a b : Byte}

theorem get_draw_of_covers (h : sprite.length ≤ 32) (hc : Covers a.toNat b.toNat sprite c) :
    (s.draw a b sprite).1.get c = !s.get c := by
  have hcount := List.count_eq_one_of_mem (nodup_spriteCells h) (mem_spriteCells_iff.mpr hc)
  rw [draw, get_plot, hcount, if_pos rfl]

theorem get_draw_of_not_covers (hc : ¬ Covers a.toNat b.toNat sprite c) :
    (s.draw a b sprite).1.get c = s.get c := by
  have hcount := List.count_eq_zero_of_not_mem (mt mem_spriteCells_iff.mp hc)
  rw [draw, get_plot, hcount, if_neg (by decide)]

theorem draw_collides_iff (h : sprite.length ≤ 32) :
    (s.draw a b sprite).2 = true ↔ ∃ c, Covers a.toNat b.toNat sprite c ∧ s.get c = true := by
  rw [draw, plot_collides_iff (nodup_spriteCells h)]
  simp only [mem_spriteCells_iff]

/-- On a blank screen a sprite lights what it covers. -/
theorem draw_of_blank (h : sprite.length ≤ 32) (hs : s.isBlank = true) :
    (∀ c, (s.draw a b sprite).1.get c = true ↔ Covers a.toNat b.toNat sprite c) ∧
      (s.draw a b sprite).2 = false := by
  have hdark : ∀ c, s.get c = false := s.isBlank_iff.mp hs
  refine ⟨?_, ?_⟩
  · intro c
    by_cases hc : Covers a.toNat b.toNat sprite c
    · simp [get_draw_of_covers h hc, hdark, hc]
    · simp [get_draw_of_not_covers hc, hdark, hc]
  · rw [Bool.eq_false_iff, ne_eq, draw_collides_iff h]
    rintro ⟨c, -, hlit⟩
    rw [hdark] at hlit
    cases hlit

end Draw

end Screen
end Chip8
