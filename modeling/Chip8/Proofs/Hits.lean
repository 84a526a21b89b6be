import Chip8.Proofs.Sprite
import Mathlib.Algebra.BigOperators.Fin
import Mathlib.Data.Fintype.Prod

/-!
How many set bits of a sprite fall on a pixel. A sprite higher than the screen comes back to the
rows it began with, so a pixel can be hit more than once: it ends up toggled if it is hit an odd
number of times, and there is a collision if it is lit and hit, or dark and hit twice. Main
statement: `draw_law`.
-/

namespace Chip8.Screen

def setBits (sprite : List Byte) : Finset (Fin sprite.length × Fin 8) :=
  {bit | sprite[bit.1].toNat.testBit (7 - bit.2.val) = true}

/-- How many set bits of a sprite, with its top left corner at `x`, `y`, fall on a cell. -/
def hits (x y : Nat) (sprite : List Byte) (c : Cell) : Nat :=
  Finset.card {bit ∈ setBits sprite | (x + bit.2) % 64 = c.1 ∧ (y + bit.1) % 32 = c.2}

variable {s : Screen} {x y : Nat} {bits : Byte} {sprite : List Byte} {c : Cell}

theorem cellAt_eq_iff : cellAt x y = c ↔ x % 64 = c.1 ∧ y % 32 = c.2 := by
  simp [cellAt, Prod.ext_iff, Fin.ext_iff]

theorem sum_map_rowCells (f : Cell → Nat) :
    ((rowCells x y bits).map f).sum =
      ∑ col : Fin 8,
        if bits.toNat.testBit (7 - col.val) = true then f (cellAt (x + col) y) else 0 := by
  rw [rowCells, List.map_map, ← List.sum_toFinset _ (List.nodup_range.filter _),
    List.toFinset_filter, List.toFinset_range, Finset.sum_filter, ← Fin.sum_univ_eq_sum_range]
  rfl

/-- What is summed up over the cells of a sprite is summed up over its set bits. -/
theorem sum_map_spriteCells (x y : Nat) (sprite : List Byte) (f : Cell → Nat) :
    ((spriteCells x y sprite).map f).sum =
      ∑ bit ∈ setBits sprite, f (cellAt (x + bit.2) (y + bit.1)) := by
  simp only [setBits, Finset.sum_filter, Fintype.sum_prod_type]
  induction sprite generalizing y with
  | nil => rfl
  | cons bits rest ih =>
    rw [spriteCells, List.map_append, List.sum_append, ih, sum_map_rowCells]
    simp only [List.length_cons, Fin.sum_univ_succ (n := rest.length), Nat.add_assoc,
      Nat.add_comm 1]
    rfl

theorem length_spriteCells : (spriteCells x y sprite).length = (setBits sprite).card := by
  simpa using sum_map_spriteCells x y sprite fun _ => 1

theorem count_spriteCells : (spriteCells x y sprite).count c = hits x y sprite c := by
  calc (spriteCells x y sprite).count c
      = ((spriteCells x y sprite).map fun d => if d = c then 1 else 0).sum := by
        simp [List.count_eq_countP, List.countP_eq_length_filter, List.sum_map_ite, beq_eq_decide]
    _ = ∑ bit ∈ setBits sprite, if cellAt (x + bit.2) (y + bit.1) = c then 1 else 0 :=
        sum_map_spriteCells x y sprite _
    _ = hits x y sprite c := by
        simp only [hits, Finset.card_filter, cellAt_eq_iff]

theorem hits_pos_iff : 1 ≤ hits x y sprite c ↔
    ∃ bit ∈ setBits sprite, cellAt (x + bit.2) (y + bit.1) = c := by
  simp only [hits, Nat.succ_le_iff, Finset.card_pos, Finset.filter_nonempty_iff, cellAt_eq_iff]

theorem covers_iff : Covers x y sprite c ↔
    ∃ bit ∈ setBits sprite, cellAt (x + bit.2) (y + bit.1) = c := by
  rw [← mem_spriteCells_iff, ← List.one_le_count_iff, count_spriteCells, hits_pos_iff]

theorem hits_le_one (h : sprite.length ≤ 32) (c : Cell) : hits x y sprite c ≤ 1 := by
  rw [← count_spriteCells]
  exact List.nodup_iff_count_le_one.mp (nodup_spriteCells h) c

theorem hits_mod : hits (x % 64) (y % 32) sprite c = hits x y sprite c := by
  simp only [hits, Nat.mod_add_mod]

section Draw

variable {a b : Byte}

theorem get_draw : (s.draw a b sprite).1.get c =
    (s.get c ^^ decide (hits a.toNat b.toNat sprite c % 2 = 1)) := by
  rw [draw, get_plot, count_spriteCells]
  split <;> simp_all

theorem draw_collides_iff_hits : (s.draw a b sprite).2 = true ↔
    ∃ c, (s.get c = true ∧ 1 ≤ hits a.toNat b.toNat sprite c) ∨
      (s.get c = false ∧ 2 ≤ hits a.toNat b.toNat sprite c) := by
  rw [draw, plot_collides_iff_count]
  simp only [count_spriteCells]

/-- If no pixel is hit twice, a collision is a lit pixel put out. -/
theorem draw_collides_iff_putOut (h : sprite.length ≤ 32) : (s.draw a b sprite).2 = true ↔
    ∃ c, s.get c = true ∧ (s.draw a b sprite).1.get c = false := by
  rw [draw_collides_iff_hits]
  refine exists_congr fun c => ?_
  have hle : hits a.toNat b.toNat sprite c ≤ 1 := hits_le_one h c
  rw [get_draw]
  cases s.get c with
  | true =>
    simp only [true_and, Bool.true_xor, Bool.not_eq_false', decide_eq_true_eq]
    omega
  | false =>
    simp only [Bool.false_eq_true, false_and, false_or, true_and, iff_false]
    omega

/-- Drawing toggles each pixel as often as set bits of the sprite fall on it, and it collides where
a lit pixel is hit or a dark one is hit twice. The second takes a sprite of more than 32 rows. -/
theorem draw_law (s : Screen) (a b : Byte) (sprite : List Byte) :
    let drawn := s.draw a b sprite
    let n := hits a.toNat b.toNat sprite
    (∀ c, drawn.1.get c = (s.get c ^^ decide (n c % 2 = 1))) ∧
    (drawn.2 = true ↔ ∃ c, (s.get c = true ∧ 1 ≤ n c) ∨ (s.get c = false ∧ 2 ≤ n c)) ∧
    (sprite.length ≤ 32 → (∀ c, n c ≤ 1) ∧
      (drawn.2 = true ↔ ∃ c, s.get c = true ∧ drawn.1.get c = false)) := by
  intro drawn n
  refine ⟨?_, draw_collides_iff_hits, ?_⟩
  · intro c
    exact get_draw
  · intro h
    exact ⟨hits_le_one h, draw_collides_iff_putOut h⟩

/-- On the blank screen a column of 33 dots meets itself, and one of 32 does not. -/
theorem draw_law_of_columns :
    let column n := List.replicate n (0x80 : Byte)
    (blank.draw 5 0 (column 33)).2 = true ∧ (blank.draw 5 0 (column 33)).1.get (5, 0) = false ∧
      (column 32).length ≤ 32 ∧ (blank.draw 5 0 (column 32)).2 = false ∧
      (blank.draw 5 0 (column 32)).1.get (5, 0) = true := by
  intro column
  have hlength : (column 32).length ≤ 32 := by decide
  obtain ⟨hget, hcollides, -⟩ := draw_law blank 5 0 (column 33)
  obtain ⟨hget', -, hle⟩ := draw_law blank 5 0 (column 32)
  refine ⟨hcollides.mpr ⟨(5, 0), .inr ⟨get_blank _, by decide +kernel⟩⟩, ?_, hlength, ?_, ?_⟩
  · rw [hget, get_blank]
    decide +kernel
  · rw [Bool.eq_false_iff, ne_eq, (hle hlength).2]
    rintro ⟨c, hc, -⟩
    rw [get_blank] at hc
    cases hc
  · rw [hget', get_blank]
    decide +kernel

end Draw

end Chip8.Screen
