import Chip8.Proofs.Hits
import Mathlib.Algebra.Group.Nat.Even

/-!
How many pixels are lit. A turn lights one more or puts one out, so after a drawing there are two
less for each pixel put out than set bits would have it. Main statement: `lit_balance`.
-/

namespace Chip8

/-- One light is put out and all others stay. -/
theorem card_filter_add_one {α : Type} [Fintype α] {f g : α → Bool} {a : α}
    (hf : f a = true) (hg : g a = false) (h : ∀ b, b ≠ a → g b = f b) :
    Finset.card {b | g b = true} + 1 = Finset.card {b | f b = true} := by
  classical
  have herase : Finset.filter (g · = true) .univ = (Finset.filter (f · = true) .univ).erase a := by
    ext b
    by_cases hb : b = a
    · simp [hb, hg]
    · simp [hb, h]
  rw [herase, Finset.card_erase_add_one (by simp [hf])]

namespace Screen

def lit (s : Screen) : Nat := Finset.card {c | s.get c = true}

variable {s : Screen} {c : Cell}

theorem lit_toggle_of_lit (h : s.get c = true) : (s.toggle c).lit + 1 = s.lit := by
  apply card_filter_add_one h
  · simp [get_toggle, h]
  · intro d hd
    rw [get_toggle, if_neg (Ne.symm hd)]

theorem lit_toggle_of_dark (h : s.get c = false) : (s.toggle c).lit = s.lit + 1 := by
  symm
  apply card_filter_add_one _ h
  · intro d hd
    rw [get_toggle, if_neg (Ne.symm hd)]
  · simp [get_toggle, h]

/-- A turn that puts a pixel out leaves two less lit than one that lights it. -/
theorem exists_lit_plot (s : Screen) (cs : List Cell) :
    ∃ k, (s.plot cs).1.lit + 2 * k = s.lit + cs.length ∧ ((s.plot cs).2 = false ↔ k = 0) := by
  induction cs generalizing s with
  | nil => exact ⟨0, rfl, by simp [plot]⟩
  | cons c cs ih =>
    obtain ⟨k, hk, hcollides⟩ := ih (s.toggle c)
    simp only [plot, List.length_cons, Bool.or_eq_false_iff, hcollides]
    cases h : s.get c with
    | true =>
      have hstep := lit_toggle_of_lit h
      exact ⟨k + 1, by omega, by simp⟩
    | false =>
      have hstep := lit_toggle_of_dark h
      exact ⟨k, by omega, by simp⟩

/-- A drawing adds as many lit pixels as its sprite has set bits, less two for each pixel that it
puts out. So it adds them all if it does not collide, and only then. -/
theorem lit_balance (s : Screen) (a b : Byte) (sprite : List Byte) :
    let drawn := s.draw a b sprite
    let full := s.lit + (setBits sprite).card
    drawn.1.lit ≤ full ∧ Even (full - drawn.1.lit) ∧ (drawn.2 = false ↔ drawn.1.lit = full) := by
  intro drawn full
  obtain ⟨k, hk, hk0⟩ := exists_lit_plot s (spriteCells a.toNat b.toNat sprite)
  rw [length_spriteCells] at hk
  have hbalance : drawn.1.lit + 2 * k = full := hk
  have hcollides : drawn.2 = false ↔ k = 0 := hk0
  refine ⟨by omega, ⟨k, by omega⟩, ?_⟩
  rw [hcollides]
  omega

end Screen

end Chip8
