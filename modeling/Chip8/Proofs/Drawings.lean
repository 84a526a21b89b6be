import Chip8.Proofs.Hits

/-!
Lists of drawings. What a list of them leaves depends on how often each pixel has its turn, and of
that on the parity alone, so drawings can be made in any order, and two equal ones cancel
(`drawAll_of_perm`, `drawAll_append_self`). Main statement: `drawings_commute_and_cancel`.
-/

namespace Chip8

structure Drawing where
  x : Byte
  y : Byte
  sprite : List Byte
deriving DecidableEq, Repr

/-- The cells that have their turn in a drawing. -/
def Drawing.cells (d : Drawing) : List Screen.Cell :=
  Screen.spriteCells d.x.toNat d.y.toNat d.sprite

namespace Screen

def drawAll (s : Screen) (ds : List Drawing) : Screen :=
  ds.foldl (fun s d => (s.draw d.x d.y d.sprite).1) s

variable {s : Screen}

theorem plot_append (s : Screen) (cs more : List Cell) :
    (s.plot (cs ++ more)).1 = ((s.plot cs).1.plot more).1 := by
  induction cs generalizing s with
  | nil => rfl
  | cons c cs ih => exact ih (s.toggle c)

theorem plot_eq_of_count {cs ds : List Cell} (h : ∀ c, cs.count c % 2 = ds.count c % 2) :
    (s.plot cs).1 = (s.plot ds).1 := by
  apply ext_get
  intro c
  rw [get_plot, get_plot, h]

theorem drawAll_eq (s : Screen) (ds : List Drawing) :
    s.drawAll ds = (s.plot (ds.flatMap Drawing.cells)).1 := by
  induction ds generalizing s with
  | nil => rfl
  | cons d ds ih =>
    rw [List.flatMap_cons, plot_append]
    exact ih (s.draw d.x d.y d.sprite).1

theorem drawAll_of_perm {ds es : List Drawing} (h : ds.Perm es) : s.drawAll ds = s.drawAll es := by
  rw [drawAll_eq, drawAll_eq]
  apply plot_eq_of_count
  intro c
  rw [(h.flatMap_right Drawing.cells).count_eq]

theorem drawAll_append_self (s : Screen) (ds : List Drawing) : s.drawAll (ds ++ ds) = s := by
  rw [drawAll_eq, List.flatMap_append]
  show _ = (s.plot []).1
  apply plot_eq_of_count
  intro c
  rw [List.count_append, List.count_nil]
  omega

theorem draw_draw (s : Screen) (a b : Byte) (sprite : List Byte) :
    ((s.draw a b sprite).1.draw a b sprite).1 = s :=
  s.drawAll_append_self [⟨a, b, sprite⟩]

section Twice

variable {a b : Byte} {sprite : List Byte}

theorem draw_collides_iff_bit (h : sprite.length ≤ 32) : (s.draw a b sprite).2 = true ↔
    ∃ bit ∈ setBits sprite, s.pixel (a.toNat + bit.2) (b.toNat + bit.1) = true := by
  rw [draw_collides_iff h]
  constructor
  · rintro ⟨c, hc, hlit⟩
    obtain ⟨bit, hbit, rfl⟩ := covers_iff.mp hc
    exact ⟨bit, hbit, hlit⟩
  · rintro ⟨bit, hbit, hlit⟩
    exact ⟨_, covers_iff.mpr ⟨bit, hbit, rfl⟩, hlit⟩

theorem pixel_draw_of_mem (h : sprite.length ≤ 32) {bit : Fin sprite.length × Fin 8}
    (hbit : bit ∈ setBits sprite) :
    (s.draw a b sprite).1.pixel (a.toNat + bit.2) (b.toNat + bit.1) =
      !s.pixel (a.toNat + bit.2) (b.toNat + bit.1) :=
  get_draw_of_covers h (covers_iff.mpr ⟨bit, hbit, rfl⟩)

/-- The second of two equal drawings meets what the first has lit. -/
theorem redraw_collides_iff (h : sprite.length ≤ 32) :
    ((s.draw a b sprite).1.draw a b sprite).2 = true ↔
      ∃ bit ∈ setBits sprite, s.pixel (a.toNat + bit.2) (b.toNat + bit.1) = false := by
  rw [draw_collides_iff_bit h]
  refine exists_congr fun bit => and_congr_right fun hbit => ?_
  rw [pixel_draw_of_mem h hbit, Bool.not_eq_true']

/-- Drawings can be made in any order, and made twice they cancel, whatever comes in between. Of
two equal drawings, one right after the other, the first collides if a set bit falls on a lit pixel
and the second if one falls on a pixel that was dark before the first. -/
theorem drawings_commute_and_cancel (s : Screen) :
    (∀ ds es : List Drawing, es.Perm ds → s.drawAll es = s.drawAll ds) ∧
    (∀ ds es : List Drawing, es.Perm (ds ++ ds) → s.drawAll es = s) ∧
    ∀ (a b : Byte) (sprite : List Byte), sprite.length ≤ 32 →
      let first := s.draw a b sprite
      let second := first.1.draw a b sprite
      (first.2 = true ↔
        ∃ bit ∈ setBits sprite, s.pixel (a.toNat + bit.2) (b.toNat + bit.1) = true) ∧
      (second.2 = true ↔
        ∃ bit ∈ setBits sprite, s.pixel (a.toNat + bit.2) (b.toNat + bit.1) = false) ∧
      (first.2 = true ∨ second.2 = true ↔ (setBits sprite).Nonempty) := by
  refine ⟨fun ds es h => drawAll_of_perm h, ?_, ?_⟩
  · intro ds es h
    rw [drawAll_of_perm h, drawAll_append_self]
  · intro a b sprite h first second
    have hfirst : first.2 = true ↔ _ := draw_collides_iff_bit h
    have hsecond : second.2 = true ↔ _ := redraw_collides_iff h
    refine ⟨hfirst, hsecond, ?_⟩
    rw [hfirst, hsecond]
    constructor
    · rintro (⟨bit, hbit, -⟩ | ⟨bit, hbit, -⟩)
      · exact ⟨bit, hbit⟩
      · exact ⟨bit, hbit⟩
    · rintro ⟨bit, hbit⟩
      cases hlit : s.pixel (a.toNat + bit.2) (b.toNat + bit.1) with
      | true => exact .inl ⟨bit, hbit, hlit⟩
      | false => exact .inr ⟨bit, hbit, hlit⟩

/-- A sprite across the corner and a column that is higher than the screen. -/
theorem drawings_cancel_at_corner :
    let corner : Drawing := ⟨62, 31, [0xF0, 0x90]⟩
    let column : Drawing := ⟨1, 0, List.replicate 40 0x80⟩
    let s := (blank.draw 0 0 [0x80]).1
    [column, corner].Perm [corner, column] ∧
      s.drawAll [column, corner] = s.drawAll [corner, column] ∧
      [column, corner, corner, column].Perm ([corner, column] ++ [corner, column]) ∧
      s.drawAll [column, corner, corner, column] = s ∧
      corner.sprite.length ≤ 32 ∧
      ((s.draw 62 31 corner.sprite).2 = true ∨
        ((s.draw 62 31 corner.sprite).1.draw 62 31 corner.sprite).2 = true) := by
  intro corner column s
  obtain ⟨hperm, hcancel, hcollide⟩ := drawings_commute_and_cancel s
  have hswap : [column, corner].Perm [corner, column] := by decide
  have htwice : [column, corner, corner, column].Perm ([corner, column] ++ [corner, column]) := by
    decide
  have hheight : corner.sprite.length ≤ 32 := by decide
  refine ⟨hswap, hperm _ _ hswap, htwice, hcancel _ _ htwice, hheight, ?_⟩
  exact (hcollide 62 31 corner.sprite hheight).2.2.mpr ⟨(⟨0, by decide⟩, 0), by decide⟩

end Twice

end Screen

end Chip8
