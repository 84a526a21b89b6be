import Chip8.Proofs.Footprint
import Chip8.Proofs.History
import Chip8.Proofs.Sprite

/-!
The font outlives everything that is done to a machine: loads begin behind it, and stores to it are
dropped, wherever their window lies (`fontIntact_performAll`). So a digit can be drawn at any time.
Main statement: `glyph_of_history`.
-/

namespace Chip8

namespace Font

theorem byteAt_start_add (k : Fin 80) : byteAt (start + k.val) = rows[k] := by
  simp [byteAt]

theorem nnn_glyphAddress {d : Nat} (h : d < 16) : (glyphAddress d).nnn = glyphAddress d := by
  apply UInt16.toNat_inj.mp
  rw [Word.toNat_nnn, toNat_glyphAddress h, start, glyphHeight]
  omega

theorem length_glyph {d : Nat} (h : d < 16) : (glyph d).length = glyphHeight := by
  simp only [glyph, glyphHeight, List.length_take, List.length_drop, Vector.length_toList]
  omega

theorem getElem?_glyph {d k : Nat} (h : d < 16) (hk : k < glyphHeight) :
    (glyph d)[k]? = some (byteAt (start + glyphHeight * d + k)) := by
  have hlt : glyphHeight * d + k < 80 := by
    simp only [glyphHeight] at *
    omega
  rw [glyph, List.getElem?_take_of_lt hk, List.getElem?_drop, Nat.add_assoc,
    byteAt_start_add ⟨_, hlt⟩]
  simp [hlt]

end Font

namespace Memory

variable {m m' : Memory}

def FontIntact (m : Memory) : Prop :=
  ∀ a : Word, Font.Covers a.cell.val → m.read a = Font.byteAt a.cell.val

theorem fontIntact_blank : blank.FontIntact := fun a _ => read_blank a

theorem FontIntact.write (h : m.FontIntact) (a : Word) (b : Byte) : (m.write a b).FontIntact := by
  intro c hc
  rw [read_write, if_neg]
  · exact h c hc
  · rintro ⟨-, hn⟩
    exact hn hc

theorem FontIntact.store (h : m.FontIntact) (a : Word) (bytes : List Byte) :
    (m.store a bytes).FontIntact := by
  induction bytes generalizing m a with
  | nil => exact h
  | cons b bytes ih => exact ih (h.write a b) (a.advance 1)

theorem FontIntact.load {p : Array Byte} (h : m.FontIntact) (hl : m.load p = .ok m') :
    m'.FontIntact := by
  intro a ha
  have hlow : ¬ programStart ≤ a.cell.val := by
    have := ha.2
    simp only [Font.start, programStart] at *
    omega
  rw [read_load hl, if_neg hlow]
  exact h a ha

theorem FontIntact.block_glyph (h : m.FontIntact) {d : Nat} (hd : d < 16) :
    m.block (Font.glyphAddress d) Font.glyphHeight = Font.glyph d := by
  apply List.ext_getElem?
  intro k
  rw [getElem?_block]
  by_cases hk : k < Font.glyphHeight
  · have hcell : ((Font.glyphAddress d).advance (UInt16.ofNat k)).cell.val =
        Font.start + Font.glyphHeight * d + k := by
      rw [Word.cell_advance_ofNat, Font.toNat_glyphAddress hd]
      simp only [Font.start, Font.glyphHeight] at *
      omega
    have hcovers : Font.Covers ((Font.glyphAddress d).advance (UInt16.ofNat k)).cell.val := by
      rw [hcell]
      simp only [Font.Covers, Font.start, Font.glyphHeight] at *
      omega
    rw [if_pos hk, h _ hcovers, hcell, Font.getElem?_glyph hd hk]
  · rw [if_neg hk, List.getElem?_eq_none]
    rw [Font.length_glyph hd]
    exact Nat.le_of_not_lt hk

end Memory

namespace Machine

variable {m : Machine}

theorem Performs.fontIntact {op : Operation} {result : Except Stop Answer} {m' : Machine}
    (hp : Performs m op result m') (h : m.memory.FontIntact) : m'.memory.FontIntact := by
  cases hp with
  | executed hi he =>
    rcases Instruction.memory_of_effect he with hm | ⟨bytes, hm⟩
    · exact hm ▸ h
    · exact hm ▸ h.store _ bytes
  | loaded hl => exact h.load hl
  | reset => exact Memory.fontIntact_blank
  | refused | blocked | resumed | ticked | pressed | released | untaken | taken | discarded
  | cleared => exact h

theorem fontIntact_performAll (h : m.memory.FontIntact) (ops : List Operation) :
    (m.performAll ops).memory.FontIntact := by
  induction ops generalizing m with
  | nil => exact h
  | cons op ops ih => exact ih ((m.performs_perform op).fontIntact h)

/-- The glyph of a digit drawn in two instructions: I is pointed at it, and its rows are what is
found there. -/
theorem execute_draw_glyph (h : m.memory.FontIntact) (x y z : Fin 16) :
    let drawn := m.screen.draw (m.registers.get x) (m.registers.get y)
      (Font.glyph ((m.registers.get z).toNat % 16))
    let pointed := m.execute (.pointGlyph z.val)
    let done := pointed.machine.execute (.draw x.val y.val 5)
    (∃ s, pointed.result = .ok s) ∧ (∃ s, done.result = .ok s) ∧
      done.machine.screen = drawn.1 ∧
      done.machine.registers.get Registers.flag = if drawn.2 then 1 else 0 := by
  intro drawn pointed done
  have hdigit : (m.registers.get z).toNat % 16 < 16 := Nat.mod_lt _ (by decide)
  have hpointed : pointed = _ := execute_of_effect (Instruction.effect_pointGlyph m z)
  have hdone : done = _ :=
    execute_of_effect (Instruction.effect_draw pointed.machine x y 5 (by decide))
  have hsprite : pointed.machine.memory.block pointed.machine.registers.index 5 =
      Font.glyph ((m.registers.get z).toNat % 16) := by
    rw [← h.block_glyph hdigit, ← Font.nnn_glyphAddress hdigit, hpointed]
    rfl
  have hsource : pointed.machine.screen = m.screen ∧
      ∀ k, pointed.machine.registers.get k = m.registers.get k := by
    rw [hpointed]
    exact ⟨rfl, fun k => rfl⟩
  obtain ⟨hscreen, hget⟩ := hsource
  have hdrawn : pointed.machine.screen.draw (pointed.machine.registers.get x)
      (pointed.machine.registers.get y)
      (pointed.machine.memory.block pointed.machine.registers.index 5) = drawn := by
    rw [hsprite, hscreen, hget, hget]
  refine ⟨⟨_, by rw [hpointed]⟩, ⟨_, by rw [hdone]⟩, ?_, ?_⟩
  · rw [hdone, ← hdrawn]
    rfl
  · rw [hdone, ← hdrawn]
    exact (Registers.get_set _ _ _ _).trans (if_pos rfl)

/-- Whatever has been done to a machine, its font is the one it was switched on with. So on a blank
screen the glyph of a digit comes out as it is in the font, at the place that two registers say and
round the edges, without a collision. -/
theorem glyph_of_history (dialect : Dialect) (random : RandomSource) (ops : List Operation) :
    let m := (fresh dialect random).performAll ops
    (∀ k : Fin 80, m.memory.read (UInt16.ofNat (Font.start + k.val)) = Font.rows[k]) ∧
    (m.screen.isBlank = true → ∀ x y z : Fin 16,
      let pointed := m.execute (.pointGlyph z.val)
      let done := pointed.machine.execute (.draw x.val y.val 5)
      (∃ s, pointed.result = .ok s) ∧ (∃ s, done.result = .ok s) ∧
        (∀ c, done.machine.screen.get c = true ↔
          Screen.Covers (m.registers.get x).toNat (m.registers.get y).toNat
            (Font.glyph ((m.registers.get z).toNat % 16)) c) ∧
        done.machine.registers.get Registers.flag = 0) := by
  intro m
  have hfont : m.memory.FontIntact := by
    apply fontIntact_performAll
    rw [memory_fresh]
    exact Memory.fontIntact_blank
  refine ⟨?_, ?_⟩
  · intro k
    have hcell : (Word.cell (UInt16.ofNat (Font.start + k.val))).val = Font.start + k.val := by
      rw [Word.val_cell, UInt16.toNat_ofNat', Font.start]
      omega
    rw [hfont _ (by rw [hcell]; exact ⟨by omega, by omega⟩), hcell, Font.byteAt_start_add]
  · intro hblank x y z
    have hlength : (Font.glyph ((m.registers.get z).toNat % 16)).length ≤ 32 := by
      rw [Font.length_glyph (Nat.mod_lt _ (by decide))]
      decide
    obtain ⟨hlit, hclear⟩ := Screen.draw_of_blank hlength hblank
    obtain ⟨hpointed, hdone, hscreen, hflag⟩ := execute_draw_glyph hfont x y z
    refine ⟨hpointed, hdone, ?_, ?_⟩
    · intro c
      rw [hscreen]
      exact hlit c
    · rw [hflag, hclear]
      rfl

/-- A program has tried to store into the glyph of zero. It is drawn across the lower right corner
all the same: its upper left pixel, its upper right one in the second column, and its third row at
the top of the screen. -/
theorem glyph_across_corner :
    let ops := [.execute (.setByte 0 62), .execute (.setByte 1 30), .execute (.setIndex 0x50),
      .execute (.dump 1)]
    let m := (fresh {} (.ofSeed 8)).performAll ops
    let done := (m.execute (.pointGlyph 2)).machine.execute (.draw 0 1 5)
    m.screen.isBlank = true ∧ done.machine.screen.get (62, 30) = true ∧
      done.machine.screen.get (1, 30) = true ∧ done.machine.screen.get (62, 0) = true ∧
      done.machine.screen.get (63, 0) = false ∧
      done.machine.registers.get Registers.flag = 0 := by
  intro ops
  have hblank : ((fresh {} (.ofSeed 8)).performAll ops).screen.isBlank = true :=
    (Screen.isBlank_iff _).mpr Screen.get_blank
  obtain ⟨-, -, hlit, hflag⟩ := (glyph_of_history {} (.ofSeed 8) ops).2 hblank 0 1 2
  have hx : (((fresh {} (.ofSeed 8)).performAll ops).registers.get 0).toNat = 62 := rfl
  have hy : (((fresh {} (.ofSeed 8)).performAll ops).registers.get 1).toNat = 30 := rfl
  have hz : (((fresh {} (.ofSeed 8)).performAll ops).registers.get 2).toNat % 16 = 0 := rfl
  rw [hx, hy, hz] at hlit
  refine ⟨hblank, (hlit _).mpr ?_, (hlit _).mpr ?_, (hlit _).mpr ?_, ?_, hflag⟩
  · exact ⟨0, 0, 0xF0, rfl, by decide, by decide, rfl⟩
  · exact ⟨0, 3, 0xF0, rfl, by decide, by decide, rfl⟩
  · exact ⟨2, 0, 0x90, rfl, by decide, by decide, rfl⟩
  · refine Bool.eq_false_iff.mpr fun h => ?_
    obtain ⟨row, col, bits, hrow, hcol, hbit, hc⟩ := (hlit _).mp h
    have hrow5 : row < 5 := (List.getElem?_eq_some_iff.mp hrow).1
    have hdown : (30 + row) % 32 = 0 := congrArg (·.2.val) hc
    have hright : (62 + col) % 64 = 63 := congrArg (·.1.val) hc
    obtain ⟨rfl, rfl⟩ : row = 2 ∧ col = 1 := ⟨by omega, by omega⟩
    cases hrow
    cases hbit

end Machine

end Chip8
