import Chip8.Proofs.Drawings
import Chip8.Proofs.Footprint
import Chip8.Proofs.History

/-!
The draw instruction. Its sprite is read round the end of memory and placed round both edges of the
screen, at what two registers hold before VF receives the collision. Main statement:
`execute_draw_toggles`.
-/

namespace Chip8

theorem Memory.block_eq_ofFn (m : Memory) (a : Word) (n : Nat) :
    m.block a n = List.ofFn fun k : Fin n => m.read (a.advance (UInt16.ofNat k.val)) := by
  apply List.ext_getElem?
  intro k
  rw [getElem?_block, List.getElem?_ofFn]
  split <;> rfl

namespace Machine

/-- What becomes of a machine when a sprite is drawn with its top left corner at `x`, `y`. -/
structure DrawsSprite (m : Machine) (x y : Nat) (sprite : List Byte) (m' : Machine) : Prop where
  hits_le_one : ∀ c, Screen.hits x y sprite c ≤ 1
  screen : ∀ c, m'.screen.get c =
    if Screen.hits x y sprite c = 1 then !m.screen.get c else m.screen.get c
  collision : (∃ c, m.screen.get c = true ∧ m'.screen.get c = false) →
    m'.registers.get Registers.flag = 1
  no_collision : (∀ c, m.screen.get c = true → m'.screen.get c = true) →
    m'.registers.get Registers.flag = 0
  others : ∀ k, k ≠ Registers.flag → m'.registers.get k = m.registers.get k
  /-- Only the screen, V0 to VF and the program counter are not what they were. -/
  frame : m' =
    { m with
      screen := m'.screen
      registers := { m.registers with v := m'.registers.v, pc := m.registers.pc.advance 2 } }

theorem execute_draw (m : Machine) (x y n : Fin 16) :
    let drawn := m.screen.draw (m.registers.get x) (m.registers.get y)
      (m.memory.block m.registers.index n.val)
    m.execute (.draw x.val y.val (UInt8.ofNat n.val)) =
      { result := .ok ⟨m.registers.pc.advance 2, some .screenDirty⟩
        machine :=
          { m with
            screen := drawn.1
            registers := { m.registers.setFlag drawn.2 with pc := m.registers.pc.advance 2 } } } := by
  have hn : (UInt8.ofNat n.val).toNat = n.val := Keypad.toNat_ofNat_key n
  rw [execute_of_effect (Instruction.effect_draw m x y _ (by rw [hn]; exact n.isLt)), hn]
  rfl

theorem drawsSprite_of_draw (m : Machine) (a b : Byte) {sprite : List Byte}
    (h : sprite.length ≤ 32) :
    let drawn := m.screen.draw a b sprite
    m.DrawsSprite (a.toNat % 64) (b.toNat % 32) sprite
      { m with
        screen := drawn.1
        registers := { m.registers.setFlag drawn.2 with pc := m.registers.pc.advance 2 } } := by
  intro drawn
  have hcollides : drawn.2 = true ↔ ∃ c, m.screen.get c = true ∧ drawn.1.get c = false :=
    Screen.draw_collides_iff_putOut h
  have hflag (k : Fin 16) : (m.registers.setFlag drawn.2).get k =
      if Registers.flag = k then if drawn.2 then 1 else 0 else m.registers.get k :=
    m.registers.get_setFlag drawn.2 k
  constructor
  case hits_le_one =>
    intro c
    exact Screen.hits_le_one h c
  case screen =>
    intro c
    have hle : Screen.hits a.toNat b.toNat sprite c ≤ 1 := Screen.hits_le_one h c
    show drawn.1.get c = _
    rw [Screen.get_draw, Screen.hits_mod]
    rcases Nat.le_one_iff_eq_zero_or_eq_one.mp hle with hc | hc
    · simp [hc]
    · simp [hc]
  case collision =>
    intro hputOut
    exact (hflag _).trans (by rw [if_pos rfl, if_pos (hcollides.mpr hputOut)])
  case no_collision =>
    intro hstays
    have hnot : ¬ drawn.2 = true := by
      rw [hcollides]
      rintro ⟨c, hlit, hdark⟩
      exact Bool.false_ne_true (hdark.symm.trans (hstays c hlit))
    exact (hflag _).trans (by rw [if_pos rfl, if_neg hnot])
  case others =>
    intro k hk
    exact (hflag k).trans (if_neg (Ne.symm hk))
  case frame => rfl

/-- With other registers for the place than VF, a second drawing takes the sprite away again. -/
theorem screen_execute_draw_twice (m : Machine) {x y : Fin 16} (n : Fin 16)
    (hx : x ≠ Registers.flag) (hy : y ≠ Registers.flag) :
    let i := Instruction.draw x.val y.val (UInt8.ofNat n.val)
    ((m.execute i).machine.execute i).machine.screen = m.screen := by
  have hget (k : Fin 16) (hk : k ≠ Registers.flag) (b : Bool) :
      (m.registers.setFlag b).get k = m.registers.get k :=
    (m.registers.get_setFlag b k).trans (if_neg (Ne.symm hk))
  intro i
  rw [execute_draw, execute_draw]
  show ((m.screen.draw _ _ _).1.draw ((m.registers.setFlag _).get x) ((m.registers.setFlag _).get y)
    _).1 = _
  rw [hget x hx, hget y hy]
  exact Screen.draw_draw _ _ _ _

/-- The draw instruction, whatever the machine: it toggles, once, the pixels under the set bits of
the rows found from I on, and VF says if it has put one out. -/
theorem execute_draw_toggles (m : Machine) (x y n : Fin 16) :
    let i := Instruction.draw x.val y.val (UInt8.ofNat n.val)
    let sprite := List.ofFn fun k : Fin n.val =>
      m.memory.read (m.registers.index.advance (UInt16.ofNat k.val))
    let done := m.execute i
    done.result = .ok ⟨m.registers.pc.advance 2, some .screenDirty⟩ ∧
    m.DrawsSprite ((m.registers.get x).toNat % 64) ((m.registers.get y).toNat % 32) sprite
      done.machine ∧
    (n = 0 → done.machine.screen = m.screen ∧
      done.machine.registers.get Registers.flag = 0) ∧
    (x ≠ Registers.flag → y ≠ Registers.flag →
      (∃ step, (done.machine.execute i).result = .ok step) ∧
        (done.machine.execute i).machine.screen = m.screen) ∧
    (m.waiting = none → m.fetch.toNat = 0xD000 + 256 * x.val + 16 * y.val + n.val →
      m.step.result = done.result ∧ m.step.machine = done.machine) := by
  intro i sprite done
  have hblock : m.memory.block m.registers.index n.val = sprite := m.memory.block_eq_ofFn _ _
  have hdone : done = _ := execute_draw m x y n
  rw [hblock] at hdone
  have hheight : sprite.length ≤ 32 := by
    rw [List.length_ofFn]
    omega
  refine ⟨?_, ?_, ?_, ?_, ?_⟩
  · rw [hdone]
  · rw [hdone]
    exact m.drawsSprite_of_draw _ _ hheight
  · rintro rfl
    rw [hdone]
    exact ⟨rfl, (m.registers.get_setFlag false _).trans (if_pos rfl)⟩
  · intro hx hy
    have hagain : done.machine.execute i = _ := done.machine.execute_draw x y n
    exact ⟨⟨_, by rw [hagain]⟩, m.screen_execute_draw_twice n hx hy⟩
  · intro hw hword
    have hn : (UInt8.ofNat n.val).toNat = n.val := Keypad.toNat_ofNat_key n
    have hi : Instruction.decode m.fetch = .ok i := by
      apply Instruction.decode_of_code
      · exact ⟨x.isLt, y.isLt, by rw [hn]; exact n.isLt⟩
      · rw [hword, Instruction.code, Instruction.pairForm, hn]
    exact ⟨result_step_of_decode hw hi, machine_step_of_decode hw hi⟩

/-- I points at the instruction itself, which is drawn across the lower right corner and is gone
after a second time. -/
theorem execute_draw_toggles_at_corner :
    let m := (((fresh {} (.ofSeed 8)).performAll
      [.execute (.setByte 0 62), .execute (.setByte 1 31), .execute (.setIndex 0x206)]).perform
        (.load #[0, 0, 0, 0, 0, 0, 0xD0, 0x12])).machine
    let i := Instruction.draw 0 1 2
    m.waiting = none ∧ m.fetch.toNat = 0xD012 ∧
      m.step.result = .ok ⟨0x208, some .screenDirty⟩ ∧
      m.step.machine.screen.get (1, 31) = true ∧ m.step.machine.screen.get (4, 0) = true ∧
      m.step.machine.registers.get Registers.flag = 0 ∧
      (0 : Fin 16) ≠ Registers.flag ∧ (1 : Fin 16) ≠ Registers.flag ∧
      ((m.execute i).machine.execute i).machine.screen = m.screen ∧
      (m.execute (.draw 15 15 0)).machine.screen = m.screen := by
  intro m i
  have hpc : m.registers.pc = 0x206 := rfl
  have hindex : m.registers.index = 0x206 := rfl
  have hx : (m.registers.get 0).toNat = 62 := rfl
  have hy : (m.registers.get 1).toNat = 31 := rfl
  have hblank : m.screen = Screen.blank := rfl
  have hw : m.waiting = none := rfl
  have hhigh : m.memory.read 0x206 = 0xD0 :=
    read_perform_load_of_lt (by decide) (by decide) (by decide)
  have hlow : m.memory.read 0x207 = 0x12 :=
    read_perform_load_of_lt (by decide) (by decide) (by decide)
  -- the rest needs no more of the machine, and must not compute its memory
  clear_value m
  have hfetch : m.fetch.toNat = 0xD012 := by
    rw [fetch, hpc]
    show (Word.ofBytes (m.memory.read 0x206) (m.memory.read 0x207)).toNat = _
    rw [hhigh, hlow]
    rfl
  have hsprite : (List.ofFn fun k : Fin (2 : Fin 16).val =>
      m.memory.read (m.registers.index.advance (UInt16.ofNat k.val))) = [0xD0, 0x12] := by
    rw [hindex]
    show [m.memory.read 0x206, m.memory.read 0x207] = _
    rw [hhigh, hlow]
  obtain ⟨hresult, hdraws, -, htwice, hstep⟩ := m.execute_draw_toggles 0 1 2
  obtain ⟨hsame, hmachine⟩ := hstep hw hfetch
  rw [hsprite, hx, hy] at hdraws
  have h0 : (0 : Fin 16) ≠ Registers.flag := by decide
  have h1 : (1 : Fin 16) ≠ Registers.flag := by decide
  refine ⟨hw, hfetch, ?_, ?_, ?_, ?_, h0, h1, (htwice h0 h1).2,
    ((m.execute_draw_toggles 15 15 0).2.2.1 rfl).1⟩
  · rw [hsame, hresult, hpc]
    rfl
  · rw [hmachine, hdraws.screen, hblank, Screen.get_blank]
    decide +kernel
  · rw [hmachine, hdraws.screen, hblank, Screen.get_blank]
    decide +kernel
  · rw [hmachine]
    apply hdraws.no_collision
    intro c hc
    rw [hblank, Screen.get_blank] at hc
    cases hc

end Machine

end Chip8
