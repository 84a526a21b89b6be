import Chip8.Proofs.Twins
import Chip8.Proofs.WellFormed

/-!
Where the dialect of a machine shows: at a shift of two registers that differ and at an offset jump
with two registers that differ, and nowhere else. Main statement: `dialect_hidden`.
-/

namespace Chip8.Machine

/-- The operation would do the same in another dialect: if it shifts or jumps by an offset, then
the dialects agree on where the value is to come from, or both places hold the same value. -/
structure Indifferent (m : Machine) (d : Dialect) (op : Operation) : Prop where
  shift : ∀ direction (x y : Fin 16), m.executed? op = some (.shift direction x.val y.val) →
    m.dialect.shiftUsesVy = d.shiftUsesVy ∨ m.registers.get x = m.registers.get y
  jump : ∀ (a : Word) (x : Fin 16), m.executed? op = some (.jumpOffset a) →
    a.toNat / 256 = x.val →
      m.dialect.jumpUsesVx = d.jumpUsesVx ∨ m.registers.get 0 = m.registers.get x

variable {m : Machine} {d : Dialect} {op : Operation}

theorem intake_shift_eq {direction : Direction} {x y : Fin 16}
    (h : m.dialect.shiftUsesVy = d.shiftUsesVy ∨ m.registers.get x = m.registers.get y) :
    (Instruction.shift direction x.val y.val).intake m =
      (Instruction.shift direction x.val y.val).intake { m with dialect := d } := by
  simp only [Instruction.intake, Dialect.shiftSource]
  rcases h with h | h
  · rw [h]
  · cases m.dialect.shiftUsesVy <;> cases d.shiftUsesVy <;>
      simp [operand_of_lt x.isLt, operand_of_lt y.isLt, Except.map, h]

theorem intake_jumpOffset_eq {a : Word} {x : Fin 16} (hx : a.toNat / 256 = x.val)
    (h : m.dialect.jumpUsesVx = d.jumpUsesVx ∨ m.registers.get 0 = m.registers.get x) :
    (Instruction.jumpOffset a).intake m =
      (Instruction.jumpOffset a).intake { m with dialect := d } := by
  have h0 : operand 0 = .ok 0 := rfl
  simp only [Instruction.intake, Dialect.offsetRegister, hx]
  rcases h with h | h
  · rw [h]
  · cases m.dialect.jumpUsesVx <;> cases d.jumpUsesVx <;>
      simp [operand_of_lt x.isLt, h0, Except.map, h]

theorem Indifferent.sameIntake (h : m.Indifferent d op) (hop : op.Decoded) :
    m.SameIntake { m with dialect := d } op := by
  refine ⟨fun _ _ => rfl, ?_⟩
  intro i hi
  have hfits := fitsWord_of_instruction? hop hi
  cases i with
  | shift direction x y =>
    obtain ⟨e, he⟩ := Instruction.exists_effect (m := m) hfits nofun nofun
    obtain ⟨hx, hy⟩ := hfits
    exact intake_shift_eq (h.shift direction ⟨x, hx⟩ ⟨y, hy⟩ (executed?_of_effect hi he))
  | jumpOffset a =>
    obtain ⟨e, he⟩ := Instruction.exists_effect (m := m) hfits nofun nofun
    have ha : a.toNat / 256 < 16 := by
      have ha : a.toNat < 4096 := hfits
      omega
    exact intake_jumpOffset_eq (x := ⟨_, ha⟩) rfl (h.jump a _ (executed?_of_effect hi he) rfl)
  | _ => rfl

/-- A machine in another dialect answers and logs the same and ends in the same state, if at each
shift and each offset jump on the way the dialects agree or the registers in question do. -/
theorem dialect_hidden (m : Machine) (d : Dialect) (ops : List Operation)
    (hdecoded : ∀ op ∈ ops, op.Decoded)
    (hops : ∀ before op after, ops = before ++ op :: after →
      (m.performAll before).Indifferent d op) :
    ({ m with dialect := d } : Machine).replies ops = m.replies ops ∧
      ({ m with dialect := d } : Machine).performAll ops =
        { m.performAll ops with dialect := d } := by
  obtain ⟨hreplies, μ, hμ, hstate⟩ :=
    performAll_refit d m.random (.refl ∅ m.memory) ops <| by
      intro before op after hsplit μ hμ
      obtain rfl := hμ.eq
      rw [← m.random_performAll_eq before]
      exact (hops before op after hsplit).sameIntake (hdecoded op (by simp [hsplit]))
  obtain rfl := hμ.eq
  refine ⟨hreplies, hstate.trans ?_⟩
  rw [← m.random_performAll_eq ops]
  rfl

/-- Both flags differ, but V1 and V2 hold the same byte, and so do V0 and V3. -/
theorem dialect_hidden_of_equal_registers :
    let m := (fresh {} (.ofSeed 8)).performAll [.execute (.setByte 1 7), .execute (.setByte 2 7)]
    let d : Dialect := { shiftUsesVy := true, jumpUsesVx := true }
    let ops := [Operation.execute (.shift .right 1 2), .execute (.jumpOffset 0x300)]
    (∀ op ∈ ops, op.Decoded) ∧
      (∀ before op after, ops = before ++ op :: after →
        (m.performAll before).Indifferent d op) ∧
      ({ m with dialect := d } : Machine).performAll ops =
        { m.performAll ops with dialect := d } := by
  intro m d ops
  have hdecoded : ∀ op ∈ ops, op.Decoded := by
    simp only [ops, List.forall_mem_cons, Operation.Decoded]
    exact ⟨⟨0x8126, rfl⟩, ⟨0xB300, rfl⟩, fun op hop => nomatch hop⟩
  have hops : ∀ before op after, ops = before ++ op :: after →
      (m.performAll before).Indifferent d op := by
    rintro (_ | ⟨first, _ | ⟨second, before⟩⟩) op after h
    · obtain ⟨rfl, -⟩ := List.cons.inj h
      refine ⟨?_, nofun⟩
      intro direction x y hex
      obtain ⟨-, hx, hy⟩ := Instruction.shift.inj (Option.some.inj hex)
      obtain rfl : (1 : Fin 16) = x := Fin.ext hx
      obtain rfl : (2 : Fin 16) = y := Fin.ext hy
      exact .inr rfl
    · obtain ⟨rfl, htail⟩ := List.cons.inj h
      obtain ⟨rfl, -⟩ := List.cons.inj htail
      refine ⟨nofun, ?_⟩
      intro a x hex hx
      obtain rfl := Instruction.jumpOffset.inj (Option.some.inj hex)
      obtain rfl : (3 : Fin 16) = x := Fin.ext hx
      exact .inr rfl
    · simp [ops] at h
  exact ⟨hdecoded, hops, (dialect_hidden m d ops hdecoded hops).2⟩

end Chip8.Machine
