import Chip8.Instruction.Text
import Chip8.Proofs.Scan
import Mathlib.Data.List.TakeWhile

/-!
Instructions read back from their text. A name has no bracket in it, and a number ends before the
comma or bracket behind it. Main statement: `ofText?_text`, so that different instructions have
different texts (`text_injective`).
-/

namespace Chip8.Instruction

def operandsOf? (cs : List Char) : Option (List Nat) :=
  match _h : Numeral.scan? 10 cs with
  | some (n, [')']) => some [n]
  | some (n, ',' :: ' ' :: rest) => (operandsOf? rest).map (n :: ·)
  | _ => none
termination_by cs.length
decreasing_by
  have hlt := Numeral.length_lt_of_scan? ‹_›
  simp only [List.length_cons] at hlt
  omega

def ofText? (s : String) : Option Instruction :=
  let name := String.ofList (s.toList.takeWhile (· != '('))
  match s.toList.dropWhile (· != '(') with
  | [] => ofParts? name []
  | _ :: cs => (operandsOf? cs).bind (ofParts? name)

theorem operandsOf?_last {cs : List Char} {n : Nat}
    (h : Numeral.scan? 10 cs = some (n, [')'])) : operandsOf? cs = some [n] := by
  rw [operandsOf?]
  split <;> simp_all

theorem operandsOf?_more {cs rest : List Char} {n : Nat}
    (h : Numeral.scan? 10 cs = some (n, ',' :: ' ' :: rest)) :
    operandsOf? cs = (operandsOf? rest).map (n :: ·) := by
  rw [operandsOf?]
  split <;> simp_all

theorem operandsOf?_intercalate {ns : List Nat} (h : ns ≠ []) :
    operandsOf? ((", ".intercalate (ns.map Numeral.decimal)).toList ++ [')']) = some ns := by
  rw [String.toList_intercalate, List.map_map]
  have hdecimal : String.toList ∘ Numeral.decimal = Numeral.write 10 1 := by
    funext n
    exact String.toList_ofList
  rw [hdecimal]
  induction ns with
  | nil => exact absurd rfl h
  | cons n ns ih =>
    cases ns with
    | nil =>
      rw [List.map_singleton, List.intercalate_singleton]
      exact operandsOf?_last (Numeral.scan?_write_cons (by decide) (by decide) 1 n (by decide))
    | cons k ns =>
      have hsep : ", ".toList = [',', ' '] := rfl
      rw [hsep] at ih ⊢
      rw [List.map_cons, List.map_cons, List.intercalate_cons_cons, List.append_assoc,
        List.append_assoc]
      rw [List.cons_append, List.cons_append, List.nil_append,
        operandsOf?_more (Numeral.scan?_write_cons (by decide) (by decide) 1 n (by decide)),
        ← List.map_cons, ih (List.cons_ne_nil k ns)]
      rfl

theorem ne_bracket_of_mem_name (i : Instruction) : ∀ c ∈ i.name.toList, (c != '(') = true := by
  have hforms : ∀ f ∈ forms, f.name.toList.all (· != '(') = true := by decide +kernel
  obtain ⟨f, hf, -⟩ := find?_forms i
  have hname : f.name = i.name := by simpa using List.find?_some hf
  rw [← hname]
  exact List.all_eq_true.mp (hforms f (List.mem_of_find?_eq_some hf))

/-- An instruction is read back from its text. -/
theorem ofText?_text (i : Instruction) : ofText? i.text = some i := by
  have hname := ne_bracket_of_mem_name i
  have hparts := ofParts?_name_operands i
  rcases hns : i.operands with _ | ⟨n, ns⟩
  · have htext : i.text = i.name := by simp only [text, hns]
    rw [hns] at hparts
    rw [ofText?, htext, List.takeWhile_eq_self_iff.mpr hname, List.dropWhile_eq_nil_iff.mpr hname,
      String.ofList_toList]
    exact hparts
  · have htext : i.text.toList = i.name.toList ++
        '(' :: ((", ".intercalate (i.operands.map Numeral.decimal)).toList ++ [')']) := by
      simp [text, hns]
    have hne : i.operands ≠ [] := by simp [hns]
    rw [ofText?, htext, List.takeWhile_append_of_pos hname, List.dropWhile_append_of_pos hname]
    show (operandsOf? _).bind (ofParts? (String.ofList (i.name.toList ++ []))) = some i
    rw [operandsOf?_intercalate hne, List.append_nil, String.ofList_toList]
    exact hparts

theorem text_injective {i j : Instruction} (h : i.text = j.text) : i = j := by
  have hi := ofText?_text i
  rw [h, ofText?_text j] at hi
  exact (Option.some.inj hi).symm

end Chip8.Instruction
