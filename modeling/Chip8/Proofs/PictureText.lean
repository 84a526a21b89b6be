import Chip8.Screen.Text

/-!
Pictures read line by line. A text is split at its newlines, each line has to show 64 pixels and
there have to be 32 of them, so that a screen is read from its picture and from no other text
(`ofLines?_eq_some_iff`). Main statement: `picture_lossless`.
-/

namespace Chip8

section Readers

variable {α β : Type}

/-- A reader of elements that reads just what is written reads lists in the same way. -/
theorem mapM_eq_some_iff_of_inverse {read? : α → Option β} {write : β → α}
    (h : ∀ a b, read? a = some b ↔ a = write b) {as : List α} {bs : List β} :
    as.mapM read? = some bs ↔ as = bs.map write := by
  induction as generalizing bs with
  | nil => simp [eq_comm]
  | cons a as ih =>
    cases bs with
    | nil => simp [Option.bind_eq_some_iff]
    | cons b bs => simp [Option.bind_eq_some_iff, h, ih]

def sized? (n : Nat) (l : List α) : Option (Vector α n) :=
  if h : l.length = n then some ⟨l.toArray, h⟩ else none

theorem sized?_eq_some_iff {n : Nat} {l : List α} {v : Vector α n} :
    sized? n l = some v ↔ l = v.toList := by
  unfold sized?
  split
  · rw [Option.some.injEq, Vector.toList_inj.symm]
    rfl
  · rename_i h
    refine iff_of_false (by simp) fun hv => h ?_
    rw [hv, Vector.length_toList]

end Readers

namespace Screen

def pixelOf? (c : Char) : Option Bool :=
  if c = litChar then some true else if c = darkChar then some false else none

def rowOf? (line : List Char) : Option (Vector Bool 64) := (line.mapM pixelOf?).bind (sized? 64)

/-- The lines of a text, if each of them is ended by a newline. -/
def lines? (cs : List Char) : Option (List (List Char)) :=
  let parts := cs.splitOn '\n'
  if parts.getLast? = some [] then some parts.dropLast else none

def ofLines? (cs : List Char) : Option Screen :=
  (lines? cs).bind fun lines => (lines.mapM rowOf?).bind fun rows => (sized? 32 rows).map mk

variable {cs : List Char} {lines : List (List Char)} {s t : Screen}

theorem pixelOf?_eq_some_iff {c : Char} {lit : Bool} :
    pixelOf? c = some lit ↔ c = pixelChar lit := by
  have hne : darkChar ≠ litChar := by decide
  unfold pixelOf?
  cases lit with
  | true => by_cases hlit : c = litChar <;> simp [pixelChar, hlit]
  | false => by_cases hdark : c = darkChar <;> simp [pixelChar, hdark, hne]

theorem rowOf?_eq_some_iff {l : List Char} {row : Vector Bool 64} :
    rowOf? l = some row ↔ l = row.toList.map pixelChar := by
  rw [rowOf?, Option.bind_eq_some_iff]
  simp only [mapM_eq_some_iff_of_inverse fun c lit => pixelOf?_eq_some_iff, sized?_eq_some_iff,
    exists_eq_right]

theorem lines?_eq_some_iff : lines? cs = some lines ↔ cs.splitOn '\n' = lines ++ [[]] := by
  simp only [lines?, Option.ite_none_right_eq_some, Option.some.injEq]
  constructor
  · rintro ⟨hlast, rfl⟩
    obtain ⟨init, hinit⟩ := List.getLast?_eq_some_iff.mp hlast
    rw [hinit, List.dropLast_concat]
  · intro h
    simp [h]

theorem intercalate_concat_nil (lines : List (List Char)) :
    ['\n'].intercalate (lines ++ [[]]) = lines.flatMap (· ++ ['\n']) := by
  induction lines with
  | nil => rfl
  | cons l lines ih =>
    rw [List.cons_append, List.intercalate_cons_of_ne_nil (by simp), ih, List.flatMap_cons]

theorem newline_not_mem_pixels (row : Vector Bool 64) : '\n' ∉ row.toList.map pixelChar := by
  intro h
  obtain ⟨lit, -, hlit⟩ := List.mem_map.mp h
  revert hlit
  cases lit <;> decide

theorem text_eq (s : Screen) :
    s.text = (s.rows.toList.map fun row => row.toList.map pixelChar).flatMap (· ++ ['\n']) := by
  rw [text, List.flatMap_map]
  rfl

/-- The lines of a picture are its rows. -/
theorem lines?_text (s : Screen) :
    lines? s.text = some (s.rows.toList.map fun row => row.toList.map pixelChar) := by
  rw [lines?_eq_some_iff, text_eq, ← intercalate_concat_nil]
  refine List.splitOn_intercalate '\n' ?_ (by simp)
  intro l hl
  rcases List.mem_append.mp hl with hl | hl
  · obtain ⟨row, -, rfl⟩ := List.mem_map.mp hl
    exact newline_not_mem_pixels row
  · rw [List.mem_singleton.mp hl]
    exact List.not_mem_nil

theorem eq_flatMap_of_lines? (h : lines? cs = some lines) : cs = lines.flatMap (· ++ ['\n']) := by
  rw [← intercalate_concat_nil, ← lines?_eq_some_iff.mp h, List.intercalate_splitOn]

/-- A screen is read from its picture and from no other text. -/
theorem ofLines?_eq_some_iff : ofLines? cs = some s ↔ cs = s.text := by
  have hrows : ∀ (lines : List (List Char)) (rows : List (Vector Bool 64)),
      lines.mapM rowOf? = some rows ↔ lines = rows.map fun row => row.toList.map pixelChar :=
    fun _ _ => mapM_eq_some_iff_of_inverse fun l row => rowOf?_eq_some_iff
  simp only [ofLines?, Option.bind_eq_some_iff, Option.map_eq_some_iff, hrows, sized?_eq_some_iff]
  constructor
  · rintro ⟨lines, hlines, rows, rfl, v, rfl, rfl⟩
    rw [eq_flatMap_of_lines? hlines, text_eq]
  · rintro rfl
    exact ⟨_, s.lines?_text, _, rfl, _, rfl, rfl⟩

theorem toList_render (s : Screen) : s.render.toList = s.text := String.toList_ofList

theorem render_inj : s.render = t.render ↔ s = t := by
  refine ⟨fun h => ?_, congrArg render⟩
  rw [← ofText_text s, ← toList_render, h, toList_render, ofText_text]

theorem record_inj : s.record = t.record ↔ s = t := by
  refine ⟨fun h => render_inj.mp ?_, congrArg record⟩
  have hlists : s.render.toList = t.render.toList := by
    simpa [record] using congrArg String.toList h
  exact String.toList_inj.mp hlists

/-- A picture is 32 lines of 64 characters, each line ended by a newline, and the character in a
column of a line shows the pixel there. No two screens have the same picture or the same record. -/
theorem picture_lossless (s : Screen) :
    (∃ lines : Vector (Vector Char 64) 32,
      s.render.toList = lines.toList.flatMap (fun l => l.toList ++ ['\n']) ∧
      ∀ (y : Fin 32) (x : Fin 64), lines[y][x] = if s.pixel x y then '█' else '░') ∧
    (∀ cs, ofLines? cs = some s ↔ cs = s.render.toList) ∧
    ∀ t : Screen, (s.render = t.render ↔ s = t) ∧ (s.record = t.record ↔ s = t) := by
  refine ⟨⟨s.rows.map fun row => row.map pixelChar, ?_, ?_⟩, ?_, fun t => ⟨render_inj, record_inj⟩⟩
  · rw [toList_render, text_eq]
    simp [List.flatMap_map, Vector.toList_map]
  · intro y x
    have hx := Nat.mod_eq_of_lt x.isLt
    have hy := Nat.mod_eq_of_lt y.isLt
    simp [pixel, cellAt, get, pixelChar, litChar, darkChar, hx, hy]
  · intro cs
    rw [toList_render]
    exact ofLines?_eq_some_iff

end Screen

end Chip8
