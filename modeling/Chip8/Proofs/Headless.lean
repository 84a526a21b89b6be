import Chip8.Proofs.Truncation

/-!
Runs with a display and without. A frame without one does the same to the machine and writes the
same bells (`next_muted`), so the two runs go side by side, and what is written without a display is
what is written with one, its pictures deleted. The deletion is a function of the text alone
(`withoutPictures`), and finds the pictures in it again (`withoutPictures_join`). Main statement:
`headless_drops_pictures`; `session_headless` is the same for the arguments of the program.
-/

namespace Chip8

def Machine.visits (m : Machine) : List Operation → List Machine
  | [] => [m]
  | op :: ops => m :: (m.perform op).machine.visits ops

namespace Terminal

def Settings.withDisplay (s : Settings) : Settings := { s with headless := false }

def Settings.withoutDisplay (s : Settings) : Settings := { s with headless := true }

/-- What a picture begins with: the terminal is cleared, and the text goes to its top left. -/
def clearing : List Char := "\x1b[2J\x1b[H".toList

/-- Deletes the pictures from a text, of which the first lines may be the rest of a picture. Behind
what it begins with, a picture has 32 lines. -/
def eraseFrom : Nat → List Char → List Char
  | _, [] => []
  | 0, c :: cs => if clearing.isPrefixOf (c :: cs) then eraseFrom 32 cs else c :: eraseFrom 0 cs
  | lines + 1, c :: cs => if c = '\n' then eraseFrom lines cs else eraseFrom (lines + 1) cs

def withoutPictures (text : String) : String := String.ofList (eraseFrom 0 text.toList)

def Report.withoutPictures (r : Report) : Report :=
  { r with stdout := Terminal.withoutPictures r.stdout }

section Text

variable {cs rest : List Char} {lines : Nat}

theorem eraseFrom_within (h : '\n' ∉ cs) :
    eraseFrom (lines + 1) (cs ++ rest) = eraseFrom (lines + 1) rest := by
  induction cs with
  | nil => rfl
  | cons c cs ih =>
    rw [List.mem_cons, not_or] at h
    rw [List.cons_append, eraseFrom, if_neg (Ne.symm h.1), ih h.2]

theorem eraseFrom_line (h : '\n' ∉ cs) :
    eraseFrom (lines + 1) (cs ++ '\n' :: rest) = eraseFrom lines rest :=
  (eraseFrom_within h).trans (if_pos rfl)

theorem eraseFrom_rows (rows : List (Vector Bool 64)) (rest : List Char) :
    eraseFrom rows.length (rows.flatMap Screen.line ++ rest) = eraseFrom 0 rest := by
  induction rows with
  | nil => rfl
  | cons row rows ih =>
    have hdark : '\n' ∉ row.toList.map Screen.pixelChar := by
      rw [List.mem_map]
      rintro ⟨lit, -, h⟩
      cases lit <;> cases h
    rw [List.flatMap_cons, List.length_cons, Screen.line, List.append_assoc, List.append_assoc,
      List.singleton_append, eraseFrom_line hdark, ih]

theorem eraseFrom_picture (screen : Screen) (rest : List Char) :
    eraseFrom 0 ((Output.picture screen).text.toList ++ rest) = eraseFrom 0 rest := by
  have htext : (Output.picture screen).text.toList ++ rest =
      '\x1b' :: (['[', '2', 'J', '\x1b', '[', 'H'] ++ (screen.text ++ rest)) := by
    simp only [Output.text, Screen.render, String.toList_join, List.flatMap_cons, List.flatMap_nil,
      List.append_nil, String.toList_ofList, List.append_assoc]
    rfl
  have hpicture : clearing.isPrefixOf
      ('\x1b' :: (['[', '2', 'J', '\x1b', '[', 'H'] ++ (screen.text ++ rest))) = true := rfl
  have hrows := eraseFrom_rows screen.rows.toList rest
  rw [Vector.length_toList] at hrows
  rw [htext, eraseFrom, if_pos hpicture, eraseFrom_within (by decide)]
  exact hrows

theorem eraseFrom_bell (rest : List Char) :
    eraseFrom 0 (Output.bell.text.toList ++ rest) =
      Output.bell.text.toList ++ eraseFrom 0 rest := by
  have hbell : Output.bell.text.toList = ['\x07'] := rfl
  have hkept : clearing.isPrefixOf ('\x07' :: rest) = false := rfl
  rw [hbell, List.singleton_append, eraseFrom, hkept, if_neg Bool.false_ne_true,
    List.singleton_append]

/-- The pictures deleted from the text of an output are the pictures of the output. -/
theorem eraseFrom_flatMap (output : List Output) :
    eraseFrom 0 (output.flatMap (·.text.toList)) =
      (output.filter (· = .bell)).flatMap (·.text.toList) := by
  induction output with
  | nil => rfl
  | cons o output ih =>
    rw [List.flatMap_cons]
    cases o with
    | bell => rw [eraseFrom_bell, ih, List.filter_cons_of_pos (by rfl), List.flatMap_cons]
    | picture screen => rw [eraseFrom_picture, ih, List.filter_cons_of_neg (by simp)]

theorem withoutPictures_join (output : List Output) :
    withoutPictures (String.join (output.map Output.text)) =
      String.join ((output.filter (· = .bell)).map Output.text) := by
  apply String.toList_inj.mp
  rw [withoutPictures, String.toList_ofList, String.toList_join, String.toList_join,
    List.flatMap_map, List.flatMap_map, eraseFrom_flatMap]

end Text

namespace Draft

variable {d d' : Draft} {s : Settings}

def hidden (d : Draft) : Draft := { d with headless := true }

/-- A change of a draft that does not look at the flag, if it does not set it. -/
def Heedless (f : Draft → Except UsageError Draft) : Prop :=
  ∀ d d', f d = .ok d' → d'.headless = false →
    d.headless = false ∧ f d.hidden = .ok d'.hidden

theorem heedless_setPath (path : String) : Heedless (setPath · path) := by
  intro d d' h hd
  simp only [setPath] at h
  split at h
  · cases h
  · rename_i hrom
    split at h
    · cases h
    · rename_i hpath
      cases h
      exact ⟨hd, by simp [setPath, hidden, hrom, hpath]⟩

theorem heedless_setValue (choice : Choice) (text : List Char) :
    Heedless (setValue · choice text) := by
  intro d d' h hd
  have hmap : ∀ {x : Except UsageError Nat} {set : Nat → Draft}, x.map set = .ok d' →
      ∃ n, x = .ok n ∧ set n = d' := by
    rintro (e | n) set hx
    · cases hx
    · exact ⟨n, rfl, Except.ok.inj hx⟩
  cases choice with
  | ips | maxFrames | seed =>
    obtain ⟨n, hn, rfl⟩ := hmap h
    refine ⟨hd, ?_⟩
    show (value _ _ _ text).map _ = _
    rw [hidden, hn]
    rfl
  | _ => cases h

theorem heedless_setFlag (choice : Choice) : Heedless (setFlag · choice) := by
  intro d d' h hd
  cases choice with
  | shiftUsesVy | jumpUsesVx =>
    simp only [setFlag] at h ⊢
    split at h
    · cases h
    · rename_i hflag
      cases h
      exact ⟨hd, by simp [hidden, hflag]⟩
  | headless =>
    simp only [setFlag] at h
    split at h
    · cases h
    · cases h
      cases hd
  | _ => cases h

theorem heedless_foldlM (paths : List String) : Heedless (paths.foldlM setPath ·) := by
  induction paths with
  | nil =>
    intro d d' h hd
    cases h
    exact ⟨hd, rfl⟩
  | cons path paths ih =>
    intro d d' h hd
    simp only [List.foldlM_cons] at h ⊢
    cases hset : d.setPath path with
    | error e =>
      rw [hset] at h
      cases h
    | ok d₁ =>
      rw [hset] at h
      obtain ⟨hd₁, hfold⟩ := ih d₁ d' h hd
      obtain ⟨hd, hpath⟩ := heedless_setPath path d d₁ hset hd₁
      have hpath : d.hidden.setPath path = .ok d₁.hidden := hpath
      exact ⟨hd, by rw [hpath]; exact hfold⟩

theorem Heedless.bind {f : Draft → Except UsageError Draft} (hf : Heedless f)
    {g : Draft → Except UsageError Request}
    (hg : ∀ d, g d = .ok (.run s) → d.headless = false ∧ g d.hidden = .ok (.run s.withoutDisplay))
    (h : (f d).bind g = .ok (.run s)) :
    d.headless = false ∧ (f d.hidden).bind g = .ok (.run s.withoutDisplay) := by
  cases hset : f d with
  | error e =>
    rw [hset] at h
    cases h
  | ok d' =>
    rw [hset] at h
    obtain ⟨hd', hread⟩ := hg d' h
    obtain ⟨hd, hset⟩ := hf d d' hset hd'
    exact ⟨hd, by rw [hset]; exact hread⟩

theorem finish_hidden (hs : s.headless = false) (h : d.finish = .ok (.run s)) :
    d.headless = false ∧ d.hidden.finish = .ok (.run s.withoutDisplay) := by
  simp only [finish] at h ⊢
  split at h
  · cases h
  · rename_i rom hrom
    cases h
    exact ⟨hs, by simp [hidden, hrom, Settings.withoutDisplay]⟩

theorem read_hidden {arguments : List String} (hs : s.headless = false)
    (h : d.read arguments = .ok (.run s)) :
    d.headless = false ∧ d.hidden.read arguments = .ok (.run s.withoutDisplay) := by
  -- the cases that are not named end in a mistake, or ask for the version or for help
  fun_induction d.read arguments with
  | case1 d => exact finish_hidden hs h
  | case2 d argument rest ht ih =>
    rw [read, ht]
    exact (heedless_setPath argument).bind (fun d' => ih d') h
  | case3 d argument rest ht =>
    rw [read, ht]
    exact (heedless_foldlM rest).bind (fun d' => finish_hidden hs) h
  | case7 d argument rest choice value ht ih =>
    have hread : d.hidden.read (argument :: rest) =
        (d.hidden.setValue choice value).bind fun d => d.read rest := by
      rw [read, ht]
      cases choice <;> rfl
    rw [hread]
    exact (heedless_setValue choice value).bind (fun d' => ih d') h
  | case10 d argument choice hversion hhelp ht htakes value rest hvalue ih =>
    have hread : d.hidden.read (argument :: value :: rest) =
        (d.hidden.setValue choice value.toList).bind fun d => d.read rest := by
      simp only [read, ht, htakes, hvalue, if_true, if_false]
    rw [hread]
    exact (heedless_setValue choice value.toList).bind (fun d' => ih d') h
  | case11 d argument rest choice hversion hhelp ht htakes ih =>
    have hread : d.hidden.read (argument :: rest) =
        (d.hidden.setFlag choice).bind fun d => d.read rest := by
      simp only [read, ht]
      exact if_neg htakes
    rw [hread]
    exact (heedless_setFlag choice).bind (fun d' => ih d') h
  | _ => cases h

end Draft

/-- One more flag in front of valid arguments that lack it. -/
theorem ofArguments_headless {arguments : List String} {s : Settings} (hs : s.headless = false)
    (h : Request.ofArguments arguments = .ok (.run s)) :
    Request.ofArguments ("--headless" :: arguments) = .ok (.run s.withoutDisplay) := by
  have hflag : Token.ofText "--headless".toList = .option (some .headless) none := rfl
  have hread : ({} : Draft).read ("--headless" :: arguments) =
      (({} : Draft).setFlag .headless).bind fun d => d.read arguments := by
    simp only [Draft.read, hflag]
    rfl
  rw [Request.ofArguments, hread]
  exact (Draft.read_hidden hs h).2

namespace Playback

variable {s : Settings} {p : Playback} {n : Nat}

def muted (p : Playback) : Playback := { p with output := p.output.filter (· = .bell) }

theorem start_withoutDisplay (s : Settings) (file : Except FileError (Array Byte))
    (random : RandomSource) :
    start s.withoutDisplay file random = (start s.withDisplay file random).muted := by
  have hsame : start s.withoutDisplay file random = start s.withDisplay file random := rfl
  rw [hsame]
  cases file with
  | error cause => rfl
  | ok program =>
    simp only [start]
    cases (Machine.load (Machine.fresh s.withDisplay.dialect random) program).result <;> rfl

/-- A frame is the same with a display and without, but for the picture. -/
theorem next_muted (s : Settings) (p : Playback) :
    p.muted.next s.withoutDisplay = (p.next s.withDisplay).muted := by
  obtain ⟨machine, warned, output, notices, ending⟩ := p
  have hsteps : s.withoutDisplay.stepsPerFrame = s.withDisplay.stepsPerFrame := rfl
  have hquiet : s.withoutDisplay.headless = true := rfl
  simp only [next, muted, pictures, hsteps, hquiet]
  generalize frame s.withDisplay.stepsPerFrame machine = f
  cases f.ending <;> cases f.dirty <;> cases warned <;> simp [List.filter_append]

theorem play_muted (s : Settings) (n : Nat) (p : Playback) :
    p.muted.play s.withoutDisplay n = (p.play s.withDisplay n).muted ∧
      p.muted.operations s.withoutDisplay n = p.operations s.withDisplay n := by
  have hframe : ∀ p : Playback,
      p.muted.frameOperations s.withoutDisplay = p.frameOperations s.withDisplay := fun _ => rfl
  have hending : ∀ p : Playback, p.muted.ending = p.ending := fun _ => rfl
  induction n generalizing p with
  | zero => exact ⟨rfl, rfl⟩
  | succ n ih =>
    rcases hp : p.ending with _ | e
    · simp only [play, operations, hending, hp, next_muted, hframe, ih, and_self]
    · simp only [play, operations, hending, hp, and_self]

theorem cut_muted (p : Playback) : p.muted.cut = p.cut.muted := by
  obtain ⟨machine, warned, output, notices, ending⟩ := p
  cases ending <;> rfl

theorem ofPlayback_muted (p : Playback) :
    p.muted.ending.map (Report.ofPlayback p.muted) =
      (p.ending.map (Report.ofPlayback p)).map Report.withoutPictures := by
  have hreport : ∀ e, Report.ofPlayback p.muted e = (Report.ofPlayback p e).withoutPictures := by
    intro e
    simp only [Report.ofPlayback, Report.withoutPictures, withoutPictures_join, muted]
  rw [Option.map_map]
  exact congrArg (p.ending.map ·) (funext hreport)

/-- A run without a display leaves the report of the run with one, but for the pictures. -/
theorem report?_withoutDisplay (s : Settings) (file : Except FileError (Array Byte))
    (random : RandomSource) (patience : Nat) :
    report? s.withoutDisplay file random patience =
      (report? s.withDisplay file random patience).map Report.withoutPictures := by
  have hstart := start_withoutDisplay s file random
  have hlimit : s.withoutDisplay.maxFrames = s.withDisplay.maxFrames := rfl
  rw [report?, report?, hlimit, hstart]
  cases s.withDisplay.maxFrames with
  | some n =>
    dsimp only
    rw [(play_muted s n _).1, cut_muted]
    exact ofPlayback_muted _
  | none =>
    dsimp only
    rw [(play_muted s patience _).1]
    exact ofPlayback_muted _

/-- To run without a display changes the pictures and nothing else: the report is that of the run
with one, its pictures deleted from the output, and the machine goes through the same states. Both
runs draw from the same random source, as two runs with one seed do; without a seed, each run of
the program has a source of its own. -/
theorem headless_drops_pictures (s : Settings) (file : Except FileError (Array Byte))
    (random : RandomSource) (patience : Nat) :
    report? s.withoutDisplay file random patience =
      (report? s.withDisplay file random patience).map Report.withoutPictures ∧
    ∀ n, let q := start s.withoutDisplay file random
      let p := start s.withDisplay file random
      (q.play s.withoutDisplay n).machine = (p.play s.withDisplay n).machine ∧
        q.machine.visits (q.operations s.withoutDisplay n) =
          p.machine.visits (p.operations s.withDisplay n) := by
  refine ⟨report?_withoutDisplay s file random patience, fun n => ?_⟩
  have hstart := start_withoutDisplay s file random
  obtain ⟨hplay, hoperations⟩ := play_muted s n (start s.withDisplay file random)
  simp only [hstart, hplay, hoperations]
  exact ⟨rfl, rfl⟩

/-- The flag, put in front of arguments that lack it, takes the pictures out of the report. -/
theorem session_headless {arguments : List String}
    (h : Request.ofArguments arguments = .ok (.run s.withDisplay))
    (file : String → Except FileError (Array Byte)) (random : Option Nat → RandomSource)
    (patience : Nat) :
    session ("--headless" :: arguments) file random patience =
      (session arguments file random patience).map Report.withoutPictures := by
  have hflag : Request.ofArguments ("--headless" :: arguments) = .ok (.run s.withoutDisplay) :=
    ofArguments_headless (s := s.withDisplay) rfl h
  rw [session_of_run hflag, session_of_run h]
  exact report?_withoutDisplay s (file s.rom) (random s.seed) patience

end Playback

end Terminal

end Chip8
