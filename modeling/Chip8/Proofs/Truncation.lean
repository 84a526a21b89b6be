import Chip8.Proofs.Rounds

/-!
Runs that differ in their frame limit only. The limit has no say in what a frame does, and to play
some frames and then some more is to play them all (`play_add`), so a higher limit takes a run up
where a lower one has cut it off. Main statement: `frame_limit_truncates`.
-/

namespace Chip8

namespace Terminal

def Settings.limited (s : Settings) (n : Nat) : Settings := { s with maxFrames := some n }

namespace Playback

def limited (s : Settings) (file : Except FileError (Array Byte)) (random : RandomSource)
    (n : Nat) : Playback :=
  ((start (s.limited n) file random).play (s.limited n) n).cut

variable {s : Settings} {p : Playback} {n k : Nat}

theorem start_limited (s : Settings) (n : Nat) (file : Except FileError (Array Byte))
    (random : RandomSource) : start (s.limited n) file random = start s file random := rfl

theorem next_limited (s : Settings) (n : Nat) (p : Playback) :
    p.next (s.limited n) = p.next s := rfl

theorem play_limited (s : Settings) (n k : Nat) (p : Playback) :
    p.play (s.limited n) k = p.play s k := by
  induction k generalizing p with
  | zero => rfl
  | succ k ih => simp only [play, next_limited, ih]

theorem limited_eq (s : Settings) (file : Except FileError (Array Byte)) (random : RandomSource)
    (n : Nat) : limited s file random n = ((start s file random).play s n).cut := by
  rw [limited, play_limited, start_limited]

theorem play_add (s : Settings) (p : Playback) (n k : Nat) :
    p.play s (n + k) = (p.play s n).play s k := by
  induction n generalizing p with
  | zero => rw [Nat.zero_add, play]
  | succ n ih =>
    rcases hp : p.ending with _ | e
    · rw [Nat.succ_add, (play_succ hp (n + k)).1, (play_succ hp n).1, ih]
    · rw [(play_of_ending hp (n + 1 + k)).1, (play_of_ending hp (n + 1)).1,
        (play_of_ending hp k).1]

theorem output_prefix_next (s : Settings) (p : Playback) : p.output <+: (p.next s).output := by
  rw [output_next]
  exact List.prefix_append _ _

/-- What has been written stays written. -/
theorem output_prefix_play (s : Settings) (p : Playback) (k : Nat) :
    p.output <+: (p.play s k).output := by
  induction k generalizing p with
  | zero => exact List.prefix_refl _
  | succ k ih =>
    rcases hp : p.ending with _ | e
    · rw [(play_succ hp k).1]
      exact (output_prefix_next s p).trans (ih _)
    · exact ⟨[], by rw [(play_of_ending hp (k + 1)).1, List.append_nil]⟩

theorem stdout_append_of_prefix {q : Playback} (h : p.output <+: q.output) (e f : Ending) :
    ∃ rest, (Report.ofPlayback q f).stdout = (Report.ofPlayback p e).stdout ++ rest := by
  obtain ⟨more, hmore⟩ := h
  refine ⟨String.join (more.map Output.text), ?_⟩
  simp only [Report.ofPlayback, ← hmore, List.map_append, String.join_append]

theorem exists_ending_cut (p : Playback) : ∃ e, p.cut.ending = some e := by
  rcases hp : p.ending with _ | e
  · exact ⟨.frameLimit, ending_cut_of_none hp⟩
  · exact ⟨e, ending_cut_of_some hp⟩

theorem report?_limited {e : Ending} {file : Except FileError (Array Byte)} {random : RandomSource}
    (h : (limited s file random n).ending = some e) (patience : Nat) :
    report? (s.limited n) file random patience =
      some (Report.ofPlayback (limited s file random n) e) :=
  (report?_of_maxFrames rfl file random patience).trans (congrArg (Option.map _) h)

theorem ending_start_ne_frameLimit (s : Settings) (file : Except FileError (Array Byte))
    (random : RandomSource) : (start s file random).ending ≠ some .frameLimit := by
  intro h
  obtain ⟨failure, hfailure⟩ := exists_failure_of_start h
  cases hfailure

theorem ending_next_ne_frameLimit (h : p.ending ≠ some .frameLimit) :
    (p.next s).ending ≠ some .frameLimit := by
  rw [ending_next]
  cases (frame s.stepsPerFrame p.machine).ending with
  | stopped | parked => nofun
  | blocked | spent => exact h

/-- No frame ends the run because of the limit. -/
theorem ending_play_ne_frameLimit (h : p.ending ≠ some .frameLimit) (k : Nat) :
    (p.play s k).ending ≠ some .frameLimit := by
  induction k generalizing p with
  | zero => exact h
  | succ k ih =>
    rcases hp : p.ending with _ | e
    · rw [(play_succ hp k).1]
      exact ih (ending_next_ne_frameLimit h)
    · rwa [(play_of_ending hp (k + 1)).1]

/-- A frame of one step that leads to the next instruction. -/
theorem next_of_step {i : Instruction} {e : Effect} (hs : s.stepsPerFrame = 1)
    (hp : p.ending = none) (hw : p.machine.waiting = none)
    (hd : Instruction.decode p.machine.fetch = .ok i) (he : i.effect p.machine = .ok e)
    (hf : e.flow = .next) (hfree : ∀ x, e.signal ≠ some (.blockedOnKey x)) :
    (p.next s).ending = none ∧ (p.next s).machine = (p.machine.after e).tick.machine := by
  have hspent : (frame s.stepsPerFrame p.machine).ending = .spent ∧
      (frame s.stepsPerFrame p.machine).machine = p.machine.after e := by
    rw [hs, frame, Frame.run_of_next (f := { machine := p.machine }) hw hd he hf hfree]
    exact ⟨Frame.ending_note _ _ _, Frame.machine_note _ _ _⟩
  refine ⟨?_, ?_⟩
  · rw [ending_next, hspent.1]
    exact hp
  · simp only [next, hspent]

theorem endings_after_clear (hs : s.stepsPerFrame = 1) (hp : p.ending = none)
    (hat : p.machine.StandsAt #[0x00, 0xE0, 0x12, 0x02] 0) :
    (p.play s 1).ending = none ∧ (p.play s 5).ending = some .finished := by
  obtain ⟨hnext, hmachine⟩ : (p.next s).ending = none ∧ (p.next s).machine = _ :=
    next_of_step hs hp hat.waiting (by rw [hat.fetch (by decide)]; rfl) rfl rfl (by exact nofun)
  have hjump : (p.next s).machine.StandsAt #[0x00, 0xE0, 0x12, 0x02] 2 := by
    have hafter := hat.after (i := .clearScreen) (by decide) rfl rfl (by simp)
    rw [hmachine]
    exact ⟨hafter.memory, hafter.pc, hafter.waiting⟩
  have hfinished : (p.play s 2).ending = some .finished := by
    rw [(play_succ hp 1).1]
    exact (finished_play_of_self_jump hnext hjump.waiting
      (by rw [hjump.fetch (by decide), hjump.pc]; rfl)).1
  refine ⟨?_, ?_⟩
  · rwa [(play_one hp).1]
  · rwa [play_add s p 2 3, (play_of_ending hfinished 3).1]

theorem endings_limited_after_clear (hs : s.stepsPerFrame = 1) (random : RandomSource) :
    (limited s (.ok #[0x00, 0xE0, 0x12, 0x02]) random 1).ending = some .frameLimit ∧
      (limited s (.ok #[0x00, 0xE0, 0x12, 0x02]) random 5).ending = some .finished := by
  obtain ⟨hgoing, -, hat, -⟩ :=
    start_of_le (p := #[0x00, 0xE0, 0x12, 0x02]) (by decide) s random
  rw [limited_eq, limited_eq]
  generalize start s (.ok #[0x00, 0xE0, 0x12, 0x02]) random = b at *
  obtain ⟨hcut, hend⟩ := endings_after_clear hs hgoing hat
  exact ⟨ending_cut_of_none hcut, ending_cut_of_some hend⟩

/-- A frame limit only truncates: a higher one adds to the output, it changes nothing about a run
that has ended by itself, and it plays the others on from where they were cut off. Both runs draw
from the same random source, as two runs with one seed do; without a seed, each run of the program
has a source of its own. -/
theorem frame_limit_truncates (s : Settings) (file : Except FileError (Array Byte))
    (random : RandomSource) (n m patience : Nat) (h : n ≤ m) :
    let p := limited s file random n
    let q := limited s file random m
    ∃ e f, p.ending = some e ∧ q.ending = some f ∧
      let r := Report.ofPlayback p e
      let r' := Report.ofPlayback q f
      report? (s.limited n) file random patience = some r ∧
      report? (s.limited m) file random patience = some r' ∧
      (∃ rest, r'.stdout = r.stdout ++ rest) ∧
      (e ≠ .frameLimit → r' = r ∧ q.machine = p.machine) ∧
      (e = .frameLimit →
        let between := (start (s.limited m) file random).play (s.limited m) n
        between.ending = none ∧ p.machine = between.machine ∧
          q = (between.play (s.limited m) (m - n)).cut) := by
  intro p q
  simp only [play_limited, start_limited]
  set between := (start s file random).play s n with hbetween
  have hp : p = between.cut := limited_eq s file random n
  have hq : q = (between.play s (m - n)).cut := by
    rw [hbetween, ← play_add, Nat.add_sub_cancel' h]
    exact limited_eq s file random m
  obtain ⟨f, hf⟩ : ∃ f, q.ending = some f := hq ▸ exists_ending_cut _
  rcases hending : between.ending with _ | e
  · -- the lower limit has cut the run off, and the higher one lets it go on
    have he : p.ending = some .frameLimit := hp ▸ ending_cut_of_none hending
    refine ⟨.frameLimit, f, he, hf, report?_limited he patience, report?_limited hf patience,
      stdout_append_of_prefix ?_ _ _, fun hne => absurd rfl hne, fun _ => ⟨rfl, ?_, hq⟩⟩
    · rw [hp, hq, output_cut, output_cut]
      exact output_prefix_play s between (m - n)
    · rw [hp, machine_cut]
  · -- the run has ended by itself, and further frames leave it as it is
    have hsame : q = p := by rw [hq, (play_of_ending hending (m - n)).1, hp]
    have he : p.ending = some e := hp ▸ ending_cut_of_some hending
    obtain rfl : f = e := by
      rw [hsame, he] at hf
      exact (Option.some.inj hf).symm
    refine ⟨f, f, he, hf, report?_limited he patience, report?_limited hf patience, ?_,
      fun _ => ⟨by rw [hsame], by rw [hsame]⟩, ?_⟩
    · rw [hsame]
      exact ⟨"", String.append_empty.symm⟩
    · rintro rfl
      exact absurd hending
        (ending_play_ne_frameLimit (ending_start_ne_frameLimit s file random) n)

/-- The screen is cleared in the first frame, and the second ends with a jump to itself. A limit of
one frame lies between them. -/
theorem frame_limit_truncates_after_clear :
    let s : Settings := { rom := "clear", ips := 60 }
    let p := limited s (.ok #[0x00, 0xE0, 0x12, 0x02]) (.ofSeed 8) 1
    let q := limited s (.ok #[0x00, 0xE0, 0x12, 0x02]) (.ofSeed 8) 5
    1 ≤ 5 ∧ p.ending = some .frameLimit ∧ q.ending = some .finished ∧
      ∃ rest, (Report.ofPlayback q .finished).stdout =
        (Report.ofPlayback p .frameLimit).stdout ++ rest := by
  intro s
  have hle : 1 ≤ 5 := by decide
  obtain ⟨e, f, he, hf, -, -, hstdout, -⟩ :=
    frame_limit_truncates s (.ok #[0x00, 0xE0, 0x12, 0x02]) (.ofSeed 8) 1 5 0 hle
  obtain ⟨hp, hq⟩ := endings_limited_after_clear (s := s) (by decide) (.ofSeed 8)
  dsimp only
  generalize limited s (.ok #[0x00, 0xE0, 0x12, 0x02]) (.ofSeed 8) 1 = p at *
  generalize limited s (.ok #[0x00, 0xE0, 0x12, 0x02]) (.ofSeed 8) 5 = q at *
  obtain rfl : e = .frameLimit := Option.some.inj (he.symm.trans hp)
  obtain rfl : f = .finished := Option.some.inj (hf.symm.trans hq)
  exact ⟨hle, hp, hq, hstdout⟩

end Playback

end Terminal

end Chip8
