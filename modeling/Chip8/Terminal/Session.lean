import Chip8.Terminal.Playback

/-!
The whole program, from its arguments to its exit code and the two texts it leaves.
-/

namespace Chip8.Terminal

/-- What a run leaves: the exit code, the text on standard output, and the messages on standard
error. -/
structure Report where
  code : Nat
  stdout : String := ""
  stderr : List String := []
deriving DecidableEq, Repr

def versionText : String := "secrus8 0.1.0\n"

def helpText : String :=
  String.join
    ["Run a CHIP-8 program in the terminal\n\n",
     "Usage: secrus8 [OPTIONS] <ROM>\n\n",
     "Options:\n",
     "  -i, --ips <IPS>                Instructions executed per second, 700 if not given\n",
     "  -n, --max-frames <MAX_FRAMES>  Stop after this many frames\n",
     "      --seed <SEED>              Seed for random numbers, for reproducible runs\n",
     "      --shift-uses-vy            8XY6 and 8XYE shift VY into VX\n",
     "      --jump-uses-vx             BXNN jumps to XNN + VX\n",
     "      --headless                 Do not draw the screen\n",
     "  -h, --help                     Print help\n",
     "  -V, --version                  Print version\n"]

def Report.ofUsageError (e : UsageError) : Report :=
  { code := 2, stderr := [String.join ["error: ", e.message]] }

/-- The lines on standard error; a message may take several. -/
def Report.errorLines (r : Report) : List String := r.stderr.flatMap (·.splitOn "\n")

def Report.ofPlayback (p : Playback) (ending : Ending) : Report :=
  { code := ending.code
    stdout := String.join (p.output.map Output.text)
    stderr := (p.notices ++ [Notice.ended ending]).map Notice.text }

/-- Plays a program under its settings. One without a frame limit is given up after `patience`
frames, with no report. -/
def report? (s : Settings) (file : Except FileError (Array Byte)) (random : RandomSource)
    (patience : Nat) : Option Report :=
  let p := Playback.start s file random
  let p :=
    match s.maxFrames with
    | some limit => (p.play s limit).cut
    | none => p.play s patience
  p.ending.map fun ending => Report.ofPlayback p ending

/-- A run of the program: `file` reads a path and `random` makes a source from a seed. -/
def session (arguments : List String) (file : String → Except FileError (Array Byte))
    (random : Option Nat → RandomSource) (patience : Nat) : Option Report :=
  match Request.ofArguments arguments with
  | .error e => some (Report.ofUsageError e)
  | .ok .version => some { code := 0, stdout := versionText }
  | .ok .help => some { code := 0, stdout := helpText }
  | .ok (.run s) => report? s (file s.rom) (random s.seed) patience

theorem session_of_run {arguments : List String} {s : Settings}
    (h : Request.ofArguments arguments = .ok (.run s))
    (file : String → Except FileError (Array Byte)) (random : Option Nat → RandomSource)
    (patience : Nat) :
    session arguments file random patience = report? s (file s.rom) (random s.seed) patience := by
  rw [session, h]

end Chip8.Terminal
