import Cadenza.CommandLine
import Cadenza.Demo
import Cadenza.Playback.Thread
import Cadenza.Settings
import Cadenza.Timeline.Workers

/-!
# The console

What the program writes for its arguments and its configuration file, and how it ends: zero for
success, one if the task fails, two if the arguments cannot be used.
-/

namespace Cadenza.Console

set_option autoImplicit false

open CommandLine (Request Task)

inductive Output where
  | record (r : Record)
  | line (text : String)
  deriving DecidableEq, Repr

inductive Found where
  | nothing
  | unreadable
  | file (content : ByteArray)

inductive Ending where
  | exit (code : Nat)
  | play (player : Player Float) (tracks : List (CompiledTrack Float))

structure Outcome where
  output : List Output
  ending : Ending

def success : Nat := 0
def failure : Nat := 1
def usage : Nat := 2

def defaultConfig : String :=
  "notechain.toml"

def configPath (config environment : Option String) : String :=
  (config <|> environment).getD defaultConfig

def loading (path : String) : Record :=
  ⟨.info, s!"Loading configuration from {path} ..."⟩

def noConfig (path : String) : Record :=
  ⟨.info, s!"No configuration at {path}, using defaults"⟩

def configured (s : Settings) : Record :=
  ⟨.debug, s.describe⟩

def printing (roots tracks : Nat) (bpm : Float) : Record :=
  ⟨.info, s!"{roots} root sequences, {tracks} tracks at {messageText bpm} bpm"⟩

def awaitingStop : Record :=
  ⟨.info, "Press enter to stop ..."⟩

def played (events passes : Nat) : Record :=
  ⟨.info, s!"Played {events} events in {passes} passes"⟩

def configure (path : String) (found : Found) : List Record × Option Settings :=
  match found with
  | .nothing => ([noConfig path, configured Settings.default], some Settings.default)
  | .unreadable => ([loading path], none)
  | .file content =>
      match Settings.ofFile (some content) with
      | .ok s => ([loading path, configured s], some s)
      | .error _ => ([loading path], none)

def kindText : EventKind → String
  | .noteOn => "NoteOn"
  | .noteOff => "NoteOff"

def eventLine {τ : Type} (time : τ → String) (e : Event τ) : String :=
  let time := Text.padLeft ' ' 8 (time e.time)
  s!"{time} {kindText e.kind} {e.key.toInt} {e.velocity.toNat}"

def timelineLines : Timeline Float → List String
  | .seconds events => events.map (eventLine (placesText 4))
  | .ticks events => events.map (eventLine fun ticks => toString ticks.toNat)

def trackLines (id : TrackId) (instrument : UInt8) (t : Timeline Float) : List String :=
  s!"# {id} (program {instrument.toNat}, {t.length} events)" :: timelineLines t

def printTracks (s : Settings) (roots : Nat) (tracks : List (CompiledTrack Float)) : Outcome :=
  match s.normalizer.timelines? (tracks.map fun t => ((t.id, t.instrument), t.events)) with
  | none => ⟨[], .exit failure⟩
  | some timelines =>
      ⟨.record (Record.normalized tracks.length) ::
        .record (printing roots timelines.length s.bpm) ::
        timelines.flatMap fun ((id, instrument), t) => (trackLines id instrument t).map .line,
        .exit success⟩

def perform (s : Settings) (task : Task) : Outcome :=
  match (Demo.studio? : Option (Studio Float)) with
  | none => ⟨[], .exit failure⟩
  | some studio =>
      match studio.compile s.negativeDelays with
      | .error _ => ⟨Demo.records.map .record, .exit failure⟩
      | .ok tracks =>
          let made := (Demo.records ++ studio.compileRecords tracks).map Output.record
          let outcome := match task with
            | .print => printTracks s studio.arrangement.roots.length tracks
            | .play => ⟨[], .play s.player tracks⟩
          { outcome with output := made ++ outcome.output }

/-- What the program does for a request. `find` looks up a path. -/
def run (request : Option Request) (environment : Option String) (find : String → Found) :
    Outcome :=
  match request with
  | none => ⟨[], .exit usage⟩
  | some .version => ⟨[.line CommandLine.versionText], .exit success⟩
  | some (.help topic) => ⟨topic.lines.map .line, .exit success⟩
  | some (.run config task) =>
      let path := configPath config environment
      let (records, settings) := configure path (find path)
      match settings with
      | none => ⟨records.map .record, .exit failure⟩
      | some s =>
          let outcome := perform s task
          { outcome with output := records.map .record ++ outcome.output }

/-- What is written while tracks are played without waiting, and the exit code. A playback that
would start over is stopped at its first wait. -/
def playOut (player : Player Float) (tracks : List (CompiledTrack Float)) : List Record × Nat :=
  let awaiting := if player.looping then [awaitingStop] else []
  match player.play tracks fun _ => player.looping with
  | .error _ => (awaiting, failure)
  | .ok p =>
      (awaiting ++ p.records player.looping Synth.journal ++ [played p.notes p.passes], success)

inductive Form where
  /-- The level and the text. -/
  | plain
  /-- The level in five places, a dash and the text. -/
  | padded
  deriving DecidableEq, Repr

structure View where
  least : Option Level
  form : Form
  deriving DecidableEq, Repr

def View.default : View :=
  ⟨some .info, .padded⟩

def View.shows (v : View) (r : Record) : Bool :=
  v.least.any fun least => decide (r.level.rank ≤ least.rank)

def Form.text (form : Form) (r : Record) : String :=
  match form with
  | .plain => s!"{r.level.name} {r.text}"
  | .padded => Text.padRight ' ' 5 r.level.name ++ " - " ++ r.text

def View.text? (v : View) : Output → Option String
  | .line text => some text
  | .record r => if v.shows r then some (v.form.text r) else none

end Cadenza.Console
