import Cadenza.Console

/-!
# The program

Reads the arguments, the environment and the configuration file, writes what the console gives, and
plays in real time.
-/

set_option autoImplicit false

namespace Cadenza.Program

open Console

def write (v : View) (o : Output) : IO Unit :=
  match v.text? o with
  | some text => IO.println text
  | none => pure ()

/-- The code of the system for a directory that is read as a file. -/
def isDirectory : UInt32 := 21

/-- What stands at a path, as far as it can be read. Nothing stands below a file, or under a name
that is too long. -/
def find (path : String) : IO Found := do
  try
    let content ← IO.FS.readBinFile path
    pure (.file content)
  catch
    | .noFileOrDirectory .. => pure .nothing
    | .invalidArgument .. => pure .nothing
    | .inappropriateType _ code _ => pure (if code = isDirectory then .unreadable else .nothing)
    | _ => pure .unreadable

/-- Waits until a time, or until a stop is asked for. -/
partial def wait (finish : Nat) (asked : IO.Ref Bool) : IO Unit := do
  let now ← IO.monoNanosNow
  if !(← asked.get) && now < finish then
    IO.sleep (UInt32.ofNat (min 10 ((finish - now) / 1000000 + 1)))
    wait finish asked

/-- Lets the player go on to its end. -/
partial def playOn (v : View) (asked : IO.Ref Bool) (t : Thread Float) : IO (Thread Float) := do
  match t.phase with
  | .ended _ => pure t
  | .broken => pure t
  | _ =>
      if let some (.waited time) := t.happens? then
        wait ((← IO.monoNanosNow) + time.nanos.toNat) asked
      let t := if ← asked.get then t.move .stop else t
      for r in t.records Synth.journal do
        write v (.record r)
      playOn v asked (t.move .player)

def play (v : View) (player : Player Float) (tracks : List (CompiledTrack Float)) : IO Nat := do
  match Thread.spawn player tracks with
  | .error _ => pure failure
  | .ok t =>
      let asked ← IO.mkRef false
      if player.looping then
        write v (.record awaitingStop)
        let _ ← IO.asTask do
          let _ ← (← IO.getStdin).getLine
          asked.set true
      let t ← playOn v asked t
      match t.phase with
      | .broken => pure failure
      | _ =>
          write v (.record (played t.notes t.passes))
          pure success

end Cadenza.Program

open Cadenza in
def main (args : List String) : IO UInt32 := do
  let request := CommandLine.parse? args
  let environment ← IO.getEnv "NOTECHAIN_CONFIG"
  let found ← match request with
    | some (.run config _) => Program.find (Console.configPath config environment)
    | _ => pure .nothing
  let outcome := Console.run request environment fun _ => found
  for o in outcome.output do
    Program.write Console.View.default o
  match outcome.ending with
  | .exit code => pure (UInt32.ofNat code)
  | .play player tracks => do
      let code ← Program.play Console.View.default player tracks
      pure (UInt32.ofNat code)
