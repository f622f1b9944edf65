import Cadenza.Number.Decimal
import Cadenza.Text

/-!
# Journal

What the library reports while it works, as a list of records in order.
-/

namespace Cadenza

set_option autoImplicit false

/-- How much a record matters, the most urgent first. -/
inductive Level where
  | error
  | warn
  | info
  | debug
  deriving DecidableEq, Repr

def Level.rank : Level → Nat
  | .error => 1
  | .warn => 2
  | .info => 3
  | .debug => 4

def Level.name : Level → String
  | .error => "ERROR"
  | .warn => "WARN"
  | .info => "INFO"
  | .debug => "DEBUG"

structure Record where
  level : Level
  text : String
  deriving DecidableEq, Repr

namespace Record

def registered (track : String) (instrument : UInt8) : Record :=
  ⟨.debug, s!"Registered track {Text.quoted track} with instrument {instrument.toNat}"⟩

def compiled (sequences tracks : Nat) : Record :=
  ⟨.info, s!"Compiled {sequences} sequences into {tracks} tracks"⟩

def normalized (tracks : Nat) : Record :=
  ⟨.debug, s!"Normalized {tracks} tracks"⟩

def playing (events : Nat) (total : Float) (looping : Bool) : Record :=
  let ending := if looping then " in a loop" else ""
  ⟨.info, s!"Playing {events} events over {placesText 3 total} seconds{ending}"⟩

def stopped : Record :=
  ⟨.debug, "Playback stopped"⟩

def sharedChannel (track channel : Nat) : Record :=
  ⟨.warn, s!"Track {track} shares MIDI channel {channel} with other tracks"⟩

def dropped (cause : String) : Record :=
  ⟨.warn, s!"Dropping MIDI message: {cause}"⟩

end Record

end Cadenza
