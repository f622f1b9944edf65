import Cadenza.Playback.Player
import Cadenza.Timeline
import Cadenza.Toml.Document

/-!
# Settings

What a configuration file sets: the tempo and the ticks of timelines, the policy for negative
delays, and whether a playback starts over. What a file leaves out keeps its default, and names that
mean nothing are passed over.
-/

namespace Cadenza

set_option autoImplicit false

structure Settings where
  bpm : Float
  ticksPerBeat : UInt16
  quantize : Bool
  negativeDelays : DelayPolicy
  looping : Bool

inductive SettingsError where
  | notFound
  | notText
  | malformed
  deriving DecidableEq, Repr

namespace Settings

open Toml (Item Table Value)

def default : Settings :=
  ⟨(Tempo.default : Tempo Float).bpm, defaultTicksPerBeat, true, .allow, false⟩

def tempo (s : Settings) : Tempo Float :=
  ⟨s.bpm⟩

def normalizer (s : Settings) : Normalizer Float :=
  ⟨s.tempo, s.ticksPerBeat, s.quantize⟩

def player (s : Settings) : Player Float :=
  ⟨s.tempo, s.looping⟩

def policyName : DelayPolicy → String
  | .allow => "Allow"
  | .clamp => "Clamp"
  | .reject => "Reject"

def describe (s : Settings) : String :=
  String.intercalate "\n"
    [ "Config \x7b",
      "    timing: Timing \x7b",
      s!"        bpm: {debugText s.bpm},",
      s!"        ticks_per_beat: {s.ticksPerBeat.toNat},",
      s!"        quantize: {s.quantize},",
      "    \x7d,",
      "    compile: Compile \x7b",
      s!"        negative_delays: {policyName s.negativeDelays},",
      "    \x7d,",
      "    playback: Playback \x7b",
      s!"        looping: {s.looping},",
      "    \x7d,",
      "\x7d" ]

/-- The values of a section, by name or in the order of its fields. -/
inductive Group where
  | named (entries : List (String × Item))
  | ordered (items : List Item)

/-- A date counts as a table with a name that means nothing. -/
def Group.ofItem? : Item → Option Group
  | .value (.table _ entries) => some (.named (entries.map fun (name, v) => (name, .value v)))
  | .value (.array items) => some (.ordered (items.map Item.value))
  | .value .date => some (.named [])
  | .value _ => none
  | .table entries => some (.named entries)
  | .tables elements => some (.ordered (elements.map Item.table))

def Group.hasRoom (g : Group) (count : Nat) : Bool :=
  match g with
  | .named _ => true
  | .ordered items => decide (items.length ≤ count)

def Group.read? {α : Type} (g : Group) (position : Nat) (name : String) (default : α)
    (read? : Item → Option α) : Option α :=
  match g with
  | .named entries =>
      match entries.filter (·.1 == name) with
      | [] => some default
      | [(_, item)] => read? item
      | _ => none
  | .ordered items =>
      match items[position]? with
      | none => some default
      | some item => read? item

def number? : Item → Option Float
  | .value (.float x) => some x
  | .value (.integer n) => some (Float.ofInt n)
  | _ => none

def ticks? : Item → Option UInt16
  | .value (.integer n) => if 0 ≤ n ∧ n < UInt16.size then some (UInt16.ofNat n.toNat) else none
  | _ => none

def truth? : Item → Option Bool
  | .value (.truth b) => some b
  | _ => none

def policyNamed? (name : String) : Option DelayPolicy :=
  match name with
  | "allow" => some .allow
  | "clamp" => some .clamp
  | "reject" => some .reject
  | _ => none

/-- A policy is written as its name, or as a table that holds nothing but an empty table of that
name. -/
def policy? : Item → Option DelayPolicy
  | .value (.text name) => policyNamed? name
  | .value (.table false [(name, .table _ [])]) => policyNamed? name
  | _ => none

def readTiming? (s : Settings) (item : Item) : Option Settings := do
  let g ← Group.ofItem? item
  let bpm ← g.read? 0 "bpm" s.bpm number?
  let ticksPerBeat ← g.read? 1 "ticks_per_beat" s.ticksPerBeat ticks?
  let quantize ← g.read? 2 "quantize" s.quantize truth?
  if g.hasRoom 3 then some { s with bpm, ticksPerBeat, quantize } else none

def readCompile? (s : Settings) (item : Item) : Option Settings := do
  let g ← Group.ofItem? item
  let negativeDelays ← g.read? 0 "negative_delays" s.negativeDelays policy?
  if g.hasRoom 1 then some { s with negativeDelays } else none

def readPlayback? (s : Settings) (item : Item) : Option Settings := do
  let g ← Group.ofItem? item
  let looping ← g.read? 0 "loop" s.looping truth?
  if g.hasRoom 1 then some { s with looping } else none

def ofTables? (tables : List Table) : Option Settings := do
  let entries ← Toml.nest? tables
  let g := Group.named entries
  let timed ← g.read? 0 "timing" default (readTiming? default)
  let compiled ← g.read? 1 "compile" timed (readCompile? timed)
  g.read? 2 "playback" compiled (readPlayback? compiled)

def ofText (text : String) : Except SettingsError Settings :=
  match (Toml.tables? text).bind ofTables? with
  | some s => .ok s
  | none => .error .malformed

def ofFile (content : Option ByteArray) : Except SettingsError Settings :=
  match content with
  | none => .error .notFound
  | some bytes =>
      match String.fromUTF8? bytes with
      | none => .error .notText
      | some text => ofText text

end Settings

end Cadenza
