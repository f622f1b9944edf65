import Cadenza.Timeline

/-!
# Normalising tracks side by side

Each track is normalised by a worker of its own, which sends back the position of the track and its
timeline. The messages arrive in any order and are put into one slot for each track. Without the
timeline of one track there are none.
-/

namespace Cadenza.Normalizer

set_option autoImplicit false

variable {τ κ : Type}

def fill (slots : List (Option (Timeline τ))) (message : Nat × Timeline τ) :
    List (Option (Timeline τ)) :=
  slots.set message.1 (some message.2)

/-- What the collected slots stand for; a slot nobody filled counts as an empty timeline. -/
def collect (keys : List κ) (arrived : List (Nat × Timeline τ)) : List (κ × Timeline τ) :=
  let slots := arrived.foldl fill (List.replicate keys.length none)
  keys.zip (slots.map fun slot => slot.getD (.seconds []))

variable [Time τ]

def messages? (n : Normalizer τ) (tracks : List (κ × List (Event τ))) :
    Option (List (Nat × Timeline τ)) :=
  (tracks.mapM fun track => n.timeline? track.2).map fun timelines =>
    timelines.zipIdx.map fun (timeline, position) => (position, timeline)

def timelines? (n : Normalizer τ) (tracks : List (κ × List (Event τ))) :
    Option (List (κ × Timeline τ)) :=
  (n.messages? tracks).map (collect (tracks.map (·.1)))

end Cadenza.Normalizer
