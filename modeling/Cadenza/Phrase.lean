import Cadenza.Note
import Cadenza.Number.Decimal
import Cadenza.Text

/-!
# Phrases

A phrase is a fragment of notes on one track, together with the phrases that follow it. It is
delayed from the start or the end of the phrase it follows.
-/

namespace Cadenza

set_option autoImplicit false

abbrev TrackId := String

/-- A phrase of a score; `next` holds the positions of its followers in the score. -/
structure Phrase (τ : Type) where
  track : TrackId
  notes : List (Note τ)
  next : List Nat
  delay : τ
  anchor : Anchor
  deriving BEq, DecidableEq, Repr

def Phrase.describe (p : Phrase Float) : String :=
  let anchor := match p.anchor with
    | .start => "Start"
    | .finish => "End"
  "Sequence \x7b track: " ++ Text.quoted p.track ++ s!", notes: {p.notes.length}" ++
    s!", next: {p.next.length}, delay: {debugText p.delay}, anchor: {anchor} \x7d"

end Cadenza
