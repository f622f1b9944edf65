import Cadenza.Score

/-!
# Drafts

A score is written through handles. A handle is told by its place among the handles given out so
far, and stands for a position in the score. Several handles may stand for one phrase: what is done
through one of them is seen through all.
-/

namespace Cadenza

set_option autoImplicit false

structure Draft (τ : Type) where
  score : Score τ
  handles : List Nat

/-- What is asked of a draft. Handles that were never given out cannot be named. -/
inductive Draft.Call (τ : Type) where
  | create (track : TrackId) (notes : List (Note τ))
  | copy (handle : Nat)
  | setDelay (handle : Nat) (delay : τ)
  | setAnchor (handle : Nat) (anchor : Anchor)
  | chain (first next : Nat)

namespace Draft

variable {τ : Type}

def empty : Draft τ :=
  ⟨Score.empty, []⟩

def give (d : Draft τ) (position : Nat) : Draft τ :=
  { d with handles := d.handles ++ [position] }

def chain (d : Draft τ) (first next : Nat) : Except CyclicPhrase (Draft τ) :=
  match d.handles[first]?, d.handles[next]? with
  | some i, some j =>
      match d.score.link i j with
      | .error e => .error e
      | .ok score => .ok ({ d with score }.give j)
  | _, _ => .ok d

variable [Time τ]

/-- The answer to one call. The handle through which a delay or an anchor is set stays good. -/
def answer (d : Draft τ) : Call τ → Except CyclicPhrase (Draft τ)
  | .create track notes =>
      let (score, position) := d.score.add track notes
      .ok ({ d with score }.give position)
  | .copy h => .ok ((d.handles[h]?.map d.give).getD d)
  | .setDelay h delay =>
      .ok ((d.handles[h]?.map fun i => { d with score := d.score.setDelay i delay }).getD d)
  | .setAnchor h anchor =>
      .ok ((d.handles[h]?.map fun i => { d with score := d.score.setAnchor i anchor }).getD d)
  | .chain first next => d.chain first next

def after (d : Draft τ) (c : Call τ) : Draft τ :=
  match d.answer c with
  | .error _ => d
  | .ok changed => changed

def run (calls : List (Call τ)) : Draft τ :=
  calls.foldl after empty

end Draft

end Cadenza
