import Cadenza.Score.Layout

/-!
# What the layout of a score means

The phrases that follow a phrase, and their layout, told by recursion over the links instead of
from a list of pending phrases; and the same told one by one, for every way down the links.
-/

namespace Cadenza.Score

set_option autoImplicit false

variable {τ : Type}

def unfolding (s : Score τ) (i : Nat) : List Nat :=
  match s.phrase? i with
  | none => []
  | some _ => i :: (followers s.phrases i).attach.flatMap fun ⟨j, _⟩ => s.unfolding j
termination_by s.acyclic.wrap i
decreasing_by
  rename_i link
  exact link

/-- Every way down the links from a phrase, told by the numbers of the links that are taken. A way
stands before those that go on from it, and these before the ones that take a later link. -/
def ways (s : Score τ) (i : Nat) : List (List Nat) :=
  match s.phrase? i with
  | none => []
  | some _ =>
      [] :: (followers s.phrases i).attach.zipIdx.flatMap fun (⟨j, _⟩, number) =>
        (s.ways j).map (number :: ·)
termination_by s.acyclic.wrap i
decreasing_by
  rename_i link
  exact link

def phraseAlong (s : Score τ) (i : Nat) : List Nat → Option Nat
  | [] => (s.phrase? i).map fun _ => i
  | number :: way =>
      match (followers s.phrases i)[number]? with
      | none => none
      | some j => s.phraseAlong j way

def followedBy {ε α : Type} (first later : Except ε (List α)) : Except ε (List α) :=
  match first with
  | .error e => .error e
  | .ok entries =>
      match later with
      | .error e => .error e
      | .ok others => .ok (entries ++ others)

/-- The layouts of several phrases one after the other, the first failure among them winning. -/
def concatLayouts {ε α : Type} (layouts : List (Except ε (List α))) : Except ε (List α) :=
  layouts.foldr followedBy (.ok [])

variable [Time τ]

/-- What the layout of a phrase means: its own notes from where it starts, then each follower in
turn, laid out after it. -/
def meaning (s : Score τ) (policy : DelayPolicy) (i : Nat) (lastStart lastEnd : τ) :
    Except (LayoutError τ) (List (Entry τ)) :=
  match s.phrase? i with
  | none => .ok []
  | some p =>
      match Cadenza.layOut policy p.track p.notes with
      | .error e => .error e
      | .ok (events, duration) =>
          match policy.apply p.track p.delay with
          | .error e => .error e
          | .ok delay =>
              let start := (if p.anchor = .start then lastStart else lastEnd) + delay
              let finish := start + duration
              followedBy (.ok [⟨p.track, events.map fun e => e.withTime (e.time + start)⟩])
                (concatLayouts ((followers s.phrases i).attach.map fun ⟨j, _⟩ =>
                  s.meaning policy j start finish))
termination_by s.acyclic.wrap i
decreasing_by
  rename_i link
  exact link

/-- The phrase at the end of a way in its place, where every phrase on the way is placed after the
one before it. -/
def placedAlong (s : Score τ) (policy : DelayPolicy) (i : Nat) (lastStart lastEnd : τ) :
    List Nat → Option (Placed τ)
  | [] =>
      match s.phrase? i with
      | none => none
      | some p => (p.place policy lastStart lastEnd).toOption
  | number :: way =>
      match s.phrase? i with
      | none => none
      | some p =>
          match p.place policy lastStart lastEnd, p.next[number]? with
          | .ok placed, some j => s.placedAlong policy j placed.start placed.finish way
          | _, _ => none

def entryAlong (s : Score τ) (policy : DelayPolicy) (i : Nat) (lastStart lastEnd : τ)
    (way : List Nat) : Option (Entry τ) :=
  (s.placedAlong policy i lastStart lastEnd way).map (·.entry)

end Cadenza.Score
