import Cadenza.Chord.Voicing
import Cadenza.Proofs.Outcome

/-!
# Playing pitches

The notes of a voicing are looked up in two ways side by side: their pitches by the indices of the
order, all else by the positions in it. The first position that has no pitch or lacks a value ends
the playing, and tells what it misses first.
-/

namespace Cadenza

set_option autoImplicit false

namespace PerNote

variable {α : Type} {parameter : PerNote α} {position : Nat} {value : α}

/-- The value that a note at a position is played with: its own, or the one that all share. -/
def Gives : PerNote α → Nat → α → Prop
  | .all shared, _, value => value = shared
  | .each values, position, value => values[position]? = some value

def Covers : PerNote α → Nat → Prop
  | .all _, _ => True
  | .each values, count => count ≤ values.length

instance : (parameter : PerNote α) → (count : Nat) → Decidable (parameter.Covers count)
  | .all _, _ => inferInstanceAs (Decidable True)
  | .each values, count => inferInstanceAs (Decidable (count ≤ values.length))

theorem get_eq_some_iff :
    parameter.get? position = some value ↔ parameter.Gives position value := by
  cases parameter with
  | all shared => exact Option.some_inj.trans eq_comm
  | each values => exact Iff.rfl

theorem covers_succ_iff :
    parameter.Covers (position + 1) ↔ ∃ value, parameter.Gives position value := by
  cases parameter with
  | all shared => exact iff_of_true trivial ⟨shared, rfl⟩
  | each values =>
      constructor
      · intro enough
        exact ⟨values[position], List.getElem?_eq_getElem enough⟩
      · rintro ⟨value, given⟩
        obtain ⟨inside, _⟩ := List.getElem?_eq_some_iff.1 given
        exact inside

/-- A parameter is enough for some notes if it is for each of them. -/
theorem covers_iff {count : Nat} :
    parameter.Covers count ↔ ∀ position < count, parameter.Covers (position + 1) := by
  cases parameter with
  | all shared => exact iff_of_true trivial fun _ _ => trivial
  | each values =>
      simp only [Covers]
      constructor
      · intro enough position inside
        omega
      · intro each
        apply Nat.le_of_not_lt
        intro short
        exact Nat.not_succ_le_self _ (each values.length short)

end PerNote

namespace Voicing

variable {τ : Type}

def lack? {α : Type} (name : String) (parameter : PerNote α) (position : Nat) :
    Option MalformedChord :=
  if parameter.Covers (position + 1) then none else some ⟨name, .noValue position⟩

/-- What is missed first at a position of the order that plays the pitch of an index. -/
def fault? (v : Voicing τ) (pitches : List Pitch) (position index : Nat) : Option MalformedChord :=
  let beyond : Option MalformedChord :=
    if index < pitches.length then none
    else some ⟨"order", .indexOutOfRange index pitches.length⟩
  beyond.or <| (lack? "velocity" v.velocity position).or <|
    (lack? "duration" v.duration position).or <| (lack? "delay" v.delay position).or <|
      lack? "anchor" v.anchor position

/-- The note that is played at a position of the order for the pitch of an index. -/
structure Plays (v : Voicing τ) (pitches : List Pitch) (position index : Nat) (n : Note τ) :
    Prop where
  pitch : pitches[index]? = some n.pitch
  velocity : v.velocity.Gives position n.velocity
  duration : v.duration.Gives position n.duration
  delay : v.delay.Gives position n.delay
  anchor : v.anchor.Gives position n.anchor

variable {v : Voicing τ} {pitches : List Pitch} {position index : Nat}

theorem value_ok {α : Type} {name : String} {parameter : PerNote α} {found : α}
    (told : value name parameter position = .ok found) : parameter.Gives position found := by
  unfold value at told
  split at told
  · rename_i known
    rw [← Except.ok.inj told]
    exact PerNote.get_eq_some_iff.1 known
  · cases told

theorem settled_value {α : Type} (name : String) (parameter : PerNote α) (position : Nat) :
    Settled (lack? name parameter position) (value name parameter position) := by
  unfold lack? value
  cases known : parameter.get? position with
  | some found =>
      rw [if_pos (PerNote.covers_succ_iff.2 ⟨found, PerNote.get_eq_some_iff.1 known⟩)]
      exact ⟨found, rfl⟩
  | none =>
      have missing : ¬ parameter.Covers (position + 1) := by
        rintro covered
        obtain ⟨found, given⟩ := PerNote.covers_succ_iff.1 covered
        rw [PerNote.get_eq_some_iff.2 given] at known
        cases known
      rw [if_neg missing]
      exact rfl

theorem plays_of_note {n : Note τ} (made : v.note pitches position index = .ok n) :
    v.Plays pitches position index n := by
  unfold note at made
  split at made
  · cases made
  · rename_i pitch found
    obtain ⟨velocity, velocityIs, made⟩ := except_bind_ok made
    obtain ⟨duration, durationIs, made⟩ := except_bind_ok made
    obtain ⟨delay, delayIs, made⟩ := except_bind_ok made
    obtain ⟨anchor, anchorIs, made⟩ := except_bind_ok made
    rw [← Except.ok.inj made]
    exact ⟨found, value_ok velocityIs, value_ok durationIs, value_ok delayIs, value_ok anchorIs⟩

theorem settled_note (v : Voicing τ) (pitches : List Pitch) (position index : Nat) :
    Settled (v.fault? pitches position index) (v.note pitches position index) := by
  unfold note fault?
  cases found : pitches[index]? with
  | none =>
      have beyond : ¬ index < pitches.length := Nat.not_lt.2 (List.getElem?_eq_none_iff.1 found)
      rw [if_neg beyond, Option.some_or]
      exact rfl
  | some pitch =>
      obtain ⟨inside, _⟩ := List.getElem?_eq_some_iff.1 found
      rw [if_pos inside, Option.none_or]
      refine (settled_value _ _ _).bind fun velocity => (settled_value _ _ _).bind fun duration =>
        (settled_value _ _ _).bind fun delay => ?_
      exact (settled_value _ _ _).bind_ok fun anchor => ⟨_, rfl⟩

theorem notes_from_cons_ok {rest : List Nat} {notes : List (Note τ)}
    (played : v.notesFrom pitches position (index :: rest) = .ok notes) :
    ∃ n others, v.note pitches position index = .ok n ∧
      v.notesFrom pitches (position + 1) rest = .ok others ∧ notes = n :: others := by
  rw [notesFrom] at played
  obtain ⟨n, made, played⟩ := except_bind_ok played
  obtain ⟨others, later, played⟩ := except_bind_ok played
  exact ⟨n, others, made, later, (Except.ok.inj played).symm⟩

/-- The playing goes through the order and ends with the first position that misses something. -/
theorem settled_notes_from (v : Voicing τ) (pitches : List Pitch) (position : Nat)
    (order : List Nat) :
    Settled ((order.zipIdx position).findSome? fun place => v.fault? pitches place.2 place.1)
      (v.notesFrom pitches position order) := by
  induction order generalizing position with
  | nil => exact ⟨[], rfl⟩
  | cons index rest ih =>
      rw [List.zipIdx_cons, find_first_cons, notesFrom]
      refine (settled_note v pitches position index).bind fun first => ?_
      exact (ih (position + 1)).bind_ok fun others => ⟨_, rfl⟩

end Voicing

/-- What is found first along a list is found at the least of its places where there is anything. -/
theorem found_first_iff {α β : Type} {f : Nat → α → Option β} {l : List α} {b : β} :
    (l.zipIdx.findSome? fun place => f place.2 place.1) = some b ↔
      ∃ i a, l[i]? = some a ∧ f i a = some b ∧ ∀ j < i, ∀ a', l[j]? = some a' → f j a' = none := by
  have place_iff {a : α} {i j : Nat} : l.zipIdx[j]? = some (a, i) ↔ l[j]? = some a ∧ j = i := by
    rw [List.getElem?_zipIdx, Option.map_eq_some_iff, Nat.zero_add]
    constructor
    · rintro ⟨_, own, same⟩
      cases same
      exact ⟨own, rfl⟩
    · rintro ⟨own, rfl⟩
      exact ⟨a, own, rfl⟩
  rw [List.findSome?_eq_some_iff]
  constructor
  · rintro ⟨before, ⟨a, i⟩, after, split, found, passed⟩
    obtain ⟨here, rfl⟩ : l[before.length]? = some a ∧ before.length = i := by
      rw [← place_iff, split, List.getElem?_append_right (Nat.le_refl _), Nat.sub_self]
      rfl
    refine ⟨_, a, here, found, fun j earlier a' there => ?_⟩
    have own : before[j]? = some (a', j) := by
      rw [← List.getElem?_append_left earlier, ← split, place_iff]
      exact ⟨there, rfl⟩
    exact passed (a', j) (List.mem_of_getElem? own)
  · rintro ⟨i, a, here, found, passed⟩
    have own : l.zipIdx[i]? = some (a, i) := place_iff.2 ⟨here, rfl⟩
    obtain ⟨inside, is⟩ := List.getElem?_eq_some_iff.1 own
    refine ⟨l.zipIdx.take i, (a, i), l.zipIdx.drop (i + 1), ?_, found, ?_⟩
    · rw [← is, ← List.drop_eq_getElem_cons, List.take_append_drop]
    · rintro ⟨a', j⟩ member
      obtain ⟨k, there⟩ := List.mem_iff_getElem?.1 member
      rw [List.getElem?_take] at there
      split at there
      · rename_i earlier
        obtain ⟨own, rfl⟩ := place_iff.1 there
        exact passed k earlier a' own
      · cases there

namespace Voicing

variable {τ : Type} {v : Voicing τ} {pitches : List Pitch}

/-- The notes are as many as the order asks for, each with what is given for its position. -/
theorem plays_of_notes_from {position : Nat} {order : List Nat} {notes : List (Note τ)}
    (played : v.notesFrom pitches position order = .ok notes) :
    notes.length = order.length ∧ ∀ i index n, order[i]? = some index → notes[i]? = some n →
      v.Plays pitches (position + i) index n := by
  induction order generalizing position notes with
  | nil =>
      rw [← Except.ok.inj played]
      exact ⟨rfl, nofun⟩
  | cons index rest ih =>
      obtain ⟨first, others, made, later, rfl⟩ := notes_from_cons_ok played
      obtain ⟨length, each⟩ := ih later
      refine ⟨congrArg (· + 1) length, fun i index' n asked heard => ?_⟩
      cases i with
      | zero =>
          obtain rfl := Option.some.inj asked
          obtain rfl := Option.some.inj heard
          exact plays_of_note made
      | succ i =>
          rw [← Nat.add_assoc, Nat.add_right_comm]
          exact each i index' n asked heard

/-- Whether an order asks for no pitch that is not there, and for no value of a parameter. -/
structure Suffices (v : Voicing τ) (pitches : List Pitch) (order : List Nat) : Prop where
  inside : ∀ index ∈ order, index < pitches.length
  velocity : v.velocity.Covers order.length
  duration : v.duration.Covers order.length
  delay : v.delay.Covers order.length
  anchor : v.anchor.Covers order.length

theorem lack_eq_none_iff {α : Type} {name : String} {parameter : PerNote α} {position : Nat} :
    lack? name parameter position = none ↔ parameter.Covers (position + 1) := by
  unfold lack?
  split
  · rename_i enough
    exact iff_of_true rfl enough
  · rename_i short
    exact iff_of_false nofun short

theorem fault_eq_none_iff {position index : Nat} :
    v.fault? pitches position index = none ↔ index < pitches.length ∧
      v.velocity.Covers (position + 1) ∧ v.duration.Covers (position + 1) ∧
      v.delay.Covers (position + 1) ∧ v.anchor.Covers (position + 1) := by
  simp only [fault?, Option.or_eq_none_iff, lack_eq_none_iff]
  refine and_congr_left fun _ => ?_
  split
  · rename_i inside
    exact iff_of_true rfl inside
  · rename_i beyond
    exact iff_of_false nofun beyond

theorem suffices_iff {order : List Nat} : v.Suffices pitches order ↔
    ∀ i index, order[i]? = some index → v.fault? pitches i index = none := by
  constructor
  · intro enough i index asked
    obtain ⟨below, rfl⟩ := List.getElem?_eq_some_iff.1 asked
    rw [fault_eq_none_iff]
    exact ⟨enough.inside _ (List.getElem_mem below), PerNote.covers_iff.1 enough.velocity i below,
      PerNote.covers_iff.1 enough.duration i below, PerNote.covers_iff.1 enough.delay i below,
      PerNote.covers_iff.1 enough.anchor i below⟩
  · intro none
    have each (i : Nat) (below : i < order.length) :=
      fault_eq_none_iff.1 (none i order[i] (List.getElem?_eq_getElem below))
    constructor
    · intro index member
      obtain ⟨i, below, rfl⟩ := List.mem_iff_getElem.1 member
      exact (each i below).1
    · exact PerNote.covers_iff.2 fun i below => (each i below).2.1
    · exact PerNote.covers_iff.2 fun i below => (each i below).2.2.1
    · exact PerNote.covers_iff.2 fun i below => (each i below).2.2.2.1
    · exact PerNote.covers_iff.2 fun i below => (each i below).2.2.2.2

/-- Pitches can be played if and only if the order asks for no pitch that is not there and each
parameter is shared or has a value for every position of the order. What is played then is one note
for each position: of the pitch that the order names there, with the values for the position, not
for the index of the pitch. Otherwise the playing fails at the least position that misses something,
with what it misses first: the pitch, the velocity, the duration, the delay or the anchor. Without
an order each pitch is asked for once, in turn. -/
theorem played_or_first_fault (v : Voicing τ) (pitches : List Pitch) :
    let order := v.order.getD (List.range pitches.length)
    ((∃ notes, v.play pitches = .ok notes) ↔ v.Suffices pitches order) ∧
    (∀ notes, v.play pitches = .ok notes → notes.length = order.length ∧
      ∀ i index n, order[i]? = some index → notes[i]? = some n → v.Plays pitches i index n) ∧
    ∀ e, v.play pitches = .error e ↔
      ∃ i index, order[i]? = some index ∧ v.fault? pitches i index = some e ∧
        ∀ j < i, ∀ index', order[j]? = some index' → v.fault? pitches j index' = none := by
  intro order
  have settled : Settled _ (v.play pitches) := settled_notes_from v pitches 0 order
  refine ⟨?_, ?_, fun e => ?_⟩
  · rw [settled.ok_iff, List.findSome?_eq_none_iff, suffices_iff]
    simp only [Prod.forall, List.mem_zipIdx_iff_getElem?]
    exact forall_comm
  · intro notes played
    obtain ⟨length, each⟩ := plays_of_notes_from played
    refine ⟨length, fun i index n asked heard => ?_⟩
    have plays := each i index n asked heard
    rwa [Nat.zero_add] at plays
  · rw [settled.error_iff, found_first_iff]

end Voicing

end Cadenza
