import Cadenza.Proofs.Timeline.Normal
import Cadenza.Proofs.Timeline.Order
import Cadenza.Proofs.Timeline.Spans
import Cadenza.Proofs.Timeline.Workers

/-!
# How far quantized tracks drift apart

Ticks are rounded from one event of a track to the next, not from the beginning. So the tick
position of an event depends on where the events before it stand, and two tracks that reach the same
time by other events can be apart there. Where an event stands depends on nothing but the set of
times up to its own, and it is off by at most half a tick for each of them.
-/

namespace Cadenza

set_option autoImplicit false

section Positions

variable {τ : Type} [Time τ]

def positions (passed : Nat) : List (Event UInt64) → List Nat
  | [] => []
  | e :: rest => (passed + e.time.toNat) :: positions (passed + e.time.toNat) rest

def marks (track : List (Event τ)) : Timeline τ → List (Event τ × Nat)
  | .ticks events => (sortStable Event.after track).zip (positions 0 events)
  | .seconds _ => []

def Normalizer.gapTicks (n : Normalizer τ) (gap : τ) : Nat :=
  (n.tempo.ticksOfSeconds n.ticksPerBeat (n.tempo.toSeconds gap)).toNat

theorem length_positions (passed : Nat) (events : List (Event UInt64)) :
    (positions passed events).length = events.length := by
  induction events generalizing passed with
  | nil => rfl
  | cons e rest ih => rw [positions, List.length_cons, List.length_cons, ih]

end Positions

def timesUpTo (last : Rat) (track : List (Event Rat)) : Finset Rat :=
  (track.map (·.time)).toFinset.filter (· ≤ last)

theorem mem_times_up_to {last t : Rat} {track : List (Event Rat)} :
    t ∈ timesUpTo last track ↔ (∃ e ∈ track, e.time = t) ∧ t ≤ last := by
  rw [timesUpTo, Finset.mem_filter, List.mem_toFinset, List.mem_map]

theorem times_up_to_within {last : Rat} {track : List (Event Rat)}
    (begun : ∀ e ∈ track, 0 ≤ e.time) : ∀ t ∈ timesUpTo last track, 0 ≤ t ∧ t ≤ last := by
  intro t member
  obtain ⟨⟨e, inside, rfl⟩, early⟩ := mem_times_up_to.1 member
  exact ⟨begun e inside, early⟩

namespace Normalizer

variable {n : Normalizer Rat}

theorem timeline_of_quantize (quantizing : n.quantize = true) (track : List (Event Rat)) :
    n.timeline? track = some (.ticks (eventsToTicks n.tempo n.ticksPerBeat
      (eventsToSeconds n.tempo (toRelative (sortStable Event.after track))))) := by
  rw [timeline?, if_pos quantizing, quantize?, normalize_of_compares n.tempo fun e _ =>
    compares_rat e.time]
  rfl

/-- An event stands where the gaps up to its own add up to, each of them rounded. -/
theorem position_of_mem_zip {passed : Nat} {last : Rat} {sorted : List (Event Rat)}
    {e : Event Rat} {p : Nat}
    (member : (e, p) ∈ sorted.zip (positions passed (eventsToTicks n.tempo n.ticksPerBeat
      (eventsToSeconds n.tempo (relativeFrom last sorted))))) :
    ∃ front back, sorted = front ++ e :: back ∧
      p = passed + ((gaps last ((front ++ [e]).map (·.time))).map n.gapTicks).sum := by
  -- Along the timeline; what has passed and the time of the last event move on together.
  induction sorted generalizing passed last with
  | nil => cases member
  | cons first rest ih =>
      rcases List.mem_cons.1 member with same | later
      · obtain ⟨rfl, rfl⟩ := Prod.mk.inj same
        refine ⟨[], rest, rfl, ?_⟩
        simp only [List.nil_append, List.map_cons, List.map_nil, gaps, List.sum_singleton]
        rfl
      · obtain ⟨front, back, parts, sum⟩ := ih later
        refine ⟨first :: front, back, by rw [parts, List.cons_append], ?_⟩
        rw [sum, List.cons_append, List.map_cons, gaps, List.map_cons, List.sum_cons,
          ← Nat.add_assoc]
        rfl

/-- The events before one of the sorted events, and this one, are at all the times up to its own. -/
theorem times_of_front {track front back : List (Event Rat)} {e : Event Rat}
    (sorts : sortStable Event.after track = front ++ e :: back) :
    ((front ++ [e]).map (·.time)).toFinset = timesUpTo e.time track := by
  have rising := sorts ▸ rising_sort track
  have known : ∀ x, x ∈ track ↔ x ∈ front ++ e :: back :=
    fun x => sorts ▸ (perm_sort_stable Event.after track).mem_iff.symm
  obtain ⟨_, after, before⟩ := List.pairwise_append.1 rising
  ext t
  rw [mem_times_up_to, List.mem_toFinset, List.mem_map]
  constructor
  · rintro ⟨x, member, rfl⟩
    rcases List.mem_append.1 member with early | here
    · exact ⟨⟨x, (known x).2 (List.mem_append_left _ early), rfl⟩,
        before x early e List.mem_cons_self⟩
    · obtain rfl := List.mem_singleton.1 here
      exact ⟨⟨x, (known x).2 (by simp), rfl⟩, le_refl _⟩
  · rintro ⟨⟨x, member, rfl⟩, early⟩
    rcases List.mem_append.1 ((known x).1 member) with front' | late
    · exact ⟨x, List.mem_append_left _ front', rfl⟩
    · refine ⟨e, List.mem_append_right _ (List.mem_singleton_self e), ?_⟩
      rcases List.mem_cons.1 late with rfl | back'
      · rfl
      · exact le_antisymm ((List.pairwise_cons.1 after).1 x back') early

def ticksPerWhole (n : Normalizer Rat) : Rat :=
  4 * n.ticksPerBeat.toNat

theorem ticks_per_whole_nonneg (n : Normalizer Rat) : 0 ≤ n.ticksPerWhole := by
  unfold ticksPerWhole
  positivity

theorem gap_ticks_of_fits (runs : 0 < n.tempo.bpm) {g : Rat} (nonneg : 0 ≤ g * n.ticksPerWhole)
    (fits : g * n.ticksPerWhole ≤ maxCount) :
    n.gapTicks g = nearest .toEven (g * n.ticksPerWhole) := by
  rw [gapTicks, Tempo.ticksOfSeconds, Tempo.ticks_of_to_seconds runs]
  exact count_of_fits .toEven nonneg fits

theorem gap_ticks_zero (runs : 0 < n.tempo.bpm) : n.gapTicks 0 = 0 := by
  rw [gap_ticks_of_fits runs] <;> rw [zero_mul]
  · exact nearest_natCast .toEven 0
  · exact Nat.cast_nonneg maxCount

def ticksThrough (n : Normalizer Rat) (times : Finset Rat) : Nat :=
  ((gaps 0 (times.sort (· ≤ ·))).map n.gapTicks).sum

/-- Where an event stands depends on nothing but the times up to its own. -/
theorem position_of_mem_marks (runs : 0 < n.tempo.bpm) (quantizing : n.quantize = true)
    {track : List (Event Rat)} {timeline : Timeline Rat}
    (made : n.timeline? track = some timeline) {x : Event Rat × Nat}
    (member : x ∈ marks track timeline) :
    x.2 = n.ticksThrough (timesUpTo x.1.time track) ∧
      (gaps 0 ((timesUpTo x.1.time track).sort (· ≤ ·))).sum = x.1.time := by
  obtain rfl := Option.some.inj ((timeline_of_quantize quantizing track).symm.trans made)
  obtain ⟨front, back, sorts, stands⟩ := position_of_mem_zip member
  have rising : ((front ++ [x.1]).map (·.time)).Pairwise (· ≤ ·) := by
    have early : (front ++ [x.1]).Sublist (sortStable Event.after track) := by
      rw [sorts]
      exact (List.Sublist.refl front).append (List.singleton_sublist.2 List.mem_cons_self)
    apply List.pairwise_map.2
    exact List.Pairwise.sublist early (rising_sort track)
  have distinct := dedup_eq_sort rising
  rw [times_of_front sorts] at distinct
  constructor
  · rw [ticksThrough, ← distinct, sum_gaps_dedup (gap_ticks_zero runs) 0 rising, stands,
      Nat.zero_add]
    rfl
  · have whole := sum_gaps_dedup (f := id) rfl 0 rising
    rw [List.map_id, List.map_id, distinct, List.map_append, List.map_singleton,
      sum_gaps_snoc] at whole
    rw [whole, sub_zero]

section Reached

variable {times : Finset Rat} {last : Rat} (runs : 0 < n.tempo.bpm)
  (inside : ∀ t ∈ times, 0 ≤ t ∧ t ≤ last) (reached : (gaps 0 (times.sort (· ≤ ·))).sum = last)
  (fits : last * n.ticksPerWhole ≤ maxCount)

include runs inside fits in
/-- A gap between some times that fit is rounded to the nearest tick. -/
theorem gap_ticks_of_mem {g : Rat} (member : g ∈ gaps 0 (times.sort (· ≤ ·))) :
    0 ≤ g * n.ticksPerWhole ∧ n.gapTicks g = nearest .toEven (g * n.ticksPerWhole) ∧
      ∃ a b, (a = 0 ∨ a ∈ times) ∧ b ∈ times ∧ g = b - a := by
  have sorted : (0 :: times.sort (· ≤ ·)).Pairwise (· ≤ ·) := by
    apply List.pairwise_cons.2
    constructor
    · intro t member
      exact (inside t ((Finset.mem_sort _).1 member)).1
    · exact Finset.pairwise_sort times (· ≤ ·)
  obtain ⟨a, aIn, b, bIn, order, rfl⟩ := ends_of_mem_gaps sorted member
  have known := (Finset.mem_sort _).1 bIn
  have start : a = 0 ∨ a ∈ times := (List.mem_cons.1 aIn).imp_right (Finset.mem_sort _).1
  have begun : 0 ≤ a := by
    rcases start with rfl | earlier
    · exact le_refl 0
    · exact (inside a earlier).1
  have bounded : b - a ≤ last := (sub_le_self b begun).trans (inside b known).2
  have nonneg := mul_nonneg (sub_nonneg.2 order) n.ticks_per_whole_nonneg
  have room := (mul_le_mul_of_nonneg_right bounded n.ticks_per_whole_nonneg).trans fits
  exact ⟨nonneg, gap_ticks_of_fits runs nonneg room, a, b, start, known, rfl⟩

include runs inside reached fits in
theorem ticks_through_near :
    2 * |(n.ticksThrough times : Rat) - last * n.ticksPerWhole| ≤ times.card := by
  have near : ∀ g ∈ gaps 0 (times.sort (· ≤ ·)),
      2 * |(n.gapTicks g : Rat) - g * n.ticksPerWhole| ≤ 1 := by
    intro g member
    obtain ⟨nonneg, rounded, _⟩ := gap_ticks_of_mem runs inside fits member
    rw [rounded]
    exact nearest_within_half .toEven nonneg
  have sum := sum_near near
  rwa [reached, length_gaps, Finset.length_sort] at sum

include runs inside reached fits in
theorem ticks_through_exact (grid : ∀ t ∈ times, ∃ whole : Nat, t * n.ticksPerWhole = whole) :
    (n.ticksThrough times : Rat) = last * n.ticksPerWhole := by
  have exact : ∀ g ∈ gaps 0 (times.sort (· ≤ ·)), (n.gapTicks g : Rat) = g * n.ticksPerWhole := by
    intro g member
    obtain ⟨nonneg, rounded, a, b, start, known, rfl⟩ := gap_ticks_of_mem runs inside fits member
    obtain ⟨upper, ends⟩ := grid b known
    have first : ∃ lower : Nat, a * n.ticksPerWhole = lower := by
      rcases start with rfl | earlier
      · exact ⟨0, by rw [zero_mul, Nat.cast_zero]⟩
      · exact grid a earlier
    obtain ⟨lower, begins⟩ := first
    rw [rounded, nearest_of_whole .toEven begins ends nonneg]
  have sum := sum_exact exact
  rwa [reached] at sum

end Reached

theorem events_of_marks (quantizing : n.quantize = true) {track : List (Event Rat)}
    {timeline : Timeline Rat} (made : n.timeline? track = some timeline) :
    (marks track timeline).map (·.1) = sortStable Event.after track ∧
      ∃ ticks, timeline = .ticks ticks ∧
        ticks.map Event.untimed = (sortStable Event.after track).map Event.untimed := by
  obtain rfl := Option.some.inj ((timeline_of_quantize quantizing track).symm.trans made)
  constructor
  · apply List.map_fst_zip
    rw [length_positions, eventsToTicks, List.length_map, eventsToSeconds, List.length_map,
      toRelative, length_relative_from]
  · refine ⟨_, rfl, ?_⟩
    rw [← untimed_seconds n.tempo, eventsToTicks, List.map_map]
    rfl

/-- Two events at the same time, each in a track that is quantized alone. -/
theorem positions_of_same_time (runs : 0 < n.tempo.bpm) (quantizing : n.quantize = true)
    {first second : List (Event Rat)} {one other : Timeline Rat}
    (made : n.timeline? first = some one) (made' : n.timeline? second = some other)
    (begun : ∀ e ∈ first, 0 ≤ e.time) (begun' : ∀ e ∈ second, 0 ≤ e.time)
    {x y : Event Rat × Nat} (xIn : x ∈ marks first one) (yIn : y ∈ marks second other)
    (same : x.1.time = y.1.time) :
    (timesUpTo x.1.time first = timesUpTo x.1.time second → x.2 = y.2) ∧
      (x.1.time * n.ticksPerWhole ≤ maxCount →
        ((∀ t ∈ timesUpTo x.1.time first ∪ timesUpTo x.1.time second,
          ∃ whole : Nat, t * n.ticksPerWhole = whole) → x.2 = y.2) ∧
        2 * |(x.2 : Int) - y.2| ≤
          (timesUpTo x.1.time first).card + (timesUpTo x.1.time second).card) := by
  obtain ⟨stands, reached⟩ := position_of_mem_marks runs quantizing made xIn
  obtain ⟨stands', reached'⟩ := position_of_mem_marks runs quantizing made' yIn
  rw [← same] at stands' reached'
  have inside : ∀ t ∈ timesUpTo x.1.time first, 0 ≤ t ∧ t ≤ x.1.time := times_up_to_within begun
  have inside' : ∀ t ∈ timesUpTo x.1.time second, 0 ≤ t ∧ t ≤ x.1.time :=
    times_up_to_within begun'
  constructor
  · intro alike
    rw [stands, stands', alike]
  · intro fits
    constructor
    · intro grid
      have here := ticks_through_exact runs inside reached fits
        fun t member => grid t (Finset.mem_union_left _ member)
      have there := ticks_through_exact runs inside' reached' fits
        fun t member => grid t (Finset.mem_union_right _ member)
      rw [← stands] at here
      rw [← stands', ← here] at there
      exact_mod_cast there.symm
    · have here := ticks_through_near runs inside reached fits
      have there := ticks_through_near runs inside' reached' fits
      rw [← stands] at here
      rw [← stands', abs_sub_comm] at there
      have apart := abs_sub_le (x.2 : Rat) (x.1.time * n.ticksPerWhole) y.2
      have bound : 2 * |(x.2 : Rat) - y.2| ≤
          (timesUpTo x.1.time first).card + (timesUpTo x.1.time second).card := by
        linarith
      exact_mod_cast bound

/-- The tracks of one run all have a timeline, in which each event has its own position. Over the
rationals, and as long as the time in question still fits a count of ticks, two events at the same
time are apart by at most half a tick for each time up to it at which one of their tracks has an
event. They are at the same position where both tracks have events at the same times up to there, so
always within one track, and where all these times are whole ticks. -/
theorem quantized_tracks_stay_near {κ : Type} (n : Normalizer Rat)
    (tracks : List (κ × List (Event Rat))) (quantizing : n.quantize = true)
    (runs : 0 < n.tempo.bpm) (begun : ∀ t ∈ tracks, ∀ e ∈ t.2, 0 ≤ e.time) :
    ∃ timelines, timelines.length = tracks.length ∧
      n.timelines? tracks = some ((tracks.map (·.1)).zip timelines) ∧
      (∀ a ∈ tracks.zip timelines, ((marks a.1.2 a.2).map (·.1)).Perm a.1.2 ∧
        (∃ ticks, a.2 = .ticks ticks ∧
          ticks.map Event.untimed = (marks a.1.2 a.2).map fun x => x.1.untimed) ∧
        ∀ x ∈ marks a.1.2 a.2, ∀ y ∈ marks a.1.2 a.2, x.1.time = y.1.time → x.2 = y.2) ∧
      ∀ a ∈ tracks.zip timelines, ∀ b ∈ tracks.zip timelines,
        ∀ x ∈ marks a.1.2 a.2, ∀ y ∈ marks b.1.2 b.2, x.1.time = y.1.time →
          (timesUpTo x.1.time a.1.2 = timesUpTo x.1.time b.1.2 → x.2 = y.2) ∧
          (x.1.time * n.ticksPerWhole ≤ maxCount →
            ((∀ t ∈ timesUpTo x.1.time a.1.2 ∪ timesUpTo x.1.time b.1.2,
              ∃ whole : Nat, t * n.ticksPerWhole = whole) → x.2 = y.2) ∧
            2 * |(x.2 : Int) - y.2| ≤
              (timesUpTo x.1.time a.1.2).card + (timesUpTo x.1.time b.1.2).card) := by
  have working : ∀ t ∈ tracks, n.timeline? t.2 ≠ none := by
    intro t _ failed
    rw [timeline_of_quantize quantizing] at failed
    cases failed
  obtain ⟨timelines, applied⟩ := exists_map_eq_map_some working
  have fits : timelines.length = tracks.length := by
    simpa using (congrArg List.length applied).symm
  have made : ∀ a ∈ tracks.zip timelines, n.timeline? a.1.2 = some a.2 :=
    fun a member => apply_of_mem_zip applied member
  have given : ∀ a ∈ tracks.zip timelines, ∀ e ∈ a.1.2, 0 ≤ e.time :=
    fun a member => begun a.1 (List.of_mem_zip member).1
  refine ⟨timelines, fits, timelines_eq_zip applied, ?_, ?_⟩
  · intro a member
    obtain ⟨events, ticks, filled, alike⟩ := events_of_marks quantizing (made a member)
    rw [← events, List.map_map] at alike
    refine ⟨events ▸ perm_sort_stable Event.after a.1.2, ⟨ticks, filled, alike⟩, ?_⟩
    intro x xIn y yIn same
    have together := positions_of_same_time runs quantizing (made a member) (made a member)
      (given a member) (given a member) xIn yIn same
    exact together.1 rfl
  · intro a aIn b bIn x xIn y yIn same
    exact positions_of_same_time runs quantizing (made a aIn) (made b bIn) (given a aIn)
      (given b bIn) xIn yIn same

/-- Two tracks off the grid of one tick a second: the second note begins when the first one ends. -/
def offGrid : List (String × List (Event Rat)) :=
  [("lead", [⟨.noteOn, 3 / 32, 60, defaultVelocity, none⟩,
      ⟨.noteOff, 3 / 16, 60, defaultVelocity, none⟩]),
    ("bass", [⟨.noteOn, 3 / 16, 36, defaultVelocity, none⟩,
      ⟨.noteOff, 1 / 4, 36, defaultVelocity, none⟩])]

theorem off_grid_begun : ∀ t ∈ offGrid, ∀ e ∈ t.2, 0 ≤ e.time := by
  norm_num [offGrid]

/-- The end of the one note and the beginning of the other, which is a tick later. -/
theorem quantized_tracks_fall_apart :
    let n : Normalizer Rat := ⟨⟨60⟩, 1, true⟩
    n.quantize = true ∧ 0 < n.tempo.bpm ∧ 0 < n.ticksPerBeat ∧
      (∀ t ∈ offGrid, ∀ e ∈ t.2, 0 ≤ e.time) ∧
      ∃ timelines, n.timelines? offGrid = some ((offGrid.map (·.1)).zip timelines) ∧
        ∃ a ∈ offGrid.zip timelines, ∃ b ∈ offGrid.zip timelines,
          ∃ x ∈ marks a.1.2 a.2, ∃ y ∈ marks b.1.2 b.2, x.1.time = y.1.time ∧ x.2 ≠ y.2 := by
  intro n
  let lead : Timeline Rat := .ticks [⟨.noteOn, 0, 60, defaultVelocity, none⟩,
    ⟨.noteOff, 0, 60, defaultVelocity, none⟩]
  let bass : Timeline Rat := .ticks [⟨.noteOn, 1, 36, defaultVelocity, none⟩,
    ⟨.noteOff, 0, 36, defaultVelocity, none⟩]
  have made : n.timelines? offGrid = some ((offGrid.map (·.1)).zip [lead, bass]) := by
    decide +kernel
  have early : marks (offGrid[0]).2 lead = (offGrid[0]).2.zip [0, 0] := by decide +kernel
  have late : marks (offGrid[1]).2 bass = (offGrid[1]).2.zip [1, 1] := by decide +kernel
  refine ⟨rfl, by decide, by decide, off_grid_begun, [lead, bass], made,
    (offGrid[0], lead), List.mem_cons_self, (offGrid[1], bass),
    List.mem_cons_of_mem _ List.mem_cons_self, ?_⟩
  rw [early, late]
  exact ⟨_, List.mem_cons_of_mem _ List.mem_cons_self, _, List.mem_cons_self, rfl,
    Nat.zero_ne_one⟩

theorem off_grid_tracks_stay_near :
    let n : Normalizer Rat := ⟨⟨60⟩, 1, true⟩
    n.quantize = true ∧ 0 < n.tempo.bpm ∧ (∀ t ∈ offGrid, ∀ e ∈ t.2, 0 ≤ e.time) ∧
      ∃ timelines, n.timelines? offGrid = some ((offGrid.map (·.1)).zip timelines) ∧
        ∀ a ∈ offGrid.zip timelines, ∀ b ∈ offGrid.zip timelines,
          ∀ x ∈ marks a.1.2 a.2, ∀ y ∈ marks b.1.2 b.2, x.1.time = y.1.time →
            x.1.time * n.ticksPerWhole ≤ maxCount →
              2 * |(x.2 : Int) - y.2| ≤
                (timesUpTo x.1.time a.1.2).card + (timesUpTo x.1.time b.1.2).card := by
  intro n
  have runs : 0 < n.tempo.bpm := by decide
  obtain ⟨timelines, _, made, _, near⟩ :=
    quantized_tracks_stay_near n offGrid rfl runs off_grid_begun
  refine ⟨rfl, runs, off_grid_begun, timelines, made, ?_⟩
  intro a aIn b bIn x xIn y yIn same fits
  exact ((near a aIn b bIn x xIn y yIn same).2 fits).2

end Normalizer

end Cadenza
