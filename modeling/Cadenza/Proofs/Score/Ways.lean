import Cadenza.Proofs.Phrase.Placing
import Cadenza.Proofs.Score.Unfolding

/-!
# The ways through a score

A way down the links is a list of link numbers, so two links from one phrase to another make two
ways. The walk and the layout of a score have one element for each way, in the order in which ways
stand in a dictionary, and a phrase is placed at the times of the way that leads there.
-/

namespace Cadenza.Score

set_option autoImplicit false

variable {τ : Type}

/-- Ways stand in the order of a dictionary: none of them twice, a way before those that go on from
it, and these before the ones that branch off to a later link. -/
theorem pairwise_ways (s : Score τ) (i : Nat) : (s.ways i).Pairwise (List.Lex (· < ·)) := by
  induction i using s.acyclic.induction with
  | _ i ih =>
      cases found : s.phrase? i with
      | none =>
          rw [ways_of_none found]
          exact List.Pairwise.nil
      | some p =>
          rw [ways_of_some found]
          refine List.Pairwise.cons ?_ (List.pairwise_flatMap.2 ⟨?_, ?_⟩)
          · intro way member
            obtain ⟨link, _, inside⟩ := List.mem_flatMap.1 member
            obtain ⟨rest, _, rfl⟩ := List.mem_map.1 inside
            exact List.Lex.nil
          · intro link member
            have below : link.1 ∈ followers s.phrases i := by
              rw [followers_of_some found]
              exact List.mem_of_getElem? (List.mem_zipIdx_iff_getElem?.1 member)
            exact List.pairwise_map.2 ((ih link.1 below).imp List.Lex.cons)
          · have rising : (p.next.zipIdx.map Prod.snd).Pairwise (· < ·) := by
              rw [List.zipIdx_map_snd]
              exact List.pairwise_lt_range'
            refine (List.pairwise_map.1 rising).imp ?_
            intro earlier later less way wayIn other otherIn
            obtain ⟨_, _, rfl⟩ := List.mem_map.1 wayIn
            obtain ⟨_, _, rfl⟩ := List.mem_map.1 otherIn
            exact List.Lex.rel less

theorem phrase_along_nil {s : Score τ} {i : Nat} {p : Phrase τ} (found : s.phrase? i = some p) :
    s.phraseAlong i [] = some i := by
  simp only [phraseAlong, found, Option.map_some]

theorem phrase_along_cons {s : Score τ} {i j number : Nat} {p : Phrase τ}
    (found : s.phrase? i = some p) (linked : p.next[number]? = some j) (way : List Nat) :
    s.phraseAlong i (number :: way) = s.phraseAlong j way := by
  simp only [phraseAlong, followers_of_some found, linked]

theorem phrase_along_nil_some {s : Score τ} {i k : Nat} (ended : s.phraseAlong i [] = some k) :
    k = i := by
  obtain ⟨_, _, same⟩ := Option.map_eq_some_iff.1 ended
  exact same.symm

theorem phrase_along_cons_some {s : Score τ} {i k number : Nat} {way : List Nat}
    (ended : s.phraseAlong i (number :: way) = some k) :
    ∃ p j, s.phrase? i = some p ∧ p.next[number]? = some j ∧ s.phraseAlong j way = some k := by
  cases found : s.phrase? i with
  | none => simp [phraseAlong, followers_of_none found] at ended
  | some p =>
      cases linked : p.next[number]? with
      | none => simp [phraseAlong, followers_of_some found, linked] at ended
      | some j =>
          rw [phrase_along_cons found linked] at ended
          exact ⟨p, j, rfl, linked, ended⟩

theorem phrase_along_append {s : Score τ} {i k number j : Nat} {way : List Nat} {p : Phrase τ}
    (ended : s.phraseAlong i way = some k) (found : s.phrase? k = some p)
    (linked : p.next[number]? = some j) (more : List Nat) :
    s.phraseAlong i (way ++ number :: more) = s.phraseAlong j more := by
  induction way generalizing i with
  | nil =>
      obtain rfl := phrase_along_nil_some ended
      exact phrase_along_cons found linked more
  | cons first way ih =>
      obtain ⟨q, next, present, link, later⟩ := phrase_along_cons_some ended
      rw [List.cons_append, phrase_along_cons present link]
      exact ih later

theorem reaches_of_along {s : Score τ} {i k : Nat} {way : List Nat}
    (ended : s.phraseAlong i way = some k) : Reaches s.phrases i k := by
  induction way generalizing i with
  | nil =>
      obtain rfl := phrase_along_nil_some ended
      exact Reaches.refl k
  | cons first way ih =>
      obtain ⟨q, next, present, link, later⟩ := phrase_along_cons_some ended
      have linked : next ∈ followers s.phrases i := by
        rw [followers_of_some present]
        exact List.mem_of_getElem? link
      exact Reaches.step linked (ih later)

/-- A list of link numbers is a way when there is a phrase at its end. -/
theorem mem_ways_iff (s : Score τ) (i : Nat) (way : List Nat) :
    way ∈ s.ways i ↔ ∃ k, s.phraseAlong i way = some k := by
  induction way generalizing i with
  | nil =>
      cases found : s.phrase? i with
      | none => simp [ways_of_none found, phraseAlong, found]
      | some p => simp [ways_of_some found, phraseAlong, found]
  | cons number way ih =>
      cases found : s.phrase? i with
      | none => simp [ways_of_none found, phraseAlong, followers_of_none found]
      | some p =>
          simp only [ways_of_some found, phraseAlong, followers_of_some found]
          cases linked : p.next[number]? with
          | none => simp [List.mem_flatMap, List.mem_zipIdx_iff_getElem?, linked]
          | some j =>
              simp only [List.mem_cons, reduceCtorEq, false_or, ← ih j]
              constructor
              · intro member
                obtain ⟨⟨k, other⟩, link, inside⟩ := List.mem_flatMap.1 member
                obtain ⟨rest, restIn, same⟩ := List.mem_map.1 inside
                obtain ⟨rfl, rfl⟩ := List.cons.inj same
                have here := List.mk_mem_zipIdx_iff_getElem?.1 link
                exact Option.some.inj (linked.symm.trans here) ▸ restIn
              · intro member
                exact List.mem_flatMap.2 ⟨(j, number), List.mk_mem_zipIdx_iff_getElem?.2 linked,
                  List.mem_map_of_mem member⟩

theorem unfolding_along (s : Score τ) (i : Nat) :
    (s.unfolding i).map some = (s.ways i).map (s.phraseAlong i) := by
  induction i using s.acyclic.induction with
  | _ i ih =>
      cases found : s.phrase? i with
      | none => rw [unfolding_of_none found, ways_of_none found, List.map_nil, List.map_nil]
      | some p =>
          rw [unfolding_of_some found, ways_of_some found, List.map_cons, List.map_cons,
            phrase_along_nil found, List.map_flatMap, List.map_flatMap]
          congr 1
          have numbered : p.next.flatMap (fun j => (s.unfolding j).map some) =
              p.next.zipIdx.flatMap fun link => (s.unfolding link.1).map some := by
            conv => lhs; rw [← List.zipIdx_map_fst 0 p.next, List.flatMap_map]
          rw [numbered]
          refine List.flatMap_congr fun link member => ?_
          have linked := List.mem_zipIdx_iff_getElem?.1 member
          have below : link.1 ∈ followers s.phrases i := by
            rw [followers_of_some found]
            exact List.mem_of_getElem? linked
          rw [ih link.1 below, List.map_map]
          refine List.map_congr_left fun way _ => ?_
          exact (phrase_along_cons found linked way).symm

variable [Time τ]

theorem placed_along_nil {s : Score τ} {policy : DelayPolicy} {i : Nat} {lastStart lastEnd : τ}
    {p : Phrase τ} {placed : Placed τ} (found : s.phrase? i = some p)
    (made : p.place policy lastStart lastEnd = .ok placed) :
    s.placedAlong policy i lastStart lastEnd [] = some placed := by
  simp only [placedAlong, found, made, Except.toOption]

theorem placed_along_cons {s : Score τ} {policy : DelayPolicy} {i j number : Nat}
    {lastStart lastEnd : τ} {p : Phrase τ} {placed : Placed τ} (found : s.phrase? i = some p)
    (made : p.place policy lastStart lastEnd = .ok placed) (linked : p.next[number]? = some j)
    (way : List Nat) :
    s.placedAlong policy i lastStart lastEnd (number :: way) =
      s.placedAlong policy j placed.start placed.finish way := by
  simp only [placedAlong, found, made, linked]

theorem placed_along_nil_some {s : Score τ} {policy : DelayPolicy} {i : Nat}
    {lastStart lastEnd : τ} {placed : Placed τ}
    (reached : s.placedAlong policy i lastStart lastEnd [] = some placed) :
    ∃ p, s.phrase? i = some p ∧ p.place policy lastStart lastEnd = .ok placed := by
  cases found : s.phrase? i with
  | none => simp [placedAlong, found] at reached
  | some p =>
      cases made : p.place policy lastStart lastEnd with
      | error e => simp [placedAlong, found, made, Except.toOption] at reached
      | ok here =>
          rw [placed_along_nil found made] at reached
          obtain rfl := Option.some.inj reached
          exact ⟨p, rfl, made⟩

theorem placed_along_cons_some {s : Score τ} {policy : DelayPolicy} {i number : Nat}
    {lastStart lastEnd : τ} {way : List Nat} {last : Placed τ}
    (reached : s.placedAlong policy i lastStart lastEnd (number :: way) = some last) :
    ∃ p placed j, s.phrase? i = some p ∧ p.place policy lastStart lastEnd = .ok placed ∧
      p.next[number]? = some j ∧
      s.placedAlong policy j placed.start placed.finish way = some last := by
  cases found : s.phrase? i with
  | none => simp [placedAlong, found] at reached
  | some p =>
      cases made : p.place policy lastStart lastEnd with
      | error e => simp [placedAlong, found, made] at reached
      | ok placed =>
          cases linked : p.next[number]? with
          | none => simp [placedAlong, found, made, linked] at reached
          | some j =>
              rw [placed_along_cons found made linked] at reached
              exact ⟨p, placed, j, rfl, made, linked, reached⟩

/-- A way that goes on from another one goes on from where the phrase at its end was placed. -/
theorem placed_along_append {s : Score τ} {policy : DelayPolicy} {i number : Nat}
    {lastStart lastEnd : τ} {way more : List Nat} {last : Placed τ}
    (reached : s.placedAlong policy i lastStart lastEnd (way ++ number :: more) = some last) :
    ∃ k p j placed, s.phraseAlong i way = some k ∧ s.phrase? k = some p ∧
      p.next[number]? = some j ∧ s.placedAlong policy i lastStart lastEnd way = some placed ∧
      s.placedAlong policy j placed.start placed.finish more = some last := by
  induction way generalizing i lastStart lastEnd with
  | nil =>
      obtain ⟨p, placed, j, found, made, linked, later⟩ := placed_along_cons_some reached
      exact ⟨i, p, j, placed, phrase_along_nil found, found, linked, placed_along_nil found made,
        later⟩
  | cons first way ih =>
      obtain ⟨q, here, next, found, made, linked, beyond⟩ := placed_along_cons_some reached
      obtain ⟨k, p, j, placed, ended, foundLast, linkedLast, along, later⟩ := ih beyond
      refine ⟨k, p, j, placed, ?_, foundLast, linkedLast, ?_, later⟩
      · rwa [phrase_along_cons found linked]
      · rwa [placed_along_cons found made linked]

/-- The phrase at the end of a way gives its own track two events for each of its notes. -/
theorem entry_along {s : Score τ} {policy : DelayPolicy} {i : Nat} {lastStart lastEnd : τ}
    {way : List Nat} {placed : Placed τ}
    (reached : s.placedAlong policy i lastStart lastEnd way = some placed) :
    ∃ k p, s.phraseAlong i way = some k ∧ s.phrase? k = some p ∧
      placed.entry.track = p.track ∧ placed.entry.events.length = 2 * p.notes.length := by
  induction way generalizing i lastStart lastEnd with
  | nil =>
      obtain ⟨p, found, made⟩ := placed_along_nil_some reached
      exact ⟨i, p, phrase_along_nil found, found, track_of_place made, length_of_place made⟩
  | cons number way ih =>
      obtain ⟨p, placed, j, found, _, linked, later⟩ := placed_along_cons_some reached
      rw [phrase_along_cons found linked]
      exact ih later

/-- If the layouts of followers have one entry for each way from them, their concatenation has one
for each way that goes on from the phrase they follow. -/
theorem concat_along {s : Score τ} {policy : DelayPolicy} {i : Nat} {lastStart lastEnd : τ}
    {p : Phrase τ} {placed : Placed τ} (found : s.phrase? i = some p)
    (made : p.place policy lastStart lastEnd = .ok placed) (links : List (Nat × Nat))
    (linked : ∀ link ∈ links, p.next[link.2]? = some link.1)
    (each : ∀ link ∈ links, ∀ entries,
      s.meaning policy link.1 placed.start placed.finish = .ok entries →
        entries.map some =
          (s.ways link.1).map (s.entryAlong policy link.1 placed.start placed.finish))
    {entries : List (Entry τ)}
    (all : concatLayouts (links.map fun link =>
      s.meaning policy link.1 placed.start placed.finish) = .ok entries) :
    entries.map some =
      (links.flatMap fun link => (s.ways link.1).map (link.2 :: ·)).map
        (s.entryAlong policy i lastStart lastEnd) := by
  induction links generalizing entries with
  | nil =>
      rw [← Except.ok.inj all]
      rfl
  | cons link rest ih =>
      obtain ⟨front, back, first, later, rfl⟩ := followed_by_eq_ok all
      have here := each link List.mem_cons_self front first
      have others := ih (fun other member => linked other (List.mem_cons_of_mem link member))
        (fun other member => each other (List.mem_cons_of_mem link member)) later
      rw [List.map_append, here, others, List.flatMap_cons, List.map_append, List.map_map]
      congr 1
      refine List.map_congr_left fun way _ => ?_
      simp only [entryAlong, Function.comp_apply,
        placed_along_cons found made (linked link List.mem_cons_self)]

/-- A layout has one entry for every way, at the times of that way. -/
theorem meaning_along (s : Score τ) (policy : DelayPolicy) (i : Nat) {lastStart lastEnd : τ}
    {entries : List (Entry τ)} (done : s.meaning policy i lastStart lastEnd = .ok entries) :
    entries.map some = (s.ways i).map (s.entryAlong policy i lastStart lastEnd) := by
  induction i using s.acyclic.induction generalizing lastStart lastEnd entries with
  | _ i ih =>
      cases found : s.phrase? i with
      | none =>
          rw [meaning_of_none found] at done
          rw [← Except.ok.inj done, ways_of_none found]
          rfl
      | some p =>
          rw [meaning_of_some found] at done
          cases made : p.place policy lastStart lastEnd with
          | error e =>
              rw [made] at done
              cases done
          | ok placed =>
              rw [made] at done
              obtain ⟨own, others, first, later, rfl⟩ := followed_by_eq_ok done
              have linked : ∀ link ∈ p.next.zipIdx, p.next[link.2]? = some link.1 :=
                fun link member => List.mem_zipIdx_iff_getElem?.1 member
              have numbered : p.next.map (fun j => s.meaning policy j placed.start placed.finish) =
                  p.next.zipIdx.map fun link =>
                    s.meaning policy link.1 placed.start placed.finish := by
                conv => lhs; rw [← List.zipIdx_map_fst 0 p.next, List.map_map]
                rfl
              rw [numbered] at later
              have along := concat_along found made p.next.zipIdx linked
                (fun link member entries finished => by
                  have below : link.1 ∈ followers s.phrases i := by
                    rw [followers_of_some found]
                    exact List.mem_of_getElem? (linked link member)
                  exact ih link.1 below finished) later
              have alone : s.entryAlong policy i lastStart lastEnd [] = some placed.entry := by
                rw [entryAlong, placed_along_nil found made, Option.map_some]
              rw [← Except.ok.inj first, List.map_append, along, ways_of_some found, List.map_cons,
                List.map_cons, alone]
              rfl

section Along

variable {s : Score τ} {policy : DelayPolicy} {i : Nat} {lastStart lastEnd : τ}
  {entries : List (Entry τ)}

/-- Where all is laid out, a phrase is placed at the end of every way. -/
theorem placed_of_mem_ways {way : List Nat}
    (along : entries.map some = (s.ways i).map (s.entryAlong policy i lastStart lastEnd))
    (member : way ∈ s.ways i) :
    ∃ placed, s.placedAlong policy i lastStart lastEnd way = some placed := by
  have listed : s.entryAlong policy i lastStart lastEnd way ∈ entries.map some := by
    rw [along]
    exact List.mem_map_of_mem member
  obtain ⟨entry, _, given⟩ := List.mem_map.1 listed
  obtain ⟨placed, reached, _⟩ := Option.map_eq_some_iff.1 given.symm
  exact ⟨placed, reached⟩

theorem placed_of_mem_entries {entry : Entry τ}
    (along : entries.map some = (s.ways i).map (s.entryAlong policy i lastStart lastEnd))
    (member : entry ∈ entries) :
    ∃ way placed, s.placedAlong policy i lastStart lastEnd way = some placed ∧
      placed.entry = entry := by
  have listed : some entry ∈ (s.ways i).map (s.entryAlong policy i lastStart lastEnd) := by
    rw [← along]
    exact List.mem_map_of_mem member
  obtain ⟨way, _, given⟩ := List.mem_map.1 listed
  obtain ⟨placed, reached, same⟩ := Option.map_eq_some_iff.1 given
  exact ⟨way, placed, reached, same⟩

end Along

/-- Two lists that tell, way by way, of the same things are related one to one. -/
theorem forall₂_of_along {α β γ : Type} {related : α → β → Prop} {first : γ → Option α}
    {second : γ → Option β} {ways : List γ} {xs : List α} {ys : List β}
    (left : xs.map some = ways.map first) (right : ys.map some = ways.map second)
    (meet : ∀ way x y, first way = some x → second way = some y → related x y) :
    List.Forall₂ related xs ys := by
  induction ways generalizing xs ys with
  | nil =>
      rw [List.map_nil, List.map_eq_nil_iff] at left right
      rw [left, right]
      exact List.Forall₂.nil
  | cons way rest ih =>
      obtain ⟨x, xs', rfl, here, xsRest⟩ := List.map_eq_cons_iff.1 left
      obtain ⟨y, ys', rfl, there, ysRest⟩ := List.map_eq_cons_iff.1 right
      exact List.Forall₂.cons (meet way x y here.symm there.symm) (ih xsRest ysRest)

/-- The work on pending phrases gives what the recursion over the links means: the same entries,
from the same additions, or the same failure. There is one entry for each way down the links, told
in the order of the walk, with the times of that way and two events for each note. -/
theorem lay_out_means_recursion (s : Score τ) (policy : DelayPolicy) (i : Nat)
    (lastStart lastEnd : τ) :
    s.layOut policy i lastStart lastEnd = s.meaning policy i lastStart lastEnd ∧
      (∀ way, way ∈ s.ways i ↔ ∃ k, s.phraseAlong i way = some k) ∧
      (s.ways i).Pairwise (List.Lex (· < ·)) ∧
      (s.walk i).map some = (s.ways i).map (s.phraseAlong i) ∧
      ∀ entries, s.layOut policy i lastStart lastEnd = .ok entries →
        entries.map some = (s.ways i).map (s.entryAlong policy i lastStart lastEnd) ∧
          List.Forall₂ (fun k entry => ∃ p, s.phrase? k = some p ∧ entry.track = p.track ∧
            entry.events.length = 2 * p.notes.length) (s.walk i) entries := by
  have walked : (s.walk i).map some = (s.ways i).map (s.phraseAlong i) := by
    rw [walk_eq_unfolding, unfolding_along]
  refine ⟨lay_out_eq_meaning s policy i lastStart lastEnd, mem_ways_iff s i, pairwise_ways s i,
    walked, ?_⟩
  intro entries done
  rw [lay_out_eq_meaning] at done
  have along := meaning_along s policy i done
  refine ⟨along, forall₂_of_along walked along ?_⟩
  intro way k entry reached given
  obtain ⟨placed, ended, rfl⟩ := Option.map_eq_some_iff.1 given
  obtain ⟨k', p, reached', found, track, length⟩ := entry_along ended
  rw [Option.some.inj (reached.symm.trans reached')]
  exact ⟨p, found, track, length⟩

end Cadenza.Score
