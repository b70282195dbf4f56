import InvertedIndex.Proofs.Postings.Ledger
import InvertedIndex.Proofs.Postings.Walk
import InvertedIndex.Proofs.Snapshot.Walk

/-!
# `Proofs.Walks` — walks over live and over written postings

Both kinds of walk read postings off a tape. Live, these are the postings of the groups that a term
keeps; written, those of the groups in its data. So a walk that is drained lands on all of them in
order, and a seek, which passes over groups by their numbers, is as good as walking there. That
holds for every target, also for one above all ids: the number of its group is then taken from its
low bits, and fewer groups are passed over, or none.

## Contents
- `Walk.tape`: a walk over live postings as the reader of a tape;
- `Walk.Visits`: what draining a walk over live postings must give; `Tracks.visits`;
- `walks_pace`: live walks visit what is stored, and both kinds seek as paced.
-/

namespace InvertedIndex

/-! ## Live postings -/

namespace Walk

/-- Just these postings are left of the groups of a walk, in order and above the current id. -/
structure Ahead (walk : Walk) (landings : List Landing) : Prop where
  pending : ∃ lefts, Pending lefts walk.todo ∧ landings = landingsIn lefts
  ascending : landings.Pairwise fun a b => a.id < b.id
  above : ∀ landing ∈ landings, walk.current < landing.id

/-- After taking the first of some postings, the walk stands on it and has the others ahead. -/
theorem ahead_ofTaken {landings : List Landing} {taken : Option (Landing × List Stretch)}
    (hasc : landings.Pairwise fun a b => a.id < b.id) (h : Taken landings taken) :
    (ofTaken taken).landing = landings.head? ∧ (ofTaken taken).Ahead landings.tail := by
  cases taken with
  | none =>
    rw [show landings = [] from h]
    exact ⟨rfl, ⟨[], .nil, rfl⟩, .nil, nofun⟩
  | some result =>
    obtain ⟨landing, rest⟩ := result
    obtain ⟨lefts, hpending, rfl⟩ := h
    obtain ⟨habove, hrest⟩ := List.pairwise_cons.1 hasc
    exact ⟨rfl, ⟨lefts, hpending, rfl⟩, hrest, habove⟩

/-- A walk reads the postings that are left of its groups. -/
def tape : Tape Walk Landing where
  id := Landing.id
  here := landing
  Ahead := Ahead
  current_eq walk := by
    show walk.current = _
    unfold Walk.current
    cases walk.landing <;> rfl
  above h := h.above
  next := by
    rintro walk landings ⟨⟨lefts, hpending, rfl⟩, hasc, -⟩
    exact ahead_ofTaken hasc (takeEntry_spec hpending)
  rests hrest := if_pos hrest
  seek := by
    rintro walk landings target ⟨⟨lefts, hpending, rfl⟩, hasc, -⟩ hrest
    obtain ⟨lefts', hpending', hsame⟩ := pending_passed hpending target
    have hseek : IdStream.seek target walk = ofTaken (takeFrom target
        (walk.todo.dropWhile fun stretch => stretch.number < target.group)) := if_neg hrest
    have htaken := takeFrom_spec hpending' target
    rw [hsame] at htaken
    rw [hseek]
    exact ahead_ofTaken (hasc.sublist (List.dropWhile_sublist _)) htaken

/-- What draining a walk over the postings of a term must give: the walk lands on the ids that have
    a payload, in ascending order, on each with its payload; and wherever it stands, its window is
    that of the payload, the positions in order and without repeats if they were recorded as such.
    -/
structure Visits (walk : Walk) (payload? : DocId → Option Bytes) : Prop where
  ascending : ((IdStream.drain walk).filterMap landing).Pairwise fun a b => a.id < b.id
  mem_iff : ∀ landing, landing ∈ (IdStream.drain walk).filterMap Walk.landing ↔
    payload? landing.id = some landing.payload
  window : ∀ state ∈ IdStream.drain walk, IdStream.window state = Window.decode state.payload ∧
    ∀ positions, state.payload = Window.encode positions →
      (IdStream.window state).Pairwise (· < ·) ∧ ∀ p, p ∈ IdStream.window state ↔ p ∈ positions

end Walk

namespace Postings

variable {postings : Postings} {ledger : Ledger}

/-- A walk over a term has all its postings ahead, -/
theorem Tracks.ahead (h : postings.Tracks ledger) {term : String} {holding : Holding}
    (hholding : postings.holdings[term]? = some holding) :
    Walk.Ahead (.ofGroups holding.groups) (landingsOf holding.groups) := by
  have hsound := h.sound term holding hholding
  refine ⟨Walk.pending_ofGroups hsound.groups, ?_, ?_⟩
  · exact landingsOf_ascending hsound.ascending hsound.groups
  · intro landing hlanding
    exact UInt32.pos_iff_ne_zero.2 ((h.landing hholding).1 hlanding).1.1

/-- and visits them when it is drained. -/
theorem Tracks.visits (h : postings.Tracks ledger) {term : String} {holding : Holding}
    (hholding : postings.holdings[term]? = some holding) :
    (Walk.ofGroups holding.groups).Visits (postings.find? term) := by
  have hahead := h.ahead hholding
  have hdrain : (IdStream.drain (Walk.ofGroups holding.groups)).filterMap Walk.landing
      = landingsOf holding.groups := Walk.tape.drain_eq hahead
  refine ⟨?_, ?_, ?_⟩
  · rw [hdrain]
    exact hahead.ascending
  · intro landing
    rw [hdrain, h.landing hholding, h.find?_eq]
    refine ⟨And.right, fun hpayload => ⟨?_, hpayload⟩⟩
    -- Only valid ids have a payload.
    by_contra hid
    rw [h.payload, if_neg hid] at hpayload
    cases hpayload
  · intro state _
    refine ⟨rfl, fun positions hpayload => ?_⟩
    have hwindow : IdStream.window state = Window.ofPositions positions := by
      show Window.decode state.payload = _
      rw [hpayload, Window.decode_encode]
    rw [hwindow]
    exact ⟨Window.ofPositions_ascending positions, fun p => Window.mem_ofPositions⟩

end Postings

/-! ## Both -/

/-- What a walk over live postings shows: its id, the payload there, and the positions in it. -/
def Walk.shown (walk : Walk) : DocId × Bytes × Window :=
  (walk.current, walk.payload, IdStream.window walk)

/-- What a walk over written postings shows: its id, the bare value there, and the positions and
    values of its list. -/
def SnapshotWalk.shown (walk : SnapshotWalk) : DocId × Int32 × Window × List Int32 :=
  (walk.current, walk.value, IdStream.window walk, walk.occurrences.map Occurrence.value)

/-- **Walks skip ahead as if they walked there.** After any changes, accepted or refused, there is a
    walk over each term that is known and over no other. It visits what is stored for the term, and
    after any moves a seek leaves it indistinct from a walk that took the steps one by one. The same
    holds of walks over data as it is written. -/
theorem walks_pace :
    (∀ (changes : List Change) (term : String),
      (((Postings.run changes).walk? term).isSome ↔ (Postings.run changes).contains term) ∧
      ∀ walk, (Postings.run changes).walk? term = some walk →
        walk.Visits ((Postings.run changes).find? term) ∧ SeeksAsPaced Walk.shown walk) ∧
    ∀ groups : List WrittenGroup, WrittenGroup.AllSound groups →
      SeeksAsPaced SnapshotWalk.shown (.ofData (WrittenGroup.bytesAll groups)) := by
  constructor
  · intro changes term
    refine ⟨?_, fun walk hwalk => ?_⟩
    · rw [Postings.walk?, Option.isSome_map, Postings.contains_eq]
    obtain ⟨ledger, htracks⟩ := Postings.exists_tracks_run changes
    obtain ⟨holding, hholding, rfl⟩ := Option.map_eq_some_iff.1 hwalk
    refine ⟨htracks.visits hholding, ?_⟩
    exact (Walk.tape.seeksAsPaced (htracks.ahead hholding)).of_view
      (f := fun landing => Walk.shown ⟨[], landing⟩) fun _ => rfl
  · intro groups hsound
    exact (SnapshotWalk.tape.seeksAsPaced (WrittenGroup.ahead_ofData hsound)).of_view
      (f := fun landing => SnapshotWalk.shown ⟨Tail.nothing, landing⟩) fun _ => rfl

/-- An oak in three groups, of which a seek skips one, before and after it is written. -/
def oakGroups : List WrittenGroup :=
  [⟨0, [⟨5, [⟨0, 7⟩]⟩]⟩, ⟨1, [⟨1, [⟨2, 0⟩]⟩]⟩, ⟨2, [⟨1, [⟨3, -1⟩, ⟨9, 300⟩]⟩]⟩]

theorem walks_pace_oak :
    let changes : List Change := [.insertPositions "oak" 5 [9, 3, 9], .insert "oak" 4097 [7],
      .insert "oak" 8193 [1, 0], .insert "oak" 6 [], .erase "oak" 6, .insert "oak" 0 [8]]
    (∃ walk, (Postings.run changes).walk? "oak" = some walk ∧
      walk.Visits ((Postings.run changes).find? "oak") ∧ SeeksAsPaced Walk.shown walk) ∧
    WrittenGroup.AllSound oakGroups ∧
      SeeksAsPaced SnapshotWalk.shown (.ofData (WrittenGroup.bytesAll oakGroups)) := by
  intro changes
  have hsmall : ∀ p ∈ ([9, 3, 9] : List Position), p ≤ largestPosition := by
    simp [largestPosition]
  have hmodest : ∀ change ∈ changes, ∀ payload ∈ change.payload?, Modest payload := by
    have hthree : (Window.encode [9, 3, 9]).length ≤ modestLength := Modest.encode hsmall
    simp [changes, Change.payload?, Modest, hthree]
    simp [modestLength]
  have hfits : Postings.empty.Fits changes :=
    Postings.empty_tracks.fits Ledger.empty_allModest hmodest
  have htracks : (Postings.run changes).Tracks (Ledger.run changes) :=
    Postings.empty_tracks.run hfits (List.prefix_refl changes)
  have hwalk : ((Postings.run changes).walk? "oak").isSome := by
    rw [Postings.walk?, Option.isSome_map, htracks.terms]
    decide
  have hsound : WrittenGroup.AllSound oakGroups := by
    refine ⟨?_, ?_, by decide⟩
    · show List.Pairwise _ _
      decide
    · have hrest (group) (h : group ∈ oakGroups) : group.entries ≠ [] ∧
          List.Pairwise (fun a b => a.member < b.member) group.entries ∧
          (WrittenEntry.bytesAll group.entries).length ≤ TermData.maxGroupBytes := by
        revert group
        decide
      have hentries : ∀ group ∈ oakGroups, ∀ entry ∈ group.entries, entry.member.toNat < 4096 ∧
          entry.occurrences ≠ [] ∧
          (entry.occurrences.flatMap TermData.encodeOccurrence).length ≤ 2 ^ 32 := by
        decide
      intro group hgroup
      obtain ⟨hnonempty, hascending, hsize⟩ := hrest group hgroup
      refine ⟨hnonempty, hascending, fun entry hentry => ?_, hsize⟩
      obtain ⟨hmember, hsome, hlength⟩ := hentries group hgroup entry hentry
      exact ⟨hmember, hsome, hlength⟩
  obtain ⟨walk, hwalk⟩ := Option.isSome_iff_exists.1 hwalk
  exact ⟨⟨walk, hwalk, (walks_pace.1 changes "oak").2 walk hwalk⟩, hsound,
    walks_pace.2 oakGroups hsound⟩

end InvertedIndex
