import InvertedIndex.Postings.Walk
import InvertedIndex.Proofs.Cursor.Hits
import InvertedIndex.Proofs.Postings.Holding

/-!
# `Proofs.Postings.Walk` — walking the groups of a term

A walk over sound groups goes through their postings in order. What it has not read are the entries
left of each group; reading takes the first of them, and the groups that a seek passes over hold
only ids below its target.

## Contents
- `Leftover`, `Leftover.landings`: the entries left of a group;
- `Pending`: stretches that hold what is left; `takeEntry_spec`, `takeFrom_spec`;
- `Walk.shows`: a walk behaves like the stream of the hits that are left;
- `Walk.pending_ofGroups`: what a walk over sound groups has left;
- `hitsOf`: the hits of sound groups; `Walk.shows_ofGroups`.
-/

namespace InvertedIndex

/-! ## What is left of a group -/

/-- The entries that are left of a group. -/
structure Leftover where
  number : UInt16
  entries : List Entry

namespace Leftover

/-- The postings that are left. -/
def landings (left : Leftover) : List Landing :=
  left.entries.map fun entry => ⟨DocId.compose left.number entry.member, entry.payload⟩

/-- The stretch is where the entries stand. -/
def In (left : Leftover) (stretch : Stretch) : Prop :=
  stretch.number = left.number ∧ (∀ entry ∈ left.entries, entry.Fits) ∧
    match stretch.unread with
    | .inline entry => left.entries = [entry]
    | .bytes rest => rest = Entry.encodeAll left.entries

/-- The ids of groups below that of a target are below the target. -/
theorem lt_target {left : Leftover} {target : DocId} (hlt : left.number < target.group)
    {landing : Landing} (hlanding : landing ∈ left.landings) : landing.id < target := by
  obtain ⟨entry, hentry, rfl⟩ := List.mem_map.1 hlanding
  exact DocId.compose_lt_of_group_lt hlt

end Leftover

/-- The stretches hold what is left of the groups. -/
def Pending (lefts : List Leftover) (todo : List Stretch) : Prop :=
  List.Forall₂ Leftover.In lefts todo

/-- The postings that are left of several groups. -/
def landingsIn (lefts : List Leftover) : List Landing := lefts.flatMap Leftover.landings

/-- What is taken off the front of some postings: the first of them, with the others left. -/
def Taken (landings : List Landing) : Option (Landing × List Stretch) → Prop
  | none => landings = []
  | some (landing, rest) => ∃ lefts, Pending lefts rest ∧ landings = landing :: landingsIn lefts

/-- Reading takes the first posting. -/
theorem takeEntry_spec {lefts : List Leftover} {todo : List Stretch} (h : Pending lefts todo) :
    Taken (landingsIn lefts) (takeEntry todo) := by
  -- Stretches that are used up are passed over.
  induction h with
  | nil => rfl
  | @cons left stretch lefts todo hhead hrest ih =>
    obtain ⟨number, unread⟩ := stretch
    obtain ⟨leftNumber, entries⟩ := left
    obtain ⟨hnumber, hfits, hunread⟩ := hhead
    obtain rfl : number = leftNumber := hnumber
    cases unread with
    | inline entry =>
      obtain rfl : entries = [entry] := hunread
      exact ⟨⟨number, []⟩ :: lefts, .cons ⟨rfl, nofun, rfl⟩ hrest, rfl⟩
    | bytes bytes =>
      obtain rfl : bytes = Entry.encodeAll entries := hunread
      unfold takeEntry
      cases entries with
      | nil =>
        rw [Entry.encodeAll_nil, Entry.decode?_nil]
        exact ih
      | cons entry entries =>
        obtain ⟨hentry, hentries⟩ := List.forall_mem_cons.1 hfits
        rw [Entry.encodeAll_cons, Entry.decode?_encode hentry]
        exact ⟨⟨number, entries⟩ :: lefts, .cons ⟨rfl, hentries, rfl⟩ hrest, rfl⟩

/-- Reading up to a target takes the first posting at or after it. -/
theorem takeFrom_spec {lefts : List Leftover} {todo : List Stretch} (h : Pending lefts todo)
    (target : DocId) : Taken ((landingsIn lefts).dropWhile fun landing => landing.id < target)
      (takeFrom target todo) := by
  fun_induction takeFrom target todo generalizing lefts with
  | case1 todo hnone =>
    have htaken := takeEntry_spec h
    rw [hnone] at htaken
    rw [show landingsIn lefts = [] from htaken]
    rfl
  | case2 todo landing rest htake hreached =>
    have htaken := takeEntry_spec h
    rw [htake] at htaken
    obtain ⟨lefts', hpending, hlandings⟩ := htaken
    rw [hlandings, List.dropWhile_cons]
    simp only [UInt32.not_lt.2 hreached, decide_false, Bool.false_eq_true, if_false]
    exact ⟨lefts', hpending, rfl⟩
  | case3 todo landing rest htake hshort ih =>
    have htaken := takeEntry_spec h
    rw [htake] at htaken
    obtain ⟨lefts', hpending, hlandings⟩ := htaken
    rw [hlandings, List.dropWhile_cons]
    simp only [UInt32.not_le.1 hshort, decide_true, if_true]
    exact ih hpending

/-- Passing over the groups below that of a target skips no id at or after the target. -/
theorem pending_passed {lefts : List Leftover} {todo : List Stretch} (h : Pending lefts todo)
    (target : DocId) : ∃ lefts',
      Pending lefts' (todo.dropWhile fun stretch => stretch.number < target.group) ∧
        ((landingsIn lefts').dropWhile fun landing => landing.id < target)
          = (landingsIn lefts).dropWhile fun landing => landing.id < target := by
  induction h with
  | nil => exact ⟨[], .nil, rfl⟩
  | @cons left stretch lefts todo hhead hrest ih =>
    by_cases hlt : stretch.number < target.group
    · obtain ⟨lefts', hpending, hsame⟩ := ih
      refine ⟨lefts', ?_, ?_⟩
      · simpa only [List.dropWhile_cons, decide_eq_true hlt, if_true] using hpending
      · rw [hsame]
        have hbelow : ∀ landing ∈ left.landings, decide (landing.id < target) = true :=
          fun landing hlanding => decide_eq_true (Leftover.lt_target (hhead.1 ▸ hlt) hlanding)
        show _ = (left.landings ++ landingsIn lefts).dropWhile _
        rw [List.dropWhile_append_of_pos hbelow]
    · refine ⟨left :: lefts, ?_, rfl⟩
      simp only [List.dropWhile_cons, decide_eq_false hlt, Bool.false_eq_true, if_false]
      exact .cons hhead hrest

/-! ## Walks as streams of hits -/

/-- The posting as a hit. -/
def Landing.hit (landing : Landing) : Hit := ⟨landing.id, Window.decode landing.payload⟩

namespace Walk

/-- The walk stands on the hit that the stream stands on, and has the same hits ahead. -/
def Shows (s : HitStream) (walk : Walk) : Prop :=
  s.here = walk.landing.map Landing.hit ∧
    ∃ lefts, Pending lefts walk.todo ∧ s.ahead = (landingsIn lefts).map Landing.hit

theorem Shows.current {s : HitStream} {walk : Walk} (h : Shows s walk) :
    s.current = walk.current := by
  unfold HitStream.current Walk.current
  rw [h.1]
  cases walk.landing <;> rfl

theorem Shows.window {s : HitStream} {walk : Walk} (h : Shows s walk) :
    s.window = Window.decode walk.payload := by
  unfold HitStream.window Walk.payload
  rw [h.1]
  cases walk.landing <;> rfl

/-- After taking the first of some postings, the walk shows their hits. -/
theorem shows_ofTaken {landings : List Landing} {taken : Option (Landing × List Stretch)}
    (h : Taken landings taken) : Shows (.ofAhead (landings.map Landing.hit)) (ofTaken taken) := by
  cases taken with
  | none =>
    rw [show landings = [] from h]
    exact ⟨rfl, [], .nil, rfl⟩
  | some result =>
    obtain ⟨landing, rest⟩ := result
    obtain ⟨lefts, hpending, rfl⟩ := h
    exact ⟨rfl, lefts, hpending, rfl⟩

/-- **Walks behave like the streams of the hits that are left.** -/
def shows : Bisimulation HitStream Walk where
  Rel := Shows
  current_eq := Shows.current
  window_eq := Shows.window
  move m s walk h := by
    have hcurrent := h.current
    obtain ⟨hhere, lefts, hpending, hahead⟩ := id h
    cases m with
    | next =>
      have htaken := shows_ofTaken (takeEntry_spec hpending)
      rw [← hahead] at htaken
      exact htaken
    | seek target =>
      -- A walk that is already there does not move; neither does the stream.
      by_cases hrest : (Move.seek target).rests walk.current
      · have hstream : IdStream.move (.seek target) s = s := if_pos (hcurrent ▸ hrest)
        have hwalk : IdStream.move (.seek target) walk = walk := if_pos hrest
        rwa [hstream, hwalk]
      · have hstream : IdStream.move (.seek target) s
            = .ofAhead (s.ahead.dropWhile fun hit => hit.id < target) := if_neg (hcurrent ▸ hrest)
        have hwalk : IdStream.move (.seek target) walk = ofTaken (takeFrom target
            (walk.todo.dropWhile fun stretch => stretch.number < target.group)) := if_neg hrest
        obtain ⟨lefts', hpending', hsame⟩ := pending_passed hpending target
        have htaken := shows_ofTaken (takeFrom_spec hpending' target)
        rw [hsame] at htaken
        rw [hstream, hwalk, hahead, List.dropWhile_map]
        exact htaken

end Walk

/-! ## Sound groups -/

/-- The hits of sound groups. -/
def hitsOf (groups : List Group) (hasc : Ascending Group.number groups)
    (hsound : ∀ group ∈ groups, group.Sound) (hzero : payloadAt groups 0 0 = none) : HitList where
  hits := (landingsOf groups).map Landing.hit
  ascending := List.pairwise_map.2 (landingsOf_ascending hasc hsound)
  positive := by
    rintro hit hhit hid
    obtain ⟨landing, hlanding, rfl⟩ := List.mem_map.1 hhit
    have hpayload := ((mem_landingsOf hasc hsound).1 hlanding).2
    have hlanding0 : landing.id = 0 := hid
    rw [hlanding0] at hpayload
    rw [show payloadAt groups (DocId.group 0) (DocId.member 0) = none from hzero] at hpayload
    cases hpayload

/-- Before its first move, a walk over sound groups has all their postings left. -/
theorem Walk.pending_ofGroups {groups : List Group} (hsound : ∀ group ∈ groups, group.Sound) :
    ∃ lefts, Pending lefts (Walk.ofGroups groups).todo ∧ landingsOf groups = landingsIn lefts := by
  refine ⟨groups.map fun group => ⟨group.number, group.body.entries⟩, ?_, ?_⟩
  · refine List.forall₂_map_left_iff.2 (List.forall₂_map_right_iff.2 (List.forall₂_same.2 ?_))
    intro group hgroup
    have hbody := (hsound group hgroup).body
    obtain ⟨number, body⟩ := group
    cases body with
    | inline entry => exact ⟨rfl, hbody.run.fits, rfl⟩
    | block c bytes => exact ⟨rfl, hbody.run.fits, hbody.block_eq⟩
  · rw [landingsIn, List.flatMap_map]
    rfl

/-- A walk over sound groups shows their hits. -/
theorem Walk.shows_ofGroups {groups : List Group} (hasc : Ascending Group.number groups)
    (hsound : ∀ group ∈ groups, group.Sound) (hzero : payloadAt groups 0 0 = none) :
    Walk.Shows (hitsOf groups hasc hsound hzero).stream (Walk.ofGroups groups) := by
  obtain ⟨lefts, hpending, hlandings⟩ := Walk.pending_ofGroups hsound
  exact ⟨rfl, lefts, hpending, congrArg (List.map Landing.hit) hlandings⟩

end InvertedIndex
