import InvertedIndex.Proofs.Cursor.Map

/-!
# `Proofs.Cursor.Hits` — streams over a list of hits

Whatever form postings are stored in, walking them is walking a list of hits: ids, ascending, each
with its window. `HitStream` is that list as a stream. A walk over stored postings is understood by
relating it to one.

## Contents
- `Hit`, `HitStream`: a list of hits as a stream;
- `HitList`: ascending hits; `HitList.ids`; `HitList.hit_unique`: one for each id;
- `HitList.sim`: the stream of a list obeys the protocol on its ids.
-/

namespace InvertedIndex

/-- A document with the positions matched in it. -/
structure Hit where
  id : DocId
  window : Window
  deriving Repr, DecidableEq

/-- A list of hits as a stream. -/
structure HitStream where
  /-- The hit stood on. -/
  here : Option Hit
  /-- The hits behind it. -/
  ahead : List Hit
  deriving Repr, DecidableEq

namespace HitStream

/-- The stream that stands on the first of some hits. -/
def ofAhead : List Hit → HitStream
  | [] => ⟨none, []⟩
  | hit :: rest => ⟨some hit, rest⟩

/-- The id stood on, `0` if none. -/
def current (s : HitStream) : DocId :=
  match s.here with
  | some hit => hit.id
  | none => 0

/-- The window of the hit stood on. -/
def window (s : HitStream) : Window :=
  match s.here with
  | some hit => hit.window
  | none => []

instance : IdStream HitStream where
  current := current
  window := window
  next s := ofAhead s.ahead
  seek target s :=
    if (Move.seek target).rests s.current then s
    else ofAhead (s.ahead.dropWhile fun hit => hit.id < target)

end HitStream

/-- Hits in strictly ascending order, `0` not among their ids. -/
structure HitList where
  hits : List Hit
  ascending : hits.Pairwise fun a b => a.id < b.id
  positive : ∀ hit ∈ hits, hit.id ≠ 0

namespace HitList

variable {list : HitList}

/-- The ids of a list of hits. -/
def ids (list : HitList) : IdList where
  toList := list.hits.map Hit.id
  ascending := List.pairwise_map.2 list.ascending
  positive := by
    rintro id hid
    obtain ⟨hit, hhit, rfl⟩ := List.mem_map.1 hid
    exact list.positive hit hhit

theorem mem_ids {id : DocId} : id ∈ list.ids ↔ ∃ hit ∈ list.hits, hit.id = id := List.mem_map

/-- The stream before its first move. -/
def stream (list : HitList) : HitStream := ⟨none, list.hits⟩

/-- Where the stream of a list of hits stands when the machine is at a phase: what it has passed and
    what is ahead make up the list. -/
def Standing (list : HitList) (s : HitStream) : Phase → Prop
  | .fresh => s = list.stream
  | .hit id => ∃ passed hit, hit.id = id ∧ s.here = some hit ∧
      list.hits = passed ++ hit :: s.ahead
  | .spent => s = ⟨none, []⟩

theorem standing_current {s : HitStream} {phase : Phase} (h : list.Standing s phase) :
    s.current = phase.current := by
  cases phase with
  | fresh =>
    obtain rfl := h
    rfl
  | spent =>
    obtain rfl := h
    rfl
  | hit id =>
    obtain ⟨_, hit, rfl, hhere, _⟩ := h
    rw [HitStream.current, hhere]
    rfl

/-- Dropping what lies below a bound leads to the first id at or after it. -/
theorem standing_ofAhead {passed ahead : List Hit} {low : Nat} (hsplit : list.hits = passed ++ ahead)
    (hpassed : ∀ hit ∈ passed, hit.id.toNat < low) :
    list.Standing (HitStream.ofAhead (ahead.dropWhile fun hit => hit.id.toNat < low))
      (.ofId (list.ids.first low)) := by
  -- Hits below the bound pass over to those before it, one by one.
  induction ahead generalizing passed with
  | nil =>
    have hnone : list.ids.first low = 0 := by
      rw [IdList.first_eq_zero_iff]
      intro id hid
      obtain ⟨hit, hhit, rfl⟩ := mem_ids.1 hid
      rw [hsplit, List.append_nil] at hhit
      exact hpassed hit hhit
    rw [hnone]
    rfl
  | cons hit rest ih =>
    by_cases hlow : hit.id.toNat < low
    · simp only [List.dropWhile_cons, decide_eq_true hlow, if_true]
      have hsplit' : list.hits = (passed ++ [hit]) ++ rest := by
        rw [hsplit, List.append_assoc]
        rfl
      refine ih hsplit' fun other hother => ?_
      rcases List.mem_append.1 hother with hbefore | hlast
      · exact hpassed other hbefore
      · rw [List.mem_singleton.1 hlast]
        exact hlow
    · simp only [List.dropWhile_cons, decide_eq_false hlow, Bool.false_eq_true, if_false]
      have hmem : hit ∈ list.hits := by
        rw [hsplit]
        exact List.mem_append_right _ List.mem_cons_self
      -- The first hit not below the bound is the least there: those before it are below, those
      -- behind it above.
      have hfirst : list.ids.first low = hit.id := by
        refine IdList.first_eq (mem_ids.2 ⟨hit, hmem, rfl⟩) (Nat.le_of_not_lt hlow) ?_
        intro id hid hle
        obtain ⟨other, hother, rfl⟩ := mem_ids.1 hid
        rw [hsplit] at hother
        have hasc := list.ascending
        rw [hsplit, List.pairwise_append, List.pairwise_cons] at hasc
        rcases List.mem_append.1 hother with hbefore | hback
        · have := hpassed other hbefore
          omega
        · rcases List.mem_cons.1 hback with rfl | hback
          · exact Nat.le_refl _
          · exact (UInt32.lt_iff_toNat_lt.1 (hasc.2.1.1 other hback)).le
      rw [hfirst, Phase.ofId_of_ne (list.positive hit hmem)]
      exact ⟨passed, hit, rfl, rfl, hsplit⟩

/-- A stream that has not reached its end has passed some hits, up to the current id, and has those
    above it ahead. -/
theorem Standing.split {s : HitStream} {phase : Phase} (h : list.Standing s phase)
    (hspent : phase ≠ .spent) : ∃ passed, list.hits = passed ++ s.ahead ∧
      (∀ hit ∈ passed, hit.id.toNat ≤ s.current.toNat) ∧
      ∀ hit ∈ s.ahead, s.current.toNat < hit.id.toNat := by
  cases phase with
  | spent => exact absurd rfl hspent
  | fresh =>
    obtain rfl := h
    refine ⟨[], rfl, nofun, fun hit hhit => ?_⟩
    exact UInt32.lt_iff_toNat_lt.1 (UInt32.pos_iff_ne_zero.2 (list.positive hit hhit))
  | hit id =>
    have hcurrent : s.current = id := standing_current h
    obtain ⟨passed, hit, rfl, -, hsplit⟩ := h
    have hasc := list.ascending
    rw [hsplit, List.pairwise_append, List.pairwise_cons] at hasc
    obtain ⟨-, ⟨hahead, -⟩, hpassed⟩ := hasc
    refine ⟨passed ++ [hit], by rw [hsplit, List.append_assoc]; rfl, ?_, ?_⟩
    · intro other hother
      rw [hcurrent]
      rcases List.mem_append.1 hother with hbefore | hlast
      · exact (UInt32.lt_iff_toNat_lt.1 (hpassed other hbefore hit List.mem_cons_self)).le
      · rw [List.mem_singleton.1 hlast]
    · intro other hother
      rw [hcurrent]
      exact UInt32.lt_iff_toNat_lt.1 (hahead other hother)

/-- The stream of a list of hits moves like the machine on its ids. -/
theorem standing_move {s : HitStream} {phase : Phase} (h : list.Standing s phase) (m : Move) :
    list.Standing (IdStream.move m s) (list.ids.move m phase) := by
  have hcurrent := standing_current h
  by_cases hstays : m.rests phase.current ∨ phase = .spent
  · rw [IdList.move_stays hstays]
    rcases hstays with hrest | rfl
    · cases m with
      | next => cases hrest
      | seek target =>
        have hsame : IdStream.move (.seek target) s = s := if_pos (hcurrent ▸ hrest)
        rwa [hsame]
    · obtain rfl := h
      cases m <;> rfl
  · obtain ⟨hrest, hspent⟩ := not_or.1 hstays
    obtain ⟨passed, hsplit, hpassed, hahead⟩ := h.split hspent
    -- Both moves drop the hits below a bound; for `next`, nothing ahead lies below it.
    have hmoved : IdStream.move m s = HitStream.ofAhead
        (s.ahead.dropWhile fun hit => hit.id.toNat < IdList.bound s.current m) := by
      cases m with
      | next =>
        have hkeep : (s.ahead.dropWhile fun hit => hit.id.toNat < s.current.toNat + 1) = s.ahead := by
          cases hcase : s.ahead with
          | nil => rfl
          | cons hit rest =>
            have hlt := hahead hit (hcase ▸ List.mem_cons_self)
            have hkept : ¬ hit.id.toNat < s.current.toNat + 1 := by omega
            simp only [List.dropWhile_cons, decide_eq_false hkept, Bool.false_eq_true, if_false]
        exact congrArg HitStream.ofAhead hkeep.symm
      | seek target =>
        have hseek : IdStream.move (.seek target) s = HitStream.ofAhead
          (s.ahead.dropWhile fun hit => hit.id < target) := if_neg (hcurrent ▸ hrest)
        rw [hseek]
        refine congrArg (fun p => HitStream.ofAhead (s.ahead.dropWhile p)) (funext fun hit => ?_)
        exact decide_eq_decide.2 UInt32.lt_iff_toNat_lt
    rw [IdList.move_eq hspent hrest, hmoved, ← hcurrent]
    refine standing_ofAhead hsplit fun hit hhit => (hpassed hit hhit).trans_lt ?_
    have hmem : hit ∈ list.hits := hsplit ▸ List.mem_append_left _ hhit
    have hpos := UInt32.lt_iff_toNat_lt.1 (UInt32.pos_iff_ne_zero.2 (list.positive hit hmem))
    refine IdList.lt_bound (fun hzero => ?_) (hcurrent ▸ hrest)
    have hle := hpassed hit hhit
    rw [hzero] at hle
    omega

/-- On an id the stream stands on a hit of the list with it. -/
theorem Standing.exists_hit {s : HitStream} {id : DocId} (h : list.Standing s (.hit id)) :
    ∃ hit ∈ list.hits, hit.id = id ∧ s.here = some hit := by
  obtain ⟨passed, hit, hid, hhere, hsplit⟩ := h
  refine ⟨hit, ?_, hid, hhere⟩
  rw [hsplit]
  exact List.mem_append_right _ List.mem_cons_self

/-- Among hits in order there is one for each id. -/
theorem hit_unique {hit other : Hit} (h : hit ∈ list.hits) (h' : other ∈ list.hits)
    (hid : hit.id = other.id) : hit = other := by
  have hnodup : (list.hits.map Hit.id).Nodup :=
    List.pairwise_map.2 (list.ascending.imp UInt32.ne_of_lt)
  exact List.inj_on_of_nodup_map hnodup h h' hid

/-- **The stream of a list of hits obeys the protocol on its ids.** -/
def sim (list : HitList) : Simulation (S := HitStream) IdStream.current IdStream.move where
  ids := list.ids
  At phase s := list.Standing s phase
  has := by
    rintro phase s h id rfl
    obtain ⟨hit, hhit, hid, -⟩ := h.exists_hit
    exact mem_ids.2 ⟨hit, hhit, hid⟩
  current_eq := standing_current
  move_at m _ _ h := standing_move h m

end HitList
end InvertedIndex
