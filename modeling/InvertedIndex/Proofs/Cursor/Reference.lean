import InvertedIndex.Cursor.Basic
import Mathlib.Data.List.Sort
import Mathlib.Data.Set.Basic

/-!
# `Proofs.Cursor.Reference` — the machine that every cursor must match

What a cursor does when it moves is said once, for a plain list of ids: go to the next id, or to the
first at or after a target, and stay past the last. A stream **obeys** the protocol on a list when
it cannot be told from that machine by moving it. To show that a stream does, one exhibits a
`Simulation`: a relation between where the machine stands and the states of the stream that every
move keeps.

## Contents
- `IdList`: ascending ids, `0` not among them; `IdList.ofSet`: those of a set;
- `IdList.first` and what is known about it;
- `IdList.move`, `IdList.run`, `IdList.trace`: the reference machine;
- `Obeys`: the protocol; `Simulation`: how to prove it;
- `Simulation.Behind`: a stream that has not passed a given id;
- `Obeys.ids_eq`: all that an obedient stream visits.
-/

namespace InvertedIndex

/-! ## Ascending ids -/

/-- Ids in strictly ascending order, `0` not among them. -/
structure IdList where
  toList : List DocId
  ascending : toList.Pairwise (· < ·)
  positive : ∀ id ∈ toList, id ≠ 0

namespace IdList

instance : Membership DocId IdList := ⟨fun ids id => id ∈ ids.toList⟩

theorem mem_def {ids : IdList} {id : DocId} : id ∈ ids ↔ id ∈ ids.toList := Iff.rfl

/-- The order of the ids is no choice: a list is known by its members. -/
theorem ext_mem {ids ids' : IdList} (h : ∀ id, id ∈ ids ↔ id ∈ ids') : ids = ids' := by
  obtain ⟨list, hasc, _⟩ := ids
  obtain ⟨list', hasc', _⟩ := ids'
  obtain rfl := hasc.eq_of_mem_iff hasc' (h ·)
  rfl

/-- The ids in a list. -/
def toSet (ids : IdList) : Set DocId := {id | id ∈ ids}

@[simp] theorem mem_toSet {ids : IdList} {id : DocId} : id ∈ ids.toSet ↔ id ∈ ids := Iff.rfl

/-- All numbers of 32 bits, in order. -/
def numbers : List DocId := (List.finRange UInt32.size).map UInt32.ofFin

theorem numbers_ascending : numbers.Pairwise (· < ·) := by
  refine List.pairwise_map.2 ((List.pairwise_lt_finRange _).imp fun h => ?_)
  exact UInt32.ofFin_lt_iff_lt.2 h

theorem mem_numbers (id : DocId) : id ∈ numbers := by
  unfold numbers
  rw [List.mem_map]
  exact ⟨id.toFin, List.mem_finRange _, UInt32.ofFin_toFin id⟩

open Classical in
/-- The ids of a set, in order. -/
noncomputable def ofSet (set : Set DocId) : IdList where
  toList := numbers.filter fun id => id ≠ 0 ∧ id ∈ set
  ascending := numbers_ascending.sublist List.filter_sublist
  positive := fun _ hid => (of_decide_eq_true (List.mem_filter.1 hid).2).1

open Classical in
theorem mem_ofSet {set : Set DocId} {id : DocId} : id ∈ ofSet set ↔ id ≠ 0 ∧ id ∈ set := by
  rw [mem_def, ofSet, List.mem_filter, and_iff_right (mem_numbers id), decide_eq_true_iff]

theorem ne_zero {ids : IdList} {id : DocId} (h : id ∈ ids) : id ≠ 0 := ids.positive id h

/-! ## The first id at or after a bound -/

/-- The first id at or after a bound, `0` if there is none. -/
def first (ids : IdList) (low : Nat) : DocId :=
  (ids.toList.find? fun id => low ≤ id.toNat).getD 0

variable {ids : IdList} {low low' : Nat}

theorem first_eq_zero_iff : ids.first low = 0 ↔ ∀ id ∈ ids, id.toNat < low := by
  unfold first
  cases hfind : ids.toList.find? fun id => decide (low ≤ id.toNat) with
  | none =>
    have hnone := List.find?_eq_none.1 hfind
    refine ⟨fun _ id hid => ?_, fun _ => rfl⟩
    have := hnone id hid
    simpa using this
  | some found =>
    have hmem := List.mem_of_find?_eq_some hfind
    have hle : low ≤ found.toNat := by simpa using List.find?_some hfind
    refine ⟨fun h => absurd h (ids.positive _ hmem), fun h => ?_⟩
    have := h found hmem
    omega

theorem first_mem (h : ids.first low ≠ 0) : ids.first low ∈ ids := by
  unfold first at h ⊢
  cases hfind : ids.toList.find? fun id => decide (low ≤ id.toNat) with
  | none =>
    rw [hfind] at h
    exact absurd rfl h
  | some found => exact List.mem_of_find?_eq_some hfind

theorem le_first (h : ids.first low ≠ 0) : low ≤ (ids.first low).toNat := by
  unfold first at h ⊢
  cases hfind : ids.toList.find? fun id => decide (low ≤ id.toNat) with
  | none =>
    rw [hfind] at h
    exact absurd rfl h
  | some found => simpa using List.find?_some hfind

theorem first_ne_zero {id : DocId} (hid : id ∈ ids) (hlow : low ≤ id.toNat) :
    ids.first low ≠ 0 := by
  intro h
  have := first_eq_zero_iff.1 h id hid
  omega

theorem first_le {id : DocId} (hid : id ∈ ids) (hlow : low ≤ id.toNat) :
    (ids.first low).toNat ≤ id.toNat := by
  unfold first
  cases hfind : ids.toList.find? fun id => decide (low ≤ id.toNat) with
  | none =>
    have := List.find?_eq_none.1 hfind id hid
    simp [hlow] at this
  | some found =>
    obtain ⟨_, before, after, hsplit, hbefore⟩ := List.find?_eq_some_iff_append.1 hfind
    have hasc := ids.ascending
    rw [hsplit, List.pairwise_append, List.pairwise_cons] at hasc
    have hmem : id ∈ before ++ found :: after := hsplit ▸ hid
    rcases List.mem_append.1 hmem with hfront | hback
    · have := hbefore id hfront
      simp [hlow] at this
    · rcases List.mem_cons.1 hback with rfl | hback
      · exact Nat.le_refl _
      · have := UInt32.lt_iff_toNat_lt.1 (hasc.2.1.1 id hback)
        simp only [Option.getD_some]
        omega

/-- The first id at or after a bound is the least of them. -/
theorem first_eq {id : DocId} (hid : id ∈ ids) (hlow : low ≤ id.toNat)
    (hleast : ∀ other ∈ ids, low ≤ other.toNat → id.toNat ≤ other.toNat) : ids.first low = id := by
  have hne := first_ne_zero hid hlow
  have hle := first_le hid hlow
  have hge := hleast _ (first_mem hne) (le_first hne)
  exact UInt32.toNat_inj.1 (by omega)

theorem first_self {id : DocId} (hid : id ∈ ids) : ids.first id.toNat = id :=
  first_eq hid (Nat.le_refl _) fun _ _ h => h

/-- A bound can be raised as long as no id is lost. -/
theorem first_raise (hle : low ≤ low') (hgap : ∀ id ∈ ids, low ≤ id.toNat → low' ≤ id.toNat) :
    ids.first low' = ids.first low := by
  by_cases hzero : ids.first low = 0
  · rw [hzero, first_eq_zero_iff]
    intro id hid
    have := first_eq_zero_iff.1 hzero id hid
    omega
  · exact first_eq (first_mem hzero) (hgap _ (first_mem hzero) (le_first hzero)) fun other hother h =>
      first_le hother (by omega)

/-- A bound can be raised to any value up to the first id. -/
theorem first_of_le_first (hle : low ≤ low') (hfirst : ids.first low ≠ 0 →
    low' ≤ (ids.first low).toNat) : ids.first low' = ids.first low := by
  refine first_raise hle fun id hid hlow => ?_
  have := hfirst (first_ne_zero hid hlow)
  have := first_le hid hlow
  omega

/-! ## The reference machine -/

/-- Where the machine stands after a move: on the next id; on the current one if the target is not
    above it; on the first at or after the target; or past the last, where it stays. -/
def move (ids : IdList) : Move → Phase → Phase
  | _, .spent => .spent
  | .next, phase => .ofId (ids.first (phase.current.toNat + 1))
  | .seek target, phase =>
    if phase.current ≠ 0 ∧ target ≤ phase.current then phase else .ofId (ids.first target.toNat)

/-- Where the machine stands after some moves. -/
def run (ids : IdList) (moves : List Move) (phase : Phase) : Phase :=
  moves.foldl (fun phase m => ids.move m phase) phase

/-- Where the machine stands after each of the moves. -/
def trace (ids : IdList) : List Move → Phase → List Phase
  | [], _ => []
  | m :: moves, phase => let phase := ids.move m phase; phase :: ids.trace moves phase

/-- The bound that a move sets to the ids ahead. -/
def bound (current : DocId) : Move → Nat
  | .next => current.toNat + 1
  | .seek target => target.toNat

theorem rests_zero (m : Move) : ¬ m.rests 0 := by
  cases m <;> simp [Move.rests]

/-- A move that rests changes nothing. -/
theorem move_rests {m : Move} {phase : Phase} (h : m.rests phase.current) :
    ids.move m phase = phase := by
  cases m with
  | next => cases h
  | seek target =>
    have hrest := of_decide_eq_true h
    cases phase with
    | spent => rfl
    | fresh => exact if_pos hrest
    | hit id => exact if_pos hrest

/-- Any other move leads to the first id at or after its bound. -/
theorem move_eq {m : Move} {phase : Phase} (hspent : phase ≠ .spent)
    (h : ¬ m.rests phase.current) : ids.move m phase = .ofId (ids.first (bound phase.current m)) := by
  cases m with
  | next => cases phase <;> first | rfl | exact absurd rfl hspent
  | seek target =>
    have hrest : ¬ (phase.current ≠ 0 ∧ target ≤ phase.current) := fun hrest =>
      h (decide_eq_true hrest)
    cases phase with
    | spent => exact absurd rfl hspent
    | fresh => rfl
    | hit id => exact if_neg hrest

theorem move_spent (m : Move) : ids.move m .spent = .spent := by
  cases m <;> rfl

/-- Past the last id, a move rests as well. -/
theorem move_stays {m : Move} {phase : Phase} (h : m.rests phase.current ∨ phase = .spent) :
    ids.move m phase = phase := by
  rcases h with h | rfl
  · exact move_rests h
  · exact move_spent m

/-- A move from an id that does not rest passes it. -/
theorem lt_bound {m : Move} {id : DocId} (hid : id ≠ 0) (h : ¬ m.rests id) :
    id.toNat < bound id m := by
  cases m with
  | next => exact Nat.lt_succ_self _
  | seek target =>
    have hrest : ¬ (id ≠ 0 ∧ target ≤ id) := fun hrest => h (decide_eq_true hrest)
    have hlt : ¬ target ≤ id := fun hle => hrest ⟨hid, hle⟩
    rw [UInt32.le_iff_toNat_le] at hlt
    exact Nat.lt_of_not_le hlt

end IdList

@[simp] theorem Phase.ofId_zero : Phase.ofId 0 = .spent := rfl

theorem Phase.ofId_of_ne {id : DocId} (h : id ≠ 0) : Phase.ofId id = .hit id := if_neg h

@[simp] theorem Phase.ofId_current (id : DocId) : (Phase.ofId id).current = id := by
  unfold ofId
  split
  next h => exact h.symm
  · rfl

theorem Phase.hit_ne_spent {id : DocId} : Phase.hit id ≠ .spent := by simp

/-! ## The protocol -/

/-- An id stood on is one of the list. -/
def IdList.Has (ids : IdList) (phase : Phase) : Prop := ∀ id, phase = .hit id → id ∈ ids

namespace IdList

variable {ids : IdList}

theorem has_fresh : ids.Has .fresh := nofun

theorem has_spent : ids.Has .spent := nofun

theorem has_first (low : Nat) : ids.Has (.ofId (ids.first low)) := by
  intro id h
  by_cases hzero : ids.first low = 0
  · rw [hzero] at h
    cases h
  · rw [Phase.ofId_of_ne hzero] at h
    cases h
    exact first_mem hzero

theorem has_move {phase : Phase} (h : ids.Has phase) (m : Move) : ids.Has (ids.move m phase) := by
  by_cases hrest : m.rests phase.current
  · rwa [move_rests hrest]
  · by_cases hspent : phase = .spent
    · rw [hspent, move_spent]
      exact has_spent
    · rw [move_eq hspent hrest]
      exact has_first _

theorem has_run {phase : Phase} (h : ids.Has phase) (ms : List Move) : ids.Has (ids.run ms phase) := by
  induction ms generalizing phase with
  | nil => exact h
  | cons m ms ih => exact ih (has_move h m)

end IdList

/-- The state after some moves. -/
def moves {S : Type} (move : Move → S → S) (ms : List Move) (s : S) : S :=
  ms.foldl (fun s m => move m s) s

/-- **The protocol**: after any moves, the stream stands where the machine stands. -/
def Obeys {S : Type} [IdStream S] (ids : IdList) (phase : Phase) (s : S) : Prop :=
  ∀ ms, IdStream.current (moves IdStream.move ms s) = (ids.run ms phase).current

/-- An obedient stream goes through the ids that the machine goes through. -/
theorem Obeys.trace_eq {S : Type} [IdStream S] {ids : IdList} {phase : Phase} {s : S}
    (h : Obeys ids phase s) (ms : List Move) :
    (IdStream.trace ms s).map IdStream.current = (ids.trace ms phase).map Phase.current := by
  induction ms generalizing phase s with
  | nil => rfl
  | cons m ms ih => exact congrArg₂ List.cons (h [m]) (ih fun ms' => h (m :: ms'))

/-- Streams that a relation ties to the machine on a list of ids. -/
structure Simulation {S : Type} (current : S → DocId) (move : Move → S → S) where
  ids : IdList
  /-- The states that the stream may be in when the machine is at a phase. -/
  At : Phase → S → Prop
  has : ∀ {phase s}, At phase s → ids.Has phase
  current_eq : ∀ {phase s}, At phase s → current s = phase.current
  move_at : ∀ m {phase s}, At phase s → At (ids.move m phase) (move m s)

namespace Simulation

variable {S : Type} {current : S → DocId} {move : Move → S → S} (sim : Simulation current move)

theorem run_at {phase : Phase} {s : S} (h : sim.At phase s) (ms : List Move) :
    sim.At (sim.ids.run ms phase) (moves move ms s) := by
  induction ms generalizing phase s with
  | nil => exact h
  | cons m ms ih => exact ih (sim.move_at m h)

/-- Simulated streams obey the protocol. -/
theorem obeys [IdStream S] (sim : Simulation (S := S) IdStream.current IdStream.move)
    {phase : Phase} {s : S} (h : sim.At phase s) : Obeys sim.ids phase s :=
  fun ms => sim.current_eq (sim.run_at h ms)

/-- A stream that has not passed `low`: it stands before its first id, or on the first one at or
    after some bound up to `low`. -/
def Behind (low : Nat) (s : S) : Prop :=
  sim.At .fresh s ∨ ∃ bound ≤ low, sim.At (.ofId (sim.ids.first bound)) s

variable {sim}

theorem Behind.mono {low low' : Nat} {s : S} (h : sim.Behind low s) (hle : low ≤ low') :
    sim.Behind low' s := by
  rcases h with hfresh | ⟨bound, hbound, hat⟩
  · exact .inl hfresh
  · exact .inr ⟨bound, by omega, hat⟩

theorem behind_of_at {low : Nat} {s : S} (h : sim.At (.ofId (sim.ids.first low)) s) :
    sim.Behind low s := .inr ⟨low, Nat.le_refl _, h⟩

/-- A stream on an id has not passed it. -/
theorem behind_of_hit {id : DocId} {s : S} (h : sim.At (.hit id) s) : sim.Behind id.toNat s := by
  have hid := sim.has h id rfl
  refine behind_of_at ?_
  rwa [IdList.first_self hid, Phase.ofId_of_ne (IdList.ne_zero hid)]

/-- A stream that has not passed its phase has not passed the bound of a move from there. -/
theorem behind_of_move {m : Move} {phase : Phase} {s : S} (h : sim.At phase s)
    (hspent : phase ≠ .spent) (hrest : ¬ m.rests phase.current) :
    sim.Behind (IdList.bound phase.current m) s := by
  cases phase with
  | spent => exact absurd rfl hspent
  | fresh => exact .inl h
  | hit id =>
    have hid := sim.has h id rfl
    exact (behind_of_hit h).mono (IdList.lt_bound (IdList.ne_zero hid) hrest).le

/-- A seek brings a stream that has not passed the target to the first id from there. -/
theorem Behind.seek {target : DocId} {s : S} (h : sim.Behind target.toNat s) :
    sim.At (.ofId (sim.ids.first target.toNat)) (move (.seek target) s) := by
  rcases h with hfresh | ⟨bound, hbound, hat⟩
  · have hmove := sim.move_at (.seek target) hfresh
    have hspent : Phase.fresh ≠ .spent := nofun
    rwa [IdList.move_eq hspent (IdList.rests_zero _)] at hmove
  · have hmove := sim.move_at (.seek target) hat
    by_cases hzero : sim.ids.first bound = 0
    · have hgone : sim.ids.first target.toNat = 0 := by
        rw [← hzero]
        exact IdList.first_of_le_first hbound (absurd hzero)
      rw [hzero, Phase.ofId_zero, IdList.move_spent] at hmove
      rwa [hgone]
    · by_cases hrest : (Move.seek target).rests (Phase.ofId (sim.ids.first bound)).current
      · rw [IdList.move_rests hrest] at hmove
        rw [Phase.ofId_current] at hrest
        have hle := UInt32.le_iff_toNat_le.1 (of_decide_eq_true hrest).2
        rwa [IdList.first_of_le_first hbound fun _ => hle]
      · rw [IdList.move_eq (by rw [Phase.ofId_of_ne hzero]; exact Phase.hit_ne_spent) hrest] at hmove
        exact hmove

/-- A move that does not rest leads to the first id at or after its bound. -/
theorem move_first {m : Move} {phase : Phase} {s : S} (h : sim.At phase s)
    (hspent : phase ≠ .spent) (hrest : ¬ m.rests phase.current) :
    sim.At (.ofId (sim.ids.first (IdList.bound phase.current m))) (move m s) := by
  rw [← IdList.move_eq hspent hrest]
  exact sim.move_at m h

end Simulation
/-! ## Draining -/

/-- The first id at or after a bound, and those behind it. -/
theorem IdList.filter_first {ids : IdList} {low : Nat} {first : DocId} (h : ids.first low = first)
    (hne : first ≠ 0) : ids.toList.filter (fun id => low ≤ id.toNat)
      = first :: ids.toList.filter fun id => first.toNat + 1 ≤ id.toNat := by
  have hne' : ids.first low ≠ 0 := by rwa [h]
  have hlow := IdList.le_first hne'
  have hmem := IdList.first_mem hne'
  rw [h] at hlow hmem
  obtain ⟨before, after, hsplit⟩ := List.append_of_mem hmem
  have hasc := ids.ascending
  rw [hsplit, List.pairwise_append, List.pairwise_cons] at hasc
  obtain ⟨-, ⟨hafter, -⟩, hbefore⟩ := hasc
  have hbelow : ∀ id ∈ before, id.toNat < first.toNat := fun id hid =>
    UInt32.lt_iff_toNat_lt.1 (hbefore id hid first List.mem_cons_self)
  have habove : ∀ id ∈ after, first.toNat < id.toNat := fun id hid =>
    UInt32.lt_iff_toNat_lt.1 (hafter id hid)
  -- No id in front of the first lies at or after the bound, or it would be the first itself.
  have hpassed : ∀ id ∈ before, id.toNat < low := by
    intro id hid
    by_contra hle
    have hid' : id ∈ ids := by
      rw [IdList.mem_def, hsplit]
      exact List.mem_append_left _ hid
    have hfirst := IdList.first_le hid' (Nat.le_of_not_lt hle)
    rw [h] at hfirst
    have := hbelow id hid
    omega
  have hnone (bound : Nat) (hbound : ∀ id ∈ before, id.toNat < bound) :
      before.filter (fun id => bound ≤ id.toNat) = [] := by
    refine List.filter_eq_nil_iff.2 fun id hid => ?_
    have := hbound id hid
    simpa using this
  have hall (bound : Nat) (hbound : bound ≤ first.toNat + 1) :
      after.filter (fun id => bound ≤ id.toNat) = after := by
    refine List.filter_eq_self.2 fun id hid => ?_
    have := habove id hid
    simp only [decide_eq_true_eq]
    omega
  have hself : ¬ first.toNat + 1 ≤ first.toNat := by omega
  have hbelow' : ∀ id ∈ before, id.toNat < first.toNat + 1 := fun id hid =>
    (hbelow id hid).trans (Nat.lt_succ_self _)
  rw [hsplit, List.filter_append, List.filter_append, List.filter_cons, List.filter_cons,
    hnone low hpassed, hnone _ hbelow', hall low (by omega), hall _ le_rfl]
  simp [hlow, hself]

/-- The next id that an obedient stream stands on is the first above the current one. -/
theorem Obeys.move_next {S : Type} [IdStream S] {ids : IdList} {phase : Phase} {s : S}
    (h : Obeys ids phase s) (hspent : phase ≠ .spent) :
    IdStream.current (IdStream.next s) = ids.first (phase.current.toNat + 1) ∧
      Obeys ids (.ofId (ids.first (phase.current.toNat + 1))) (IdStream.next s) := by
  have hmove : ids.move .next phase = .ofId (ids.first (phase.current.toNat + 1)) :=
    IdList.move_eq hspent (by simp [Move.rests])
  rw [← hmove]
  refine ⟨?_, fun ms => h (.next :: ms)⟩
  rw [← Phase.ofId_current (ids.first _), ← hmove]
  exact h [.next]

/-- What an obedient stream still visits are the ids above the one that it stands on. -/
theorem Obeys.ids_above {S : Type} [IdStream S] {ids : IdList} {phase : Phase} {s : S}
    (h : Obeys ids phase s) (hspent : phase ≠ .spent) :
    IdStream.ids s = ids.toList.filter fun id => phase.current.toNat + 1 ≤ id.toNat := by
  unfold IdStream.ids
  -- Along the recursion of `drain`: it ends where the stream no longer rises.
  induction s using IdStream.drain.induct generalizing phase with
  | case1 s hlt ih =>
    obtain ⟨hnext, hobeys⟩ := h.move_next hspent
    have hne : ids.first (phase.current.toNat + 1) ≠ 0 := by
      intro hzero
      rw [hnext, hzero] at hlt
      exact UInt32.not_lt.2 UInt32.zero_le hlt
    rw [Phase.ofId_of_ne hne] at hobeys
    have hbehind := ih hobeys Phase.hit_ne_spent
    rw [IdStream.drain, if_pos hlt, List.map_cons, List.filter_cons, hnext,
      if_pos (by simpa using hne), hbehind, IdList.filter_first rfl hne]
    rfl
  | case2 s hle =>
    obtain ⟨hnext, -⟩ := h.move_next hspent
    have hcurrent : IdStream.current s = phase.current := h []
    have hzero : ids.first (phase.current.toNat + 1) = 0 := by
      by_contra hne
      have hlow := IdList.le_first hne
      rw [hnext, hcurrent, UInt32.lt_iff_toNat_lt] at hle
      omega
    have hnone : ids.toList.filter (fun id => phase.current.toNat + 1 ≤ id.toNat) = [] := by
      refine List.filter_eq_nil_iff.2 ?_
      intro id hid
      have := IdList.first_eq_zero_iff.1 hzero id hid
      simp only [decide_eq_true_eq]
      omega
    rw [IdStream.drain, if_neg hle, hnone, List.map_cons, hnext, hzero]
    rfl

/-- **An obedient stream visits exactly its ids**, in order. -/
theorem Obeys.ids_eq {S : Type} [IdStream S] {ids : IdList} {s : S} (h : Obeys ids .fresh s) :
    IdStream.ids s = ids.toList := by
  rw [h.ids_above (by simp)]
  refine List.filter_eq_self.2 ?_
  intro id hid
  have hpositive := UInt32.lt_iff_toNat_lt.1 (UInt32.pos_iff_ne_zero.2 (ids.positive id hid))
  exact decide_eq_true (Nat.succ_le_of_lt hpositive)

end InvertedIndex
