import InvertedIndex.Proofs.Cursor.Step

/-!
# `Proofs.Cursor.Algebra` — composed cursors compute sets

Each way to compose cursors preserves the protocol: from simulations of the parts on their lists of
ids there is one of the whole, on the intersection, union or difference. By induction over the tree,
a cursor built from obedient leaves obeys the protocol on the set that the tree denotes.

## Contents
- `Cursor.Sim`: simulations of cursors up to a height;
- `emptySim`, `leafSim`, `rangeSim`, `singleSim`, `interSim`, `unionSim`, `diffSim`;
- `SetExpr`, `SetExpr.cursor`, `SetExpr.denote`: expressions over leaves, as cursors and as sets;
- `SetExpr.trace_current`: the cursor of an expression moves like the machine on its set.
-/

namespace InvertedIndex

/-! ## The least id -/

theorem leastId_eq_zero_iff {ids : List DocId} : leastId ids = 0 ↔ ∀ id ∈ ids, id = 0 := by
  induction ids with
  | nil => exact ⟨fun _ => nofun, fun _ => rfl⟩
  | cons id rest ih =>
    rw [List.forall_mem_cons, ← ih]
    simp only [leastId]
    grind

theorem leastId_mem {ids : List DocId} (h : leastId ids ≠ 0) : leastId ids ∈ ids := by
  induction ids with
  | nil => exact absurd rfl h
  | cons id rest ih =>
    simp only [leastId] at h ⊢
    grind

theorem leastId_le {ids : List DocId} {id : DocId} (hid : id ∈ ids) (hne : id ≠ 0) :
    (leastId ids).toNat ≤ id.toNat := by
  induction ids with
  | nil => cases hid
  | cons other rest ih =>
    have hrest : leastId rest = 0 → ∀ i ∈ rest, i = 0 := leastId_eq_zero_iff.1
    simp only [leastId, UInt32.le_iff_toNat_le]
    grind

namespace Cursor

variable {L : Type} [IdStream L] {n : Nat}

/-! ## Simulations of cursors -/

variable (L n) in
/-- A simulation of the cursors of a height up to `n`. -/
abbrev Sim := Simulation (current (L := L)) (moveWithin n)

/-- A cursor that stands on nothing and never moves has no ids. -/
def stillSim (ids : IdList) (hids : ∀ id, id ∉ ids) (c : Cursor L) (hcurrent : c.current = 0)
    (hmove : ∀ m, moveWithin (n + 1) m c = c) : Sim L (n + 1) where
  ids := ids
  At phase c' := ids.Has phase ∧ c' = c
  has h := h.1
  current_eq := by
    rintro phase _ ⟨hphase, rfl⟩
    cases phase with
    | hit id => exact absurd (hphase id rfl) (hids id)
    | fresh | spent => exact hcurrent
  move_at m _ _ h := ⟨IdList.has_move h.1 m, by rw [h.2, hmove]⟩

/-- If the empty cursor obeys the protocol on some ids, there are none. -/
theorem toSet_of_obeys_empty {ids : IdList} (h : Obeys ids .fresh (.empty : Cursor L)) :
    ids.toSet = ∅ := by
  have hfirst : (0 : DocId) = ids.first 1 := (h.move_next (by simp)).1
  refine Set.eq_empty_of_forall_notMem fun id hid => ?_
  have hlt := IdList.first_eq_zero_iff.1 hfirst.symm id hid
  exact IdList.ne_zero hid (UInt32.toNat_inj.1 (Nat.lt_one_iff.1 hlt))

/-- An obedient leaf has its own ids. -/
def leafSim (ids : IdList) : Sim L (n + 1) where
  ids := ids
  At phase c := ids.Has phase ∧ ∃ l : L, c = .leaf l ∧ Obeys ids phase l
  has h := h.1
  current_eq := by
    rintro phase _ ⟨-, l, rfl, hl⟩
    exact hl []
  move_at := by
    rintro m phase _ ⟨hphase, l, rfl, hl⟩
    exact ⟨IdList.has_move hphase m, _, rfl, fun ms => hl (m :: ms)⟩

/-- The candidate of a range is its first id from a bound on, if none lies in between. -/
theorem rangeFrom_eq {ids : IdList} {start stop : DocId}
    (hids : ∀ id, id ∈ ids ↔ start ≤ id ∧ id < stop) {low : DocId} {bound : Nat}
    (hlow : start ≤ low) (hbound : bound ≤ low.toNat)
    (hgap : ∀ id, start ≤ id → bound ≤ id.toNat → low ≤ id) :
    rangeFrom stop low = .ofId (ids.first bound) := by
  unfold rangeFrom
  by_cases hstop : low < stop
  · have hmem : low ∈ ids := (hids low).2 ⟨hlow, hstop⟩
    rw [if_pos hstop, IdList.first_eq hmem hbound, Phase.ofId_of_ne (IdList.ne_zero hmem)]
    intro other hother hle
    exact UInt32.le_iff_toNat_le.1 (hgap other ((hids other).1 hother).1 hle)
  · rw [if_neg hstop, IdList.first_eq_zero_iff.2, Phase.ofId_zero]
    intro other hother
    by_contra h
    have hle := hgap other ((hids other).1 hother).1 (by omega)
    have hlt := ((hids other).1 hother).2
    rw [UInt32.le_iff_toNat_le] at hle
    rw [UInt32.lt_iff_toNat_lt] at hlt hstop
    omega

/-- A range moves like the machine on the numbers between its ends. -/
theorem rangePhase_eq {ids : IdList} {start stop : DocId} (hstart : start ≠ 0)
    (hids : ∀ id, id ∈ ids ↔ start ≤ id ∧ id < stop) (m : Move) {phase : Phase}
    (hphase : ids.Has phase) : rangePhase start stop m phase = ids.move m phase := by
  have hpos : 0 < start.toNat := UInt32.lt_iff_toNat_lt.1 (UInt32.pos_iff_ne_zero.2 hstart)
  cases phase with
  | spent => cases m <;> rfl
  -- Nothing has been visited: the first candidate is the start itself, or a target above it.
  | fresh =>
    cases m with
    | next => exact rangeFrom_eq hids (UInt32.le_refl _) hpos fun _ h _ => h
    | seek target =>
      show rangeFrom stop (if start < target then target else start) = .ofId (ids.first target.toNat)
      split
      next h =>
        exact rangeFrom_eq hids (UInt32.le_of_lt h) (Nat.le_refl _) fun _ _ h => UInt32.le_iff_toNat_le.2 h
      next h =>
        rw [UInt32.lt_iff_toNat_lt] at h
        exact rangeFrom_eq hids (UInt32.le_refl _) (by omega) fun _ h _ => h
  | hit id =>
    have hid := (hids id).1 (hphase id rfl)
    rw [UInt32.le_iff_toNat_le, UInt32.lt_iff_toNat_lt] at hid
    cases m with
    | next =>
      -- The next id does not wrap around, as the current one lies below the end.
      have hsucc : (id + 1).toNat = id.toNat + 1 := by
        have := stop.toNat_lt
        rw [UInt32.toNat_add, UInt32.toNat_one]
        omega
      refine rangeFrom_eq hids ?_ ?_ ?_
      · rw [UInt32.le_iff_toNat_le]
        omega
      · exact hsucc.ge
      · intro other _ h
        rw [UInt32.le_iff_toNat_le, hsucc]
        exact h
    | seek target =>
      show (if target ≤ id then Phase.hit id else rangeFrom stop target)
        = if id ≠ 0 ∧ target ≤ id then Phase.hit id else .ofId (ids.first target.toNat)
      by_cases h : target ≤ id
      · rw [if_pos h, if_pos ⟨IdList.ne_zero (hphase id rfl), h⟩]
      · rw [if_neg h, if_neg fun hrest => h hrest.2]
        rw [UInt32.le_iff_toNat_le] at h
        refine rangeFrom_eq hids ?_ (Nat.le_refl _) fun _ _ h => UInt32.le_iff_toNat_le.2 h
        rw [UInt32.le_iff_toNat_le]
        omega

/-- A range has the numbers between its ends. -/
def rangeSim (ids : IdList) {start stop : DocId} (hstart : start ≠ 0)
    (hids : ∀ id, id ∈ ids ↔ start ≤ id ∧ id < stop) : Sim L (n + 1) where
  ids := ids
  At phase c := ids.Has phase ∧ c = .range start stop phase
  has h := h.1
  current_eq := by
    rintro phase _ ⟨-, rfl⟩
    rfl
  move_at := by
    rintro m phase _ ⟨hphase, rfl⟩
    refine ⟨IdList.has_move hphase m, ?_⟩
    rw [← rangePhase_eq hstart hids m hphase]
    rfl

/-- The first id from a bound on, if there is a single one. -/
theorem first_single {ids : IdList} {id : DocId} (hzero : id ≠ 0)
    (hids : ∀ other, other ∈ ids ↔ other = id) (low : Nat) :
    Phase.ofId (ids.first low) = if low ≤ id.toNat then .hit id else .spent := by
  have hmem : id ∈ ids := (hids id).2 rfl
  split
  next h =>
    rw [IdList.first_eq hmem h fun other hother _ => by rw [(hids other).1 hother],
      Phase.ofId_of_ne hzero]
  next h =>
    rw [IdList.first_eq_zero_iff.2, Phase.ofId_zero]
    intro other hother
    rw [(hids other).1 hother]
    omega

/-- A single id moves like the machine on it. -/
theorem singlePhase_eq {ids : IdList} {id : DocId} (hzero : id ≠ 0)
    (hids : ∀ other, other ∈ ids ↔ other = id) (m : Move) {phase : Phase}
    (hphase : ids.Has phase) : singlePhase id m phase = ids.move m phase := by
  have hfirst := first_single hzero hids
  have hpos : 0 < id.toNat := UInt32.lt_iff_toNat_lt.1 (UInt32.pos_iff_ne_zero.2 hzero)
  cases phase with
  | spent => cases m <;> rfl
  | fresh =>
    cases m with
    | next =>
      show Phase.hit id = .ofId (ids.first (0 + 1))
      rw [hfirst, if_pos (by omega)]
    | seek target =>
      show (if target ≤ id then Phase.hit id else .spent) = .ofId (ids.first target.toNat)
      rw [hfirst]
      simp only [UInt32.le_iff_toNat_le]
  | hit other =>
    obtain rfl := (hids other).1 (hphase other rfl)
    cases m with
    | next =>
      show Phase.spent = .ofId (ids.first (other.toNat + 1))
      rw [hfirst, if_neg (by omega)]
    | seek target =>
      show (if target ≤ other then Phase.hit other else .spent)
        = if other ≠ 0 ∧ target ≤ other then Phase.hit other else .ofId (ids.first target.toNat)
      rw [hfirst]
      simp only [UInt32.le_iff_toNat_le]
      split
      next h => rw [if_pos ⟨hzero, h⟩]
      next h => rw [if_neg fun hrest => h hrest.2]

/-- A single id has itself. -/
def singleSim (ids : IdList) {id : DocId} (hzero : id ≠ 0)
    (hids : ∀ other, other ∈ ids ↔ other = id) : Sim L (n + 1) where
  ids := ids
  At phase c := ids.Has phase ∧ c = .single id phase
  has h := h.1
  current_eq := by
    rintro phase _ ⟨-, rfl⟩
    rfl
  move_at := by
    rintro m phase _ ⟨hphase, rfl⟩
    refine ⟨IdList.has_move hphase m, ?_⟩
    rw [← singlePhase_eq hzero hids m hphase]
    rfl

/-! ## Intersections -/

/-- Where the parts of an intersection stand: all together, until it has no more ids. -/
def Together (sims : List (Sim L n)) (phase : Phase) (subs : List (Cursor L)) : Prop :=
  phase ≠ .spent → AllAt sims phase subs

/-- An intersection has the ids that all its parts have; none without parts. -/
def interSim (sims : List (Sim L n)) (ids : IdList)
    (hids : ∀ id, id ∈ ids ↔ sims ≠ [] ∧ ∀ sim ∈ sims, id ∈ sim.ids) : Sim L (n + 1) where
  ids := ids
  At phase c := ids.Has phase ∧ ∃ subs, c = .inter subs phase ∧ Together sims phase subs
  has h := h.1
  current_eq := by
    rintro phase _ ⟨-, subs, rfl, -⟩
    rfl
  move_at := by
    rintro m phase _ ⟨hphase, subs, rfl, htogether⟩
    refine ⟨IdList.has_move hphase m, ?_⟩
    by_cases h : m.rests phase.current ∨ phase = .spent
    · rw [moveWithin_inter_rests h, IdList.move_stays h]
      exact ⟨subs, rfl, htogether⟩
    · obtain ⟨hrest, hspent⟩ := not_or.1 h
      rw [IdList.move_eq hspent hrest]
      cases htogether hspent with
      -- No parts, no ids: the first move already spends the cursor.
      | nil =>
        have hnone : ids.first (IdList.bound phase.current m) = 0 :=
          IdList.first_eq_zero_iff.2 fun id hid => absurd rfl ((hids id).1 hid).1
        refine ⟨[], ?_, fun _ => .nil⟩
        rw [hnone, Phase.ofId_zero]
        unfold moveWithin
        rw [if_neg hrest]
      | @cons lead c sims others hlead hothers =>
        have hcommon (id : DocId) : id ∈ ids ↔ id ∈ lead.ids ∧ ∀ sim ∈ sims, id ∈ sim.ids := by
          rw [hids, List.forall_mem_cons]
          exact and_iff_right (List.cons_ne_nil _ _)
        -- The lead moves, and the others are aligned with it; what they meet at is the first common
        -- id.
        have halign := align_spec hcommon (Simulation.move_first hlead hspent hrest)
          (AllAt.allBehind hothers hspent hrest)
        rw [moveWithin_inter hrest hspent]
        generalize align current (fun target => moveWithin n (.seek target))
          (moveWithin n m c, others) = aligned at halign ⊢
        obtain ⟨⟨c', others'⟩, id⟩ := aligned
        obtain ⟨rfl, hat⟩ := halign
        refine ⟨c' :: others', rfl, fun hne => ?_⟩
        by_cases hzero : ids.first (IdList.bound phase.current m) = 0
        · rw [hzero] at hne
          exact absurd rfl hne
        · rw [Phase.ofId_of_ne hzero]
          exact .cons (hat hzero).1 (hat hzero).2

/-! ## Unions -/

/-- Every part stands on its first id at or after a bound. -/
def AllFirst (sims : List (Sim L n)) (low : Nat) (subs : List (Cursor L)) : Prop :=
  List.Forall₂ (fun sim c => sim.At (.ofId (sim.ids.first low)) c) sims subs

/-- Where the parts of a union stand: each on its first id from the current one on. -/
def Waiting (sims : List (Sim L n)) (subs : List (Cursor L)) : Phase → Prop
  | .fresh => AllAt sims .fresh subs
  | .hit id => AllFirst sims id.toNat subs
  | .spent => True

variable {sims : List (Sim L n)} {subs : List (Cursor L)} {ids : IdList}

theorem AllFirst.map_current {low : Nat} (h : AllFirst sims low subs) :
    subs.map current = sims.map fun sim => sim.ids.first low := by
  induction h with
  | nil => rfl
  | @cons sim c sims subs hat _ ih =>
    rw [List.map_cons, List.map_cons, ih, sim.current_eq hat, Phase.ofId_current]

/-- Another bound with the same first ids serves as well. -/
theorem AllFirst.congr {low low' : Nat} (h : AllFirst sims low subs)
    (hsame : ∀ sim ∈ sims, sim.ids.first low' = sim.ids.first low) : AllFirst sims low' subs := by
  induction h with
  | nil => exact .nil
  | cons hat _ ih =>
    obtain ⟨hhead, htail⟩ := List.forall_mem_cons.1 hsame
    rw [← hhead] at hat
    exact .cons hat (ih htail)

/-- A part that waits stands on an id exactly if it has it. -/
theorem current_eq_iff {sim : Sim L n} {c : Cursor L} {id : DocId} (hid : id ≠ 0)
    (h : sim.At (.ofId (sim.ids.first id.toNat)) c) : c.current = id ↔ id ∈ sim.ids := by
  have hcurrent := sim.current_eq h
  rw [Phase.ofId_current] at hcurrent
  rw [hcurrent]
  constructor
  · intro hfirst
    have hne : sim.ids.first id.toNat ≠ 0 := by rwa [hfirst]
    have hmem := IdList.first_mem hne
    rwa [hfirst] at hmem
  · exact IdList.first_self

theorem at_of_first {sim : Sim L n} {c : Cursor L} {id : DocId} (hid : id ∈ sim.ids)
    (h : sim.At (.ofId (sim.ids.first id.toNat)) c) : sim.At (.hit id) c := by
  rwa [IdList.first_self hid, Phase.ofId_of_ne (IdList.ne_zero hid)] at h

/-- The least id that the parts stand on is the first of any. -/
theorem AllFirst.leastId_eq {low : Nat} (h : AllFirst sims low subs)
    (hids : ∀ id, id ∈ ids ↔ ∃ sim ∈ sims, id ∈ sim.ids) :
    leastId (subs.map current) = ids.first low := by
  rw [h.map_current]
  by_cases hzero : ids.first low = 0
  · rw [hzero, leastId_eq_zero_iff]
    intro id hid
    obtain ⟨sim, hsim, rfl⟩ := List.mem_map.1 hid
    rw [IdList.first_eq_zero_iff] at hzero ⊢
    exact fun id hid => hzero id ((hids id).2 ⟨sim, hsim, hid⟩)
  · obtain ⟨sim, hsim, hmem⟩ := (hids _).1 (IdList.first_mem hzero)
    have hne := IdList.first_ne_zero hmem (IdList.le_first hzero)
    have hle := leastId_le (List.mem_map_of_mem (f := fun sim : Sim L n => sim.ids.first low) hsim)
      hne
    have hleast : leastId (sims.map fun sim => sim.ids.first low) ≠ 0 := fun h =>
      hne (leastId_eq_zero_iff.1 h _ (List.mem_map_of_mem hsim))
    obtain ⟨least, hleast', heq⟩ := List.mem_map.1 (leastId_mem hleast)
    rw [← heq] at hleast hle ⊢
    have hge := IdList.first_le ((hids _).2 ⟨least, hleast', IdList.first_mem hleast⟩)
      (IdList.le_first hleast)
    have := IdList.first_le hmem (IdList.le_first hzero)
    exact UInt32.toNat_inj.1 (by omega)

/-- The parts also stand on their first ids from the least of these on. -/
theorem AllFirst.raise {low : Nat} (h : AllFirst sims low subs)
    (hids : ∀ id, id ∈ ids ↔ ∃ sim ∈ sims, id ∈ sim.ids) :
    Waiting sims subs (.ofId (ids.first low)) := by
  by_cases hzero : ids.first low = 0
  · rw [hzero]
    trivial
  · rw [Phase.ofId_of_ne hzero]
    refine h.congr fun sim hsim => ?_
    refine IdList.first_of_le_first (IdList.le_first hzero) fun hne => ?_
    exact IdList.first_le ((hids _).2 ⟨sim, hsim, IdList.first_mem hne⟩) (IdList.le_first hne)

/-- A part of a union that waits for its turn comes to its first id at or after the bound of a move,
    whether it joins in the move or not. -/
theorem joins_spec {sim : Sim L n} {c : Cursor L} {id : DocId} {m : Move}
    (hid : id ≠ 0) (h : sim.At (.ofId (sim.ids.first id.toNat)) c) (hrest : ¬ m.rests id) :
    sim.At (.ofId (sim.ids.first (IdList.bound id m)))
      (if joins (.hit id) m c.current then moveWithin n m c else c) := by
  have hcurrent := sim.current_eq h
  rw [Phase.ofId_current] at hcurrent
  rw [hcurrent]
  cases m with
  | next =>
    show sim.At (.ofId (sim.ids.first (id.toNat + 1)))
      (if decide (sim.ids.first id.toNat = id) then _ else c)
    -- A part that stands elsewhere is already beyond the current id, so it stays.
    by_cases hhere : sim.ids.first id.toNat = id
    · rw [if_pos (decide_eq_true hhere)]
      rw [hhere, Phase.ofId_of_ne hid] at h
      exact Simulation.move_first h Phase.hit_ne_spent hrest
    · rw [if_neg (by simpa using hhere), IdList.first_of_le_first (Nat.le_succ _)]
      · exact h
      · intro hne
        have hle := IdList.le_first hne
        have hne' : (sim.ids.first id.toNat).toNat ≠ id.toNat := fun heq =>
          hhere (UInt32.toNat_inj.1 heq)
        omega
  | seek target =>
    have hbound : id.toNat ≤ target.toNat := (IdList.lt_bound hid hrest).le
    show sim.At (.ofId (sim.ids.first target.toNat)) (if decide (sim.ids.first id.toNat ≠ 0 ∧
      sim.ids.first id.toNat < target) then _ else c)
    -- A part below the target seeks it too; one at or above it is already where it should be.
    by_cases hjoins : sim.ids.first id.toNat ≠ 0 ∧ sim.ids.first id.toNat < target
    · rw [if_pos (decide_eq_true hjoins)]
      rw [Phase.ofId_of_ne hjoins.1] at h
      refine Simulation.move_first (m := .seek target) h Phase.hit_ne_spent fun hrest => ?_
      exact UInt32.not_lt.2 (of_decide_eq_true hrest).2 hjoins.2
    · rw [if_neg (by simpa using hjoins), IdList.first_of_le_first hbound]
      · exact h
      · intro hne
        by_contra hlt
        exact hjoins ⟨hne, UInt32.lt_iff_toNat_lt.2 (by omega)⟩

/-- A move brings every part of a union to its first id at or after the bound. -/
theorem Waiting.move {phase : Phase} {m : Move} (h : Waiting sims subs phase)
    (hphase : ids.Has phase) (hspent : phase ≠ .spent) (hrest : ¬ m.rests phase.current) :
    AllFirst sims (IdList.bound phase.current m)
      (subs.map fun c => if joins phase m c.current then moveWithin n m c else c) := by
  refine List.forall₂_map_right_iff.2 ?_
  cases phase with
  | spent => exact absurd rfl hspent
  | fresh =>
    refine List.Forall₂.imp (fun sim c hat => ?_) h
    exact Simulation.move_first hat hspent hrest
  | hit id =>
    have hid := IdList.ne_zero (hphase id rfl)
    exact List.Forall₂.imp (fun sim c hat => joins_spec hid hat hrest) h

/-- A union has the ids that any of its parts has. -/
def unionSim (sims : List (Sim L n)) (kind : UnionKind) (ids : IdList)
    (hids : ∀ id, id ∈ ids ↔ ∃ sim ∈ sims, id ∈ sim.ids) : Sim L (n + 1) where
  ids := ids
  At phase c := ids.Has phase ∧ ∃ subs, c = .union kind subs phase ∧ Waiting sims subs phase
  has h := h.1
  current_eq := by
    rintro phase _ ⟨-, subs, rfl, -⟩
    rfl
  move_at := by
    rintro m phase _ ⟨hphase, subs, rfl, hwaiting⟩
    refine ⟨IdList.has_move hphase m, ?_⟩
    by_cases h : m.rests phase.current ∨ phase = .spent
    · rw [moveWithin_union_rests h, IdList.move_stays h]
      exact ⟨subs, rfl, hwaiting⟩
    · obtain ⟨hrest, hspent⟩ := not_or.1 h
      have hmoved := hwaiting.move hphase hspent hrest
      rw [moveWithin_union hrest hspent, IdList.move_eq hspent hrest]
      simp only [hmoved.leastId_eq hids]
      exact ⟨_, rfl, hmoved.raise hids⟩

/-! ## Differences -/

/-- While the next id of a difference is looked for, the kept part stands on its first id from a
    bound on, the dropped part has not passed the bound, and raising the bound so far has skipped no
    id of the difference. -/
structure Sifting (kept dropped : Sim L n) (ids : IdList) (low bound : Nat)
    (s : Cursor L × Cursor L) : Prop where
  keeping : kept.At (.ofId (kept.ids.first bound)) s.1
  behind : dropped.Behind bound s.2
  first : ids.first low = ids.first bound

/-- The kept part stands on the next id of a difference, which the dropped part has not passed. -/
def Sifted (kept dropped : Sim L n) (ids : IdList) (low : Nat) (s : Cursor L × Cursor L) : Prop :=
  kept.At (.ofId (ids.first low)) s.1 ∧
    (ids.first low ≠ 0 → dropped.Behind (ids.first low).toNat s.2)

section Difference

variable {kept dropped : Sim L n} {low bound : Nat} {s : Cursor L × Cursor L}
  (hids : ∀ id, id ∈ ids ↔ id ∈ kept.ids ∧ id ∉ dropped.ids)

include hids

/-- Without an id of the kept part there is none of the difference. -/
theorem first_diff_zero (hzero : kept.ids.first bound = 0) : ids.first bound = 0 := by
  rw [IdList.first_eq_zero_iff] at hzero ⊢
  exact fun id hid => hzero id ((hids id).1 hid).1

/-- The first id of the kept part is that of the difference if the dropped part does not have it. -/
theorem first_diff_kept (hne : kept.ids.first bound ≠ 0)
    (habsent : kept.ids.first bound ∉ dropped.ids) : ids.first bound = kept.ids.first bound := by
  have hmem : kept.ids.first bound ∈ ids := (hids _).2 ⟨IdList.first_mem hne, habsent⟩
  refine IdList.first_eq hmem (IdList.le_first hne) ?_
  intro other hother hle
  exact IdList.first_le ((hids other).1 hother).1 hle

/-- A first id of the kept part that the dropped part has can be passed over. -/
theorem first_diff_dropped (hne : kept.ids.first bound ≠ 0)
    (hthere : kept.ids.first bound ∈ dropped.ids) :
    ids.first bound = ids.first ((kept.ids.first bound).toNat + 1) := by
  refine (IdList.first_raise ((IdList.le_first hne).trans (Nat.le_succ _)) ?_).symm
  intro id hid hle
  obtain ⟨hkept, hdropped⟩ := (hids id).1 hid
  have hfirst := IdList.first_le hkept hle
  have hother : (kept.ids.first bound).toNat ≠ id.toNat := fun heq =>
    hdropped (UInt32.toNat_inj.1 heq ▸ hthere)
  omega

/-- If the dropped part does not have the candidate, it is the next id of the difference. -/
theorem Sifting.accept (h : Sifting kept dropped ids low bound s) (hne : kept.ids.first bound ≠ 0)
    (habsent : kept.ids.first bound ∉ dropped.ids) {d : Cursor L}
    (hbehind : dropped.Behind (kept.ids.first bound).toNat d) :
    Sifted kept dropped ids low (s.1, d) := by
  have hfirst := h.first.trans (first_diff_kept hids hne habsent)
  unfold Sifted
  rw [hfirst]
  exact ⟨h.keeping, fun _ => hbehind⟩

/-- If it does, the kept part moves on; where this does not bring it to a later id, there is no id
    of the difference left. -/
theorem Sifting.retry (h : Sifting kept dropped ids low bound s) (hne : kept.ids.first bound ≠ 0)
    (hthere : kept.ids.first bound ∈ dropped.ids) {d : Cursor L}
    (hbehind : dropped.Behind (kept.ids.first bound).toNat d) :
    let s' := (moveWithin n .next s.1, d)
    if kept.ids.first bound < s'.1.current then ∃ bound', Sifting kept dropped ids low bound' s'
    else Sifted kept dropped ids low s' := by
  intro s'
  -- The kept part stands on an id that is dropped, so the search goes on behind it.
  have hraise := first_diff_dropped hids hne hthere
  have hkeeping := h.keeping
  rw [Phase.ofId_of_ne hne] at hkeeping
  have hrest : ¬ Move.next.rests (Phase.hit (kept.ids.first bound)).current := by
    simp [Move.rests]
  have hmoved : kept.At (.ofId (kept.ids.first ((kept.ids.first bound).toNat + 1))) s'.1 :=
    Simulation.move_first hkeeping Phase.hit_ne_spent hrest
  have hcurrent := kept.current_eq hmoved
  rw [Phase.ofId_current] at hcurrent
  rw [hcurrent]
  split
  · exact ⟨_, hmoved, hbehind.mono (Nat.le_succ _), h.first.trans hraise⟩
  next hstuck =>
    -- It did not move on, so it has no id left, and neither has the difference.
    have hzero : kept.ids.first ((kept.ids.first bound).toNat + 1) = 0 := by
      by_contra hlater
      exact hstuck (UInt32.lt_iff_toNat_lt.2 (IdList.le_first hlater))
    have hend : ids.first low = 0 := by
      rw [h.first, hraise, first_diff_zero hids hzero]
    rw [hzero] at hmoved
    unfold Sifted
    rw [hend]
    exact ⟨hmoved, absurd rfl⟩

/-- The search for the next id of a difference finds the first one at or after a bound. -/
theorem settleDiff_spec {k d : Cursor L} (hk : kept.At (.ofId (kept.ids.first low)) k)
    (hd : dropped.Behind low d) : Sifted kept dropped ids low
      (settle (fun s => s.1.current) (attemptDiff (moveWithin n)) (k, d)).1 := by
  -- Along the search some bound keeps the invariant: so far no id of the difference was skipped.
  refine settle_spec (fun s => ∃ bound, Sifting kept dropped ids low bound s)
    (fun s _ => Sifted kept dropped ids low s) ?_ ?_ ?_ ⟨low, hk, hd, rfl⟩
  · rintro s ⟨bound, h⟩ hzero
    rw [kept.current_eq h.keeping, Phase.ofId_current] at hzero
    have hkeeping := h.keeping
    rw [hzero] at hkeeping
    unfold Sifted
    rw [h.first, first_diff_zero hids hzero]
    exact ⟨hkeeping, absurd rfl⟩
  · rintro ⟨k, d⟩ s' ⟨bound, h⟩ hne hattempt
    have hcurrent := kept.current_eq h.keeping
    rw [Phase.ofId_current] at hcurrent
    simp only [attemptDiff] at hne hattempt hcurrent
    rw [hcurrent] at hne hattempt
    have hseek := (h.behind.mono (IdList.le_first hne)).seek
    rw [dropped.current_eq hseek, Phase.ofId_current] at hattempt
    split at hattempt
    · cases hattempt
    next habsent =>
      cases hattempt
      exact h.accept hids hne (fun hthere => habsent (IdList.first_self hthere))
        (Simulation.behind_of_at hseek)
  · rintro ⟨k, d⟩ s' ⟨bound, h⟩ hne hattempt
    have hcurrent := kept.current_eq h.keeping
    rw [Phase.ofId_current] at hcurrent
    simp only [attemptDiff] at hne hattempt hcurrent ⊢
    rw [hcurrent] at hne hattempt ⊢
    have hseek := (h.behind.mono (IdList.le_first hne)).seek
    rw [dropped.current_eq hseek, Phase.ofId_current] at hattempt
    split at hattempt
    next hfound =>
      cases hattempt
      have hthere : kept.ids.first bound ∈ dropped.ids := by
        have hsome : dropped.ids.first (kept.ids.first bound).toNat ≠ 0 := by rwa [hfound]
        rw [← hfound]
        exact IdList.first_mem hsome
      exact h.retry hids hne hthere (Simulation.behind_of_at hseek)
    · cases hattempt

end Difference

/-- A difference has the ids of the kept part that the dropped one does not have. -/
def diffSim (kept dropped : Sim L n) (ids : IdList)
    (hids : ∀ id, id ∈ ids ↔ id ∈ kept.ids ∧ id ∉ dropped.ids) : Sim L (n + 1) where
  ids := ids
  At phase c := ids.Has phase ∧ ∃ k d, c = .diff k d ∧ kept.At phase k ∧
    (phase ≠ .spent → dropped.Behind phase.current.toNat d)
  has h := h.1
  current_eq := by
    rintro phase _ ⟨-, k, d, rfl, hk, -⟩
    show k.current = phase.current
    exact kept.current_eq hk
  move_at := by
    rintro m phase _ ⟨hphase, k, d, rfl, hk, hd⟩
    refine ⟨IdList.has_move hphase m, ?_⟩
    have hcurrent := kept.current_eq hk
    by_cases hrest : m.rests phase.current
    · have hsame : moveWithin (n + 1) m (.diff k d) = .diff k d := if_pos (hcurrent ▸ hrest)
      rw [hsame, IdList.move_rests hrest]
      exact ⟨k, d, rfl, hk, hd⟩
    · rw [moveWithin_diff (hcurrent ▸ hrest)]
      -- A spent kept part stays spent, whatever the dropped one does.
      by_cases hspent : phase = .spent
      · subst hspent
        have hmoved := kept.move_at m hk
        rw [IdList.move_spent] at hmoved ⊢
        have hgone : (moveWithin n m k, d).1.current = 0 := kept.current_eq hmoved
        rw [settle, if_pos hgone]
        exact ⟨_, _, rfl, hmoved, absurd rfl⟩
      · rw [IdList.move_eq hspent hrest]
        have hbehind : dropped.Behind (IdList.bound phase.current m) d := by
          refine (hd hspent).mono ?_
          cases phase with
          | spent => exact absurd rfl hspent
          | fresh => exact Nat.zero_le _
          | hit id => exact (IdList.lt_bound (IdList.ne_zero (hphase id rfl)) hrest).le
        obtain ⟨hk', hd'⟩ := settleDiff_spec hids (Simulation.move_first hk hspent hrest) hbehind
        refine ⟨_, _, rfl, hk', fun hne => ?_⟩
        by_cases hzero : ids.first (IdList.bound phase.current m) = 0
        · rw [hzero] at hne
          exact absurd rfl hne
        · rw [Phase.ofId_current]
          exact hd' hzero

end Cursor

/-! ## Expressions -/

/-- An expression over leaves that obey the protocol, each with the ids that it has. -/
inductive SetExpr (L : Type) [IdStream L] where
  | empty
  | leaf (l : L) (ids : IdList) (obeys : Obeys ids .fresh l)
  | range (start stop : DocId)
  | single (id : DocId)
  | inter (subs : List (SetExpr L))
  | union (kind : UnionKind) (subs : List (SetExpr L))
  | diff (kept dropped : SetExpr L)

namespace SetExpr

variable {L : Type} [IdStream L]

/-- The expression as a cursor before its first move. -/
def cursor : SetExpr L → Cursor L
  | .empty => .empty
  | .leaf l _ _ => .leaf l
  | .range start stop => .ofRange start stop
  | .single id => .ofId id
  | .inter subs => .interOf (cursors subs)
  | .union kind subs => .unionOf kind (cursors subs)
  | .diff kept dropped => .diff kept.cursor dropped.cursor
where
  cursors : List (SetExpr L) → List (Cursor L)
    | [] => []
    | e :: rest => e.cursor :: cursors rest

/-- The expression as a set. An intersection of nothing is empty. -/
def denote : SetExpr L → Set DocId
  | .empty => ∅
  | .leaf _ ids _ => ids.toSet
  | .range start stop => {id | 1 ≤ id ∧ start ≤ id ∧ id < stop}
  | .single id => {other | id ≠ 0 ∧ other = id}
  | .inter [] => ∅
  | .inter (e :: rest) => e.denote ∩ meet rest
  | .union _ subs => join subs
  | .diff kept dropped => kept.denote \ dropped.denote
where
  /-- The ids that all have. -/
  meet : List (SetExpr L) → Set DocId
    | [] => Set.univ
    | e :: rest => e.denote ∩ meet rest
  /-- The ids that any has. -/
  join : List (SetExpr L) → Set DocId
    | [] => ∅
    | e :: rest => e.denote ∪ join rest

theorem mem_meet {subs : List (SetExpr L)} {id : DocId} :
    id ∈ denote.meet subs ↔ ∀ e ∈ subs, id ∈ e.denote := by
  induction subs with
  | nil => exact ⟨fun _ => nofun, fun _ => trivial⟩
  | cons e rest ih =>
    rw [List.forall_mem_cons, ← ih]
    rfl

theorem mem_join {subs : List (SetExpr L)} {id : DocId} :
    id ∈ denote.join subs ↔ ∃ e ∈ subs, id ∈ e.denote := by
  induction subs with
  | nil => exact ⟨fun h => h.elim, nofun⟩
  | cons e rest ih =>
    rw [List.exists_mem_cons_iff, ← ih]
    rfl

theorem mem_inter {subs : List (SetExpr L)} {id : DocId} :
    id ∈ (SetExpr.inter subs).denote ↔ subs ≠ [] ∧ ∀ e ∈ subs, id ∈ e.denote := by
  cases subs with
  | nil => exact ⟨fun h => h.elim, fun h => absurd rfl h.1⟩
  | cons e rest =>
    rw [List.forall_mem_cons, ← mem_meet, and_iff_right (List.cons_ne_nil _ _)]
    rfl

/-- No expression denotes a set with the id `0`. -/
theorem zero_notMem_denote : (e : SetExpr L) → 0 ∉ e.denote
  | .empty => fun h => h.elim
  | .leaf _ ids _ => fun h => ids.positive 0 h rfl
  | .range _ _ => fun h => absurd h.1 (by decide)
  | .single _ => fun h => h.1 h.2.symm
  | .inter [] => fun h => h.elim
  | .inter (e :: _) => fun h => e.zero_notMem_denote h.1
  | .union _ subs => zero_notMem_join subs
  | .diff kept _ => fun h => kept.zero_notMem_denote h.1
where
  zero_notMem_join : (subs : List (SetExpr L)) → 0 ∉ denote.join subs
  | [] => fun h => h.elim
  | e :: rest => fun h => h.elim e.zero_notMem_denote (zero_notMem_join rest)

/-- The ids of an expression are those of the set. -/
theorem mem_ofSet_denote (e : SetExpr L) {id : DocId} :
    id ∈ IdList.ofSet e.denote ↔ id ∈ e.denote := by
  rw [IdList.mem_ofSet]
  refine and_iff_right_of_imp fun h hzero => ?_
  exact e.zero_notMem_denote (hzero ▸ h)

/-- Simulations of the parts cover what all of them, or any of them, denote. -/
theorem forall_sims {n : Nat} {sims : List (Cursor.Sim L n)} {subs : List (SetExpr L)}
    (h : sims.map Simulation.ids = subs.map fun e => .ofSet e.denote) {id : DocId} :
    (∀ sim ∈ sims, id ∈ sim.ids) ↔ ∀ e ∈ subs, id ∈ e.denote := by
  have hmap : (∀ ids ∈ sims.map Simulation.ids, id ∈ ids) ↔
      ∀ ids ∈ subs.map fun e => IdList.ofSet e.denote, id ∈ ids := by rw [h]
  simpa only [List.forall_mem_map, mem_ofSet_denote] using hmap

theorem exists_sims {n : Nat} {sims : List (Cursor.Sim L n)} {subs : List (SetExpr L)}
    (h : sims.map Simulation.ids = subs.map fun e => .ofSet e.denote) {id : DocId} :
    (∃ sim ∈ sims, id ∈ sim.ids) ↔ ∃ e ∈ subs, id ∈ e.denote := by
  have hmap : (∃ ids ∈ sims.map Simulation.ids, id ∈ ids) ↔
      ∃ ids ∈ subs.map fun e => IdList.ofSet e.denote, id ∈ ids := by rw [h]
  simpa only [List.mem_map, exists_exists_and_eq_and, mem_ofSet_denote] using hmap

/-- The ids of a range start at `1`, even if its start is `0`. -/
theorem mem_range {start stop id : DocId} :
    id ∈ IdList.ofSet (SetExpr.range (L := L) start stop).denote ↔
      (if start = 0 then 1 else start) ≤ id ∧ id < stop := by
  rw [mem_ofSet_denote]
  show 1 ≤ id ∧ start ≤ id ∧ id < stop ↔ _
  simp only [UInt32.le_iff_toNat_le, ← UInt32.toNat_inj]
  have hone : (1 : DocId).toNat = 1 := rfl
  have hzero : (0 : DocId).toNat = 0 := rfl
  split
  next h => simp [h, hone]
  next h => exact ⟨fun hid => hid.2, fun hid => ⟨by omega, hid⟩⟩

theorem simulated_range (start stop : DocId) (n : Nat) :
    ∃ sim : Cursor.Sim L (n + 1), sim.ids = .ofSet (SetExpr.range (L := L) start stop).denote ∧
      sim.At .fresh (SetExpr.range (L := L) start stop).cursor := by
  have hstart : (if start = 0 then 1 else start) ≠ 0 := by
    split
    · decide
    · assumption
  exact ⟨Cursor.rangeSim _ hstart fun _ => mem_range, rfl, IdList.has_fresh, rfl⟩

/-- A single id is one, unless it is `0`. -/
theorem simulated_single (id : DocId) (n : Nat) :
    ∃ sim : Cursor.Sim L (n + 1), sim.ids = .ofSet (SetExpr.single (L := L) id).denote ∧
      sim.At .fresh (SetExpr.single (L := L) id).cursor := by
  have hids (other : DocId) : other ∈ IdList.ofSet (SetExpr.single (L := L) id).denote ↔
      id ≠ 0 ∧ other = id := mem_ofSet_denote _
  by_cases hzero : id = 0
  · have hnone (other : DocId) : other ∉ IdList.ofSet (SetExpr.single (L := L) id).denote :=
      fun h => ((hids other).1 h).1 hzero
    have hcursor : (SetExpr.single (L := L) id).cursor = .single id .spent :=
      congrArg (Cursor.single id) (if_pos hzero)
    rw [hcursor]
    exact ⟨Cursor.stillSim _ hnone (.single id .spent) rfl fun m => by cases m <;> rfl, rfl,
      IdList.has_fresh, rfl⟩
  · have hone (other : DocId) : other ∈ IdList.ofSet (SetExpr.single (L := L) id).denote ↔
        other = id := (hids other).trans (and_iff_right hzero)
    have hcursor : (SetExpr.single (L := L) id).cursor = .single id .fresh :=
      congrArg (Cursor.single id) (if_neg hzero)
    rw [hcursor]
    exact ⟨Cursor.singleSim _ hzero hone, rfl, IdList.has_fresh, rfl⟩

mutual

/-- The cursor of an expression is simulated on the ids that the expression denotes. -/
theorem simulated : (e : SetExpr L) → {n : Nat} → e.cursor.height ≤ n →
    ∃ sim : Cursor.Sim L n, sim.ids = .ofSet e.denote ∧ sim.At .fresh e.cursor
  | .empty, n + 1, _ => by
    have hids (id : DocId) : id ∉ IdList.ofSet (SetExpr.empty (L := L)).denote := fun h =>
      ((mem_ofSet_denote _).1 h).elim
    exact ⟨Cursor.stillSim _ hids .empty rfl fun _ => rfl, rfl, IdList.has_fresh, rfl⟩
  | .leaf l ids obeys, n + 1, _ => by
    have hids : ids = .ofSet (SetExpr.leaf l ids obeys).denote :=
      IdList.ext_mem fun _ => (mem_ofSet_denote (.leaf l ids obeys)).symm
    exact ⟨Cursor.leafSim ids, hids, IdList.has_fresh, l, rfl, obeys⟩
  | .range start stop, n + 1, _ => simulated_range start stop n
  | .single id, n + 1, _ => simulated_single id n
  | .inter subs, n + 1, h => by
    obtain ⟨sims, hids, hat⟩ := simulated_all subs (Nat.le_of_succ_le_succ h)
    refine ⟨Cursor.interSim sims (.ofSet (SetExpr.inter subs).denote) (fun id => ?_), rfl,
      IdList.has_fresh, _, rfl, fun _ => hat⟩
    rw [mem_ofSet_denote, mem_inter, forall_sims hids]
    have hnil : subs = [] ↔ sims = [] := by
      rw [← List.map_eq_nil_iff (f := fun e : SetExpr L => IdList.ofSet e.denote), ← hids,
        List.map_eq_nil_iff]
    exact and_congr_left' (not_congr hnil)
  | .union kind subs, n + 1, h => by
    obtain ⟨sims, hids, hat⟩ := simulated_all subs (Nat.le_of_succ_le_succ h)
    refine ⟨Cursor.unionSim sims kind (.ofSet (SetExpr.union kind subs).denote) (fun id => ?_), rfl,
      IdList.has_fresh, _, rfl, hat⟩
    rw [mem_ofSet_denote, exists_sims hids]
    exact mem_join
  | .diff kept dropped, n + 1, h => by
    have hheight := Nat.max_le.1 (Nat.le_of_succ_le_succ h)
    obtain ⟨keptSim, hkept, hkeptAt⟩ := simulated kept hheight.1
    obtain ⟨droppedSim, hdropped, hdroppedAt⟩ := simulated dropped hheight.2
    refine ⟨Cursor.diffSim keptSim droppedSim (.ofSet (SetExpr.diff kept dropped).denote)
      (fun id => ?_), rfl, IdList.has_fresh, _, _, rfl, hkeptAt, fun _ => .inl hdroppedAt⟩
    rw [hkept, hdropped, mem_ofSet_denote, mem_ofSet_denote, mem_ofSet_denote]
    rfl

theorem simulated_all : (subs : List (SetExpr L)) → {n : Nat} →
    Cursor.height.heights (cursor.cursors subs) ≤ n →
    ∃ sims : List (Cursor.Sim L n), (sims.map Simulation.ids = subs.map fun e => .ofSet e.denote) ∧
      AllAt sims .fresh (cursor.cursors subs)
  | [], _, _ => ⟨[], rfl, .nil⟩
  | e :: rest, n, h => by
    have hheight := Nat.max_le.1 h
    obtain ⟨sim, hids, hat⟩ := simulated e hheight.1
    obtain ⟨sims, hids', hat'⟩ := simulated_all rest hheight.2
    exact ⟨sim :: sims, congrArg₂ List.cons hids hids', .cons hat hat'⟩

end

/-- The cursor of an expression obeys the protocol on the ids of the set. -/
theorem obeys (e : SetExpr L) : Obeys (IdList.ofSet e.denote) .fresh e.cursor := by
  obtain ⟨sim, hids, hat⟩ := e.simulated le_rfl
  intro ms
  rw [Cursor.moves_eq, ← hids]
  exact sim.current_eq (sim.run_at hat ms)

/-- **The cursor algebra**: the cursor of an expression stands on nothing at first, and then, through
    any moves, where the machine stands that runs on the ids of the set. -/
theorem trace_current (e : SetExpr L) :
    (∀ id, id ∈ IdList.ofSet e.denote ↔ id ∈ e.denote) ∧ e.cursor.current = 0 ∧
      ∀ ms, (IdStream.trace ms e.cursor).map IdStream.current
        = ((IdList.ofSet e.denote).trace ms .fresh).map Phase.current := by
  refine ⟨fun _ => e.mem_ofSet_denote, ?_, ?_⟩
  · obtain ⟨sim, -, hat⟩ := e.simulated le_rfl
    exact sim.current_eq hat
  · exact fun ms => Obeys.trace_eq e.obeys ms

end SetExpr
end InvertedIndex
