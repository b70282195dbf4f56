import InvertedIndex.Proofs.Postings.History
import Mathlib.Algebra.Order.BigOperators.Group.List
import Mathlib.Data.FinEnum

/-!
# `Proofs.Postings.Accounts` — the accounts are exact

The total of the arena is kept up to date step by step, and the bytes and the largest size of a term
with every change of the term. After any run of changes the total is what the terms hold, at the full
size of the classes. The steps of a change never take off more than the total before it, so that
subtracting never stops at zero.

## Contents
- `SizeClass.bytes`, `Tariff.bytes`: the full size of a class;
- `Arena.step?`, `Arena.steps?`: steps that fail where they take off too much;
- `Postings.Kept`: the total is what the terms hold; `Kept.apply`, `kept_run`, `steps?_history`;
- `Postings.HadSize`, `Postings.Peaked`: the largest size of a group after an insertion; `peaked_run`;
- `Tracks.sum_bytes`: the bytes of a term as a total over its ids;
- `accounts_exact`.
-/

namespace InvertedIndex

open ArenaStep

/-! ## Steps that fail where they take off too much -/

/-- The bytes of a block of the class, or what an array of the class counts for. -/
def SizeClass.bytes (c : SizeClass) : Nat := c.units * blockUnit

/-- Blocks and arrays count for the full size of their classes. -/
def Tariff.bytes : Tariff := ⟨SizeClass.bytes, SizeClass.bytes, rfl⟩

namespace Arena

variable {arena : Arena}

/-- The arena after a step, `none` if the step takes off more than the total. -/
def step? (arena : Arena) (s : ArenaStep) : Option Arena :=
  if s.refund .bytes ≤ arena.totalBytes then some (arena.step s) else none

/-- The arena after several steps, `none` if one of them takes off more than the total. -/
def steps? (arena : Arena) (steps : List ArenaStep) : Option Arena := steps.foldlM step? arena

theorem steps?_append (arena : Arena) (front back : List ArenaStep) :
    arena.steps? (front ++ back) = (arena.steps? front).bind fun arena => arena.steps? back :=
  List.foldlM_append

/-- A step takes off its refund and adds its charge. -/
theorem Scaled.step_totalBytes (h : arena.Scaled) (s : ArenaStep) : (arena.step s).totalBytes
    = arena.totalBytes - s.refund .bytes + s.charge .bytes := by
  have hblock (c : SizeClass) : arena.blocks.capacity c = c.bytes := by
    rw [Pool.capacity, h.blocks, SizeClass.bytes]
  have harray (c : SizeClass) : arena.arrays.capacity c * blockUnit = c.bytes := by
    rw [Pool.capacity, h.arrays, Nat.mul_one, SizeClass.bytes]
  cases s with
  | takeBlock c => exact congrArg (arena.totalBytes + ·) (hblock c)
  | giveBlock c => exact congrArg (arena.totalBytes - ·) (hblock c)
  | moveArray source target =>
    show arena.totalBytes - arena.arrays.capacity source * blockUnit
      + arena.arrays.capacity target * blockUnit = _
    rw [harray, harray]
    rfl
  | giveArray c => exact congrArg (arena.totalBytes - ·) (harray c)

/-- Steps that together take off no more than the total do not fail. -/
theorem Scaled.steps?_eq (h : arena.Scaled) {steps : List ArenaStep}
    (hrefunds : refunds .bytes steps ≤ arena.totalBytes) :
    arena.steps? steps = some (arena.steps steps) ∧
      (arena.steps steps).totalBytes + refunds .bytes steps
        = arena.totalBytes + charges .bytes steps := by
  induction steps generalizing arena with
  | nil => exact ⟨rfl, rfl⟩
  | cons first rest ih =>
    have htotal := h.step_totalBytes first
    have hsplit : refunds .bytes (first :: rest) = first.refund .bytes + refunds .bytes rest := rfl
    have hcharges : charges .bytes (first :: rest) = first.charge .bytes + charges .bytes rest := rfl
    have hfirst : arena.step? first = some (arena.step first) := if_pos (by omega)
    obtain ⟨hrest, hsum⟩ := ih (h.step first) (by omega)
    refine ⟨?_, ?_⟩
    · rw [steps?, List.foldlM_cons, hfirst]
      exact hrest
    · rw [steps_cons]
      omega

end Arena

namespace Postings

variable {postings : Postings} {ledger : Ledger}

/-! ## The total -/

/-- Every term and the arena are of the smallest classes, and the total is what the terms hold. -/
structure Kept (postings : Postings) : Prop where
  tracks : ∃ ledger, postings.Tracks ledger
  regular : postings.Regular
  total : postings.totalBytes = postings.sumOver (Holding.weight .bytes)

/-- A change leaves everything of the smallest classes. -/
theorem Shift.regular {change : Change} {after : Postings} (h : postings.Shift change after)
    (hregular : postings.Regular) : after.Regular := by
  have hscaled : after.arena.Scaled := h.arena_eq ▸ hregular.scaled.steps _
  refine ⟨hscaled, ?_⟩
  have hplaced {term : String} {holding : Holding} (hholding : holding.Fitted)
      (t : String) (held : Holding)
      (hheld : (postings.holdings.insert term holding)[t]? = some held) : held.Fitted := by
    rw [Std.TreeMap.getElem?_insert] at hheld
    split at hheld
    · cases hheld
      exact hholding
    · exact hregular.fitted t held hheld
  cases h with
  | stays => exact hregular.fitted
  | inserts _ _ hrevises _ => exact hplaced hrevises.fitted
  | erases _ _ hrevises _ _ => exact hplaced hrevises.fitted
  | clears => exact fun term holding hholding => by simp [clear] at hholding

theorem empty_kept : empty.Kept where
  tracks := ⟨_, empty_tracks⟩
  regular := ⟨Arena.new_scaled, fun term holding hholding => by simp [empty] at hholding⟩
  total := rfl

/-- **One change keeps the total exact**, and its steps do not fail. -/
theorem Kept.apply (h : postings.Kept) (change : Change) :
    (postings.apply change).Kept ∧
      postings.arena.steps? (stepsOf change postings (postings.apply change))
        = some (postings.apply change).arena := by
  obtain ⟨ledger, htracks⟩ := h.tracks
  have hshift := htracks.shift h.regular change
  obtain ⟨hflow, hrefunds⟩ := hshift.flow .bytes
  have htotal := h.total
  obtain ⟨hsteps, hsum⟩ := h.regular.scaled.steps?_eq (htotal ▸ hrefunds)
  rw [← hshift.arena_eq] at hsteps hsum
  refine ⟨⟨htracks.exists_apply change, hshift.regular h.regular, ?_⟩, hsteps⟩
  show (postings.apply change).arena.totalBytes = _
  have hbefore : postings.arena.totalBytes = postings.totalBytes := rfl
  omega

theorem run_concat (changes : List Change) (change : Change) :
    run (changes ++ [change]) = (run changes).apply change := by
  simp [run]

theorem history_append (postings : Postings) (front back : List Change) :
    postings.history (front ++ back)
      = postings.history front ++ (front.foldl Postings.apply postings).history back := by
  induction front generalizing postings with
  | nil => rfl
  | cons change rest ih => simp [history, ih]

/-- **After any run of changes the total is exact.** -/
theorem kept_run (changes : List Change) : (run changes).Kept := by
  induction changes using List.reverseRecOn with
  | nil => exact empty_kept
  | append_singleton changes change ih =>
    rw [run_concat]
    exact (ih.apply change).1

/-- The steps of a run never take off more than the total at that time, and make the arena. -/
theorem steps?_history (changes : List Change) :
    Arena.new.steps? (empty.history changes) = some (run changes).arena := by
  induction changes using List.reverseRecOn with
  | nil => rfl
  | append_singleton changes change ih =>
    have hlast := ((kept_run changes).apply change).2
    rw [history_append, Arena.steps?_append, ih, run_concat]
    simpa [history, run] using hlast

/-! ## The bytes of a term -/

/-- The bytes of the entry that the postings have for an id under a term. -/
def entryBytes (postings : Postings) (term : String) (id : DocId) : Nat :=
  ((postings.find? term id).map fun payload => (Entry.encode ⟨id.member, payload⟩).length).getD 0

/-- The bytes that a term counts are those of the entries of its ids. -/
theorem Tracks.sum_bytes (h : postings.Tracks ledger) {term : String} {holding : Holding}
    (hholding : postings.holdings[term]? = some holding) (hfitted : holding.Fitted) :
    holding.bytes = ∑ id : DocId, postings.entryBytes term id := by
  have hsound := h.sound term holding hholding
  have hgroup (group : Group) (hgroup : group ∈ holding.groups) : group.encodedSize
      = (group.landings.map fun landing => Entry.encodedSize landing.payload.length).sum := by
    rw [Group.encodedSize_eq (hsound.groups group hgroup).body, Group.landings, List.map_map]
    rfl
  have hlanding : ∀ landing ∈ landingsOf holding.groups,
      Entry.encodedSize landing.payload.length = postings.entryBytes term landing.id := by
    intro landing hlanding
    have hlength := Entry.encode_length ⟨landing.id.member, landing.payload⟩
    rw [entryBytes, h.find?_eq, ((h.landing hholding).1 hlanding).2]
    exact hlength.symm
  calc holding.bytes = (holding.groups.map Group.encodedSize).sum := hfitted.bytes
    _ = (holding.groups.map fun group =>
          (group.landings.map fun landing => Entry.encodedSize landing.payload.length).sum).sum :=
        congrArg List.sum (List.map_congr_left hgroup)
    _ = ((landingsOf holding.groups).map fun landing =>
          Entry.encodedSize landing.payload.length).sum := by
        rw [landingsOf, List.map_flatMap, List.flatMap_def, List.sum_flatten, List.map_map]
        rfl
    _ = (((landingsOf holding.groups).map Landing.id).map (postings.entryBytes term)).sum := by
        rw [List.map_map]
        exact congrArg List.sum (List.map_congr_left hlanding)
    _ = ∑ id ∈ ((landingsOf holding.groups).map Landing.id).toFinset, postings.entryBytes term id :=
        (List.sum_toFinset _ (Holding.ids_nodup hsound)).symm
    _ = ∑ id : DocId, postings.entryBytes term id := by
        refine Finset.sum_subset (Finset.subset_univ _) fun id _ hid => ?_
        -- An id that is not among the landings has no payload.
        rw [entryBytes, h.find?_eq]
        cases hpayload : ledger.payload? term id with
        | none => rfl
        | some payload =>
          refine absurd ?_ hid
          have hvalid : id.Valid := by
            by_contra hinvalid
            rw [h.payload, if_neg hinvalid] at hpayload
            cases hpayload
          rw [List.mem_toFinset]
          exact List.mem_map.2 ⟨⟨id, payload⟩, (h.landing hholding).2 ⟨hvalid, hpayload⟩, rfl⟩

/-! ## The largest size -/

/-- Right after an insertion into the term a group of it had the size, and the postings were not
    cleared since. -/
def HadSize (changes : List Change) (term : String) (size : Nat) : Prop :=
  ∃ done change later, changes = done ++ change :: later ∧ .clear ∉ later ∧
    (run done).Accepts term change ∧
    ∃ group ∈ ((run (done ++ [change])).held term).groups, group.encodedSize = size

/-- What a term records is the largest size that it had. -/
structure Peaked (changes : List Change) (term : String) : Prop where
  upper : ∀ size, HadSize changes term size → size ≤ ((run changes).held term).maxBytes
  reached : (run changes).contains term →
    HadSize changes term ((run changes).held term).maxBytes
  groups : ∀ group ∈ ((run changes).held term).groups,
    group.encodedSize ≤ ((run changes).held term).maxBytes

/-- A size was had in a longer run after its last change or before it. -/
theorem hadSize_concat {changes : List Change} {change : Change} {term : String} {size : Nat} :
    HadSize (changes ++ [change]) term size
      ↔ (change ≠ .clear ∧ HadSize changes term size) ∨ ((run changes).Accepts term change ∧
        ∃ group ∈ ((run (changes ++ [change])).held term).groups, group.encodedSize = size) := by
  constructor
  · rintro ⟨done, earlier, later, hsplit, hkept, haccepts, hsize⟩
    cases later using List.reverseRecOn with
    | nil =>
      obtain ⟨rfl, hlast⟩ := List.append_inj' hsplit rfl
      cases hlast
      exact .inr ⟨haccepts, hsize⟩
    | append_singleton later last =>
      rw [← List.cons_append, ← List.append_assoc] at hsplit
      obtain ⟨rfl, hlast⟩ := List.append_inj' hsplit rfl
      cases hlast
      simp only [List.mem_append, List.mem_singleton, not_or] at hkept
      exact .inl ⟨Ne.symm hkept.2, done, earlier, later, rfl, hkept.1, haccepts, hsize⟩
  · rintro (⟨hchange, done, earlier, later, rfl, hkept, haccepts, hsize⟩ | ⟨haccepts, hsize⟩)
    · refine ⟨done, earlier, later ++ [change], by simp, ?_, haccepts, hsize⟩
      simp [hkept, Ne.symm hchange]
    · exact ⟨changes, change, [], rfl, by simp, haccepts, hsize⟩

theorem held_insert_other (postings : Postings) {term other : String} (hne : other ≠ term)
    (holding : Holding) (arena : Arena) :
    held ⟨postings.holdings.insert term holding, arena⟩ other = postings.held other := by
  rw [held, held, Std.TreeMap.getElem?_insert, if_neg]
  simpa using hne.symm

/-- Only a term that is known holds something. -/
theorem held_of_not_contains {term : String} (h : ¬ postings.contains term) :
    postings.held term = {} := by
  rw [contains_eq, Bool.not_eq_true, Option.isSome_eq_false_iff, Option.isNone_iff_eq_none] at h
  rw [held, h]
  rfl

variable {changes : List Change} {change : Change} {term : String}

/-- Without an insertion into the term, what it records stays the largest size. -/
theorem Peaked.refused (h : Peaked changes term) (hchange : change ≠ .clear)
    (hrefused : ¬ (run changes).Accepts term change)
    (hcontains : (run (changes ++ [change])).contains term → (run changes).contains term)
    (hmax : ((run (changes ++ [change])).held term).maxBytes = ((run changes).held term).maxBytes)
    (hgroups : ∀ group ∈ ((run (changes ++ [change])).held term).groups,
      group.encodedSize ≤ ((run changes).held term).maxBytes) : Peaked (changes ++ [change]) term := by
  refine ⟨?_, ?_, ?_⟩
  · intro size hsize
    rcases hadSize_concat.1 hsize with ⟨-, hbefore⟩ | ⟨haccepts, -⟩
    · exact hmax ▸ h.upper size hbefore
    · exact absurd haccepts hrefused
  · intro hafter
    rw [hmax]
    exact hadSize_concat.2 (.inl ⟨hchange, h.reached (hcontains hafter)⟩)
  · rw [hmax]
    exact hgroups

/-- With an insertion into the term, it records the size of the group if that is larger. -/
theorem Peaked.accepted (h : Peaked changes term) (hchange : change ≠ .clear)
    (haccepts : (run changes).Accepts term change) {number : UInt16} {old : Option Group}
    {group : Group} (hgroups : Replaces Group.number number old (some group)
      ((run changes).held term).groups ((run (changes ++ [change])).held term).groups)
    (hmax : ((run (changes ++ [change])).held term).maxBytes
      = max ((run changes).held term).maxBytes group.encodedSize) :
    Peaked (changes ++ [change]) term := by
  have hnew : ∀ other ∈ ((run (changes ++ [change])).held term).groups,
      other.encodedSize ≤ max ((run changes).held term).maxBytes group.encodedSize := by
    intro other hother
    rcases hgroups.mem hother with hput | hkept
    · cases hput
      exact le_max_right _ _
    · exact (h.groups other hkept).trans (le_max_left _ _)
  have hgroup : group ∈ ((run (changes ++ [change])).held term).groups :=
    lookup_mem hgroups.lookup_new
  refine ⟨?_, ?_, hmax ▸ hnew⟩
  · intro size hsize
    rw [hmax]
    rcases hadSize_concat.1 hsize with ⟨-, hbefore⟩ | ⟨-, other, hother, rfl⟩
    · exact (h.upper size hbefore).trans (le_max_left _ _)
    · exact hnew other hother
  · intro hafter
    rw [hmax]
    rcases le_or_gt ((run changes).held term).maxBytes group.encodedSize with hle | hlt
    · rw [max_eq_right hle]
      exact hadSize_concat.2 (.inr ⟨haccepts, group, hgroup, rfl⟩)
    · -- A term that is new has recorded nothing.
      have hcontains : (run changes).contains term := by
        by_contra hnone
        rw [held_of_not_contains hnone] at hlt
        exact Nat.not_lt_zero _ hlt
      rw [max_eq_left hlt.le]
      exact hadSize_concat.2 (.inl ⟨hchange, h.reached hcontains⟩)

/-- One change keeps the records. -/
theorem Peaked.concat (h : ∀ term, Peaked changes term)
    (hshift : (run changes).Shift change (run (changes ++ [change]))) (term : String) :
    Peaked (changes ++ [change]) term := by
  have hplaced {place : String × DocId} (hplace : change.place? = some place) :
      change ≠ .clear := by
    rintro rfl
    cases hplace
  -- The terms that a change is not about.
  have hother {changed : String} {holding : Holding} {arena : Arena} (hchange : change ≠ .clear)
      (hafter : run (changes ++ [change]) = ⟨(run changes).holdings.insert changed holding, arena⟩)
      (hne : term ≠ changed) (hrefused : ¬ (run changes).Accepts term change) :
      Peaked (changes ++ [change]) term := by
    have hheld : (run (changes ++ [change])).held term = (run changes).held term := by
      rw [hafter, held_insert_other _ hne]
    refine (h term).refused hchange hrefused ?_ (by rw [hheld]) (by rw [hheld]; exact (h term).groups)
    rw [hafter, contains, contains, Std.TreeMap.contains_insert]
    simp [hne.symm]
  generalize hafter : run (changes ++ [change]) = after at hshift
  cases hshift with
  | stays hplace hrefused =>
    refine (h term).refused ?_ (hrefused term) ?_ ?_ ?_
    · rintro rfl
      exact hplace rfl
    · rw [hafter]
      exact id
    · rw [hafter]
    · rw [hafter]
      exact (h term).groups
  | @inserts changed id old body holding arena hplace haccepts hrevises hmax =>
    by_cases heq : term = changed
    · subst heq
      have hheld : (run (changes ++ [change])).held term = holding := by rw [hafter, held_insert]
      exact (h term).accepted (hplaced hplace) haccepts (hheld ▸ hrevises.groups) (hheld ▸ hmax)
    · refine hother (hplaced hplace) hafter heq fun hinserts => ?_
      exact heq (haccepts.1.term_eq hinserts.1).symm
  | @erases changed id group new holding arena hplace hrefused hrevises hmax hsize =>
    by_cases heq : term = changed
    · subst heq
      have hheld : (run (changes ++ [change])).held term = holding := by rw [hafter, held_insert]
      have hgroup := lookup_mem hrevises.groups.lookup_old
      refine (h term).refused (hplaced hplace) (hrefused term) ?_ (hheld ▸ hmax) ?_
      · intro _
        by_contra hnone
        rw [held_of_not_contains hnone] at hgroup
        exact absurd hgroup List.not_mem_nil
      · rw [hheld]
        intro other hother
        rcases hrevises.groups.mem hother with hput | hkept
        · exact (hsize other hput).trans ((h term).groups group hgroup)
        · exact (h term).groups other hkept
    · exact hother (hplaced hplace) hafter heq (hrefused term)
  | clears hchange =>
    have hheld : (run (changes ++ [change])).held term = {} := by
      rw [hafter]
      simp [held, clear]
    refine ⟨?_, ?_, ?_⟩
    · intro size hsize
      rcases hadSize_concat.1 hsize with ⟨hkept, -⟩ | ⟨haccepts, -⟩
      · exact absurd hchange hkept
      · exact (hchange ▸ haccepts.1).elim
    · rw [hafter]
      simp [contains, clear]
    · rw [hheld]
      exact fun group hgroup => absurd hgroup List.not_mem_nil

/-- **After any run of changes each term records the largest size that it had.** -/
theorem peaked_run (changes : List Change) (term : String) : Peaked changes term := by
  induction changes using List.reverseRecOn generalizing term with
  | nil =>
    refine ⟨?_, ?_, ?_⟩
    · rintro size ⟨done, change, later, hsplit, -⟩
      simp at hsplit
    · simp [run, empty, contains]
    · simp [run, empty, held]
  | append_singleton changes change ih =>
    obtain ⟨ledger, htracks⟩ := (kept_run changes).tracks
    refine Peaked.concat ih ?_ term
    rw [run_concat]
    exact htracks.shift (kept_run changes).regular change

/-! ## All accounts -/

/-- All that the accounts say after a run of changes is exact. -/
structure Accounted (changes : List Change) : Prop where
  /-- A block is of the smallest class with room for its bytes. -/
  blocks : ∀ term, ∀ group ∈ ((run changes).held term).groups, ∀ c bytes,
    group.body = .block c bytes → SizeClass.Snug blockUnit bytes.length c
  /-- The array of a term is of the smallest class with room for its groups. -/
  arrays : ∀ term, SizeClass.Snug 1 ((run changes).held term).groups.length
    ((run changes).held term).arrayClass
  /-- The total is that of the blocks and the arrays of all terms. -/
  total : (run changes).totalBytes = (run changes).sumOver fun holding =>
    (holding.groups.map fun group => (group.blockClass?.map SizeClass.bytes).getD 0).sum
      + holding.arrayClass.bytes
  /-- What the run asks of the arena never takes off more than the total at that time. -/
  covered : Arena.new.steps? (empty.history changes) = some (run changes).arena
  /-- Nor can a term take off more than it counts when one of its groups changes. -/
  counted : ∀ term, ∀ group ∈ ((run changes).held term).groups,
    group.encodedSize ≤ ((run changes).held term).bytes ∧ 0 < ((run changes).held term).ids
  cleared : (run changes).clear.totalBytes = 0
  /-- The terms that are known have accounts, and no others. -/
  known : ∀ term, ((run changes).stats? term).isSome ↔ (run changes).contains term
  /-- The bytes of a term are those of the entries of its ids. -/
  bytes : ∀ term, ∀ stats ∈ (run changes).stats? term,
    stats.bytes = ∑ id : DocId, (run changes).entryBytes term id
  /-- The largest size of a term is the largest of a group right after an insertion. -/
  maxBytes : ∀ term, ∀ stats ∈ (run changes).stats? term,
    IsGreatest {size | HadSize changes term size} stats.maxBytes

/-- **The accounts are exact after any run of changes.** -/
theorem accounts_exact (changes : List Change) : Accounted changes := by
  have hkept := kept_run changes
  obtain ⟨ledger, htracks⟩ := hkept.tracks
  have hfitted := hkept.regular.fitted_held
  refine ⟨fun term => (hfitted term).blocks, fun term => (hfitted term).array, hkept.total,
    steps?_history changes, ?_, ?_, ?_, ?_, ?_⟩
  · intro term group hgroup
    have hsound : ((run changes).held term).Sound := (htracks.sound_getD term).1
    rw [(hfitted term).bytes, hsound.ids]
    refine ⟨List.le_sum_of_mem (List.mem_map_of_mem hgroup), ?_⟩
    refine lt_of_lt_of_le ?_ (List.le_sum_of_mem (List.mem_map_of_mem hgroup))
    exact List.length_pos_iff.2 (hsound.groups group hgroup).body.run.nonempty
  · have hcleared := (kept_run (changes ++ [.clear])).total
    rw [run_concat] at hcleared
    exact hcleared
  · intro term
    rw [stats?, Option.isSome_map, contains_eq]
  · intro term stats hstats
    obtain ⟨holding, hholding, rfl⟩ := Option.map_eq_some_iff.1 hstats
    exact htracks.sum_bytes hholding (hkept.regular.fitted term holding hholding)
  · intro term stats hstats
    obtain ⟨holding, hholding, rfl⟩ := Option.map_eq_some_iff.1 hstats
    have hpeaked := peaked_run changes term
    have hheld : (run changes).held term = holding := by rw [held, hholding]; rfl
    have hcontains : (run changes).contains term := by
      rw [contains_eq, hholding]
      rfl
    exact ⟨hheld ▸ hpeaked.reached hcontains, fun size hsize => hheld ▸ hpeaked.upper size hsize⟩

end Postings
end InvertedIndex
