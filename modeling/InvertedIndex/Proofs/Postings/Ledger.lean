import InvertedIndex.Postings.Basic
import InvertedIndex.Proofs.Postings.Capacity

/-!
# `Proofs.Postings.Ledger` — live postings are a map

However payloads are kept, the postings answer like a plain map from terms and ids to payloads. The
map is the **ledger**: a function that an insertion changes at one term and id, an erasure empties
there, and a clearing empties everywhere, together with the set of terms inserted since then. A run
of changes keeps the two in step, change by change.

## Contents
- `Change`, `Postings.attempt`, `Postings.apply`, `Postings.run`: changes as data;
- `Ledger`, `Ledger.apply`, `Ledger.run`: the map;
- `Postings.Agrees`: every answer of the postings is that of the ledger;
- `Postings.Tracks`: the invariant; `Tracks.apply`: one change keeps it; `exists_tracks_run`;
- `exists_change_of_find?`: where a payload that is found comes from;
- `Tracks.fits`: changes with modest payloads are never refused for want of a block;
- `run_agrees`: after every part of a run the two agree.
-/

namespace InvertedIndex

/-! ## Runs of changes -/

/-- A change of the postings. -/
inductive Change where
  | insert (term : String) (id : DocId) (payload : Bytes)
  | insertPositions (term : String) (id : DocId) (positions : List Position)
  | erase (term : String) (id : DocId)
  | clear
  deriving Repr, DecidableEq

/-- The payload that a change brings along. -/
def Change.payload? : Change → Option Bytes
  | .insert _ _ payload => some payload
  | .insertPositions _ _ positions => some (Window.encode positions)
  | .erase _ _ | .clear => none

namespace Postings

/-- What a change makes of the postings, or why it is refused. -/
def attempt (postings : Postings) : Change → Except Fault Postings
  | .insert term id payload => postings.insert term id payload
  | .insertPositions term id positions => postings.insertPositions term id positions
  | .erase term id => .ok (postings.erase term id).2
  | .clear => .ok postings.clear

/-- The postings after a change; a refused one leaves them as they are. -/
def apply (postings : Postings) (change : Change) : Postings :=
  match postings.attempt change with
  | .ok changed => changed
  | .error _ => postings

/-- New postings after a run of changes. -/
def run (changes : List Change) : Postings := changes.foldl apply empty

/-- Whether a change is refused for want of a block that is large enough. -/
def exceeds (postings : Postings) (change : Change) : Bool :=
  match postings.attempt change with
  | .error (.postingTooLarge _ _) => true
  | _ => false

/-- No change of the run is refused for want of a block that is large enough. -/
def Fits (postings : Postings) : List Change → Prop
  | [] => True
  | change :: rest => ¬ postings.exceeds change ∧ (postings.apply change).Fits rest

end Postings

/-! ## The ledger -/

/-- What postings should hold. -/
structure Ledger where
  /-- The terms inserted since the last clearing. -/
  terms : Finset String
  /-- The payload of an id under a term. -/
  payload? : String → DocId → Option Bytes

namespace Ledger

/-- Nothing. -/
def empty : Ledger := ⟨∅, fun _ _ => none⟩

/-- Gives one id under one term another payload, or none. -/
def put (ledger : Ledger) (term : String) (id : DocId) (payload : Option Bytes) :
    String → DocId → Option Bytes :=
  fun t i => if t = term ∧ i = id then payload else ledger.payload? t i

/-- Inserts a payload, unless no document may have the id. -/
def insert (ledger : Ledger) (term : String) (id : DocId) (payload : Bytes) : Ledger :=
  if id.Valid then ⟨Insert.insert term ledger.terms, ledger.put term id (some payload)⟩ else ledger

/-- The ledger after a change. -/
def apply (ledger : Ledger) : Change → Ledger
  | .insert term id payload => ledger.insert term id payload
  | .insertPositions term id positions => ledger.insert term id (Window.encode positions)
  | .erase term id => { ledger with payload? := ledger.put term id none }
  | .clear => empty

/-- A new ledger after a run of changes. -/
def run (changes : List Change) : Ledger := changes.foldl apply empty

/-- The ids that have a payload under a term. -/
def ids (ledger : Ledger) (term : String) : Set DocId := {id | (ledger.payload? term id).isSome}

/-- No payload is too long for a group of them to fit into a block. -/
def AllModest (ledger : Ledger) : Prop :=
  ∀ term id payload, ledger.payload? term id = some payload → Modest payload

/-- All payloads have a property. -/
def All (P : Bytes → Prop) (ledger : Ledger) : Prop :=
  ∀ term id payload, ledger.payload? term id = some payload → P payload

section All

variable {P : Bytes → Prop} {ledger : Ledger}

theorem empty_all : empty.All P := fun _ _ _ h => by cases h

theorem All.put (h : ledger.All P) {term : String} {id : DocId} {payload : Option Bytes}
    (hpayload : ∀ p ∈ payload, P p) (terms : Finset String) :
    All P ⟨terms, ledger.put term id payload⟩ := by
  intro t i p hp
  simp only [Ledger.put] at hp
  split at hp
  · exact hpayload p hp
  · exact h t i p hp

theorem All.insert (h : ledger.All P) {payload : Bytes} (hpayload : P payload) (term : String)
    (id : DocId) : (ledger.insert term id payload).All P := by
  unfold Ledger.insert
  split
  · exact h.put (by simpa using hpayload) _
  · exact h

/-- A change keeps what all payloads have if the one that it brings along has it, too. -/
theorem All.apply (h : ledger.All P) {change : Change}
    (hchange : ∀ payload ∈ change.payload?, P payload) : (ledger.apply change).All P := by
  cases change with
  | insert term id payload => exact h.insert (hchange payload rfl) term id
  | insertPositions term id positions => exact h.insert (hchange _ rfl) term id
  | erase term id => exact h.put (by simp) _
  | clear => exact empty_all

end All

theorem empty_allModest : empty.AllModest := empty_all

/-- A change that brings along no payload or a modest one leaves all payloads modest. -/
theorem AllModest.apply {ledger : Ledger} (h : ledger.AllModest) {change : Change}
    (hchange : ∀ payload ∈ change.payload?, Modest payload) :
    (ledger.apply change).AllModest := All.apply h hchange

end Ledger

/-- Every answer of the postings is that of the ledger. -/
structure Postings.Agrees (postings : Postings) (ledger : Ledger) : Prop where
  find : ∀ term id, postings.find? term id = ledger.payload? term id
  /-- An erasure reports whether there was something to erase. -/
  erase : ∀ term id, (postings.erase term id).1 = (ledger.payload? term id).isSome
  /-- An id that no document may have changes nothing. -/
  invalid : ∀ term id, ¬ id.Valid → ∀ payload,
    postings.apply (.insert term id payload) = postings ∧
      postings.apply (.erase term id) = postings
  contains : ∀ term, postings.contains term ↔ term ∈ ledger.terms
  termCount : postings.termCount = ledger.terms.card
  /-- A term has statistics if it is one of the terms. -/
  known : ∀ term, (postings.stats? term).isSome ↔ term ∈ ledger.terms
  /-- The statistics count the ids of the term and the groups that these fall into. -/
  stats : ∀ term, ∀ stats ∈ postings.stats? term,
    stats.ids = (ledger.ids term).ncard ∧ stats.groups = (DocId.group '' ledger.ids term).ncard

/-! ## The invariant -/

/-- The postings are sound, and the ledger reads off what they keep. -/
structure Postings.Tracks (postings : Postings) (ledger : Ledger) : Prop where
  clean : postings.arena.Clean
  sound : ∀ (term : String) (holding : Holding), postings.holdings[term]? = some holding → holding.Sound
  /-- No document has the id `0`. -/
  zero : ∀ (term : String) (holding : Holding), postings.holdings[term]? = some holding →
    payloadAt holding.groups 0 0 = none
  terms : ∀ term : String, postings.holdings[term]?.isSome ↔ term ∈ ledger.terms
  size : postings.holdings.size = ledger.terms.card
  payload : ∀ (term : String) (id : DocId), ledger.payload? term id
    = if id.Valid then postings.holdings[term]?.bind fun holding : Holding =>
        payloadAt holding.groups id.group id.member
      else none

/-! ## What one operation does to a term -/

namespace Postings

variable {postings : Postings} {ledger : Ledger}

/-- A term is known if it has a holding, be it empty. -/
theorem contains_eq (postings : Postings) (term : String) :
    postings.contains term = postings.holdings[term]?.isSome :=
  Std.TreeMap.contains_eq_isSome_getElem?

/-- An accepted insertion has a valid id and a payload of representable length, and inserts the
    entry into what the term holds. -/
theorem insert_eq_ok {term : String} {id : DocId} {payload : Bytes} {changed : Postings}
    (hclean : postings.arena.Clean) (h : postings.insert term id payload = .ok changed) :
    id.Valid ∧ payload.length < 2 ^ 32 ∧ ∃ holding arena,
      ((postings.holdings[term]?).getD {}).insert postings.arena term id.group
          ⟨id.member, payload⟩ = .ok (holding, arena) ∧
        changed = ⟨postings.holdings.insert term holding, arena⟩ := by
  unfold insert at h
  by_cases hid : id.Valid
  · simp only [DocId.check, if_pos hid, Arena.checkPayload] at h
    obtain ⟨-, -, h⟩ := bind_eq_ok.1 h
    obtain ⟨⟨⟩, hcheck, h⟩ := bind_eq_ok.1 h
    obtain ⟨⟨holding, arena⟩, hinsert, h⟩ := bind_eq_ok.1 h
    cases h
    obtain ⟨c, hclass, -⟩ := map_eq_ok.1 hcheck
    have hsize := hclean.size_lt hclass
    have hlength : payload.length ≤ Entry.encodedSize payload.length := by
      show payload.length ≤ 2 + _ + payload.length
      omega
    exact ⟨hid, by omega, holding, arena, hinsert, rfl⟩
  · simp only [DocId.check, if_neg hid] at h
    cases h

/-- A refused insertion has an id that no document may have, or needs too large a block. -/
theorem insert_eq_error {term : String} {id : DocId} {payload : Bytes} {fault : Fault}
    (h : postings.insert term id payload = .error fault) :
    ¬ id.Valid ∨ ∃ size, fault = .postingTooLarge term size := by
  by_cases hid : id.Valid
  · refine .inr ?_
    unfold insert at h
    simp only [DocId.check, if_pos hid, Arena.checkPayload] at h
    rcases bind_eq_error.1 h with hcheck | ⟨-, -, h⟩
    · cases hcheck
    rcases bind_eq_error.1 h with hcheck | ⟨-, -, h⟩
    · exact ⟨_, Arena.blockClass_error (map_eq_error.1 hcheck)⟩
    rcases bind_eq_error.1 h with hinsert | ⟨result, -, h⟩
    · exact Holding.insert_error hinsert
    · cases h
  · exact .inl hid

theorem insert_invalid {term : String} {id : DocId} (hid : ¬ id.Valid) (payload : Bytes) :
    postings.insert term id payload = .error (.invalidId id) := by
  unfold insert
  simp only [DocId.check, if_neg hid]
  rfl

theorem erase_invalid {term : String} {id : DocId} (hid : ¬ id.Valid) :
    postings.erase term id = (false, postings) := if_neg hid

/-! ## The ledger reads off the answers -/

namespace Tracks

theorem find?_eq (h : postings.Tracks ledger) (term : String) (id : DocId) :
    postings.find? term id = ledger.payload? term id := by
  rw [h.payload]
  unfold find?
  split
  · cases hholding : postings.holdings[term]? with
    | none => rfl
    | some holding => exact Holding.find?_eq (h.sound term holding hholding) _ _
  · rfl

/-- The ids that a term keeps are those of the ledger. -/
theorem idSet_eq (h : postings.Tracks ledger) {term : String} {holding : Holding}
    (hholding : postings.holdings[term]? = some holding) : holding.idSet = ledger.ids term := by
  ext id
  show (id ≤ DocId.largest ∧ _) ↔ (ledger.payload? term id).isSome
  rw [h.payload, hholding]
  by_cases hzero : id = 0
  · subst hzero
    have hgone : payloadAt holding.groups (DocId.group 0) (DocId.member 0) = none :=
      h.zero term holding hholding
    have hinvalid : ¬ DocId.Valid 0 := fun h => h.1 rfl
    rw [hgone, if_neg hinvalid]
    simp
  · by_cases hid : id ≤ DocId.largest
    · rw [if_pos ⟨hzero, hid⟩]
      exact and_iff_right hid
    · rw [if_neg fun h => hid h.2]
      simp [hid]

/-- The id is found under the term when the ledger has it. -/
theorem isSome_payload (h : postings.Tracks ledger) {term : String} {id : DocId} (hid : id.Valid)
    {holding : Holding} (hholding : postings.holdings[term]? = some holding) :
    payloadAt holding.groups id.group id.member = ledger.payload? term id := by
  rw [h.payload, if_pos hid, hholding]
  rfl

theorem erase_fst (h : postings.Tracks ledger) (term : String) (id : DocId) :
    (postings.erase term id).1 = (ledger.payload? term id).isSome := by
  by_cases hid : id.Valid
  · -- An erasure tells whether there was a payload.
    unfold erase
    rw [if_pos hid]
    cases hholding : postings.holdings[term]? with
    | none =>
      rw [h.payload, if_pos hid, hholding]
      rfl
    | some holding =>
      have herase := Holding.erase_spec h.clean (h.sound term holding hholding) id.group id.member
      rw [← h.isSome_payload hid hholding]
      simp only [Option.bind_some]
      generalize holding.erase postings.arena id.group id.member = erased at herase
      cases erased with
      | none =>
        rw [herase]
        rfl
      | some result =>
        obtain ⟨_, _, entry, hchange⟩ := herase
        rw [hchange.payloadAt_old]
        rfl
  · rw [erase_invalid hid, h.payload, if_neg hid]
    rfl

/-- **Postings in step with a ledger answer like it.** -/
theorem agrees (h : postings.Tracks ledger) : postings.Agrees ledger where
  find := h.find?_eq
  erase := h.erase_fst
  invalid := by
    intro term id hid payload
    constructor
    · simp only [apply, attempt, insert_invalid hid]
    · simp only [apply, attempt, erase_invalid hid]
  contains := by
    intro term
    rw [← h.terms, contains_eq]
  termCount := h.size
  known := by
    intro term
    rw [← h.terms, stats?, Option.isSome_map]
  stats := by
    intro term stats hstats
    obtain ⟨holding, hholding, rfl⟩ := Option.map_eq_some_iff.1 hstats
    have hsound := h.sound term holding hholding
    rw [← h.idSet_eq hholding, Holding.ncard_idSet hsound, Holding.ncard_groups hsound]
    exact ⟨rfl, rfl⟩

end Tracks

/-! ## One change -/

/-- The entry of the ledger for a term whose groups changed at one id. -/
theorem payload_change {groups groups' : List Group} {id : DocId} {found put : Option Entry}
    (hchange : GroupsChange id.group id.member found put groups groups') (hid : id.Valid)
    {i : DocId} (hi : i.Valid) :
    payloadAt groups' i.group i.member
      = if i = id then put.map Entry.payload else payloadAt groups i.group i.member := by
  rw [hchange.payloadAt_new]
  simp only [DocId.eq_iff_split hi.2 hid.2]

/-- A change at a valid id leaves the id `0` without a payload. -/
theorem zero_change {groups groups' : List Group} {id : DocId} {found put : Option Entry}
    (hchange : GroupsChange id.group id.member found put groups groups') (hid : id.Valid)
    (hzero : payloadAt groups 0 0 = none) : payloadAt groups' 0 0 = none := by
  have hne : ¬ ((0 : UInt16) = id.group ∧ (0 : UInt16) = id.member) := fun h =>
    hid.1 ((DocId.eq_iff_split hid.2 (by decide : (0 : DocId) ≤ DocId.largest)).2
      ⟨h.1.symm, h.2.symm⟩)
  rw [hchange.payloadAt_new, if_neg hne, hzero]

/-- What a term holds is sound, also before its first insertion. -/
theorem Tracks.sound_getD (h : postings.Tracks ledger) (term : String) :
    ((postings.holdings[term]?).getD {}).Sound ∧
      payloadAt ((postings.holdings[term]?).getD {}).groups 0 0 = none ∧
      ∀ number member, (postings.holdings[term]?.bind fun holding : Holding =>
        payloadAt holding.groups number member)
          = payloadAt ((postings.holdings[term]?).getD {}).groups number member := by
  cases hholding : postings.holdings[term]? with
  | none => exact ⟨Holding.empty_sound, rfl, fun _ _ => rfl⟩
  | some holding => exact ⟨h.sound term holding hholding, h.zero term holding hholding,
      fun _ _ => rfl⟩

/-- Keeping other groups under one term keeps the ledger in step, if it follows there. -/
theorem Tracks.keep (h : postings.Tracks ledger) {term : String} {holding : Holding}
    {arena : Arena} (hclean : arena.Clean) (hsound : holding.Sound)
    (hzero : payloadAt holding.groups 0 0 = none) {payload : String → DocId → Option Bytes}
    (hpayload : ∀ t i, payload t i = if t = term then
      (if i.Valid then payloadAt holding.groups i.group i.member else none)
      else ledger.payload? t i) :
    Tracks ⟨postings.holdings.insert term holding, arena⟩
      ⟨Insert.insert term ledger.terms, payload⟩ := by
  -- All but the changed term holds what it held.
  have hget (t : String) : (postings.holdings.insert term holding)[t]?
      = if t = term then some holding else postings.holdings[t]? := by
    rw [Std.TreeMap.getElem?_insert]
    simp only [Std.compare_eq_iff_eq, eq_comm (a := t)]
  refine ⟨hclean, ?_, ?_, ?_, ?_, ?_⟩
  · intro t held ht
    simp only [hget] at ht
    split at ht
    · cases ht
      exact hsound
    · exact h.sound t held ht
  · intro t held ht
    simp only [hget] at ht
    split at ht
    · cases ht
      exact hzero
    · exact h.zero t held ht
  · intro t
    simp only [hget, Finset.mem_insert, ← h.terms]
    by_cases ht : t = term
    · simp [ht]
    · simp [ht]
  · show (postings.holdings.insert term holding).size = _
    rw [Std.TreeMap.size_insert, Std.TreeMap.contains_eq_isSome_getElem?, Finset.card_insert_eq_ite,
      h.size]
    simp only [h.terms]
  · intro t i
    show payload t i = _
    rw [hpayload]
    simp only [hget]
    by_cases ht : t = term
    · simp only [if_pos ht, Option.bind_some]
    · simp only [if_neg ht]
      exact h.payload t i

/-- A ledger that follows a change at a valid id reads off the new groups of the term. -/
theorem Tracks.put_eq (h : postings.Tracks ledger) {term : String} {id : DocId} (hid : id.Valid)
    {groups groups' : List Group} {found put : Option Entry}
    (hchange : GroupsChange id.group id.member found put groups groups')
    (hbefore : ∀ number member, (postings.holdings[term]?.bind fun holding : Holding =>
      payloadAt holding.groups number member) = payloadAt groups number member)
    (t : String) (i : DocId) :
    ledger.put term id (put.map Entry.payload) t i = if t = term then
      (if i.Valid then payloadAt groups' i.group i.member else none)
      else ledger.payload? t i := by
  unfold Ledger.put
  by_cases ht : t = term
  · rw [if_pos ht]
    -- An invalid id has no payload before the change and none after it.
    by_cases hi : i.Valid
    · rw [if_pos hi, payload_change hchange hid hi, h.payload, if_pos hi, ht, hbefore]
      simp only [true_and]
    · have hne : ¬ (t = term ∧ i = id) := fun heq => hi (heq.2 ▸ hid)
      rw [if_neg hi, if_neg hne, h.payload, if_neg hi]
  · rw [if_neg ht, if_neg fun heq => ht heq.1]

/-- An accepted insertion keeps the ledger in step. -/
theorem Tracks.insert (h : postings.Tracks ledger) {term : String} {id : DocId} {payload : Bytes}
    {changed : Postings} (hinsert : postings.insert term id payload = .ok changed) :
    changed.Tracks (ledger.insert term id payload) := by
  obtain ⟨hid, hlength, holding, arena, hholding, rfl⟩ := insert_eq_ok h.clean hinsert
  obtain ⟨hsound, hzero, hbefore⟩ := h.sound_getD term
  obtain ⟨hsound', hclean', found, hchange⟩ := Holding.insert_spec h.clean hsound
    (DocId.group_lt id) ⟨DocId.member_lt id, hlength⟩ hholding
  rw [Ledger.insert, if_pos hid]
  exact h.keep hclean' hsound' (zero_change hchange hid hzero) (h.put_eq hid hchange hbefore)

/-- An erasure of an absent id changes nothing. -/
theorem Tracks.erase_absent (h : postings.Tracks ledger) {term : String} {id : DocId}
    (habsent : ledger.payload? term id = none) : (postings.erase term id).2 = postings := by
  have hfst := h.erase_fst term id
  rw [habsent] at hfst
  unfold Postings.erase at hfst ⊢
  by_cases hid : id.Valid
  · simp only [if_pos hid] at hfst ⊢
    split at hfst
    · cases hfst
    · rfl
  · rw [if_neg hid]

/-- Erasing an id keeps the ledger in step. -/
theorem Tracks.erase (h : postings.Tracks ledger) (term : String) (id : DocId) :
    (postings.erase term id).2.Tracks { ledger with payload? := ledger.put term id none } := by
  by_cases habsent : ledger.payload? term id = none
  · -- Without a payload there is nothing to erase on either side.
    have hput : ledger.put term id none = ledger.payload? := by
      funext t i
      unfold Ledger.put
      split
      next heq => rw [heq.1, heq.2, habsent]
      · rfl
    rw [hput, h.erase_absent habsent]
    exact h
  · have hpayload := h.payload term id
    have hid : id.Valid := by
      by_contra hinvalid
      rw [if_neg hinvalid] at hpayload
      exact habsent hpayload
    rw [if_pos hid] at hpayload
    cases hholding : postings.holdings[term]? with
    | none =>
      rw [hholding] at hpayload
      exact absurd hpayload habsent
    | some holding =>
      rw [hholding] at hpayload
      have herase := Holding.erase_spec h.clean (h.sound term holding hholding) id.group id.member
      unfold Postings.erase
      simp only [if_pos hid, hholding, Option.bind_some]
      generalize holding.erase postings.arena id.group id.member = erased at herase
      cases erased with
      | none => exact absurd (hpayload.trans herase) habsent
      | some result =>
        obtain ⟨holding', arena'⟩ := result
        obtain ⟨hsound', hclean', entry, hchange⟩ := herase
        -- The term stays, even if it has lost its last document.
        have hmem : term ∈ ledger.terms := by
          rw [← h.terms, hholding]
          rfl
        have hbefore (number member : UInt16) :
            (postings.holdings[term]?.bind fun held : Holding =>
              payloadAt held.groups number member) = payloadAt holding.groups number member := by
          rw [hholding]
          rfl
        have hkept := h.keep hclean' hsound' (zero_change hchange hid (h.zero term holding hholding))
          (h.put_eq hid hchange hbefore)
        rw [Finset.insert_eq_of_mem hmem] at hkept
        exact hkept

/-- Without terms, postings are in step with the empty ledger. -/
theorem tracks_none {arena : Arena} (hclean : arena.Clean) : Tracks ⟨∅, arena⟩ .empty :=
  ⟨hclean, by simp, by simp, by simp [Ledger.empty], rfl, by simp [Ledger.empty]⟩

/-- New postings are in step with the empty ledger. -/
theorem empty_tracks : empty.Tracks .empty := tracks_none Arena.new_clean

/-- Clearing keeps the ledger in step. -/
theorem Tracks.clear (h : postings.Tracks ledger) : postings.clear.Tracks .empty := by
  have hclean (holdings : List Holding) {arena : Arena} (hclean : arena.Clean) :
      (holdings.foldl (fun arena holding => holding.release arena) arena).Clean := by
    induction holdings generalizing arena with
    | nil => exact hclean
    | cons holding rest ih => exact ih (Holding.release_clean hclean holding)
  exact tracks_none (hclean _ h.clean)

/-- **An accepted change keeps the postings and the ledger in step.** -/
theorem Tracks.accept (h : postings.Tracks ledger) {change : Change} {changed : Postings}
    (hattempt : postings.attempt change = .ok changed) :
    changed.Tracks (ledger.apply change) := by
  cases change with
  | insert term id payload => exact h.insert hattempt
  | insertPositions term id positions => exact h.insert hattempt
  | erase term id =>
    cases hattempt
    exact h.erase term id
  | clear =>
    cases hattempt
    exact h.clear

/-- The ledger does not follow a refused change either, unless it needs too large a block. -/
theorem ledger_refused {change : Change} {fault : Fault}
    (hattempt : postings.attempt change = .error fault) (hfits : ¬ postings.exceeds change) :
    ledger.apply change = ledger := by
  have hinsert {term : String} {id : DocId} {payload : Bytes}
      (hrefused : postings.insert term id payload = .error fault) :
      ledger.insert term id payload = ledger := by
    rcases insert_eq_error hrefused with hid | ⟨size, rfl⟩
    · rw [Ledger.insert, if_neg hid]
    · simp only [exceeds, hattempt, not_true_eq_false] at hfits
  cases change with
  | insert term id payload => exact hinsert hattempt
  | insertPositions term id positions => exact hinsert hattempt
  | erase term id => cases hattempt
  | clear => cases hattempt

/-- **One change keeps the postings and the ledger in step**, accepted or not. -/
theorem Tracks.apply (h : postings.Tracks ledger) {change : Change}
    (hfits : ¬ postings.exceeds change) :
    (postings.apply change).Tracks (ledger.apply change) := by
  unfold Postings.apply
  cases hattempt : postings.attempt change with
  | ok changed => exact h.accept hattempt
  | error fault =>
    rw [ledger_refused hattempt hfits]
    exact h

/-! ## Modest payloads -/

/-- What a walk over a term lands on is in the ledger. -/
theorem Tracks.landing (h : postings.Tracks ledger) {term : String} {holding : Holding}
    (hholding : postings.holdings[term]? = some holding) {landing : Landing} :
    landing ∈ landingsOf holding.groups
      ↔ landing.id.Valid ∧ ledger.payload? term landing.id = some landing.payload := by
  have hsound := h.sound term holding hholding
  rw [mem_landingsOf hsound.ascending hsound.groups]
  constructor
  · rintro ⟨hlargest, hpayload⟩
    have hid : landing.id.Valid := by
      refine ⟨?_, hlargest⟩
      intro hzero
      rw [hzero] at hpayload
      have hnone : payloadAt holding.groups (DocId.group 0) (DocId.member 0) = none :=
        h.zero term holding hholding
      rw [hnone] at hpayload
      cases hpayload
    exact ⟨hid, (h.isSome_payload hid hholding).symm.trans hpayload⟩
  · rintro ⟨hid, hpayload⟩
    exact ⟨hid.2, (h.isSome_payload hid hholding).trans hpayload⟩

/-- A modest payload is accepted where all payloads are modest. -/
theorem Tracks.insert_modest (h : postings.Tracks ledger) (hledger : ledger.AllModest)
    {term : String} {id : DocId} (hid : id.Valid) {payload : Bytes} (hmodest : Modest payload) :
    ∃ changed, postings.insert term id payload = .ok changed := by
  have hlength : payload.length ≤ 40000 := hmodest
  have hfits : Entry.Fits ⟨id.member, payload⟩ := by
    constructor
    · exact DocId.member_lt id
    · show payload.length < 2 ^ 32
      omega
  have hheld : ∀ landing ∈ landingsOf ((postings.holdings[term]?).getD {}).groups,
      Modest landing.payload := by
    intro landing hlanding
    cases hholding : postings.holdings[term]? with
    | none =>
      rw [hholding] at hlanding
      cases hlanding
    | some holding =>
      rw [hholding] at hlanding
      exact hledger term landing.id _ ((h.landing hholding).1 hlanding).2
  have hclass : ∃ c, postings.arena.blockClass term (Entry.encodedSize payload.length) = .ok c :=
    Arena.blockClass_modest h.clean (Entry.encodedSize_le_modestSize hmodest)
  have hinsert : ∃ result, ((postings.holdings[term]?).getD {}).insert postings.arena term id.group
      ⟨id.member, payload⟩ = .ok result :=
    Holding.insert_modest h.clean (h.sound_getD term).1 hfits hmodest hheld
  obtain ⟨c, hclass⟩ := hclass
  obtain ⟨⟨holding, arena⟩, hinsert⟩ := hinsert
  unfold Postings.insert
  simp only [DocId.check, if_pos hid, Arena.checkPayload, hclass, bind, Except.bind, Except.map]
  rw [hinsert]
  exact ⟨_, rfl⟩

/-- A change that brings along no payload or a modest one is not refused for want of a block. -/
theorem Tracks.not_exceeds (h : postings.Tracks ledger) (hledger : ledger.AllModest)
    {change : Change} (hchange : ∀ payload ∈ change.payload?, Modest payload) :
    ¬ postings.exceeds change := by
  have hinsert {term : String} {id : DocId} {payload : Bytes}
      (hattempt : postings.attempt change = postings.insert term id payload)
      (hmodest : Modest payload) : ¬ postings.exceeds change := by
    unfold exceeds
    rw [hattempt]
    by_cases hid : id.Valid
    · obtain ⟨changed, hchanged⟩ := h.insert_modest hledger hid hmodest
      rw [hchanged]
      simp
    · rw [insert_invalid hid]
      simp
  cases change with
  | insert term id payload => exact hinsert rfl (hchange payload rfl)
  | insertPositions term id positions => exact hinsert rfl (hchange _ rfl)
  | erase term id => simp [exceeds, attempt]
  | clear => simp [exceeds, attempt]

/-- **A run of changes fits if the payloads are modest.** -/
theorem Tracks.fits {changes : List Change} (h : postings.Tracks ledger)
    (hledger : ledger.AllModest)
    (hchanges : ∀ change ∈ changes, ∀ payload ∈ change.payload?, Modest payload) :
    postings.Fits changes := by
  induction changes generalizing postings ledger with
  | nil => trivial
  | cons change rest ih =>
    obtain ⟨hchange, hrest⟩ := List.forall_mem_cons.1 hchanges
    have hfits := h.not_exceeds hledger hchange
    exact ⟨hfits, ih (h.apply hfits) (hledger.apply hchange) hrest⟩

/-- A run of changes keeps the postings and the ledger in step. -/
theorem Tracks.run {changes : List Change} (h : postings.Tracks ledger)
    (hfits : postings.Fits changes) {done : List Change} (hdone : done <+: changes) :
    (done.foldl Postings.apply postings).Tracks (done.foldl Ledger.apply ledger) := by
  induction changes generalizing postings ledger done with
  | nil =>
    rw [List.prefix_nil.1 hdone]
    exact h
  | cons change rest ih =>
    rcases List.prefix_cons_iff.1 hdone with rfl | ⟨done', rfl, hdone'⟩
    · exact h
    · exact ih (h.apply hfits.1) hfits.2 hdone'

/-- After any change, a refused one included, the postings are in step with some ledger, and with one
    of payloads that have a property if those before and the one of the change have it. -/
theorem Tracks.exists_apply_all {P : Bytes → Prop} (h : postings.Tracks ledger) (hall : ledger.All P)
    {change : Change} (hchange : ∀ payload ∈ change.payload?, P payload) :
    ∃ ledger', (postings.apply change).Tracks ledger' ∧ ledger'.All P := by
  unfold Postings.apply
  cases hattempt : postings.attempt change with
  | ok changed => exact ⟨_, h.accept hattempt, hall.apply hchange⟩
  | error fault => exact ⟨ledger, h, hall⟩

theorem Tracks.exists_apply (h : postings.Tracks ledger) (change : Change) :
    ∃ ledger', (postings.apply change).Tracks ledger' := by
  obtain ⟨ledger', htracks, -⟩ :=
    h.exists_apply_all (P := fun _ => True) (fun _ _ _ _ => trivial) fun _ _ => trivial
  exact ⟨ledger', htracks⟩

/-- After any run of changes, refused ones included, the postings are in step with some ledger, and all
    its payloads have a property if those of the changes have it. -/
theorem exists_tracks_run_all {P : Bytes → Prop} {changes : List Change}
    (hchanges : ∀ change ∈ changes, ∀ payload ∈ change.payload?, P payload) :
    ∃ ledger, (run changes).Tracks ledger ∧ ledger.All P := by
  have hrun (postings : Postings) (ledger : Ledger) (h : postings.Tracks ledger)
      (hall : ledger.All P) :
      ∃ ledger', (changes.foldl Postings.apply postings).Tracks ledger' ∧ ledger'.All P := by
    induction changes generalizing postings ledger with
    | nil => exact ⟨ledger, h, hall⟩
    | cons change rest ih =>
      obtain ⟨hchange, hrest⟩ := List.forall_mem_cons.1 hchanges
      obtain ⟨ledger', h', hall'⟩ := h.exists_apply_all hall hchange
      exact ih hrest (postings.apply change) ledger' h' hall'
  exact hrun empty .empty empty_tracks Ledger.empty_all

theorem exists_tracks_run (changes : List Change) : ∃ ledger, (run changes).Tracks ledger := by
  obtain ⟨ledger, htracks, -⟩ : ∃ ledger, (run changes).Tracks ledger ∧ ledger.All fun _ => True :=
    exists_tracks_run_all fun _ _ _ _ => trivial
  exact ⟨ledger, htracks⟩

/-- **A payload that is found was brought along by a change.** -/
theorem exists_change_of_find? {changes : List Change} {term : String} {id : DocId} {payload : Bytes}
    (h : (run changes).find? term id = some payload) :
    ∃ change ∈ changes, payload ∈ change.payload? := by
  obtain ⟨ledger, htracks, hall⟩ :=
    exists_tracks_run_all (P := fun payload => ∃ change ∈ changes, payload ∈ change.payload?)
      fun change hchange payload hpayload => ⟨change, hchange, hpayload⟩
  rw [htracks.find?_eq] at h
  exact hall term id payload h

/-- With modest payloads, it is the ledger after the same changes. -/
theorem tracks_run_of_modest {changes : List Change}
    (hmodest : ∀ change ∈ changes, ∀ payload ∈ change.payload?, Modest payload) {done : List Change}
    (hdone : done <+: changes) : (Postings.run done).Tracks (Ledger.run done) :=
  empty_tracks.run (empty_tracks.fits Ledger.empty_allModest hmodest) hdone

/-- **Postings refine a map**: after every part of a run of changes from new postings, all answers
    are those of the ledger after the same changes. -/
theorem run_agrees {changes : List Change} (hfits : empty.Fits changes) {done : List Change}
    (hdone : done <+: changes) : (Postings.run done).Agrees (Ledger.run done) :=
  (empty_tracks.run hfits hdone).agrees

theorem run_agrees_after_erase :
    let changes : List Change := [.insert "oak" 5 [1, 2], .insertPositions "oak" 6 [300, 1],
      .insert "oak" 5 [7], .insert "elm" 0 [8], .erase "oak" 6, .clear, .insert "oak" 70000 []]
    empty.Fits changes ∧ (Postings.run (changes.take 5)).Agrees (Ledger.run (changes.take 5)) := by
  intro changes
  have hsmall : ∀ p ∈ ([300, 1] : List Position), p ≤ largestPosition := by
    simp [largestPosition]
  have hpair : (Window.encode [300, 1]).length ≤ modestLength := Modest.encode hsmall
  have hmodest : ∀ change ∈ changes, ∀ payload ∈ change.payload?, Modest payload := by
    simp [changes, Change.payload?, Modest, hpair]
    simp [modestLength]
  have hfits : empty.Fits changes := empty_tracks.fits Ledger.empty_allModest hmodest
  exact ⟨hfits, run_agrees hfits (List.take_prefix 5 changes)⟩

end Postings
end InvertedIndex
