import InvertedIndex.Proofs.Snapshot.Lookup

/-!
# `Proofs.Snapshot.Verified` — draining verified snapshots

The check of the data and the cursors read the same bytes, each with tests of its own. The check
compares each number with the one before, and so passes whatever comes first; a cursor compares each
id with the one it stands on, and that is `0` before its first move. For data that passed the check
this is the only difference: unless the first id is `0`, a cursor reads every posting, finds nothing
wrong and leaves nothing over. If it is `0`, the cursor ends there, with a warning and no posting.

## Contents
- `Snapshot.open?_eq_ok`: what is known of a snapshot that was opened;
- `Tail.Holds`: what is left to read, taken apart along the groups and entries;
- `TermCursor.drain`, `drain_walk`; `drain_spec`, `drain_refuses`: draining a cursor;
- `PlacedImage.Drains`, `PlacedImage.Stops`: what the terms of a verified snapshot come to.
-/

namespace InvertedIndex

open Checked TermData

/-! ## What opening establishes -/

theorem Snapshot.refuse_eq_ok {fault : Option Corruption} {done : Unit}
    (h : Snapshot.refuse fault = .ok done) : fault = none := by
  cases fault with
  | none => rfl
  | some corruption => cases h

/-- The terms of a snapshot that was opened ascend, and when verified the data of each has passed
    the check. -/
theorem Snapshot.open?_eq_ok {base : String} {settings : OpenSettings} {files : SnapshotFiles}
    {snapshot : Snapshot} (h : Snapshot.open? base settings files = .ok snapshot) :
    snapshot.Ordered ∧
      (settings.verify → ∀ slot ∈ snapshot.slots, TermData.flaw? slot.data = none) := by
  unfold Snapshot.open? at h
  split at h
  next hread =>
    cases h
    rw [Snapshot.read_eq] at hread
    obtain ⟨regions, -, hcheck⟩ := bind_eq_ok.1 hread
    unfold Regions.check at hcheck
    dsimp only at hcheck
    split at hcheck
    · cases hcheck
    obtain ⟨-, -, hcheck⟩ := bind_eq_ok.1 hcheck
    obtain ⟨slots, hslots, hcheck⟩ := bind_eq_ok.1 hcheck
    have hordered := (readSlots_ascending hslots).1
    split at hcheck
    · obtain ⟨_, hrefuse, hcheck⟩ := bind_eq_ok.1 hcheck
      cases hcheck
      refine ⟨hordered, fun _ slot hslot => ?_⟩
      exact postingsFault?_eq_none_iff.1 (Snapshot.refuse_eq_ok hrefuse) slot
        (List.mem_toArray.1 hslot)
    next hverify =>
      cases hcheck
      exact ⟨hordered, fun h => absurd h hverify⟩
  · cases h

/-- A snapshot that was opened lies in place within its files. -/
theorem exists_image {files : SnapshotFiles} (hfiles : files.Small) {base : String}
    {settings : OpenSettings} {snapshot : Snapshot}
    (hopen : Snapshot.open? base settings files = .ok snapshot) :
    ∃ image, openAt base settings files = .ok (.ok image) ∧ image.snapshot = snapshot ∧
      image.Inside := by
  obtain ⟨result, hopened, hsnapshot, hinside⟩ := openAt_spec hfiles base settings
  rw [hopen] at hsnapshot
  obtain ⟨image, rfl, himage⟩ := map_eq_ok.1 hsnapshot.symm
  exact ⟨image, hopened, himage, hinside image rfl⟩

/-! ## What is left to read -/

namespace Tail

/-- The postings that are left. -/
def Holds (tail : Tail) (landings : List SnapshotLanding) : Prop :=
  ∃ entries groups, HoldsEntries tail.body entries ∧ HoldsGroups tail.rest groups ∧
    landings = entries.map (EncodedEntry.landing tail.number) ++ EncodedGroup.landingsAll groups

variable {tail : Tail} {landings : List SnapshotLanding}

/-- If there is no group behind the body, nothing is left. -/
theorem Holds.stuck (h : tail.Holds landings) (hbody : tail.body = [])
    (hgroup : decodeGroup? tail.rest = none) : landings = [] ∧ tail.rest = [] := by
  obtain ⟨number, body, rest⟩ := tail
  obtain ⟨entries, groups, hentries, hgroups, rfl⟩ := h
  subst hbody
  cases hentries with
  | cons hentry => cases hentry
  | nil =>
    cases hgroups with
    | nil => exact ⟨rfl, rfl⟩
    | cons hread =>
      rw [hgroup] at hread
      cases hread

/-- Behind the body the next group is opened. -/
theorem Holds.next (h : tail.Holds landings) (hbody : tail.body = []) {group : DecodedGroup}
    (hgroup : decodeGroup? tail.rest = some group) :
    Holds ⟨group.number, group.body, group.rest⟩ landings := by
  obtain ⟨number, body, rest⟩ := tail
  obtain ⟨entries, groups, hentries, hgroups, rfl⟩ := h
  subst hbody
  cases hentries with
  | cons hentry => cases hentry
  | nil =>
    cases hgroups with
    | nil => cases hgroup
    | cons hread hown hothers =>
      rw [hgroup] at hread
      cases hread
      exact ⟨_, _, hown, hothers, rfl⟩

/-- Of an opened group the next entry is read, unless its id is too low. -/
theorem Holds.takeMember? (h : tail.Holds landings) (hbody : tail.body ≠ []) (last : DocId) :
    ∃ first rest left, landings = first :: rest ∧ Holds left rest ∧
      tail.takeMember? last = if first.id ≤ last then none else some (first, left) := by
  obtain ⟨number, body, rest⟩ := tail
  obtain ⟨entries, groups, hentries, hgroups, rfl⟩ := h
  cases hentries with
  | nil => exact absurd rfl hbody
  | cons hentry hlist hothers =>
    refine ⟨_, _, ⟨number, _, rest⟩, rfl, ⟨_, _, hothers, hgroups, rfl⟩, ?_⟩
    simp only [Tail.takeMember?, hentry, hlist, idOf_eq (decodeMember?_member_lt hentry)]
    rfl

end Tail

/-! ## Draining -/

namespace TermCursor

/-- The postings that the moves to the next id land on, up to the first that returns `0`, and the
    cursor behind that. -/
def drain (cursor : TermCursor) : Checked (List SnapshotLanding × TermCursor) :=
  match _h : cursor.advance with
  | .error trap => .error trap
  | .ok (id, moved) =>
    if _hstop : id = 0 then return ([], moved)
    else do
      let (others, ended) ← drain moved
      return (⟨id, moved.value, moved.occurrences⟩ :: others, ended)
termination_by UInt32.size - cursor.current.toNat
decreasing_by
  obtain ⟨habove, hmoved⟩ := advance_lt _h _hstop
  exact DocId.above_lt (hmoved ▸ habove)

theorem drain_of_zero {cursor ended : TermCursor} (h : cursor.advance = .ok (0, ended)) :
    cursor.drain = .ok ([], ended) := by
  unfold drain
  split
  next hstep =>
    rw [h] at hstep
    cases hstep
  next hstep =>
    rw [h] at hstep
    cases hstep
    rfl

theorem drain_of_ne_zero {cursor moved ended : TermCursor} {id : DocId}
    {others : List SnapshotLanding} (h : cursor.advance = .ok (id, moved)) (hid : id ≠ 0)
    (hdrain : moved.drain = .ok (others, ended)) :
    cursor.drain = .ok (⟨id, moved.value, moved.occurrences⟩ :: others, ended) := by
  rw [drain]
  split
  next hstep =>
    rw [h] at hstep
    cases hstep
  next hstep =>
    rw [h] at hstep
    cases hstep
    rw [dif_neg hid, hdrain]
    rfl

/-- The cursor has read all of its data. -/
structure Spent (cursor : TermCursor) : Prop where
  entryAt : cursor.groupEnd ≤ cursor.entryAt
  nextGroup : cursor.data.length ≤ cursor.nextGroup

variable {cursor : TermCursor}

theorem moved_of_advance (h : cursor.Inside) {id : DocId} {moved : TermCursor}
    (hstep : cursor.advance = .ok (id, moved)) : Moved .next cursor id moved := by
  obtain ⟨id', moved', hmove, hmoved⟩ := move_spec h .next
  cases hstep.symm.trans hmove
  exact hmoved

/-- **Draining comes to an end**, whatever the data, and lands on what the walk lands on. -/
theorem drain_walk (h : cursor.Inside) : ∃ landings ended, cursor.drain = .ok (landings, ended) ∧
    (IdStream.drain cursor.walk).filterMap SnapshotWalk.landing = landings := by
  fun_induction drain cursor with
  | case1 cursor trap hstep =>
    obtain ⟨id, moved, hmove, -⟩ := move_spec h .next
    cases hstep.symm.trans hmove
  | case2 cursor moved hstep =>
    have hmoved := moved_of_advance h hstep
    have hwalk : IdStream.next cursor.walk = moved.walk := hmoved.walk.symm
    have hzero : moved.current = 0 := hmoved.returned.symm
    have hend : ¬ IdStream.current cursor.walk < IdStream.current moved.walk := by
      show ¬ cursor.walk.current < moved.walk.current
      rw [hmoved.inside.walk_current, hzero]
      exact UInt32.not_lt_zero
    have hlanding : moved.walk.landing = none := by
      rw [hmoved.inside.walk_landing, landing, if_pos hzero]
    refine ⟨[], moved, rfl, ?_⟩
    rw [IdStream.drain, hwalk, if_neg hend, List.filterMap_cons_none hlanding, List.filterMap_nil]
  | case3 cursor id moved hstep hgoes ih =>
    have hmoved := moved_of_advance h hstep
    have hwalk : IdStream.next cursor.walk = moved.walk := hmoved.walk.symm
    have hid : id = moved.current := hmoved.returned
    have habove : IdStream.current cursor.walk < IdStream.current moved.walk := by
      show cursor.walk.current < moved.walk.current
      rw [h.walk_current, hmoved.inside.walk_current, ← hid]
      exact (hmoved.rises hgoes).resolve_right fun hrests => Bool.false_ne_true hrests.1
    have hlanding : moved.walk.landing = some ⟨id, moved.value, moved.occurrences⟩ := by
      rw [hmoved.inside.walk_landing, landing, if_neg (hid ▸ hgoes), hid]
    obtain ⟨others, ended, hdrain, hothers⟩ := ih hmoved.inside
    refine ⟨_, ended, by rw [hdrain]; rfl, ?_⟩
    rw [IdStream.drain, hwalk, if_pos habove, List.filterMap_cons_some hlanding, hothers]

/-- With postings left, opening groups opens that of the first. With none, it finds the end of the
    data. -/
theorem openGroups_holds (h : cursor.Inside) {landings : List SnapshotLanding}
    (hleft : cursor.tail.Holds landings) :
    (∃ opened, cursor.openGroups = .ok (.ok opened) ∧ Ahead cursor opened ∧
        opened.entryAt < opened.groupEnd ∧ opened.tail.Holds landings) ∨
      landings = [] ∧ ∃ ended, cursor.openGroups = .ok (.error ended) ∧
        ended.warnings = cursor.warnings ∧ ended.Spent := by
  fun_induction openGroups cursor with
  | case1 cursor hempty hend =>
    have hrest : decodeGroup? cursor.tail.rest = none := by
      rw [tail, List.drop_eq_nil_of_le hend]
      rfl
    have hbody := List.isEmpty_iff.1 (h.body_isEmpty.2 hempty)
    exact .inr ⟨(hleft.stuck hbody hrest).1, _, rfl, rfl, hempty, hend⟩
  | case2 cursor hempty hlt trap hread =>
    exact absurd hread (decodeGroupAt_spec h.data h.nextGroup).ne_error
  | case3 cursor hempty hlt hread =>
    have hsuffix := (decodeGroupAt_spec h.data h.nextGroup).eq_none hread
    have hbody := List.isEmpty_iff.1 (h.body_isEmpty.2 hempty)
    exact absurd (List.drop_eq_nil_iff.1 (hleft.stuck hbody hsuffix).2) hlt
  | case4 cursor hempty hlt header hread ih =>
    obtain ⟨hsuffix, -, hbody, hstop⟩ := (decodeGroupAt_spec h.data h.nextGroup).eq_some hread
    have hentered := h.enter hbody hstop
    have hnext : (cursor.enter header).tail.Holds landings := by
      rw [tail_enter]
      exact hleft.next (List.isEmpty_iff.1 (h.body_isEmpty.2 hempty)) hsuffix
    rcases ih hentered.inside hnext with ⟨opened, hopened, hahead, hentry, hholds⟩ | hnone
    · exact .inl ⟨opened, hopened, hentered.trans hahead, hentry, hholds⟩
    · exact .inr hnone
  | case5 cursor hopen =>
    exact .inl ⟨cursor, rfl, h.refl, Nat.not_le.1 hopen, hleft⟩

/-- With nothing left, the next move finds the end of the data. -/
theorem advance_nil (h : cursor.Inside) (hdone : cursor.done = false)
    (hleft : cursor.tail.Holds []) : ∃ ended, cursor.advance = .ok (0, ended) ∧
      ended.warnings = cursor.warnings ∧ ended.Spent := by
  unfold advance
  rw [if_neg (by rw [hdone]; exact Bool.false_ne_true)]
  rcases openGroups_holds h hleft with
    ⟨opened, -, hahead, hentry, hholds⟩ | ⟨-, ended, hended, hwarnings, hspent⟩
  · obtain ⟨first, rest, -, hnil, -⟩ := hholds.takeMember? (hahead.inside.body_ne_nil hentry) 0
    cases hnil
  · rw [hended]
    exact ⟨ended, rfl, hwarnings, hspent⟩

variable {first : SnapshotLanding} {rest : List SnapshotLanding}

/-- With postings left, the next move lands on the first of them. If that does not lie above the id
    that the cursor stands on, the cursor ends with a warning. -/
theorem advance_cons (h : cursor.Inside) (hdone : cursor.done = false)
    (hleft : cursor.tail.Holds (first :: rest)) :
    (cursor.current < first.id ∧ ∃ landed, cursor.advance = .ok (first.id, landed) ∧
        Landed cursor landed first ∧ landed.tail.Holds rest) ∨
      first.id ≤ cursor.current ∧ ∃ ended place, cursor.advance = .ok (0, ended) ∧
        ended.warnings = cursor.warnings ++ [place] := by
  unfold advance
  rw [if_neg (by rw [hdone]; exact Bool.false_ne_true)]
  rcases openGroups_holds h hleft with ⟨opened, hopened, hahead, hentry, hholds⟩ | ⟨hnil, -⟩
  · obtain ⟨first', rest', left, hfirst, hrest, htake⟩ :=
      hholds.takeMember? (hahead.inside.body_ne_nil hentry) opened.current
    cases hfirst
    rw [hopened]
    simp only [bind, Except.bind, ← hahead.current]
    rcases readEntry_spec hahead.inside (hahead.done.trans hdone) hentry with
      ⟨landed, landing, hread, hlanded, htaken⟩ | ⟨hread, hnone⟩
    · rw [htake] at htaken
      split at htaken
      · cases htaken
      next habove =>
        obtain ⟨rfl, rfl⟩ := Prod.mk.inj (Option.some.inj htaken)
        rw [hread]
        refine .inl ⟨UInt32.not_le.1 habove, landed, ?_,
          hlanded.over hahead.data hahead.warnings, hrest⟩
        rw [hlanded.id]
        rfl
    · rw [htake] at hnone
      split at hnone
      next hlow =>
        rw [hread]
        refine .inr ⟨hlow, _, opened.entryAt, rfl, ?_⟩
        rw [← hahead.warnings]
        rfl
      · cases hnone
  · cases hnil

/-- **A cursor below all that is left reads it to the end**, and finds nothing wrong. -/
theorem drain_spec {landings : List SnapshotLanding} (h : cursor.Inside)
    (hdone : cursor.done = false) (hleft : cursor.tail.Holds landings)
    (hasc : landings.Pairwise fun a b => a.id < b.id)
    (hlast : ∀ landing ∈ landings, cursor.current < landing.id) :
    ∃ ended, cursor.drain = .ok (landings, ended) ∧ ended.warnings = cursor.warnings ∧
      ended.Spent := by
  induction landings generalizing cursor with
  | nil =>
    obtain ⟨ended, hstep, hwarnings, hspent⟩ := advance_nil h hdone hleft
    refine ⟨ended, ?_, hwarnings, hspent⟩
    rw [drain_of_zero hstep]
  | cons first rest ih =>
    obtain ⟨hfirst, hrest⟩ := List.forall_mem_cons.1 hlast
    obtain ⟨hbehind, hasc'⟩ := List.pairwise_cons.1 hasc
    rcases advance_cons h hdone hleft with ⟨-, landed, hstep, hlanded, hholds⟩ | ⟨hlow, -⟩
    · obtain ⟨ended, hdrain, hwarnings, hspent⟩ := ih hlanded.inside hlanded.done hholds hasc'
        fun landing hlanding => hlanded.id ▸ hbehind landing hlanding
      refine ⟨ended, ?_, hwarnings.trans hlanded.warnings, hspent⟩
      rw [drain_of_ne_zero hstep (hlanded.id ▸ hlanded.current) hdrain, hlanded.id, ← hlanded.eq]
    · exact absurd hfirst (UInt32.not_lt.2 hlow)

/-- A cursor that stands at or above the first posting left ends there, with a warning. -/
theorem drain_refuses (h : cursor.Inside) (hdone : cursor.done = false)
    (hleft : cursor.tail.Holds (first :: rest)) (hlow : first.id ≤ cursor.current) :
    ∃ ended place, cursor.drain = .ok ([], ended) ∧
      ended.warnings = cursor.warnings ++ [place] := by
  rcases advance_cons h hdone hleft with ⟨habove, -⟩ | ⟨-, ended, place, hstep, hwarnings⟩
  · exact absurd habove (UInt32.not_lt.2 hlow)
  · exact ⟨ended, place, drain_of_zero hstep, hwarnings⟩

/-- The data of a term is left to a cursor before its first move. -/
theorem start_holds {data : Bytes} {groups : List EncodedGroup} (h : HoldsGroups data groups) :
    (start data).tail.Holds (EncodedGroup.landingsAll groups) :=
  ⟨[], groups, .nil, h, rfl⟩

end TermCursor

/-! ## The terms of a snapshot -/

namespace PlacedImage

/-- Drained, the cursor over a term lands on the postings, finds nothing wrong and leaves nothing
    over. So does the walk. -/
structure Drains (image : PlacedImage) (term : String) (landings : List SnapshotLanding) :
    Prop where
  cursor : ∃ cursor ended, image.cursorAt term = .ok (some cursor) ∧
    cursor.drain = .ok (landings, ended) ∧ ended.warnings = [] ∧ ended.Spent
  walk : ∃ walk, image.snapshot.walk? term = some walk ∧
    (IdStream.drain walk).filterMap SnapshotWalk.landing = landings

/-- Drained, the cursor over a term ends with a warning and no posting. The walk ends as well. -/
structure Stops (image : PlacedImage) (term : String) : Prop where
  cursor : ∃ cursor ended place, image.cursorAt term = .ok (some cursor) ∧
    cursor.drain = .ok ([], ended) ∧ ended.warnings = [place]
  walk : ∃ walk, image.snapshot.walk? term = some walk ∧
    (IdStream.drain walk).filterMap SnapshotWalk.landing = []

theorem Stops.not_drains {image : PlacedImage} {term : String} {landings : List SnapshotLanding}
    (h : image.Stops term) : ¬ image.Drains term landings := by
  rintro ⟨⟨cursor, ended, hcursor, hdrain, hquiet, -⟩, -⟩
  obtain ⟨cursor', ended', place, hcursor', hdrain', hwarned⟩ := h.cursor
  cases hcursor.symm.trans hcursor'
  cases hdrain.symm.trans hdrain'
  rw [hquiet] at hwarned
  cases hwarned

variable {image : PlacedImage} {slot : Slot} {groups : List EncodedGroup}

/-- The cursor over a term of the image stands in front of its data. -/
theorem cursorAt_slot (h : image.Inside) (hordered : image.snapshot.Ordered)
    (hslot : slot ∈ image.snapshot.slots) :
    image.cursorAt slot.term = .ok (some (.start slot.data)) ∧
      image.snapshot.walk? slot.term = some (.ofData slot.data) ∧
      (TermCursor.start slot.data).Inside := by
  obtain ⟨placed?, hcursor, hfound⟩ := cursorAt_spec h slot.term
  have hslot? : image.snapshot.slot? slot.term = some slot :=
    (Snapshot.slot?_eq_some hordered).2 ⟨Array.mem_toList_iff.2 hslot, rfl⟩
  rw [hslot?] at hfound
  obtain ⟨placed, rfl, rfl⟩ := Option.map_eq_some_iff.1 hfound.symm
  refine ⟨hcursor, ?_, .start (h.small.termData.of placed.region)⟩
  rw [Snapshot.walk?, hslot?, Option.map_some]

theorem drains (h : image.Inside) (hordered : image.snapshot.Ordered)
    (hslot : slot ∈ image.snapshot.slots) (hgroups : HoldsGroups slot.data groups)
    (hasc : EncodedGroup.Ordered groups)
    (hpositive : ∀ landing ∈ EncodedGroup.landingsAll groups, landing.id ≠ 0) :
    image.Drains slot.term (EncodedGroup.landingsAll groups) := by
  obtain ⟨hcursor, hwalk, hinside⟩ := cursorAt_slot h hordered hslot
  obtain ⟨ended, hdrain, hquiet, hspent⟩ := TermCursor.drain_spec hinside rfl
    (TermCursor.start_holds hgroups) (hgroups.landingsAll_ascending hasc)
    fun landing hlanding => UInt32.pos_iff_ne_zero.2 (hpositive landing hlanding)
  refine ⟨⟨_, ended, hcursor, hdrain, hquiet, hspent⟩, _, hwalk, ?_⟩
  obtain ⟨landings, ended', hdrain', hlandings⟩ := TermCursor.drain_walk hinside
  cases hdrain.symm.trans hdrain'
  rw [← TermCursor.walk_start, hlandings]

/-- Ids ascend, so if one is `0` it is the first. -/
theorem stops (h : image.Inside) (hordered : image.snapshot.Ordered)
    (hslot : slot ∈ image.snapshot.slots) (hgroups : HoldsGroups slot.data groups)
    (hasc : EncodedGroup.Ordered groups)
    (hzero : ∃ landing ∈ EncodedGroup.landingsAll groups, landing.id = 0) :
    image.Stops slot.term := by
  obtain ⟨hcursor, hwalk, hinside⟩ := cursorAt_slot h hordered hslot
  have hasc := hgroups.landingsAll_ascending hasc
  have hholds := TermCursor.start_holds hgroups
  obtain ⟨landing, hlanding, hid⟩ := hzero
  obtain ⟨first, rest, hfirst⟩ := List.exists_cons_of_ne_nil (List.ne_nil_of_mem hlanding)
  rw [hfirst] at hasc hholds hlanding
  have hlow : first.id ≤ 0 := by
    rw [← hid]
    rcases List.mem_cons.1 hlanding with rfl | hlater
    · exact UInt32.le_refl _
    · exact UInt32.le_of_lt ((List.pairwise_cons.1 hasc).1 landing hlater)
  obtain ⟨ended, place, hdrain, hwarned⟩ := TermCursor.drain_refuses hinside rfl hholds hlow
  refine ⟨⟨_, ended, place, hcursor, hdrain, hwarned⟩, _, hwalk, ?_⟩
  obtain ⟨landings, ended', hdrain', hlandings⟩ := TermCursor.drain_walk hinside
  cases hdrain.symm.trans hdrain'
  rw [← TermCursor.walk_start, hlandings]

end PlacedImage

/-! ## Verified snapshots -/

/-- Files with one term, of the given data. -/
def soleFiles (data : Bytes) : SnapshotFiles := fun
  | .termIndex => some (termIndex regionHeader [⟨"t", data, 1, 1, 0⟩])
  | .termData => some (termData [⟨"t", data, 1, 1, 0⟩])
  | _ => some []

theorem soleFiles_small {data : Bytes} (hlength : data.length < 2 ^ 32) :
    (soleFiles data).Small := by
  intro file contents hcontents
  cases file with
  | globalIndex =>
    cases hcontents
    decide
  | globalData =>
    cases hcontents
    decide
  | termIndex =>
    cases hcontents
    show (textBytes "t" ++ 0 :: (Bytes.ofUInt64 4 ++ Bytes.ofUInt32 0 ++ [])).length < 2 ^ 63
    decide
  | termData =>
    cases hcontents
    show (region data ++ []).length < 2 ^ 63
    rw [List.append_nil, region_length, regionHeader]
    omega

theorem soleFiles_open {data : Bytes} (hlength : data.length < 2 ^ 32) (hflaw : flaw? data = none) :
    Snapshot.open? "sole" {} (soleFiles data) = .ok ⟨[], [], #[⟨"t", data, 0⟩]⟩ := by
  have hroom : (termData [⟨"t", data, 1, 1, 0⟩]).length < 2 ^ 64 := by
    show (region data ++ []).length < 2 ^ 64
    rw [List.append_nil, region_length, regionHeader]
    omega
  have hname : '\x00' ∉ "t".toList := by decide
  have hread : Snapshot.read {} (soleFiles data) = .ok ⟨[], [], #[⟨"t", data, 0⟩]⟩ :=
    Snapshot.read_eq_ok rfl rfl rfl rfl rfl (Snapshot.globalsFault?_nil _ _) hroom
      (List.forall_mem_singleton.2 ⟨hname, hlength⟩) (List.pairwise_singleton _ _)
      (List.forall_mem_singleton.2 hflaw) {}
  rw [Snapshot.open?, hread]

namespace Snapshot

/-- **Each term of a verified snapshot is read to its end**, posting by posting, in order and with
    nothing left over, unless its first id is `0`. The check passes that id, and the cursor does
    not. -/
theorem verified_drains {files : SnapshotFiles} (hfiles : files.Small) {base : String}
    {settings : OpenSettings} (hverify : settings.verify) {snapshot : Snapshot}
    (hopen : Snapshot.open? base settings files = .ok snapshot) :
    ∃ image, openAt base settings files = .ok (.ok image) ∧ image.snapshot = snapshot ∧
      ∀ slot ∈ snapshot.slots, ∃ groups, HoldsGroups slot.data groups ∧
        (EncodedGroup.landingsAll groups).Pairwise (fun a b => a.id < b.id) ∧
        ((∀ landing ∈ EncodedGroup.landingsAll groups, landing.id ≠ 0) →
          image.Drains slot.term (EncodedGroup.landingsAll groups)) ∧
        ((∃ landing ∈ EncodedGroup.landingsAll groups, landing.id = 0) →
          image.Stops slot.term) := by
  obtain ⟨hordered, hflaws⟩ := Snapshot.open?_eq_ok hopen
  obtain ⟨image, hopened, rfl, hinside⟩ := exists_image hfiles hopen
  refine ⟨image, hopened, rfl, fun slot hslot => ?_⟩
  obtain ⟨groups, hgroups, hasc⟩ := flaw?_eq_none_iff.1 (hflaws hverify slot hslot)
  exact ⟨groups, hgroups, hgroups.landingsAll_ascending hasc,
    PlacedImage.drains hinside hordered hslot hgroups hasc,
    PlacedImage.stops hinside hordered hslot hgroups hasc⟩

/-- Document 5, with the value 3. -/
theorem verified_drains_five : (soleFiles [0, 0, 2, 0x53, 0]).Small ∧
    ∃ image, openAt "sole" {} (soleFiles [0, 0, 2, 0x53, 0]) = .ok (.ok image) ∧
      image.Drains "t" [⟨5, 3, []⟩] := by
  have hfiles : (soleFiles [0, 0, 2, 0x53, 0]).Small := soleFiles_small (by decide)
  have hgroups : HoldsGroups [0, 0, 2, 0x53, 0] [⟨0, [⟨5, .value 3, []⟩]⟩] :=
    .cons rfl (.cons rfl rfl .nil) .nil
  have hasc : EncodedGroup.Ordered [⟨0, [⟨5, .value 3, []⟩]⟩] :=
    ⟨List.pairwise_singleton _ _, List.forall_mem_singleton.2 (List.pairwise_singleton _ _)⟩
  obtain ⟨image, hopen, hsnapshot, hterms⟩ := verified_drains hfiles rfl
    (soleFiles_open (by decide) (flaw?_eq_none_iff.2 ⟨_, hgroups, hasc⟩))
  obtain ⟨groups, hother, -, hdrains, -⟩ := hterms _ (Array.mem_singleton.2 rfl)
  obtain rfl := hother.unique hgroups
  exact ⟨hfiles, image, hopen, hdrains (by decide)⟩

/-- Documents 0 and 5, with the values 2 and 3: they pass the check, and cannot be read. -/
theorem verified_stops_zero : ∃ image groups,
    openAt "sole" {} (soleFiles [0, 0, 4, 0x02, 0, 0x53, 0]) = .ok (.ok image) ∧
      HoldsGroups [0, 0, 4, 0x02, 0, 0x53, 0] groups ∧
      EncodedGroup.landingsAll groups = [⟨0, 2, []⟩, ⟨5, 3, []⟩] ∧
      ¬ image.Drains "t" (EncodedGroup.landingsAll groups) := by
  have hgroups : HoldsGroups [0, 0, 4, 0x02, 0, 0x53, 0]
      [⟨0, [⟨0, .value 2, []⟩, ⟨5, .value 3, []⟩]⟩] :=
    .cons rfl (.cons rfl rfl (.cons rfl rfl .nil)) .nil
  have hasc : EncodedGroup.Ordered [⟨0, [⟨0, .value 2, []⟩, ⟨5, .value 3, []⟩]⟩] :=
    ⟨List.pairwise_singleton _ _, List.forall_mem_singleton.2 (List.pairwise_pair.2 (by decide))⟩
  have hopen := soleFiles_open (by decide) (flaw?_eq_none_iff.2 ⟨_, hgroups, hasc⟩)
  obtain ⟨hordered, -⟩ := Snapshot.open?_eq_ok hopen
  obtain ⟨image, hopened, himage, hinside⟩ := exists_image (soleFiles_small (by decide)) hopen
  rw [← himage] at hordered
  have hslot : ⟨"t", [0, 0, 4, 0x02, 0, 0x53, 0], 0⟩ ∈ image.snapshot.slots :=
    himage ▸ Array.mem_singleton.2 rfl
  have hstops := PlacedImage.stops hinside hordered hslot hgroups hasc
    ⟨_, List.mem_cons_self, rfl⟩
  exact ⟨image, _, hopened, hgroups, rfl, hstops.not_drains⟩

end Snapshot
end InvertedIndex
