import InvertedIndex.Proofs.Postings.Holding

/-!
# `Proofs.Postings.Revision` — what a change of a term asks of the arena

An insertion or an erasure changes one group of a term. What it asks of the arena can be read off
the term before and after: a block for the group as it is now, in exchange for the one that it had,
and an array of another class where the array moved. This file says so once for both changes,
together with the sizes that the blocks, the array and the accounts of the term have afterwards;
what holds of the accounts and of the pools follows from that alone.

## Contents
- `Arena.newBody_revision`, `Arena.put_revision`, `Arena.remove_revision`: changes of a body;
- `Holding.Fitted`: blocks and array of the smallest classes, and the bytes counted;
- `Holding.Revises`: one group changed; `Holding.insert_revises`, `Holding.erase_revises`.
-/

namespace InvertedIndex

open ArenaStep

/-! ## Bodies -/

namespace GroupBody

/-- A block is of the smallest class with room for its bytes. -/
def Snug (body : GroupBody) : Prop :=
  ∀ c bytes, body = .block c bytes → SizeClass.Snug blockUnit bytes.length c

theorem snug_inline (entry : Entry) : (GroupBody.inline entry).Snug := by
  rintro c bytes ⟨⟩

theorem snug_block {c : SizeClass} {bytes : Bytes} (h : SizeClass.Snug blockUnit bytes.length c) :
    (GroupBody.block c bytes).Snug := by
  rintro _ _ ⟨⟩
  exact h

end GroupBody

namespace Arena

variable {arena : Arena}

/-- A new body asks for at most one block. -/
theorem newBody_revision (hclean : arena.Clean) {term : String} {entry : Entry} {body : GroupBody}
    {arena' : Arena} (h : arena.newBody term entry = .ok (body, arena')) :
    body.Snug ∧ arena' = arena.steps (swapBlock none body.blockClass?) := by
  cases newBody_cases hclean h with
  | short hshort => exact ⟨GroupBody.snug_inline entry, rfl⟩
  | long hlong hclass => exact ⟨GroupBody.snug_block (hclean.blockClass_snug hclass), rfl⟩

/-- Putting an entry exchanges the block of the body for one of the smallest class. -/
theorem put_revision (hclean : arena.Clean) {term : String} {body : GroupBody} (hbody : body.Sound)
    {entry : Entry} {body' : GroupBody} {added : Bool} {arena' : Arena}
    (h : arena.put term body entry = .ok (body', added, arena')) :
    body'.Snug ∧ arena' = arena.steps (swapBlock body.blockClass? body'.blockClass?) := by
  cases put_cases hclean hbody h with
  | anew hinline hmember hnew =>
    subst hinline
    exact newBody_revision hclean hnew
  | block hfound hreplaces hclass =>
    exact ⟨GroupBody.snug_block (hclean.blockClass_snug hclass), rfl⟩

/-- What removing a member asks of the arena. -/
def Remainder.Revises (arena : Arena) (body : GroupBody) : Remainder → Prop
  | .absent => True
  | .emptied body' => body' = body
  | .kept body' arena' =>
    body'.Snug ∧ arena' = arena.steps (swapBlock body.blockClass? body'.blockClass?)

/-- Removing a member exchanges the block of the body for one of the smallest class, or for none. -/
theorem remove_revision (hclean : arena.Clean) {body : GroupBody} (hbody : body.Sound)
    (hsnug : body.Snug) (member : UInt16) : (arena.remove body member).Revises arena body := by
  have hdrops := remove_cases hclean hbody member
  generalize arena.remove body member = remainder at hdrops
  cases hdrops with
  | absent hlookup => trivial
  | emptied hreplaces => exact rfl
  | alone hreplaces hshort => exact ⟨GroupBody.snug_inline _, rfl⟩
  | block hblock hreplaces hne hlong =>
    subst hblock
    have hroom := (hsnug _ _ rfl).1
    -- Without the member there are no more bytes than before, so the old class has room for them.
    have hfewer := hreplaces.sum_map_le fun entry => Entry.encodedSize entry.payload.length
    rw [← Entry.encodeAll_length, ← Entry.encodeAll_length, ← hbody.block_eq] at hfewer
    refine ⟨GroupBody.snug_block ?_, rfl⟩
    rw [← hclean.unit] at hroom ⊢
    exact Pool.reduce_snug hclean.unit_pos (hfewer.trans hroom)

end Arena

/-! ## Terms -/

/-- A group accounts for the bytes of its entries, whichever form its body has. -/
theorem Group.encodedSize_eq {group : Group} (h : group.body.Sound) : group.encodedSize
    = (group.body.entries.map fun entry => Entry.encodedSize entry.payload.length).sum := by
  obtain ⟨number, body⟩ := group
  cases body with
  | inline entry => simp [encodedSize, GroupBody.entries]
  | block c bytes =>
    exact (congrArg List.length h.block_eq).trans (Entry.encodeAll_length _)

namespace Holding

variable {arena : Arena}

/-- The blocks and the array of a term are of the smallest classes, and its bytes are counted. -/
structure Fitted (holding : Holding) : Prop where
  blocks : ∀ group ∈ holding.groups, group.body.Snug
  array : SizeClass.Snug 1 holding.groups.length holding.arrayClass
  bytes : holding.bytes = (holding.groups.map Group.encodedSize).sum

theorem empty_fitted : ({} : Holding).Fitted := ⟨by simp, SizeClass.snug_zero 1, rfl⟩

/-- A grown array is of the smallest class with room. -/
theorem grow_revision (hclean : arena.Clean) (hscaled : arena.Scaled) {c c' : SizeClass}
    {groups groups' : List Group} {arena' : Arena} (h : grow arena c groups = (groups', c', arena'))
    {count : Nat} (hsnug : SizeClass.Snug 1 count c) (hmore : count ≤ groups.length)
    (hfew : groups.length ≤ 32768) :
    arena' = arena.steps (swapArray c c') ∧ SizeClass.Snug 1 groups.length c' := by
  rw [grow_eq hclean hscaled] at h
  cases h
  refine ⟨rfl, ?_⟩
  rw [← hscaled.arrays] at hsnug ⊢
  -- The largest class has room for every group number.
  have hlarge : groups.length ≤ (42 : SizeClass).units * arena.arrays.unit := by
    rw [hscaled.arrays]
    exact hfew.trans (by decide)
  exact Pool.extend_snug (hscaled.arrays ▸ Nat.one_pos) hsnug hmore hlarge

/-- Below a group number, `new` stands where `old` stood; the arena was asked for their exchange and
    for that of the array, and the term is fitted again. -/
structure Revises (number : UInt16) (old new : Option Group) (holding holding' : Holding)
    (arena arena' : Arena) : Prop where
  groups : Replaces Group.number number old new holding.groups holding'.groups
  arena : arena' = arena.steps (swapBlock (old.bind Group.blockClass?) (new.bind Group.blockClass?)
    ++ swapArray holding.arrayClass holding'.arrayClass)
  fitted : holding'.Fitted

variable {holding holding' : Holding} {number : UInt16}

/-- A term is fitted again after one of its groups was replaced, if the group and the array are and
    the bytes follow. -/
theorem Fitted.replace (h : holding.Fitted) {old new : Option Group}
    (hgroups : Replaces Group.number number old new holding.groups holding'.groups)
    (hnew : ∀ group ∈ new, group.body.Snug)
    (harray : SizeClass.Snug 1 holding'.groups.length holding'.arrayClass)
    (hbytes : holding'.bytes = holding.bytes + (new.toList.map Group.encodedSize).sum
      - (old.toList.map Group.encodedSize).sum) : holding'.Fitted := by
  refine ⟨?_, harray, ?_⟩
  · intro group hgroup
    rcases hgroups.mem hgroup with hchanged | hkept
    · exact hnew group hchanged
    · exact h.blocks group hkept
  · have hsum := hgroups.sum_map Group.encodedSize
    have hbefore := h.bytes
    omega

/-- One group in place of another leaves the array as it is. -/
theorem Fitted.replace_same (h : holding.Fitted) {old new : Group}
    (hgroups : Replaces Group.number number (some old) (some new) holding.groups holding'.groups)
    (hnew : new.body.Snug) (harray : holding'.arrayClass = holding.arrayClass)
    (hbytes : holding'.bytes = holding.bytes + new.encodedSize - old.encodedSize) :
    holding'.Fitted := by
  have hlength : holding'.groups.length = holding.groups.length :=
    Nat.add_right_cancel hgroups.length
  refine h.replace hgroups ?_ ?_ ?_
  · rintro group ⟨⟩
    exact hnew
  · rw [hlength, harray]
    exact h.array
  · simpa using hbytes

/-- The groups of a sound term are not too many for an array. -/
theorem Sound.length_le (h : holding.Sound) : holding.groups.length ≤ 32768 :=
  h.ascending.length_le fun group hgroup => (h.groups group hgroup).number

/-- **What inserting an id asks of the arena.** -/
theorem insert_revises (hclean : arena.Clean) (hscaled : arena.Scaled) (h : holding.Sound)
    (hfitted : holding.Fitted) {term : String} (hnumber : number.toNat < 32768) {entry : Entry}
    (hfits : entry.Fits) {arena' : Arena}
    (hinsert : holding.insert arena term number entry = .ok (holding', arena')) :
    ∃ old body, Revises number old (some ⟨number, body⟩) holding holding' arena arena' ∧
      holding'.maxBytes = max holding.maxBytes (Group.encodedSize ⟨number, body⟩) := by
  have hsound' := (insert_spec hclean h hnumber hfits hinsert).1
  cases insert_cases hclean h hinsert with
  | group hnew hgroups hgrow =>
    -- A block for the new group, and a larger array if it was full.
    obtain ⟨hsnug, harena⟩ := Arena.newBody_revision hclean hnew
    have hclean₁ := Arena.newBody_clean hclean hnew
    have hlength := hgroups.length
    simp only [Option.toList_none, List.length_nil, Option.toList_some, List.length_singleton]
      at hlength
    obtain ⟨harena', harray⟩ := grow_revision hclean₁ (harena ▸ hscaled.steps _) hgrow
      hfitted.array (by omega) hsound'.length_le
    refine ⟨none, _, ⟨hgroups, ?_, hfitted.replace hgroups ?_ harray ?_⟩, rfl⟩
    · rw [Arena.steps_append]
      exact harena'.trans (congrArg (Arena.steps · _) harena)
    · rintro group ⟨⟩
      exact hsnug
    · simp
  | member hput hgroups =>
    -- The block of the group in exchange for one that suits it now.
    have hheld := h.groups _ (lookup_mem hgroups.lookup_old)
    obtain ⟨hsnug, harena⟩ := Arena.put_revision hclean hheld.body hput
    refine ⟨some _, _, ⟨hgroups, ?_, hfitted.replace_same hgroups hsnug rfl rfl⟩, rfl⟩
    rw [swapArray_self, List.append_nil]
    exact harena

/-- **What erasing an id asks of the arena.** The group does not become larger. -/
theorem erase_revises (hclean : arena.Clean) (hscaled : arena.Scaled) (h : holding.Sound)
    (hfitted : holding.Fitted) {member : UInt16} {arena' : Arena}
    (herase : holding.erase arena number member = some (holding', arena')) :
    ∃ held new, Revises number (some held) new holding holding' arena arena' ∧
      holding'.maxBytes = holding.maxBytes ∧
      ∀ group ∈ new, group.encodedSize ≤ held.encodedSize := by
  have hcases := erase_cases hclean h number member
  rw [herase] at hcases
  cases hcases with
  | group hremove hgroups harray =>
    -- The block goes back, and the array may shrink.
    have hlength := hgroups.length
    simp only [Option.toList_some, List.length_singleton, Option.toList_none, List.length_nil]
      at hlength
    have hroom := le_trans (Nat.le_of_succ_le hlength.le) hfitted.array.1
    refine ⟨_, none, ⟨hgroups, rfl, hfitted.replace hgroups nofun ?_ ?_⟩, rfl, nofun⟩
    · subst harray
      rw [← hscaled.arrays] at hroom ⊢
      exact Pool.reduce_snug (hscaled.arrays ▸ Nat.one_pos) hroom
    · simp
  | member hremove hgroups =>
    have hheld := h.groups _ (lookup_mem hgroups.lookup_old)
    have hspec := Arena.remove_spec hclean hheld.body member
    have hrevision := Arena.remove_revision hclean hheld.body
      (hfitted.blocks _ (lookup_mem hgroups.lookup_old)) member
    rw [hremove] at hspec hrevision
    obtain ⟨⟨entry, hentries⟩, hbody, -⟩ := hspec
    obtain ⟨hsnug, harena⟩ := hrevision
    refine ⟨_, some _, ⟨hgroups, ?_, hfitted.replace_same hgroups hsnug rfl rfl⟩, rfl, ?_⟩
    · rw [swapArray_self, List.append_nil]
      exact harena
    · -- The entries are those of before without one.
      rintro group ⟨⟩
      rw [Group.encodedSize_eq hheld.body, Group.encodedSize_eq hbody]
      exact hentries.sum_map_le _

end Holding
end InvertedIndex
