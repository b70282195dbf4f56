import InvertedIndex.Postings.Walk
import InvertedIndex.Proofs.DocId
import InvertedIndex.Proofs.Postings.Group
import Mathlib.Data.Set.Card

/-!
# `Proofs.Postings.Holding` — all postings of a term as a map

The groups of a term, each with its entries, are a map from ids to payloads in two layers. Inserting
an id changes that map at the id alone, and so does erasing one; the count of ids follows. Growing
and shrinking the array of groups changes nothing.

## Contents
- `Holding.Sound`: groups ascend, are written properly, and their entries are counted;
- `GroupsChange`: one entry replaced, added or left out, below one group;
- `Holding.Inserts`, `Holding.Erases`: what becomes of a term that an id is inserted into, or erased
  from; `Holding.insert_cases`, `Holding.erase_cases`;
- `Holding.insert_spec`, `Holding.erase_spec`: the two changes as changes of the map;
- `landingsOf`, `mem_landingsOf`: the postings in order;
- `Holding.ncard_idSet`, `Holding.ncard_groups`: what the counts of a term count.
-/

namespace InvertedIndex

/-! ## Sound holdings -/

/-- A group whose number has 15 bits and whose entries are written properly. -/
structure Group.Sound (group : Group) : Prop where
  number : group.number.toNat < 32768
  body : group.body.Sound

/-- The groups of a term ascend, each is sound, and their entries are counted. -/
structure Holding.Sound (holding : Holding) : Prop where
  ascending : Ascending Group.number holding.groups
  groups : ∀ group ∈ holding.groups, group.Sound
  ids : holding.ids = (holding.groups.map fun group => group.body.entries.length).sum

/-- The class of the block that a group has. -/
def Group.blockClass? (group : Group) : Option SizeClass := group.body.blockClass?

/-- The entries of a group that may not be there. -/
def entriesOf : Option Group → List Entry
  | some group => group.body.entries
  | none => []

/-- Below the group with the number, at the member, the entry `put` stands in `groups'` where
    `found` stood in `groups`. -/
def GroupsChange (number member : UInt16) (found put : Option Entry) (groups groups' : List Group) :
    Prop :=
  ∃ old new, Replaces Group.number number old new groups groups' ∧
    Replaces Entry.member member found put (entriesOf old) (entriesOf new)

/-- The payload of a member below a group, in a list of groups. -/
def payloadAt (groups : List Group) (number member : UInt16) : Option Bytes :=
  (lookup Entry.member member (entriesOf (lookup Group.number number groups))).map Entry.payload

namespace GroupsChange

variable {number member : UInt16} {found put : Option Entry} {groups groups' : List Group}

theorem payloadAt_old (h : GroupsChange number member found put groups groups') :
    payloadAt groups number member = found.map Entry.payload := by
  obtain ⟨old, new, hgroups, hentries⟩ := h
  rw [payloadAt, hgroups.lookup_old, hentries.lookup_old]

/-- The change shows at the one member below the one group, and nowhere else. -/
theorem payloadAt_new (h : GroupsChange number member found put groups groups') (n m : UInt16) :
    payloadAt groups' n m
      = if n = number ∧ m = member then put.map Entry.payload else payloadAt groups n m := by
  obtain ⟨old, new, hgroups, hentries⟩ := h
  unfold payloadAt
  by_cases hn : n = number
  · subst hn
    rw [hgroups.lookup_old, hgroups.lookup_new]
    by_cases hm : m = member
    · subst hm
      rw [hentries.lookup_new, if_pos ⟨rfl, rfl⟩]
    · rw [hentries.lookup_other hm, if_neg fun h => hm h.2]
  · rw [hgroups.lookup_other hn, if_neg fun h => hn h.1]

/-- The number of entries changes by the one entry. -/
theorem count (h : GroupsChange number member found put groups groups') :
    (groups'.map fun group => group.body.entries.length).sum + found.toList.length
      = (groups.map fun group => group.body.entries.length).sum + put.toList.length := by
  obtain ⟨old, new, hgroups, hentries⟩ := h
  have hsum := hgroups.sum_map fun group => group.body.entries.length
  have hlength := hentries.length
  have hof (place : Option Group) : (place.toList.map fun group => group.body.entries.length).sum
      = (entriesOf place).length := by
    cases place <;> simp [entriesOf]
  rw [hof, hof] at hsum
  omega

end GroupsChange

namespace Holding

open ArenaStep

variable {holding : Holding} {arena : Arena}

theorem empty_sound : ({} : Holding).Sound :=
  ⟨List.Pairwise.nil, by simp, rfl⟩

/-- A look-up goes through the group to the member. -/
theorem find?_eq (h : holding.Sound) (number member : UInt16) :
    holding.find? number member = payloadAt holding.groups number member := by
  have hfound := (partsAt_partAt number h.ascending).lookup_self
  unfold find? payloadAt
  rw [hfound]
  cases hgroup : (partAt number holding.groups).found with
  | none => rfl
  | some group =>
    rw [hgroup] at hfound
    exact Group.find?_eq_lookup (h.groups group (lookup_mem hfound)).body member

/-! ## The array of groups -/

/-- An array that grows holds the same groups. -/
theorem grow_spec (hclean : arena.Clean) {c c' : SizeClass} {groups groups' : List Group}
    {arena' : Arena} (h : grow arena c groups = (groups', c', arena')) :
    groups' = groups ∧ arena'.Clean := by
  unfold grow at h
  split at h
  · cases h
    exact ⟨rfl, hclean⟩
  · split at h
    · cases h
      exact ⟨rfl, hclean⟩
    · cases h
      exact hclean.moveArray c _ groups

/-- It moves to the class for more groups. -/
theorem grow_eq (hclean : arena.Clean) (hscaled : arena.Scaled) (c : SizeClass)
    (groups : List Group) :
    grow arena c groups = (groups, arena.arrays.extend groups.length c,
      arena.steps (swapArray c (arena.arrays.extend groups.length c))) := by
  unfold grow Pool.extend
  split
  next hroom => simp
  next hfull =>
    cases hclass : arena.arrays.classFor? groups.length with
    | none => simp
    | some target =>
      have hunit : 0 < arena.arrays.unit := hscaled.arrays ▸ Nat.one_pos
      have hne : target ≠ c := by
        rintro rfl
        exact hfull (Pool.classFor?_snug hunit hclass).1
      simp only [Option.getD_some, hclean.moveArray_eq hne]

/-- An array that shrinks moves to the class for fewer groups. -/
theorem shrink_eq (hclean : arena.Clean) (c : SizeClass) (groups : List Group) :
    shrink arena c groups = (groups, arena.arrays.reduce groups.length c,
      arena.steps (swapArray c (arena.arrays.reduce groups.length c))) := by
  unfold shrink Pool.reduce
  cases arena.arrays.classFor? groups.length with
  | none => simp
  | some target =>
    by_cases hlt : target < c
    · simp only [if_pos hlt, hclean.moveArray_eq hlt.ne]
    · simp [if_neg hlt]

/-- The steps by which a term gives up all that it has. -/
def releaseSteps (holding : Holding) : List ArenaStep :=
  holding.groups.flatMap (fun group => swapBlock group.blockClass? none)
    ++ [.giveArray holding.arrayClass]

theorem release_steps (holding : Holding) (arena : Arena) :
    holding.release arena = arena.steps holding.releaseSteps := by
  have hfold : ∀ (groups : List Group) (arena : Arena),
      groups.foldl (fun arena group => arena.discard group.body) arena
        = arena.steps (groups.flatMap fun group => swapBlock group.blockClass? none) := by
    intro groups
    induction groups with
    | nil => exact fun arena => rfl
    | cons group rest ih =>
      intro arena
      rw [List.foldl_cons, List.flatMap_cons, Arena.steps_append, ih, Arena.discard_steps]
      rfl
  rw [release, hfold, releaseSteps, Arena.steps_append]
  rfl

/-- Giving up a term leaves parked buffers empty. -/
theorem release_clean (hclean : arena.Clean) (holding : Holding) :
    (holding.release arena).Clean := by
  rw [release_steps]
  exact hclean.steps _

/-! ## One entry changed -/

/-- A term stays sound when one entry below one of its groups changes, if the group that takes the
    place is sound and the count of ids follows. -/
theorem Sound.change (h : holding.Sound) {holding' : Holding} {number member : UInt16}
    {old new : Option Group} {found put : Option Entry}
    (hgroups : Replaces Group.number number old new holding.groups holding'.groups)
    (hentries : Replaces Entry.member member found put (entriesOf old) (entriesOf new))
    (hnew : ∀ group ∈ new, group.Sound)
    (hids : holding'.ids + found.toList.length = holding.ids + put.toList.length) :
    holding'.Sound := by
  have hchange : GroupsChange number member found put holding.groups holding'.groups :=
    ⟨old, new, hgroups, hentries⟩
  refine ⟨hgroups.ascending h.ascending, ?_, ?_⟩
  · intro group hgroup
    rcases hgroups.mem hgroup with hchanged | hkept
    · exact hnew group hchanged
    · exact h.groups group hkept
  · have hcount := hchange.count
    have hbefore := h.ids
    omega

/-- A term that loses an entry has an id. -/
theorem Sound.ids_pos (h : holding.Sound) {number member : UInt16} {entry : Entry}
    {groups' : List Group}
    (hchange : GroupsChange number member (some entry) none holding.groups groups') :
    0 < holding.ids := by
  have hcount := hchange.count
  have hbefore := h.ids
  simp only [Option.toList_some, List.length_singleton, Option.toList_none,
    List.length_nil] at hcount
  omega

/-- In a parted array a group may take the place of what was found. -/
theorem replaces_group {number : UInt16} {groups front back : List Group} {found : Option Group}
    (hparts : PartsAt Group.number number groups front found back) (body : GroupBody) :
    Replaces Group.number number found (some ⟨number, body⟩) groups
      (front ++ ⟨number, body⟩ :: back) := by
  refine hparts.replaces ?_
  rintro group ⟨⟩
  rfl

/-! ## Inserting -/

/-- What becomes of a term that an entry is inserted into. -/
inductive Inserts (holding : Holding) (arena : Arena) (term : String) (number : UInt16)
    (entry : Entry) : Holding → Arena → Prop
  /-- A new group, with the entry alone in it. -/
  | group {body : GroupBody} {groups : List Group} {arrayClass : SizeClass} {arena₁ arena' : Arena}
      (hnew : arena.newBody term entry = .ok (body, arena₁))
      (hgroups : Replaces Group.number number none (some ⟨number, body⟩) holding.groups groups)
      (hgrow : grow arena₁ holding.arrayClass groups = (groups, arrayClass, arena')) :
      Inserts holding arena term number entry
        { groups, arrayClass
          ids := holding.ids + 1
          bytes := holding.bytes + Group.encodedSize ⟨number, body⟩
          maxBytes := max holding.maxBytes (Group.encodedSize ⟨number, body⟩) } arena'
  /-- A group with that number, whose body takes the entry. -/
  | member {held : Group} {body : GroupBody} {added : Bool} {groups : List Group} {arena' : Arena}
      (hput : arena.put term held.body entry = .ok (body, added, arena'))
      (hgroups : Replaces Group.number number (some held) (some ⟨number, body⟩) holding.groups
        groups) :
      Inserts holding arena term number entry
        { holding with
          groups
          ids := if added then holding.ids + 1 else holding.ids
          bytes := holding.bytes + Group.encodedSize ⟨number, body⟩ - held.encodedSize
          maxBytes := max holding.maxBytes (Group.encodedSize ⟨number, body⟩) } arena'

theorem insert_cases (hclean : arena.Clean) (h : holding.Sound) {term : String} {number : UInt16}
    {entry : Entry} {holding' : Holding} {arena' : Arena}
    (hinsert : holding.insert arena term number entry = .ok (holding', arena')) :
    holding.Inserts arena term number entry holding' arena' := by
  have hparts := partsAt_partAt number h.ascending
  unfold insert at hinsert
  dsimp only at hinsert
  generalize partAt number holding.groups = parted at hparts hinsert
  obtain ⟨front, found, back⟩ := parted
  dsimp only at hparts hinsert
  cases found with
  | none =>
    obtain ⟨⟨body, arena₁⟩, hnew, hinsert⟩ := bind_eq_ok.1 hinsert
    rcases hgrow : grow arena₁ holding.arrayClass (front ++ ⟨number, body⟩ :: back)
      with ⟨groups, arrayClass, arena₂⟩
    obtain ⟨rfl, -⟩ := grow_spec (Arena.newBody_clean hclean hnew) hgrow
    simp only [hgrow] at hinsert
    cases hinsert
    exact .group hnew (replaces_group hparts body) hgrow
  | some held =>
    obtain ⟨⟨body, added, arena₁⟩, hput, hinsert⟩ := bind_eq_ok.1 hinsert
    cases hinsert
    exact .member hput (replaces_group hparts body)

/-- **Inserting an id** puts its payload into the map, and adds to the count if the id is new. -/
theorem insert_spec (hclean : arena.Clean) (h : holding.Sound) {term : String} {number : UInt16}
    {entry : Entry} (hnumber : number.toNat < 32768) (hfits : entry.Fits) {holding' : Holding}
    {arena' : Arena} (hinsert : holding.insert arena term number entry = .ok (holding', arena')) :
    holding'.Sound ∧ arena'.Clean ∧
      ∃ found, GroupsChange number entry.member found (some entry) holding.groups
        holding'.groups := by
  cases insert_cases hclean h hinsert with
  | group hnew hgroups hgrow =>
    obtain ⟨hbody, hentries, hclean₁⟩ := Arena.newBody_spec hclean hfits hnew
    obtain ⟨-, hclean₂⟩ := grow_spec hclean₁ hgrow
    have hentry : Replaces Entry.member entry.member none (some entry) [] [entry] :=
      .single nofun (by simp)
    rw [← hentries] at hentry
    refine ⟨h.change hgroups hentry ?_ rfl, hclean₂, none, _, _, hgroups, hentry⟩
    rintro group ⟨⟩
    exact ⟨hnumber, hbody⟩
  | member hput hgroups =>
    have hheld := h.groups _ (lookup_mem hgroups.lookup_old)
    obtain ⟨found, hentry, hadded, hbody, hclean₁⟩ := Arena.put_spec hclean hheld.body hfits hput
    refine ⟨h.change hgroups hentry ?_ ?_, hclean₁, found, _, _, hgroups, hentry⟩
    · rintro group ⟨⟩
      exact ⟨hnumber, hbody⟩
    · subst hadded
      cases found with
      | none => rfl
      | some old => rfl

/-- Inserting fails only for want of a class that is large enough. -/
theorem insert_error {term : String} {number : UInt16} {entry : Entry} {fault : Fault}
    (h : holding.insert arena term number entry = .error fault) :
    ∃ size, fault = .postingTooLarge term size := by
  unfold insert at h
  dsimp only at h
  split at h
  · rcases bind_eq_error.1 h with hnew | ⟨result, -, h⟩
    · exact Arena.newBody_error hnew
    · cases h
  · rcases bind_eq_error.1 h with hput | ⟨result, -, h⟩
    · exact Arena.put_error hput
    · cases h

/-! ## Erasing -/

/-- What becomes of a term that an id is erased from. -/
inductive Erases (holding : Holding) (arena : Arena) (number member : UInt16) :
    Holding → Arena → Prop
  /-- The group had only this entry, and goes as a whole. -/
  | group {held : Group} {groups : List Group} {arrayClass : SizeClass}
      (hremove : arena.remove held.body member = .emptied held.body)
      (hgroups : Replaces Group.number number (some held) none holding.groups groups)
      (harray : arrayClass = arena.arrays.reduce groups.length holding.arrayClass) :
      Erases holding arena number member
        { holding with
          groups, arrayClass
          ids := holding.ids - 1
          bytes := holding.bytes - held.encodedSize }
        (arena.steps (swapBlock held.blockClass? none ++ swapArray holding.arrayClass arrayClass))
  /-- Others are left in the group. -/
  | member {held : Group} {body : GroupBody} {groups : List Group} {arena' : Arena}
      (hremove : arena.remove held.body member = .kept body arena')
      (hgroups : Replaces Group.number number (some held) (some ⟨number, body⟩) holding.groups
        groups) :
      Erases holding arena number member
        { holding with
          groups
          ids := holding.ids - 1
          bytes := holding.bytes + Group.encodedSize ⟨number, body⟩ - held.encodedSize } arena'

/-- Without the id there is nothing to erase. -/
theorem erase_cases (hclean : arena.Clean) (h : holding.Sound) (number member : UInt16) :
    match holding.erase arena number member with
    | none => payloadAt holding.groups number member = none
    | some (holding', arena') => holding.Erases arena number member holding' arena' := by
  have hparts := partsAt_partAt number h.ascending
  unfold erase
  dsimp only
  generalize partAt number holding.groups = parted at hparts
  obtain ⟨front, found, back⟩ := parted
  dsimp only at hparts ⊢
  cases found with
  | none =>
    dsimp only
    rw [payloadAt, hparts.lookup_self]
    rfl
  | some held =>
    have hspec := Arena.remove_spec hclean (h.groups held hparts.found_mem).body member
    dsimp only
    cases hremove : arena.remove held.body member with
    | absent =>
      rw [hremove] at hspec
      have hlookup : lookup Entry.member member (entriesOf (some held)) = none := hspec
      show payloadAt holding.groups number member = none
      rw [payloadAt, hparts.lookup_self, hlookup]
      rfl
    | emptied body =>
      rw [hremove] at hspec
      obtain ⟨rfl, -⟩ := hspec
      have hgroups : Replaces Group.number number (some held) none holding.groups
          (front ++ back) := hparts.replaces nofun
      have hdiscard := Arena.discard_steps arena held.body
      have hclean' : (arena.discard held.body).Clean := hdiscard ▸ hclean.steps _
      simp only [shrink_eq hclean', Arena.discard_arrays]
      rw [hdiscard, ← Arena.steps_append]
      exact .group hremove hgroups rfl
    | kept body arena' => exact .member hremove (replaces_group hparts body)

/-- **Erasing an id** takes it out of the map and off the count; without the id nothing is done. -/
theorem erase_spec (hclean : arena.Clean) (h : holding.Sound) (number member : UInt16) :
    match holding.erase arena number member with
    | none => payloadAt holding.groups number member = none
    | some (holding', arena') =>
      holding'.Sound ∧ arena'.Clean ∧
        ∃ entry, GroupsChange number member (some entry) none holding.groups holding'.groups := by
  have herase := erase_cases hclean h number member
  split at herase
  next hnone => exact herase
  next holding' arena' hsome =>
    cases herase with
    | group hremove hgroups harray =>
      have hspec := Arena.remove_spec hclean (h.groups _ (lookup_mem hgroups.lookup_old)).body member
      rw [hremove] at hspec
      obtain ⟨-, entry, hentry⟩ := hspec
      have hids := h.ids_pos ⟨_, _, hgroups, hentry⟩
      refine ⟨h.change hgroups hentry nofun ?_, hclean.steps _, entry, _, _, hgroups, hentry⟩
      exact Nat.sub_add_cancel hids
    | member hremove hgroups =>
      have hheld := h.groups _ (lookup_mem hgroups.lookup_old)
      have hspec := Arena.remove_spec hclean hheld.body member
      rw [hremove] at hspec
      obtain ⟨⟨entry, hentry⟩, hbody, hclean'⟩ := hspec
      have hids := h.ids_pos ⟨_, _, hgroups, hentry⟩
      refine ⟨h.change hgroups hentry ?_ ?_, hclean', entry, _, _, hgroups, hentry⟩
      · rintro group ⟨⟩
        exact ⟨lookup_key hgroups.lookup_old ▸ hheld.number, hbody⟩
      · exact Nat.sub_add_cancel hids

end Holding

/-! ## The postings in order -/

/-- The postings of a group, in order. -/
def Group.landings (group : Group) : List Landing :=
  group.body.entries.map fun entry => ⟨DocId.compose group.number entry.member, entry.payload⟩

/-- The postings of groups, in order. -/
def landingsOf (groups : List Group) : List Landing := groups.flatMap Group.landings

namespace Group

variable {group : Group}

theorem mem_landings {landing : Landing} (h : group.Sound) :
    landing ∈ group.landings ↔ landing.id ≤ DocId.largest ∧ landing.id.group = group.number ∧
      (lookup Entry.member landing.id.member group.body.entries).map Entry.payload
        = some landing.payload := by
  constructor
  · intro hmem
    obtain ⟨entry, hentry, rfl⟩ := List.mem_map.1 hmem
    have hmember : (DocId.compose group.number entry.member).member = entry.member :=
      DocId.member_compose (h.body.run.fits entry hentry).member
    refine ⟨DocId.compose_le_largest h.number, DocId.group_compose h.number, ?_⟩
    rw [hmember, h.body.run.ascending.lookup_of_mem hentry]
    rfl
  · rintro ⟨hid, hgroup, hlookup⟩
    obtain ⟨entry, hentry, hpayload⟩ := Option.map_eq_some_iff.1 hlookup
    refine List.mem_map.2 ⟨entry, lookup_mem hentry, ?_⟩
    rw [lookup_key hentry, ← hgroup, DocId.compose_group_member hid, hpayload]

theorem landings_ascending (h : group.Sound) :
    group.landings.Pairwise fun a b => a.id < b.id := by
  refine List.pairwise_map.2 (List.Pairwise.imp_of_mem ?_ h.body.run.ascending)
  intro a b ha hb hlt
  exact (DocId.compose_lt_iff (h.body.run.fits a ha).member (h.body.run.fits b hb).member).2
    (.inr ⟨rfl, hlt⟩)

end Group

section Landings

variable {groups : List Group}

/-- **The postings in order are those that a look-up finds.** -/
theorem mem_landingsOf (hasc : Ascending Group.number groups) (h : ∀ group ∈ groups, group.Sound)
    {landing : Landing} : landing ∈ landingsOf groups ↔ landing.id ≤ DocId.largest ∧
      payloadAt groups landing.id.group landing.id.member = some landing.payload := by
  constructor
  · intro hmem
    obtain ⟨group, hgroup, hlanding⟩ := List.mem_flatMap.1 hmem
    obtain ⟨hid, hnumber, hlookup⟩ := (Group.mem_landings (h group hgroup)).1 hlanding
    refine ⟨hid, ?_⟩
    rw [payloadAt, hnumber, hasc.lookup_of_mem hgroup]
    exact hlookup
  · rintro ⟨hid, hpayload⟩
    cases hgroup : lookup Group.number landing.id.group groups with
    | none =>
      rw [payloadAt, hgroup] at hpayload
      cases hpayload
    | some group =>
      rw [payloadAt, hgroup] at hpayload
      have hmem := lookup_mem hgroup
      exact List.mem_flatMap.2 ⟨group, hmem,
        (Group.mem_landings (h group hmem)).2 ⟨hid, (lookup_key hgroup).symm, hpayload⟩⟩

theorem landingsOf_ascending (hasc : Ascending Group.number groups)
    (h : ∀ group ∈ groups, group.Sound) :
    (landingsOf groups).Pairwise fun a b => a.id < b.id := by
  refine List.pairwise_flatMap.2 ⟨fun group hgroup => Group.landings_ascending (h group hgroup), ?_⟩
  refine List.Pairwise.imp_of_mem ?_ hasc
  intro g g' hg hg' hlt a ha b hb
  obtain ⟨e, he, rfl⟩ := List.mem_map.1 ha
  obtain ⟨e', he', rfl⟩ := List.mem_map.1 hb
  exact (DocId.compose_lt_iff ((h g hg).body.run.fits e he).member
    ((h g' hg').body.run.fits e' he').member).2 (.inl hlt)

theorem landingsOf_length (groups : List Group) :
    (landingsOf groups).length = (groups.map fun group => group.body.entries.length).sum := by
  simp [landingsOf, Group.landings, List.length_flatMap]

end Landings

/-! ## What the counts count -/

/-- The elements of a list without repeats are as many as its length. -/
theorem ncard_mem_eq_length {β : Type} {items : List β} (h : items.Nodup) :
    {b | b ∈ items}.ncard = items.length := by
  classical
  have hset : {b | b ∈ items} = (items.toFinset : Set β) := by
    ext b
    simp
  rw [hset, Set.ncard_coe_finset, List.toFinset_card_of_nodup h]

namespace Holding

variable {holding : Holding}

/-- The ids that a term has. -/
def idSet (holding : Holding) : Set DocId :=
  {id | id ≤ DocId.largest ∧ (payloadAt holding.groups id.group id.member).isSome}

theorem mem_idSet (h : holding.Sound) {id : DocId} :
    id ∈ holding.idSet ↔ id ∈ (landingsOf holding.groups).map Landing.id := by
  rw [List.mem_map]
  constructor
  · rintro ⟨hid, hsome⟩
    obtain ⟨payload, hpayload⟩ := Option.isSome_iff_exists.1 hsome
    exact ⟨⟨id, payload⟩, (mem_landingsOf h.ascending h.groups).2 ⟨hid, hpayload⟩, rfl⟩
  · rintro ⟨landing, hlanding, rfl⟩
    obtain ⟨hid, hpayload⟩ := (mem_landingsOf h.ascending h.groups).1 hlanding
    exact ⟨hid, by rw [hpayload]; rfl⟩

theorem ids_nodup (h : holding.Sound) : ((landingsOf holding.groups).map Landing.id).Nodup := by
  refine List.Pairwise.imp ?_ (List.pairwise_map.2 (landingsOf_ascending h.ascending h.groups))
  intro a b hlt heq
  exact UInt32.lt_irrefl b (heq ▸ hlt)

/-- The count of ids is the number of ids that a look-up finds. -/
theorem ncard_idSet (h : holding.Sound) : holding.idSet.ncard = holding.ids := by
  have hset : holding.idSet = {id | id ∈ (landingsOf holding.groups).map Landing.id} :=
    Set.ext fun id => mem_idSet h
  rw [hset, ncard_mem_eq_length (ids_nodup h), List.length_map, landingsOf_length, h.ids]

/-- There are as many groups as ids fall into. -/
theorem ncard_groups (h : holding.Sound) :
    (DocId.group '' holding.idSet).ncard = holding.groups.length := by
  have hset : DocId.group '' holding.idSet = {n | n ∈ holding.groups.map Group.number} := by
    ext n
    show _ ↔ n ∈ holding.groups.map Group.number
    rw [List.mem_map]
    constructor
    · rintro ⟨id, hid, rfl⟩
      obtain ⟨landing, hlanding, rfl⟩ := List.mem_map.1 ((mem_idSet h).1 hid)
      obtain ⟨group, hgroup, hin⟩ := List.mem_flatMap.1 hlanding
      exact ⟨group, hgroup, ((Group.mem_landings (h.groups group hgroup)).1 hin).2.1.symm⟩
    · rintro ⟨group, hgroup, rfl⟩
      have hsound := h.groups group hgroup
      obtain ⟨entry, rest, hentries⟩ := List.exists_cons_of_ne_nil hsound.body.run.nonempty
      have hmem : entry ∈ group.body.entries := by rw [hentries]; exact List.mem_cons_self ..
      refine ⟨DocId.compose group.number entry.member, (mem_idSet h).2 ?_,
        DocId.group_compose hsound.number⟩
      exact List.mem_map.2 ⟨⟨_, entry.payload⟩,
        List.mem_flatMap.2 ⟨group, hgroup, List.mem_map.2 ⟨entry, hmem, rfl⟩⟩, rfl⟩
  have hnodup : (holding.groups.map Group.number).Nodup := by
    refine List.Pairwise.imp ?_ (List.pairwise_map.2 h.ascending)
    intro a b hlt heq
    exact UInt16.lt_irrefl b (heq ▸ hlt)
  rw [hset, ncard_mem_eq_length hnodup, List.length_map]

end Holding
end InvertedIndex
