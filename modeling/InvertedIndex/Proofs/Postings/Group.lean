import InvertedIndex.Proofs.Postings.Arena
import InvertedIndex.Proofs.Postings.Entry
import InvertedIndex.Proofs.Postings.Parted

/-!
# `Proofs.Postings.Group` — what a group keeps

A group keeps an ascending run of entries, whichever form its body has. Putting an entry parts that
run at its member number and replaces what is found there; removing a member leaves it out. The body
may stay in place, move into a block, grow, shrink or come back out of its block: the entries do not
depend on it. What each change can do to a body is said once, as a relation with a case for each
way; everything else about a change follows from its cases.

## Contents
- `GroupBody.entries`, `GroupBody.Sound`: the entries of a body, and that they are written properly;
- `cutAt_encodeAll`: where a block is cut;
- `Arena.Makes`, `Arena.Puts`, `Arena.Drops`: what a new body can be, what becomes of a body that an
  entry is put into, or that a member is removed from; `Arena.newBody_cases`, `Arena.put_cases`,
  `Arena.remove_cases`;
- `Arena.put_spec`, `Arena.remove_spec`: the two changes; `Group.find?_eq_lookup`: the look-up.
-/

namespace InvertedIndex

/-! ## The entries of a body -/

/-- The entries that a body keeps. -/
def GroupBody.entries : GroupBody → List Entry
  | .inline entry => [entry]
  | .block _ bytes => Entry.decodeAll bytes

/-- A run of entries as a group keeps it. -/
structure EntryRun (entries : List Entry) : Prop where
  ascending : Ascending Entry.member entries
  fits : ∀ entry ∈ entries, entry.Fits
  nonempty : entries ≠ []

namespace EntryRun

variable {entries left : List Entry} {found : Option Entry} {member : UInt16}

theorem singleton {entry : Entry} (h : entry.Fits) : EntryRun [entry] :=
  ⟨List.pairwise_singleton _ entry, by simpa using h, by simp⟩

/-- A run stays one when an entry that fits is put in, or one is left out that was not the last. -/
theorem replaces (h : EntryRun entries) {new : Option Entry} (hnew : ∀ entry ∈ new, entry.Fits)
    (hreplaces : Replaces Entry.member member found new entries left) (hleft : left ≠ []) :
    EntryRun left where
  ascending := hreplaces.ascending h.ascending
  fits := fun entry hentry => (hreplaces.mem hentry).elim (hnew entry) (h.fits entry)
  nonempty := hleft

/-- An entry that fits may be put in. -/
theorem put (h : EntryRun entries) {entry : Entry} (hfits : entry.Fits)
    (hreplaces : Replaces Entry.member entry.member found (some entry) entries left) :
    EntryRun left := by
  refine h.replaces ?_ hreplaces (List.ne_nil_of_mem (lookup_mem hreplaces.lookup_new))
  rintro _ ⟨⟩
  exact hfits

/-- An entry may be left out if it was not the last. -/
theorem drop (h : EntryRun entries)
    (hreplaces : Replaces Entry.member member found none entries left) (hleft : left ≠ []) :
    EntryRun left := h.replaces (by simp) hreplaces hleft

end EntryRun

/-- The body keeps a proper run of entries, and a block holds nothing but their bytes. -/
structure GroupBody.Sound (body : GroupBody) : Prop where
  run : EntryRun body.entries
  written : ∀ c bytes, body = .block c bytes → bytes = Entry.encodeAll body.entries

namespace GroupBody

/-- The class of the block that a body has. -/
def blockClass? : GroupBody → Option SizeClass
  | .inline _ => none
  | .block c _ => some c

theorem sound_inline {entry : Entry} (h : entry.Fits) : (GroupBody.inline entry).Sound :=
  ⟨EntryRun.singleton h, by rintro c bytes ⟨⟩⟩

theorem entries_block {entries : List Entry} (h : EntryRun entries) (c : SizeClass) :
    (GroupBody.block c (Entry.encodeAll entries)).entries = entries :=
  Entry.decodeAll_encodeAll h.fits

theorem sound_block {entries : List Entry} (h : EntryRun entries) (c : SizeClass) :
    (GroupBody.block c (Entry.encodeAll entries)).Sound where
  run := by
    rw [entries_block h]
    exact h
  written := by
    rintro _ _ ⟨⟩
    rw [entries_block h]

/-- A sound block is the block of its entries. -/
theorem Sound.block_eq {c : SizeClass} {bytes : Bytes} (h : (GroupBody.block c bytes).Sound) :
    bytes = Entry.encodeAll (GroupBody.block c bytes).entries := h.written c bytes rfl

end GroupBody

/-! ## Cutting a block -/

/-- The entry at the front decides where a block is cut. -/
theorem cutAt_encode {entry : Entry} (h : entry.Fits) (member : UInt16) (rest : Bytes) :
    cutAt member (entry.encode ++ rest) =
      if entry.member < member then
        { cutAt member rest with place := entry.encode.length + (cutAt member rest).place }
      else if entry.member = member then ⟨0, some ⟨member, entry.payload⟩, rest⟩
      else ⟨0, none, entry.encode ++ rest⟩ := by
  rw [cutAt]
  split
  next hnone =>
    rw [Entry.readHead?_encode h] at hnone
    cases hnone
  next head left hread =>
    rw [Entry.readHead?_encode h] at hread
    cases hread
    simp only [List.drop_left, Bytes.take?_append _ _ rfl, Entry.encode_length]

/-- **A block is cut where its entries part.** -/
theorem cutAt_encodeAll {member : UInt16} {entries front back : List Entry} {found : Option Entry}
    (hfits : ∀ entry ∈ entries, entry.Fits)
    (hparts : PartsAt Entry.member member entries front found back) :
    cutAt member (Entry.encodeAll entries)
      = ⟨(Entry.encodeAll front).length, found, Entry.encodeAll back⟩ := by
  -- On what lies in front of the member: the reader passes over it, entry by entry.
  induction front generalizing entries with
  | nil =>
    have hitems : entries = found.toList ++ back := hparts.items_eq
    subst hitems
    cases found with
    | some entry =>
      -- The member itself: its entry is left out of what comes after.
      have hkey : entry.member = member := hparts.found_eq entry rfl
      subst hkey
      rw [Option.toList_some, List.singleton_append, Entry.encodeAll_cons,
        cutAt_encode (hfits entry (by simp)), if_neg (UInt16.lt_irrefl _), if_pos rfl]
      rfl
    | none =>
      cases back with
      | nil =>
        unfold cutAt
        rfl
      | cons entry rest =>
        -- The first entry is above the member already: nothing is found, and all of it comes after.
        have hgt := hparts.lt_back entry (List.mem_cons_self ..)
        have hlt : ¬ entry.member < member := UInt16.not_lt.2 (UInt16.le_of_lt hgt)
        have hne : ¬ entry.member = member := fun h => UInt16.lt_irrefl member (h ▸ hgt)
        rw [Option.toList_none, List.nil_append, Entry.encodeAll_cons,
          cutAt_encode (hfits entry (by simp)), if_neg hlt, if_neg hne]
        rfl
  | cons first front ih =>
    have hitems : entries = first :: (front ++ (found.toList ++ back)) := hparts.items_eq
    subst hitems
    obtain ⟨hfirst, hrest⟩ := List.forall_mem_cons.1 hfits
    obtain ⟨hlt, hfront⟩ := List.forall_mem_cons.1 hparts.front_lt
    have hcut := ih hrest ⟨rfl, hfront, hparts.found_eq, hparts.lt_back⟩
    rw [Entry.encodeAll_cons, cutAt_encode hfirst, if_pos hlt, hcut, Entry.encodeAll_cons,
      List.length_append]

/-- A sound block cut at a member: what is in front of the place, what is found there, and what
    comes after. -/
theorem GroupBody.Sound.cut {c : SizeClass} {bytes : Bytes} (h : (GroupBody.block c bytes).Sound)
    {member : UInt16} {front back : List Entry} {found : Option Entry}
    (hparts : PartsAt Entry.member member (GroupBody.block c bytes).entries front found back) :
    cutAt member bytes = ⟨(Entry.encodeAll front).length, found, Entry.encodeAll back⟩ ∧
      bytes.take (Entry.encodeAll front).length = Entry.encodeAll front := by
  constructor
  · have hcut := cutAt_encodeAll h.run.fits hparts
    rwa [← h.block_eq] at hcut
  · rw [h.block_eq, hparts.items_eq, Entry.encodeAll_append, List.take_left]

/-- Putting an entry into a sound block writes it between the entries that it parts. -/
theorem GroupBody.Sound.bytes_put {c : SizeClass} {bytes : Bytes}
    (h : (GroupBody.block c bytes).Sound) {entry : Entry} {front back : List Entry}
    {found : Option Entry} (hparts : PartsAt Entry.member entry.member
      (GroupBody.block c bytes).entries front found back) :
    bytes.take (cutAt entry.member bytes).place
        ++ (entry.encode ++ (cutAt entry.member bytes).after)
      = Entry.encodeAll (front ++ entry :: back) := by
  obtain ⟨hcut, hfront⟩ := h.cut hparts
  rw [hcut, hfront, Entry.encodeAll_append, Entry.encodeAll_cons]

/-- Removing what is found leaves the bytes of the entries on both sides. -/
theorem GroupBody.Sound.bytes_left {c : SizeClass} {bytes : Bytes}
    (h : (GroupBody.block c bytes).Sound) {member : UInt16} {front back : List Entry}
    {found : Option Entry} (hparts : PartsAt Entry.member member
      (GroupBody.block c bytes).entries front found back) :
    bytes.take (cutAt member bytes).place ++ (cutAt member bytes).after
      = Entry.encodeAll (front ++ back) := by
  obtain ⟨hcut, hfront⟩ := h.cut hparts
  rw [hcut, hfront, Entry.encodeAll_append]

/-! ## Putting an entry -/

namespace Arena

open ArenaStep

variable {arena : Arena}

/-- What a new body for an entry can be. -/
inductive Makes (arena : Arena) (term : String) (entry : Entry) : GroupBody → Arena → Prop
  /-- A short entry does without a block. -/
  | short (hshort : entry.payload.length ≤ inlineCapacity) :
      Makes arena term entry (.inline entry) arena
  /-- Another has a block of the class found for it. -/
  | long {c : SizeClass} (hlong : ¬ entry.payload.length ≤ inlineCapacity)
      (hclass : arena.blockClass term (Entry.encodeAll [entry]).length = .ok c) :
      Makes arena term entry (.block c (Entry.encodeAll [entry]))
        (arena.steps (swapBlock none (some c)))

theorem newBody_cases (hclean : arena.Clean) {term : String} {entry : Entry} {body : GroupBody}
    {arena' : Arena} (h : arena.newBody term entry = .ok (body, arena')) :
    arena.Makes term entry body arena' := by
  have hbytes : entry.encode = Entry.encodeAll [entry] := by simp
  unfold newBody at h
  split at h
  next hshort =>
    cases h
    exact .short hshort
  next hlong =>
    obtain ⟨c, hclass, h⟩ := bind_eq_ok.1 h
    rw [← Entry.encode_length, hbytes] at hclass
    simp only [hclean.takeBlock_eq, hbytes] at h
    cases h
    exact .long hlong hclass

theorem newBody_clean (hclean : arena.Clean) {term : String} {entry : Entry} {body : GroupBody}
    {arena' : Arena} (h : arena.newBody term entry = .ok (body, arena')) : arena'.Clean := by
  cases newBody_cases hclean h with
  | short hshort => exact hclean
  | long hlong hclass => exact hclean.steps _

/-- A new body keeps the one entry. -/
theorem newBody_spec (hclean : arena.Clean) {term : String} {entry : Entry} (hfits : entry.Fits)
    {body : GroupBody} {arena' : Arena} (h : arena.newBody term entry = .ok (body, arena')) :
    body.Sound ∧ body.entries = [entry] ∧ arena'.Clean := by
  have hrun := EntryRun.singleton hfits
  cases newBody_cases hclean h with
  | short hshort => exact ⟨GroupBody.sound_inline hfits, rfl, hclean⟩
  | long hlong hclass =>
    exact ⟨GroupBody.sound_block hrun _, GroupBody.entries_block hrun _, hclean.steps _⟩

theorem newBody_error {term : String} {entry : Entry} {fault : Fault}
    (h : arena.newBody term entry = .error fault) : ∃ size, fault = .postingTooLarge term size := by
  unfold newBody at h
  split at h
  · cases h
  · rcases bind_eq_error.1 h with hclass | ⟨c, -, h⟩
    · exact ⟨_, blockClass_error hclass⟩
    · cases h

/-- Two entries with different members make a run in the order of their members. -/
theorem replaces_pair {held entry : Entry} (hne : held.member ≠ entry.member) :
    Replaces Entry.member entry.member none (some entry) [held]
      (if held.member < entry.member then [held, entry] else [entry, held]) := by
  split
  next hlt =>
    exact ⟨[held], [], ⟨rfl, by simpa using hlt, by simp, by simp⟩, by simp, rfl⟩
  next hge =>
    have hgt : entry.member < held.member :=
      UInt16.lt_of_le_of_ne (UInt16.not_lt.1 hge) fun h => hne h.symm
    exact ⟨[], [held], ⟨rfl, by simp, by simp, by simpa using hgt⟩, by simp, rfl⟩

/-- Whichever of two entries comes first, they need the same room. -/
theorem pair_length (held entry : Entry) :
    (Entry.encodeAll (if held.member < entry.member then [held, entry] else [entry, held])).length
      = Entry.encodedSize held.payload.length + Entry.encodedSize entry.payload.length := by
  split
  · simp [Entry.encode_length]
  · simp [Entry.encode_length, Nat.add_comm]

/-- What becomes of a body that an entry is put into. -/
inductive Puts (arena : Arena) (term : String) (body : GroupBody) (entry : Entry) :
    GroupBody → Bool → Arena → Prop
  /-- In place of the one entry of a body without a block: the body is made anew. -/
  | anew {held : Entry} {body' : GroupBody} {arena' : Arena} (hbody : body = .inline held)
      (hmember : held.member = entry.member) (hnew : arena.newBody term entry = .ok (body', arena')) :
      Puts arena term body entry body' false arena'
  /-- Otherwise a block of the class found for all entries, in exchange for any that there was. -/
  | block {found : Option Entry} {entries : List Entry} {c : SizeClass}
      (hfound : body.blockClass? = none → found = none)
      (hreplaces : Replaces Entry.member entry.member found (some entry) body.entries entries)
      (hclass : arena.blockClass term (Entry.encodeAll entries).length = .ok c) :
      Puts arena term body entry (.block c (Entry.encodeAll entries)) found.isNone
        (arena.steps (swapBlock body.blockClass? (some c)))

theorem put_cases (hclean : arena.Clean) {term : String} {body : GroupBody} (hbody : body.Sound)
    {entry : Entry} {body' : GroupBody} {added : Bool} {arena' : Arena}
    (h : arena.put term body entry = .ok (body', added, arena')) :
    arena.Puts term body entry body' added arena' := by
  cases body with
  | inline held =>
    simp only [put] at h
    split at h
    next heq =>
      -- The member of the lone entry: a new body takes the place of the old one.
      obtain ⟨⟨body, left⟩, hnew, h⟩ := bind_eq_ok.1 h
      cases h
      exact .anew rfl heq hnew
    next hne =>
      -- Another member: the lone entry moves into a block together with the new one.
      obtain ⟨c, hclass, h⟩ := bind_eq_ok.1 h
      rw [← pair_length] at hclass
      simp only [hclean.takeBlock_eq] at h
      cases h
      exact .block (fun _ => rfl) (replaces_pair hne) hclass
  | block c bytes =>
    obtain ⟨front, found, back, hparts⟩ :=
      PartsAt.exists_of_ascending entry.member hbody.run.ascending
    have hreplaces : Replaces Entry.member entry.member found (some entry)
        (GroupBody.block c bytes).entries (front ++ entry :: back) :=
      ⟨front, back, hparts, by simp, rfl⟩
    simp only [put, hbody.bytes_put hparts] at h
    rw [(hbody.cut hparts).1] at h
    obtain ⟨target, hclass, h⟩ := bind_eq_ok.1 h
    have hputs : arena.Puts term (.block c bytes) entry _ _ _ := .block nofun hreplaces hclass
    -- The bytes are the same wherever they go: in place, or into a block of another size.
    split at h
    next heq =>
      cases h
      subst heq
      simpa [GroupBody.blockClass?] using hputs
    next hne =>
      rw [hclean.moveBlock_eq hne] at h
      cases h
      exact hputs

/-- **Putting an entry** replaces the one with its member number, or adds it. -/
theorem put_spec (hclean : arena.Clean) {term : String} {body : GroupBody} (hbody : body.Sound)
    {entry : Entry} (hfits : entry.Fits) {body' : GroupBody} {added : Bool} {arena' : Arena}
    (h : arena.put term body entry = .ok (body', added, arena')) :
    ∃ found, Replaces Entry.member entry.member found (some entry) body.entries body'.entries ∧
      added = found.isNone ∧ body'.Sound ∧ arena'.Clean := by
  cases put_cases hclean hbody h with
  | anew hinline hmember hnew =>
    obtain ⟨hsound, hentries, hclean'⟩ := newBody_spec hclean hfits hnew
    subst hinline
    rw [hentries]
    exact ⟨some _, .single (by simpa using hmember) (by simp), rfl, hsound, hclean'⟩
  | block hfound hreplaces hclass =>
    have hrun := hbody.run.put hfits hreplaces
    refine ⟨_, ?_, rfl, GroupBody.sound_block hrun _, hclean.steps _⟩
    rw [GroupBody.entries_block hrun]
    exact hreplaces

theorem put_error {term : String} {body : GroupBody} {entry : Entry} {fault : Fault}
    (h : arena.put term body entry = .error fault) : ∃ size, fault = .postingTooLarge term size := by
  cases body with
  | inline held =>
    simp only [put] at h
    split at h
    · rcases bind_eq_error.1 h with hnew | ⟨result, -, h⟩
      · exact newBody_error hnew
      · cases h
    · rcases bind_eq_error.1 h with hclass | ⟨c, -, h⟩
      · exact ⟨_, blockClass_error hclass⟩
      · cases h
  | block c bytes =>
    simp only [put] at h
    rcases bind_eq_error.1 h with hclass | ⟨target, -, h⟩
    · exact ⟨_, blockClass_error hclass⟩
    · split at h
      · cases h
      · cases h

/-! ## Removing a member -/

/-- A lone short entry is found to be one, and nothing else is. -/
theorem lone?_eq_some {entries : List Entry} (hfits : ∀ entry ∈ entries, entry.Fits)
    {entry : Entry} : lone? (Entry.encodeAll entries) = some entry
      ↔ entries = [entry] ∧ entry.payload.length ≤ inlineCapacity := by
  cases entries with
  | nil =>
    refine iff_of_false nofun ?_
    rintro ⟨⟨⟩, -⟩
  | cons first rest =>
    have hfirst := hfits first (List.mem_cons_self ..)
    rw [lone?, Entry.encodeAll_cons, Entry.decode?_encode hfirst]
    cases rest with
    | nil =>
      simp only [Entry.encodeAll_nil]
      split
      next hshort =>
        constructor
        · rintro ⟨⟩
          exact ⟨rfl, hshort⟩
        · rintro ⟨⟨⟩, -⟩
          rfl
      next hlong =>
        refine iff_of_false nofun ?_
        rintro ⟨⟨⟩, hshort⟩
        exact hlong hshort
    | cons second more =>
      have hmore : Entry.encodeAll (second :: more) ≠ [] := by simp [Entry.encode_ne_nil]
      obtain ⟨b, bytes, hbytes⟩ := List.exists_cons_of_ne_nil hmore
      rw [hbytes]
      simp

/-- What becomes of a body that a member is removed from. -/
inductive Drops (arena : Arena) (body : GroupBody) (member : UInt16) : Remainder → Prop
  /-- The member is not there. -/
  | absent (hlookup : lookup Entry.member member body.entries = none) :
      Drops arena body member .absent
  /-- It is the last one. -/
  | emptied {entry : Entry}
      (hreplaces : Replaces Entry.member member (some entry) none body.entries []) :
      Drops arena body member (.emptied body)
  /-- A short entry is left alone and comes out of the block. -/
  | alone {entry only : Entry}
      (hreplaces : Replaces Entry.member member (some entry) none body.entries [only])
      (hshort : only.payload.length ≤ inlineCapacity) :
      Drops arena body member (.kept (.inline only) (arena.steps (swapBlock body.blockClass? none)))
  /-- Any other entries that are left stay in the block, or move to a smaller one. -/
  | block {c : SizeClass} {bytes : Bytes} {entry : Entry} {entries : List Entry}
      (hbody : body = .block c bytes)
      (hreplaces : Replaces Entry.member member (some entry) none body.entries entries)
      (hne : entries ≠ [])
      (hlong : ∀ only, entries = [only] → ¬ only.payload.length ≤ inlineCapacity) :
      Drops arena body member
        (.kept (.block (arena.blocks.reduce (Entry.encodeAll entries).length c)
            (Entry.encodeAll entries))
          (arena.steps (swapBlock body.blockClass?
            (some (arena.blocks.reduce (Entry.encodeAll entries).length c)))))

theorem remove_cases (hclean : arena.Clean) {body : GroupBody} (hbody : body.Sound)
    (member : UInt16) : arena.Drops body member (arena.remove body member) := by
  cases body with
  | inline held =>
    simp only [remove]
    split
    next heq =>
      have hreplaces : Replaces Entry.member member (some held) none [held] [] :=
        .single (by simpa using heq) nofun
      exact .emptied hreplaces
    next hne => exact .absent (lookup_eq_none.2 (by simpa [GroupBody.entries] using hne))
  | block c bytes =>
    obtain ⟨front, found, back, hparts⟩ := PartsAt.exists_of_ascending member hbody.run.ascending
    simp only [remove, hbody.bytes_left hparts]
    rw [(hbody.cut hparts).1]
    cases found with
    | none => exact .absent hparts.lookup_self
    | some entry =>
      have hreplaces : Replaces Entry.member member (some entry) none
          (GroupBody.block c bytes).entries (front ++ back) := hparts.replaces nofun
      generalize front ++ back = left at hreplaces
      simp only [Option.isNone_some, Bool.false_eq_true, if_false, Entry.encodeAll_isEmpty,
        List.isEmpty_iff]
      split
      -- The last entry: the whole body goes.
      next hlast => exact .emptied (hlast ▸ hreplaces)
      next hleft =>
        have hrun : EntryRun left := hbody.run.drop hreplaces hleft
        -- A lone short entry comes out of its block; otherwise the block is kept, or a smaller one.
        split
        next only hlone =>
          obtain ⟨rfl, hshort⟩ := (lone?_eq_some hrun.fits).1 hlone
          exact .alone hreplaces hshort
        next hnone =>
          have hlong : ∀ only, left = [only] → ¬ only.payload.length ≤ inlineCapacity := by
            intro only honly hshort
            rw [(lone?_eq_some hrun.fits).2 ⟨honly, hshort⟩] at hnone
            cases hnone
          have hdrops : arena.Drops (.block c bytes) member _ :=
            .block rfl hreplaces hleft hlong
          simp only [Pool.reduce, GroupBody.blockClass?] at hdrops
          split
          next target hclass =>
            simp only [hclass] at hdrops
            split
            next hlt =>
              rw [if_pos hlt] at hdrops
              rw [hclean.moveBlock_eq hlt.ne]
              exact hdrops
            next hge => simpa [if_neg hge] using hdrops
          next hclass => simpa [hclass] using hdrops

/-- What is left after a member was removed from a body: all of it if the member was not there,
    nothing if it was the last one, and otherwise a body without it. -/
def Remainder.Removes (body : GroupBody) (member : UInt16) : Remainder → Prop
  | .absent => lookup Entry.member member body.entries = none
  | .emptied body' =>
    body' = body ∧ ∃ entry, Replaces Entry.member member (some entry) none body.entries []
  | .kept body' arena' =>
    (∃ entry, Replaces Entry.member member (some entry) none body.entries body'.entries) ∧
      body'.Sound ∧ arena'.Clean

/-- **Removing a member** leaves out its entry, if there is one. -/
theorem remove_spec (hclean : arena.Clean) {body : GroupBody} (hbody : body.Sound)
    (member : UInt16) : (arena.remove body member).Removes body member := by
  have hdrops := remove_cases hclean hbody member
  generalize arena.remove body member = remainder at hdrops
  cases hdrops with
  | absent hlookup => exact hlookup
  | emptied hreplaces => exact ⟨rfl, _, hreplaces⟩
  | alone hreplaces hshort =>
    have hrun := hbody.run.drop hreplaces (List.cons_ne_nil _ _)
    exact ⟨⟨_, hreplaces⟩, GroupBody.sound_inline (hrun.fits _ (by simp)), hclean.steps _⟩
  | block hblock hreplaces hne hlong =>
    have hrun := hbody.run.drop hreplaces hne
    have hentries := GroupBody.entries_block hrun
    exact ⟨⟨_, (hentries _).symm ▸ hreplaces⟩, GroupBody.sound_block hrun _, hclean.steps _⟩

end Arena

namespace Arena

/-- Giving up a body asks for its block back. -/
theorem discard_steps (arena : Arena) (body : GroupBody) :
    arena.discard body = arena.steps (ArenaStep.swapBlock body.blockClass? none) := by
  cases body with
  | inline entry => rfl
  | block c bytes => rfl

theorem discard_arrays (arena : Arena) (body : GroupBody) :
    (arena.discard body).arrays = arena.arrays := by
  cases body with
  | inline entry => rfl
  | block c bytes => rfl

end Arena

/-! ## Looking a member up -/

/-- A look-up gives the payload of the entry with the member number. -/
theorem Group.find?_eq_lookup {group : Group} (h : group.body.Sound) (member : UInt16) :
    group.find? member = (lookup Entry.member member group.body.entries).map Entry.payload := by
  obtain ⟨number, body⟩ := group
  cases body with
  | inline held =>
    show (if held.member = member then some held.payload else none) = _
    by_cases heq : held.member = member <;> simp [GroupBody.entries, lookup, heq]
  | block c bytes =>
    obtain ⟨front, found, back, hparts⟩ := PartsAt.exists_of_ascending member h.run.ascending
    show (cutAt member bytes).found.map Entry.payload = _
    rw [(h.cut hparts).1, hparts.lookup_self]

end InvertedIndex
