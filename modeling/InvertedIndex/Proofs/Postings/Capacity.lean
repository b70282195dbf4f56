import InvertedIndex.Proofs.Postings.Holding
import InvertedIndex.Proofs.Window
import Mathlib.Algebra.Order.BigOperators.Group.List

/-!
# `Proofs.Postings.Capacity` — groups of modest payloads fit into a block

A group has at most one entry for each of the 4096 member numbers. If no payload is longer than
40000 bytes, the entries of a group therefore never outgrow the largest class of blocks, and an
insertion is never refused for want of one.

## Contents
- `Modest`: a payload of at most 40000 bytes; `EntryRun.encodeAll_length_le`;
- `Arena.blockClass_modest`, `Arena.put_modest`: a block is found;
- `Holding.insert_modest`: the insertion is accepted.
-/

namespace InvertedIndex

/-- The most bytes of a payload of which a group can have one for each member. -/
def modestLength : Nat := 40000

/-- No longer than that. -/
def Modest (payload : Bytes) : Prop := payload.length ≤ modestLength

/-- Positions that a snapshot can hold make a modest payload. -/
theorem Modest.encode {positions : List Position} (h : ∀ p ∈ positions, p ≤ largestPosition) :
    Modest (Window.encode positions) :=
  (Window.encode_length_le h).trans (by decide : 32768 ≤ 40000)

/-- The bytes that all entries of a group with modest payloads may occupy. -/
def modestSize : Nat := 4096 * (modestLength + 5)

/-- There is room for at least two entries. -/
theorem two_modest_le : 2 * (modestLength + 5) ≤ modestSize :=
  Nat.mul_le_mul_right _ (by decide)

/-! ## Runs of entries -/

theorem Entry.encodedSize_modest {payload : Bytes} (h : Modest payload) :
    encodedSize payload.length ≤ modestLength + 5 := by
  have hle : payload.length ≤ 40000 := h
  unfold encodedSize modestLength
  dsimp only
  split
  · omega
  · split
    · omega
    · rw [if_pos (by omega : payload.length ≤ 0xFFFF)]
      omega

theorem Entry.encodedSize_le_modestSize {payload : Bytes} (h : Modest payload) :
    encodedSize payload.length ≤ modestSize := by
  have hsize := Entry.encodedSize_modest h
  have hroom := two_modest_le
  omega

namespace EntryRun

variable {entries : List Entry}

/-- A run has at most one entry for each member number. -/
theorem length_le (h : EntryRun entries) : entries.length ≤ 4096 :=
  h.ascending.length_le fun entry hentry => (h.fits entry hentry).member

/-- The entries of a run with modest payloads occupy no more than is allowed for. -/
theorem encodeAll_length_le (h : EntryRun entries)
    (hmodest : ∀ entry ∈ entries, Modest entry.payload) :
    (Entry.encodeAll entries).length ≤ modestSize := by
  have hsizes : ∀ size ∈ entries.map fun entry => Entry.encodedSize entry.payload.length,
      size ≤ modestLength + 5 := by
    intro size hsize
    obtain ⟨entry, hentry, rfl⟩ := List.mem_map.1 hsize
    exact Entry.encodedSize_modest (hmodest entry hentry)
  have hsum := List.sum_le_card_nsmul _ _ hsizes
  rw [List.length_map, nsmul_eq_mul, Nat.cast_id, ← Entry.encodeAll_length] at hsum
  exact hsum.trans (Nat.mul_le_mul_right _ h.length_le)

end EntryRun

/-! ## Blocks for them -/

namespace Arena

variable {arena : Arena}

/-- There is a class with room for that many bytes. -/
theorem blockClass_modest (hclean : arena.Clean) {term : String} {size : Nat}
    (hsize : size ≤ modestSize) : ∃ c, arena.blockClass term size = .ok c := by
  -- The largest class has room.
  have hroom : size ≤ (42 : SizeClass).units * arena.blocks.unit := by
    rw [hclean.unit]
    exact hsize.trans (by decide)
  obtain ⟨c, hc⟩ := Option.isSome_iff_exists.1 (Pool.classFor?_isSome hclean.unit_pos hroom)
  exact ⟨c, by simp only [blockClass, hc]⟩

theorem newBody_modest (hclean : arena.Clean) {term : String} {entry : Entry}
    (hmodest : Modest entry.payload) : ∃ result, arena.newBody term entry = .ok result := by
  unfold newBody
  split
  · exact ⟨_, rfl⟩
  · obtain ⟨c, hc⟩ := blockClass_modest hclean (Entry.encodedSize_le_modestSize hmodest)
    rw [hc]
    exact ⟨_, rfl⟩

/-- An entry can be put into a body if its payload and those in the body are modest. -/
theorem put_modest (hclean : arena.Clean) {term : String} {body : GroupBody} (hbody : body.Sound)
    {entry : Entry} (hfits : entry.Fits) (hmodest : Modest entry.payload)
    (hheld : ∀ held ∈ body.entries, Modest held.payload) :
    ∃ result, arena.put term body entry = .ok result := by
  cases body with
  | inline held =>
    simp only [put]
    split
    · obtain ⟨result, hresult⟩ := newBody_modest hclean hmodest
      rw [hresult]
      exact ⟨_, rfl⟩
    · have hfirst := Entry.encodedSize_modest (hheld held (List.mem_singleton.2 rfl))
      have hsecond := Entry.encodedSize_modest hmodest
      have hroom := two_modest_le
      have hsize : Entry.encodedSize held.payload.length + Entry.encodedSize entry.payload.length
          ≤ modestSize := by omega
      obtain ⟨c, hc⟩ := blockClass_modest hclean hsize
      rw [hc]
      exact ⟨_, rfl⟩
  | block c bytes =>
    obtain ⟨front, found, back, hparts⟩ :=
      PartsAt.exists_of_ascending entry.member hbody.run.ascending
    have hreplaces : Replaces Entry.member entry.member found (some entry)
        (GroupBody.block c bytes).entries (front ++ entry :: back) :=
      ⟨front, back, hparts, by simp, rfl⟩
    have hrun := hbody.run.put hfits hreplaces
    have hall : ∀ held ∈ front ++ entry :: back, Modest held.payload := by
      intro held hmem
      rcases hreplaces.mem hmem with hnew | hold
      · cases hnew
        exact hmodest
      · exact hheld held hold
    -- The block that is asked for holds the new entries, and there are at most 4096 of them.
    obtain ⟨target, htarget⟩ := blockClass_modest hclean (hrun.encodeAll_length_le hall)
    simp only [put, hbody.bytes_put hparts]
    rw [htarget]
    simp only [bind, Except.bind]
    split
    · exact ⟨_, rfl⟩
    · exact ⟨_, rfl⟩

end Arena

/-- An entry can be inserted if its payload and those that the term holds are modest. -/
theorem Holding.insert_modest {holding : Holding} {arena : Arena} (hclean : arena.Clean)
    (h : holding.Sound) {term : String} {number : UInt16} {entry : Entry} (hfits : entry.Fits)
    (hmodest : Modest entry.payload)
    (hheld : ∀ landing ∈ landingsOf holding.groups, Modest landing.payload) :
    ∃ result, holding.insert arena term number entry = .ok result := by
  have hparts := partsAt_partAt number h.ascending
  unfold insert
  dsimp only
  generalize partAt number holding.groups = parted at hparts
  obtain ⟨front, found, back⟩ := parted
  cases found with
  | none =>
    obtain ⟨result, hresult⟩ := Arena.newBody_modest hclean hmodest
    dsimp only
    rw [hresult]
    exact ⟨_, rfl⟩
  | some held =>
    have hmem : held ∈ holding.groups := by
      rw [hparts.items_eq]
      simp
    have hentries : ∀ other ∈ held.body.entries, Modest other.payload := by
      intro other hother
      refine hheld ⟨DocId.compose held.number other.member, other.payload⟩ ?_
      exact List.mem_flatMap.2 ⟨held, hmem, List.mem_map.2 ⟨other, hother, rfl⟩⟩
    obtain ⟨result, hresult⟩ :=
      Arena.put_modest hclean (h.groups held hmem).body hfits hmodest hentries
    dsimp only
    rw [hresult]
    exact ⟨_, rfl⟩

end InvertedIndex
