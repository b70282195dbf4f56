import InvertedIndex.Snapshot.Draft
import Mathlib.Algebra.Ring.Nat
import Mathlib.Data.Finset.Card
import Mathlib.Data.List.SplitBy
import Mathlib.Data.List.Nodup

/-!
# `Proofs.Snapshot.Pieces` — sorted records cut where a key changes

The pieces that records are cut into make up the records again, none is empty, and all records of a
piece have its key. If the key never descends along the records, then the keys of the pieces
strictly ascend, so each piece holds all records with its key.

## Contents
- `Pieces`: what holds of any pieces; `cutBy_pieces`;
- `cutBy_ascending`: the keys of the pieces ascend;
- `Pieces.eq_filter`: the records that a piece holds; `Pieces.unique`;
- `Pieces.length_eq_card`, `Pieces.sum_length_eq_card`: how many pieces there are.
-/

namespace InvertedIndex

variable {κ : Type} {key : TermRecord → κ}

/-- Records in pieces, each with the key of all its records. -/
structure Pieces (key : TermRecord → κ) (pieces : List (κ × List TermRecord))
    (records : List TermRecord) : Prop where
  join : pieces.flatMap Prod.snd = records
  nonempty : ∀ piece ∈ pieces, piece.2 ≠ []
  key_eq : ∀ piece ∈ pieces, ∀ record ∈ piece.2, key record = piece.1

namespace Pieces

variable {pieces : List (κ × List TermRecord)} {records : List TermRecord}

/-- A piece is a part of the records, in the same order. -/
theorem sublist (h : Pieces key pieces records) {piece : κ × List TermRecord}
    (hpiece : piece ∈ pieces) : piece.2.Sublist records := by
  rw [← h.join, List.flatMap_def]
  exact List.sublist_flatten_of_mem (List.mem_map_of_mem hpiece)

/-- Each record is in a piece with its key. -/
theorem exists_mem (h : Pieces key pieces records) {record : TermRecord}
    (hrecord : record ∈ records) : ∃ piece ∈ pieces, piece.1 = key record ∧ record ∈ piece.2 := by
  rw [← h.join] at hrecord
  obtain ⟨piece, hpiece, hin⟩ := List.mem_flatMap.1 hrecord
  exact ⟨piece, hpiece, (h.key_eq piece hpiece record hin).symm, hin⟩

/-- Each piece has a record. -/
theorem exists_record (h : Pieces key pieces records) {piece : κ × List TermRecord}
    (hpiece : piece ∈ pieces) : ∃ record ∈ records, key record = piece.1 := by
  obtain ⟨record, rest, hrecord⟩ := List.exists_cons_of_ne_nil (h.nonempty piece hpiece)
  have hin : record ∈ piece.2 := by
    rw [hrecord]
    exact List.mem_cons_self
  exact ⟨record, (h.sublist hpiece).subset hin, h.key_eq piece hpiece record hin⟩

/-- The keys of pieces that ascend differ. -/
theorem keys_nodup {lt : κ → κ → Prop} (hirrefl : ∀ k, ¬ lt k k)
    (hasc : pieces.Pairwise fun a b => lt a.1 b.1) : (pieces.map Prod.fst).Nodup := by
  refine List.pairwise_map.2 (hasc.imp ?_)
  intro a b hlt heq
  rw [heq] at hlt
  exact hirrefl _ hlt

/-- If the keys of the pieces differ, a piece holds all records with its key. -/
theorem mem_iff (h : Pieces key pieces records) {lt : κ → κ → Prop} (hirrefl : ∀ k, ¬ lt k k)
    (hasc : pieces.Pairwise fun a b => lt a.1 b.1) {piece : κ × List TermRecord}
    (hpiece : piece ∈ pieces) {record : TermRecord} :
    record ∈ piece.2 ↔ record ∈ records ∧ key record = piece.1 := by
  constructor
  · intro hin
    exact ⟨(h.sublist hpiece).subset hin, h.key_eq piece hpiece record hin⟩
  · rintro ⟨hrecord, hkey⟩
    obtain ⟨other, hother, hsame, hin⟩ := h.exists_mem hrecord
    have heq : other = piece :=
      List.inj_on_of_nodup_map (keys_nodup hirrefl hasc) hother hpiece (hsame.trans hkey)
    exact heq ▸ hin

/-- The records with a key that no piece has are none. -/
theorem filter_eq_nil [DecidableEq κ] (h : Pieces key pieces records) {k : κ}
    (hk : ∀ piece ∈ pieces, piece.1 ≠ k) : records.filter (fun record => key record = k) = [] := by
  refine List.filter_eq_nil_iff.2 fun record hrecord hkey => ?_
  obtain ⟨piece, hpiece, hsame, -⟩ := h.exists_mem hrecord
  exact hk piece hpiece (hsame.trans (of_decide_eq_true hkey))

/-- The pieces behind the first are pieces of the records behind its records. -/
theorem tail {piece : κ × List TermRecord} {rest : List (κ × List TermRecord)}
    (h : Pieces key (piece :: rest) records) : Pieces key rest (rest.flatMap Prod.snd) where
  join := rfl
  nonempty other hother := h.nonempty other (List.mem_cons_of_mem _ hother)
  key_eq other hother := h.key_eq other (List.mem_cons_of_mem _ hother)

/-- **A piece is all records with its key, in their order.** -/
theorem eq_filter [DecidableEq κ] (h : Pieces key pieces records)
    (hnodup : (pieces.map Prod.fst).Nodup) {piece : κ × List TermRecord} (hpiece : piece ∈ pieces) :
    piece.2 = records.filter fun record => key record = piece.1 := by
  have hsame : piece.2.filter (fun record => key record = piece.1) = piece.2 :=
    List.filter_eq_self.2 fun record hrecord => decide_eq_true (h.key_eq piece hpiece record hrecord)
  rw [← h.join]
  induction pieces generalizing records with
  | nil => cases hpiece
  | cons first rest ih =>
    obtain ⟨hfirst, hrest⟩ := List.nodup_cons.1 hnodup
    rw [List.flatMap_cons, List.filter_append]
    rcases List.mem_cons.1 hpiece with rfl | hlater
    · have hnone : (rest.flatMap Prod.snd).filter (fun record => key record = piece.1) = [] :=
        h.tail.filter_eq_nil fun other hother heq =>
          hfirst (List.mem_map.2 ⟨other, hother, heq⟩)
      rw [hsame, hnone, List.append_nil]
    · have hnone : first.2.filter (fun record => key record = piece.1) = [] := by
        refine List.filter_eq_nil_iff.2 fun record hrecord hkey => ?_
        have hkey' := h.key_eq first List.mem_cons_self record hrecord
        refine hfirst (List.mem_map.2 ⟨piece, hlater, ?_⟩)
        rw [← hkey', of_decide_eq_true hkey]
      rw [hnone, List.nil_append]
      exact ih h.tail hrest hlater

/-- The pieces with keys that ascend: for each key of a record, the records with that key. -/
theorem mem_pieces_iff [DecidableEq κ] (h : Pieces key pieces records)
    (hnodup : (pieces.map Prod.fst).Nodup) {piece : κ × List TermRecord} :
    piece ∈ pieces ↔ (∃ record ∈ records, key record = piece.1) ∧
      piece.2 = records.filter fun record => key record = piece.1 := by
  constructor
  · intro hpiece
    exact ⟨h.exists_record hpiece, h.eq_filter hnodup hpiece⟩
  · rintro ⟨⟨record, hrecord, hkey⟩, hfilter⟩
    obtain ⟨other, hother, hsame, -⟩ := h.exists_mem hrecord
    have heq : other = piece := by
      refine Prod.ext (hsame.trans hkey) ?_
      rw [h.eq_filter hnodup hother, hfilter, hsame.trans hkey]
    exact heq ▸ hother

/-- **Records are cut into pieces with ascending keys in one way only.** -/
theorem unique [DecidableEq κ] {pieces' : List (κ × List TermRecord)}
    (h : Pieces key pieces records) (h' : Pieces key pieces' records) {lt : κ → κ → Prop}
    (hirrefl : ∀ k, ¬ lt k k) (htrans : ∀ a b c, lt a b → lt b c → lt a c)
    (hasc : pieces.Pairwise fun a b => lt a.1 b.1)
    (hasc' : pieces'.Pairwise fun a b => lt a.1 b.1) : pieces = pieces' := by
  have hnodup := keys_nodup hirrefl hasc
  have hnodup' := keys_nodup hirrefl hasc'
  have hperm := (List.perm_ext_iff_of_nodup hnodup.of_map hnodup'.of_map).2 fun piece =>
    (h.mem_pieces_iff hnodup).trans (h'.mem_pieces_iff hnodup').symm
  refine hperm.eq_of_pairwise ?_ hasc hasc'
  intro a b _ _ hab hba
  exact absurd (htrans _ _ _ hab hba) (hirrefl _)

/-- There are as many pieces as keys. -/
theorem length_eq_card [DecidableEq κ] (h : Pieces key pieces records)
    (hnodup : (pieces.map Prod.fst).Nodup) : pieces.length = (records.map key).toFinset.card := by
  have hkeys : (records.map key).toFinset = (pieces.map Prod.fst).toFinset := by
    ext k
    rw [List.mem_toFinset, List.mem_toFinset, List.mem_map, List.mem_map]
    constructor
    · rintro ⟨record, hrecord, rfl⟩
      obtain ⟨piece, hpiece, hkey, -⟩ := h.exists_mem hrecord
      exact ⟨piece, hpiece, hkey⟩
    · rintro ⟨piece, hpiece, rfl⟩
      exact h.exists_record hpiece
  rw [hkeys, List.toFinset_card_of_nodup hnodup, List.length_map]

/-- Pieces cut once more are pieces for both keys. -/
theorem cut {μ : Type} {key' : TermRecord → μ} {parts : List TermRecord → List (μ × List TermRecord)}
    (h : Pieces key pieces records) (hparts : ∀ piece ∈ pieces, Pieces key' (parts piece.2) piece.2) :
    Pieces (fun record => (key record, key' record))
      (pieces.flatMap fun piece => (parts piece.2).map fun part => ((piece.1, part.1), part.2))
      records := by
  refine ⟨?_, ?_, ?_⟩
  · rw [List.flatMap_assoc]
    refine Eq.trans (List.flatMap_congr fun piece hpiece => ?_) h.join
    rw [List.flatMap_map]
    exact (hparts piece hpiece).join
  · intro part hpart
    obtain ⟨piece, hpiece, hin⟩ := List.mem_flatMap.1 hpart
    obtain ⟨inner, hinner, rfl⟩ := List.mem_map.1 hin
    exact (hparts piece hpiece).nonempty inner hinner
  · intro part hpart record hrecord
    obtain ⟨piece, hpiece, hin⟩ := List.mem_flatMap.1 hpart
    obtain ⟨inner, hinner, rfl⟩ := List.mem_map.1 hin
    refine Prod.ext (h.key_eq piece hpiece record ?_) ((hparts piece hpiece).key_eq inner hinner
      record hrecord)
    exact ((hparts piece hpiece).sublist hinner).subset hrecord

/-- **Cut twice, there are as many pieces as pairs of keys.** -/
theorem sum_length_eq_card {μ : Type} [DecidableEq κ] [DecidableEq μ] {key' : TermRecord → μ}
    {parts : List TermRecord → List (μ × List TermRecord)} (h : Pieces key pieces records)
    (hparts : ∀ piece ∈ pieces, Pieces key' (parts piece.2) piece.2)
    (hnodup : (pieces.map Prod.fst).Nodup)
    (hnodup' : ∀ piece ∈ pieces, ((parts piece.2).map Prod.fst).Nodup) :
    (pieces.map fun piece => (parts piece.2).length).sum
      = (records.map fun record => (key record, key' record)).toFinset.card := by
  rw [← (h.cut hparts).length_eq_card ?_, List.length_flatMap]
  · simp only [List.length_map]
  · rw [List.map_flatMap]
    refine List.nodup_flatMap.2 ⟨fun piece hpiece => ?_, ?_⟩
    · rw [List.map_map]
      refine List.Nodup.of_map Prod.snd ?_
      rw [List.map_map]
      exact hnodup' piece hpiece
    · refine (List.pairwise_map.1 hnodup).imp ?_
      intro a b hne pair hpair hpair'
      -- The first keys of a pair tell from which piece it comes.
      rw [List.mem_map] at hpair hpair'
      obtain ⟨_, hin, rfl⟩ := hpair
      obtain ⟨_, hin', hsame⟩ := hpair'
      obtain ⟨part, -, rfl⟩ := List.mem_map.1 hin
      obtain ⟨part', -, rfl⟩ := List.mem_map.1 hin'
      exact hne (congrArg Prod.fst hsame).symm

/-- What is written for each piece in proportion to its records is written in proportion to all. -/
theorem flatMap_length_le (h : Pieces key pieces records) {f : κ × List TermRecord → Bytes}
    {c : Nat} (hf : ∀ piece ∈ pieces, (f piece).length ≤ c * piece.2.length) :
    (pieces.flatMap f).length ≤ c * records.length := by
  rw [← h.join]
  clear h
  induction pieces with
  | nil => simp
  | cons piece rest ih =>
    obtain ⟨hpiece, hrest⟩ := List.forall_mem_cons.1 hf
    have hbehind := ih hrest
    rw [List.flatMap_cons, List.flatMap_cons, List.length_append, List.length_append, Nat.mul_add]
    omega

end Pieces

/-! ## Cutting -/

/-- Parts of records, each with the key of its first record. -/
def keyed (key : TermRecord → κ) (parts : List (List TermRecord)) : List (κ × List TermRecord) :=
  parts.filterMap fun part => part.head?.map fun first => (key first, part)

@[simp] theorem keyed_nil : keyed key [] = [] := rfl

@[simp] theorem keyed_cons (first : TermRecord) (rest : List TermRecord)
    (parts : List (List TermRecord)) :
    keyed key ((first :: rest) :: parts) = (key first, first :: rest) :: keyed key parts := rfl

/-- Along a chain of equal keys all keys are that of the first record. -/
theorem key_eq_head {first : TermRecord} {rest : List TermRecord}
    (h : (first :: rest).IsChain fun a b => key a = key b) :
    ∀ record ∈ first :: rest, key record = key first := by
  induction rest generalizing first with
  | nil => simp
  | cons second rest ih =>
    obtain ⟨heq, hchain⟩ := List.isChain_cons_cons.1 h
    intro record hrecord
    rcases List.mem_cons.1 hrecord with rfl | hlater
    · rfl
    · exact (ih hchain record hlater).trans heq.symm

theorem keyed_pieces {parts : List (List TermRecord)} (hne : [] ∉ parts)
    (hchain : ∀ part ∈ parts, part.IsChain fun a b => key a = key b) :
    Pieces key (keyed key parts) parts.flatten := by
  induction parts with
  | nil => exact ⟨rfl, by simp, by simp⟩
  | cons part parts ih =>
    obtain ⟨hpart, hparts⟩ := List.forall_mem_cons.1 hchain
    obtain ⟨first, rest, rfl⟩ := List.exists_cons_of_ne_nil fun h : part = [] => hne (by simp [h])
    have hih := ih (fun h => hne (List.mem_cons_of_mem _ h)) hparts
    refine ⟨?_, ?_, ?_⟩
    · rw [keyed_cons, List.flatMap_cons, hih.join, List.flatten_cons]
    · simp only [keyed_cons, List.forall_mem_cons]
      exact ⟨List.cons_ne_nil _ _, hih.nonempty⟩
    · simp only [keyed_cons, List.forall_mem_cons (a := (key first, first :: rest))]
      exact ⟨key_eq_head hpart, hih.key_eq⟩

/-- Parts with different keys next to each other have ascending keys if no key descends. -/
theorem keyed_ascending {lt : κ → κ → Prop} (htrans : ∀ a b c, lt a b → lt b c → lt a c)
    {parts : List (List TermRecord)} (hne : [] ∉ parts)
    (hchain : ∀ part ∈ parts, part.IsChain fun a b => key a = key b)
    (hdiffer : parts.IsChain fun a b =>
      ∃ ha hb, key (a.getLast ha) ≠ key (b.head hb))
    (hsorted : parts.flatten.Pairwise fun a b => key a = key b ∨ lt (key a) (key b)) :
    (keyed key parts).Pairwise fun a b => lt a.1 b.1 := by
  induction parts with
  | nil => exact .nil
  | cons part parts ih =>
    obtain ⟨hpart, hparts⟩ := List.forall_mem_cons.1 hchain
    obtain ⟨first, rest, rfl⟩ := List.exists_cons_of_ne_nil fun h : part = [] => hne (by simp [h])
    have hne' : [] ∉ parts := fun h => hne (List.mem_cons_of_mem _ h)
    rw [List.flatten_cons, List.pairwise_append] at hsorted
    have hbehind := ih hne' hparts hdiffer.tail hsorted.2.1
    rw [keyed_cons]
    refine List.pairwise_cons.2 ⟨?_, hbehind⟩
    -- It is enough to compare with the next part: the later ones have larger keys still.
    cases parts with
    | nil => simp
    | cons next parts =>
      obtain ⟨second, more, rfl⟩ :=
        List.exists_cons_of_ne_nil fun h : next = [] => hne' (by simp [h])
      obtain ⟨⟨hlast, _, hkeys⟩, -⟩ := List.isChain_cons_cons.1 hdiffer
      have hnext : lt (key first) (key second) := by
        have hmem := List.getLast_mem hlast
        have hfirst := key_eq_head hpart _ hmem
        rcases hsorted.2.2 _ hmem second (by simp) with heq | hlt
        · exact absurd heq hkeys
        · rwa [hfirst] at hlt
      rw [keyed_cons] at hbehind ⊢
      intro piece hpiece
      rcases List.mem_cons.1 hpiece with rfl | hlater
      · exact hnext
      · exact htrans _ _ _ hnext ((List.pairwise_cons.1 hbehind).1 piece hlater)

section Cut

variable [DecidableEq κ] {records : List TermRecord}

theorem splitBy_chain (key : TermRecord → κ) (records : List TermRecord) :
    ∀ part ∈ records.splitBy (fun a b => decide (key a = key b)),
      part.IsChain fun a b => key a = key b := by
  intro part hpart
  exact (List.isChain_of_mem_splitBy hpart).imp fun a b h => of_decide_eq_true h

/-- Cutting gives pieces of the records. -/
theorem cutBy_pieces (key : TermRecord → κ) (records : List TermRecord) :
    Pieces key (cutBy key records) records := by
  have h := keyed_pieces (List.nil_notMem_splitBy _ records) (splitBy_chain key records)
  rwa [List.flatten_splitBy] at h

/-- **Cut at a key that never descends, the pieces have ascending keys.** -/
theorem cutBy_ascending {lt : κ → κ → Prop} (htrans : ∀ a b c, lt a b → lt b c → lt a c)
    (hsorted : records.Pairwise fun a b => key a = key b ∨ lt (key a) (key b)) :
    (cutBy key records).Pairwise fun a b => lt a.1 b.1 := by
  have hcut : cutBy key records = keyed key (records.splitBy fun a b => decide (key a = key b)) :=
    rfl
  rw [hcut]
  refine keyed_ascending htrans (List.nil_notMem_splitBy _ records)
    (splitBy_chain key records) ?_ ?_
  · refine (List.isChain_getLast_head_splitBy _ records).imp ?_
    rintro a b ⟨ha, hb, hne⟩
    exact ⟨ha, hb, of_decide_eq_false hne⟩
  · rwa [List.flatten_splitBy]

end Cut
end InvertedIndex
