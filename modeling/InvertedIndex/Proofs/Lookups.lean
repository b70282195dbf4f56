import InvertedIndex.Proofs.Query.Answers
import InvertedIndex.Proofs.Snapshot.ByteOrder
import InvertedIndex.Proofs.Snapshot.Verified

/-!
# `Proofs.Lookups` — what is found for a term and for a stem

A catalog is searched for a stem from the first term that is not below it, and only as far as terms
have the stem. Nothing is missed that way: the entries found are those that a scan of the whole
catalog keeps, in the same order. Live postings are in order because their map is. An opened
snapshot is in order because opening it checked so, whatever its files contain.

## Contents
- `Catalog.withStem_eq_filter`, `Catalog.stemCursor_eq`: the search as a scan;
- `Postings.termsWithStem_eq`, `Postings.stemCursor_ids`: live postings;
- `Snapshot.terms_eq`, `Snapshot.contains_iff`, `Snapshot.stemCursor_eq`: opened snapshots;
- `lookups_complete`: both.
-/

namespace InvertedIndex

/-! ## The search as a scan -/

namespace Catalog

variable {L : Type}

/-- The terms of a catalog. -/
def terms (catalog : Catalog L) : List String := catalog.entries.map Prod.fst

theorem entries_nodup (catalog : Catalog L) : catalog.entries.Nodup := by
  refine catalog.ascending.imp ?_
  rintro a b hlt rfl
  exact String.lt_irrefl _ hlt

/-- **Searching for a stem misses nothing**: it finds what a scan of all entries keeps. -/
theorem withStem_eq_filter (catalog : Catalog L) (stem : String) :
    catalog.withStem stem = catalog.entries.filter fun entry => hasStem stem entry.1 := by
  -- One is a part of the other, and they have the same members, each once.
  have hpart : (catalog.withStem stem).Sublist
      (catalog.entries.filter fun entry => hasStem stem entry.1) := by
    have hkept : (catalog.withStem stem).filter (fun entry => hasStem stem entry.1)
        = catalog.withStem stem :=
      List.filter_eq_self.2 fun entry hentry => (catalog.mem_withStem.1 hentry).2
    rw [← hkept]
    exact ((List.takeWhile_sublist _).trans (List.dropWhile_sublist _)).filter _
  refine hpart.eq_of_length_le ?_
  have hnodup := catalog.entries_nodup.filter fun entry => hasStem stem entry.1
  refine (List.subperm_of_subset hnodup ?_).length_le
  intro entry hentry
  exact catalog.mem_withStem.2 (List.mem_filter.1 hentry)

/-- The terms found for a stem are those that have it. -/
theorem withStem_terms (catalog : Catalog L) (stem : String) :
    (catalog.withStem stem).map Prod.fst = catalog.terms.filter (hasStem stem) := by
  rw [withStem_eq_filter, terms, List.filter_map]
  rfl

/-- The cursor of a stem unites the cursors of the terms that have it. -/
theorem stemCursor_eq (catalog : Catalog L) (stem : String) :
    catalog.stemCursor stem
      = Cursor.wildcard ((catalog.terms.filter (hasStem stem)).map catalog.cursor) := by
  rw [stemCursor, ← withStem_terms, List.map_map]
  refine congrArg Cursor.wildcard (List.map_congr_left ?_)
  intro entry hentry
  exact (catalog.cursor_of_mem (catalog.mem_withStem.1 hentry).1).symm

/-- The terms of a catalog ascend byte by byte. -/
theorem terms_ascending (catalog : Catalog L) :
    catalog.terms.Pairwise fun a b => textBytes a < textBytes b := by
  refine List.pairwise_map.2 (catalog.ascending.imp ?_)
  intro a b hlt
  exact textBytes_lt hlt

end Catalog

/-! ## Live postings -/

namespace Postings

variable {postings : Postings}

/-- The terms found for a stem are those of the catalog that have it. -/
theorem termsWithStem_eq (postings : Postings) (stem : String) :
    postings.termsWithStem stem = postings.catalog.terms.filter (hasStem stem) := by
  rw [← Catalog.withStem_terms, termsWithStem, holdingsWithStem, Catalog.withStem]
  simp only [catalog, List.dropWhile_map, List.takeWhile_map, List.map_map]
  rfl

theorem mem_catalog_terms {term : String} :
    term ∈ postings.catalog.terms ↔ postings.contains term = true := by
  rw [contains, Std.TreeMap.contains_iff_mem, ← Std.TreeMap.isSome_getElem?_iff_mem,
    Option.isSome_iff_exists, Catalog.terms, List.mem_map]
  constructor
  · rintro ⟨⟨_, walk⟩, hentry, rfl⟩
    obtain ⟨holding, hholding, -⟩ := mem_catalog.1 hentry
    exact ⟨holding, hholding⟩
  · rintro ⟨holding, hholding⟩
    exact ⟨(term, Walk.ofGroups holding.groups), mem_catalog.2 ⟨holding, hholding, rfl⟩, rfl⟩

theorem mem_termsWithStem {stem term : String} : term ∈ postings.termsWithStem stem
    ↔ postings.contains term = true ∧ stem.toList <+: term.toList := by
  rw [termsWithStem_eq, List.mem_filter, mem_catalog_terms, Catalog.hasStem_iff]

/-- The ids of a stem are those of the terms found for it, in order. -/
theorem Tracks.stemCursor_ids {ledger : Ledger} (h : postings.Tracks ledger) (stem : String) :
    (IdStream.ids (postings.stemCursor stem)).Pairwise (· < ·) ∧
      ∀ id, id ∈ IdStream.ids (postings.stemCursor stem)
        ↔ ∃ term ∈ postings.termsWithStem stem, (postings.find? term id).isSome := by
  obtain ⟨hasc, hids⟩ := (h.answers.stemCursor stem).ids
  refine ⟨hasc, fun id => (hids id).trans (exists_congr fun term => ?_)⟩
  rw [mem_termsWithStem, ← mem_ids, and_assoc]
  exact Iff.rfl

end Postings

/-! ## Opened snapshots -/

namespace Snapshot

variable {snapshot : Snapshot}

/-- The terms of an ordered snapshot are those of its catalog. -/
theorem terms_eq (h : snapshot.Ordered) : snapshot.terms = (snapshot.catalog h).terms := by
  rw [terms, Catalog.terms, catalog, List.map_map]
  rfl

theorem contains_iff (h : snapshot.Ordered) {term : String} :
    snapshot.contains term = true ↔ term ∈ snapshot.terms := by
  rw [← walk?_isSome h, walk?, Option.isSome_map]
  rfl

/-- The cursor of a stem unites the cursors of the terms that have it. -/
theorem stemCursor_eq (h : snapshot.Ordered) (stem : String) : snapshot.stemCursor stem
    = Cursor.wildcard ((snapshot.terms.filter (hasStem stem)).map snapshot.cursor) := by
  have hserves := catalog_serves h
  calc snapshot.stemCursor stem
      = (snapshot.catalog h).stemCursor stem := hserves.stemCursor stem
    _ = Cursor.wildcard ((snapshot.terms.filter (hasStem stem)).map
          (snapshot.catalog h).cursor) := by rw [Catalog.stemCursor_eq, terms_eq h]
    _ = _ := by rw [← funext hserves.cursor]; rfl

end Snapshot

/-! ## Both -/

/-- **Terms are found by name and by stem, all of them and no others.** After any changes of live
    postings, accepted or refused, the terms found for a stem are those stored that begin with it, in
    the order of their bytes, and the cursor of the stem visits the ids of all of them. In any
    snapshot that can be opened, whatever is in its files, the terms ascend in the order of their
    bytes, those listed are found, and the cursor of a stem unites those of the terms listed that
    begin with it. -/
theorem lookups_complete :
    (∀ (changes : List Change) (stem : String),
      let postings := Postings.run changes
      let found := postings.termsWithStem stem
      let ids := IdStream.ids (postings.stemCursor stem)
      found.Pairwise (fun a b => textBytes a < textBytes b) ∧
        (∀ term, term ∈ found ↔ postings.contains term ∧ stem.toList <+: term.toList) ∧
        ids.Pairwise (· < ·) ∧
        ∀ id, id ∈ ids ↔ ∃ term ∈ found, (postings.find? term id).isSome) ∧
    ∀ base settings files snapshot, Snapshot.open? base settings files = .ok snapshot →
      snapshot.terms.Pairwise (fun a b => textBytes a < textBytes b) ∧
        (∀ term, snapshot.contains term ↔ term ∈ snapshot.terms) ∧
        ∀ stem, snapshot.stemCursor stem = Cursor.wildcard
          ((snapshot.terms.filter fun term => stem.toList <+: term.toList).map
            snapshot.cursor) := by
  constructor
  · intro changes stem postings found ids
    obtain ⟨ledger, htracks⟩ := Postings.exists_tracks_run changes
    obtain ⟨hasc, hids⟩ := htracks.stemCursor_ids stem
    refine ⟨?_, fun _ => Postings.mem_termsWithStem, hasc, hids⟩
    show (postings.termsWithStem stem).Pairwise _
    rw [postings.termsWithStem_eq]
    exact postings.catalog.terms_ascending.filter _
  · intro base settings files snapshot hopen
    obtain ⟨hordered, -⟩ := Snapshot.open?_eq_ok hopen
    refine ⟨?_, fun _ => Snapshot.contains_iff hordered, fun stem => ?_⟩
    · rw [Snapshot.terms_eq hordered]
      exact Catalog.terms_ascending _
    · rw [Snapshot.stemCursor_eq hordered]
      refine congrArg (fun terms => Cursor.wildcard (List.map snapshot.cursor terms)) ?_
      refine List.filter_congr ?_
      intro term _
      rw [Bool.eq_iff_iff, Catalog.hasStem_iff, decide_eq_true_iff]

/-- An elm, an oak and some oaks, each in one document. -/
def oakImages : List TermImage :=
  ["elm", "oak", "oaks"].map fun term => ⟨term, [0, 0, 2, 0x53, 0], 1, 1, 0⟩

def oakFiles : SnapshotFiles := fun
  | .termIndex => some (termIndex regionHeader oakImages)
  | .termData => some (termData oakImages)
  | _ => some []

theorem lookups_complete_oaks : ∃ snapshot, Snapshot.open? "oaks" {} oakFiles = .ok snapshot ∧
    snapshot.terms = ["elm", "oak", "oaks"] ∧ snapshot.contains "oak" ∧ ¬ snapshot.contains "oa" ∧
    snapshot.stemCursor "oak"
      = Cursor.wildcard [snapshot.cursor "oak", snapshot.cursor "oaks"] := by
  have hgroups : TermData.HoldsGroups [0, 0, 2, 0x53, 0] [⟨0, [⟨5, .value 3, []⟩]⟩] :=
    .cons rfl (.cons rfl rfl .nil) .nil
  have hasc : EncodedGroup.Ordered [⟨0, [⟨5, .value 3, []⟩]⟩] :=
    ⟨List.pairwise_singleton _ _, List.forall_mem_singleton.2 (List.pairwise_singleton _ _)⟩
  have hsound : ∀ image ∈ oakImages, TermData.flaw? image.data = none :=
    List.forall_mem_map.2 fun _ _ => TermData.flaw?_eq_none_iff.2 ⟨_, hgroups, hasc⟩
  have hfindable : ∀ image ∈ oakImages, image.Findable := by
    refine List.forall_mem_map.2 fun term hterm => ⟨?_, ?_⟩
    · revert term
      decide
    · show List.length ([0, 0, 2, 0x53, 0] : Bytes) < 2 ^ 32
      decide
  have hread : Snapshot.read {} oakFiles
      = .ok ⟨[], [], (oakImages.map TermImage.slot).toArray⟩ :=
    Snapshot.read_eq_ok rfl rfl rfl rfl rfl (Snapshot.globalsFault?_nil _ _) (by decide) hfindable
      (by decide) hsound {}
  have hopen : Snapshot.open? "oaks" {} oakFiles
      = .ok ⟨[], [], (oakImages.map TermImage.slot).toArray⟩ := by
    rw [Snapshot.open?, hread]
  obtain ⟨-, hcontains, hstem⟩ := lookups_complete.2 _ _ _ _ hopen
  refine ⟨_, hopen, rfl, (hcontains _).2 (by decide), ?_, hstem "oak"⟩
  rw [hcontains]
  decide

end InvertedIndex
