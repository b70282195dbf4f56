import InvertedIndex.Snapshot.SortedRuns
import Mathlib.Data.List.Basic
import Mathlib.Data.List.Pairwise
import Mathlib.Data.List.Perm.Subperm

/-!
# `Proofs.Snapshot.SortedRuns` — what a sorter returns

However small the budget is and in whatever order records arrive, a sorter returns them in strictly
ascending order of their keys, and of each key the record that arrived first. Neither sorting nor
merging exchanges records with equal keys: the runs one after another, and behind them what is still
held, have the records of each key in the order in which they arrived.

## Contents
- `sameKey`, `Sorted`, `StrictlySorted`: the order of the keys;
- `mergeRuns_eq_foldr`, `filter_mergeRuns`: merging keeps the order of records with equal keys;
- `dropDuplicates_spec`: of sorted records, the first of each key stays;
- `RunSorter.Holds`: the invariant; `RunSorter.Holds.push`;
- `RunSorter.mem_finish`: the records returned; `RunSorter.finish_congr`, `RunSorter.finish_spec`.
-/

namespace InvertedIndex
namespace RunSorter

variable {α : Type} [SortRecord α]

/-! ## The order of the keys -/

/-- The keys do not descend. -/
def Sorted (records : List α) : Prop := records.Pairwise fun a b => keyLE a b

/-- The keys strictly ascend. -/
def StrictlySorted (records : List α) : Prop :=
  records.Pairwise fun a b => SortRecord.compareKeys a b = .lt

/-- Whether the keys are equal. -/
def sameKey (a b : α) : Bool := SortRecord.compareKeys a b = .eq

theorem sameKey_iff {a b : α} : sameKey a b = true ↔ SortRecord.compareKeys a b = .eq :=
  decide_eq_true_iff

theorem compareKeys_eq_lt_of_keyLE {a b : α} (hle : keyLE a b) (hne : sameKey a b = false) :
    SortRecord.compareKeys a b = .lt := by
  unfold keyLE at hle
  unfold sameKey at hne
  cases hcompare : SortRecord.compareKeys a b with
  | lt => rfl
  | eq =>
    rw [hcompare] at hne
    cases hne
  | gt =>
    rw [hcompare] at hle
    cases hle

/-! ## Merging two by two -/

/-- What is taken first is what merging two by two gives first. -/
theorem foldr_merge_eq (runs : List (List α)) :
    runs.foldr (fun run merged => run.merge merged keyLE) [] = match takeLeast? runs with
      | none => []
      | some (least, others) =>
        least :: others.foldr (fun run merged => run.merge merged keyLE) [] := by
  induction runs with
  | nil => rfl
  | cons run runs ih =>
    rw [List.foldr_cons, ih]
    -- An empty run adds nothing; the front of another one is compared with the least of those
    -- behind it.
    cases run with
    | nil =>
      rw [List.nil_merge, takeLeast?]
      cases takeLeast? runs with
      | none => rfl
      | some taken =>
        simp only [Option.map_some, List.foldr_cons, List.nil_merge]
    | cons first rest =>
      rw [takeLeast?]
      cases htaken : takeLeast? runs with
      | none =>
        rw [htaken] at ih
        simp only [List.merge_right, List.foldr_cons, ih]
      | some taken =>
        rw [htaken] at ih
        by_cases hle : keyLE first taken.1
        · simp only [if_pos hle, List.cons_merge_cons_pos _ _ _ hle, List.foldr_cons, ih]
        · simp only [if_neg hle, List.cons_merge_cons_neg _ _ _ hle, List.foldr_cons]

/-- **Merging takes the runs together two by two**, from the last to the first. -/
theorem mergeRuns_eq_foldr (runs : List (List α)) :
    mergeRuns runs = runs.foldr (fun run merged => run.merge merged keyLE) [] := by
  fun_induction mergeRuns runs with
  | case1 runs hnone => rw [foldr_merge_eq, hnone]
  | case2 runs least others htaken ih => rw [foldr_merge_eq, htaken, ih]

theorem mergeRuns_nil : mergeRuns ([] : List (List α)) = [] := mergeRuns_eq_foldr []

theorem mergeRuns_cons (run : List α) (runs : List (List α)) :
    mergeRuns (run :: runs) = run.merge (mergeRuns runs) keyLE := by
  rw [mergeRuns_eq_foldr, mergeRuns_eq_foldr, List.foldr_cons]

/-! ## What a sorter holds -/

/-- The runs put aside one after another, and behind them what is held, have the records of each key
    in the order in which they arrived, and the runs are sorted. -/
structure Holds (sorter : RunSorter α) (arrived : List α) : Prop where
  same : ∀ key, (sorter.runs.reverse.flatten ++ sorter.held.reverse).filter (sameKey key)
    = arrived.filter (sameKey key)
  sorted : ∀ run ∈ sorter.runs, Sorted run

theorem holds_new (budget : Nat) : (new budget : RunSorter α).Holds [] :=
  ⟨fun _ => rfl, nofun⟩

/-- Nothing is returned where nothing arrived. -/
theorem finish_new (budget : Nat) : (new budget : RunSorter α).finish = [] := by
  show dropDuplicates (mergeRuns []) = []
  rw [mergeRuns_nil]
  rfl

/-- After the last run is put aside nothing is held. -/
theorem spill_held (sorter : RunSorter α) : sorter.spill.held = [] := by
  unfold RunSorter.spill
  split
  next hempty => exact List.isEmpty_iff.1 hempty
  · rfl

variable [Std.TransCmp (SortRecord.compareKeys (α := α))]

/-! ## Equal keys -/

theorem keyLE_trans (a b c : α) (hab : keyLE a b) (hbc : keyLE b c) : keyLE a c :=
  Std.TransCmp.isLE_trans hab hbc

theorem keyLE_total (a b : α) : (keyLE a b || keyLE b a) = true := by
  have hswap : SortRecord.compareKeys b a = (SortRecord.compareKeys a b).swap :=
    Std.OrientedCmp.eq_swap
  unfold keyLE
  rw [hswap]
  cases SortRecord.compareKeys a b <;> rfl

theorem sameKey_refl (a : α) : sameKey a a = true := sameKey_iff.2 Std.ReflCmp.compare_self

theorem sameKey_comm {a b : α} (h : sameKey a b = true) : sameKey b a = true :=
  sameKey_iff.2 (Std.OrientedCmp.eq_symm (sameKey_iff.1 h))

/-- Records with equal keys are told apart from others alike. -/
theorem sameKey_congr {a b : α} (h : sameKey a b = true) : sameKey a = sameKey b := by
  funext c
  unfold sameKey
  rw [Std.TransCmp.congr_left (sameKey_iff.1 h)]

/-- A smaller key is not the same. -/
theorem sameKey_eq_false_of_lt {a b : α} (h : SortRecord.compareKeys a b = .lt) (key : α)
    (hkey : sameKey key a = true) : sameKey key b = false := by
  rw [sameKey_congr hkey]
  unfold sameKey
  rw [h]
  rfl

theorem compareKeys_eq_lt_of_not_keyLE {a b : α} (h : ¬ keyLE a b) :
    SortRecord.compareKeys b a = .lt := by
  unfold keyLE at h
  have hswap : SortRecord.compareKeys b a = (SortRecord.compareKeys a b).swap :=
    Std.OrientedCmp.eq_swap
  rw [hswap]
  cases hcompare : SortRecord.compareKeys a b with
  | gt => rfl
  | lt | eq =>
    rw [hcompare] at h
    exact absurd rfl h

theorem StrictlySorted.nodup {records : List α} (h : StrictlySorted records) : records.Nodup := by
  refine h.imp ?_
  rintro a _ hlt rfl
  have hself : SortRecord.compareKeys a a = .eq := Std.ReflCmp.compare_self
  rw [hself] at hlt
  cases hlt

/-- Records in strict order are those of any other list in strict order with the same members. -/
theorem StrictlySorted.eq_of_mem_iff {records records' : List α} (h : StrictlySorted records)
    (h' : StrictlySorted records') (hmem : ∀ record, record ∈ records ↔ record ∈ records') :
    records = records' := by
  refine ((List.perm_ext_iff_of_nodup h.nodup h'.nodup).2 hmem).eq_of_pairwise ?_ h h'
  intro a b _ _ hab hba
  have hgt := Std.OrientedCmp.gt_of_lt hab
  rw [hba] at hgt
  cases hgt

/-! ## Merging in order -/

theorem sorted_mergeRuns {runs : List (List α)} (h : ∀ run ∈ runs, Sorted run) :
    Sorted (mergeRuns runs) := by
  induction runs with
  | nil =>
    rw [mergeRuns_nil]
    exact .nil
  | cons run rest ih =>
    obtain ⟨hrun, hrest⟩ := List.forall_mem_cons.1 h
    rw [mergeRuns_cons]
    exact List.pairwise_merge keyLE_trans keyLE_total _ _ hrun (ih hrest)

/-- Merged with other records, sorted records of a key come before the others of that key. -/
theorem filter_merge {records : List α} (h : Sorted records) (others : List α) (key : α) :
    (records.merge others keyLE).filter (sameKey key)
      = records.filter (sameKey key) ++ others.filter (sameKey key) := by
  induction records generalizing others with
  | nil => rw [List.nil_merge, List.filter_nil, List.nil_append]
  | cons first rest ih =>
    obtain ⟨hfirst, hrest⟩ := List.pairwise_cons.1 h
    induction others with
    | nil => rw [List.merge_right, List.filter_nil, List.append_nil]
    | cons other others ih' =>
      by_cases hle : keyLE first other
      · rw [List.cons_merge_cons_pos _ _ _ hle, List.filter_cons, List.filter_cons, ih hrest]
        split <;> rfl
      · rw [List.cons_merge_cons_neg _ _ _ hle, List.filter_cons, ih', List.filter_cons (x := other)]
        by_cases hkey : sameKey key other
        · -- The record taken is smaller than all that it overtakes.
          have hnone : (first :: rest).filter (sameKey key) = [] := by
            refine List.filter_eq_nil_iff.2 fun record hrecord => ?_
            have hlt := compareKeys_eq_lt_of_not_keyLE hle
            have hle' : keyLE first record := by
              rcases List.mem_cons.1 hrecord with rfl | hrecord
              · exact (Bool.or_self _).symm.trans (keyLE_total record record)
              · exact hfirst record hrecord
            rw [sameKey_eq_false_of_lt (Std.TransCmp.lt_of_lt_of_isLE hlt hle') key hkey]
            exact Bool.false_ne_true
          rw [hnone, if_pos hkey, if_pos hkey]
          rfl
        · rw [if_neg hkey, if_neg hkey]

/-- **Merging keeps records with equal keys in the order of their runs.** -/
theorem filter_mergeRuns {runs : List (List α)} (h : ∀ run ∈ runs, Sorted run) (key : α) :
    (mergeRuns runs).filter (sameKey key) = runs.flatten.filter (sameKey key) := by
  induction runs with
  | nil => rw [mergeRuns_nil, List.flatten_nil]
  | cons run rest ih =>
    obtain ⟨hrun, hrest⟩ := List.forall_mem_cons.1 h
    rw [mergeRuns_cons, filter_merge hrun, ih hrest, List.flatten_cons, List.filter_append]

/-- Sorting keeps records with equal keys in their order. -/
theorem filter_mergeSort (records : List α) (key : α) :
    (records.mergeSort keyLE).filter (sameKey key) = records.filter (sameKey key) := by
  have hsame : (records.filter (sameKey key)).Pairwise fun a b => keyLE a b := by
    refine List.pairwise_of_forall_mem_list fun a ha b hb => ?_
    have heq : sameKey a b = true := by
      rw [← sameKey_congr (List.mem_filter.1 ha).2]
      exact (List.mem_filter.1 hb).2
    unfold keyLE
    rw [sameKey_iff.1 heq]
    rfl
  have hsub := (List.sublist_mergeSort keyLE_trans keyLE_total hsame
    List.filter_sublist).filter (sameKey key)
  have hlength := ((List.mergeSort_perm records keyLE).filter (sameKey key)).length_eq
  simp only [List.filter_filter, Bool.and_self] at hsub
  exact (hsub.eq_of_length hlength.symm).symm

/-! ## Dropping duplicates -/

/-- A record with the key of the one before it is not the first with any key. -/
theorem find?_skip {last next : α} (h : sameKey last next) (rest : List α) (record : α) :
    (last :: next :: rest).find? (sameKey record) = (last :: rest).find? (sameKey record) := by
  by_cases hrecord : sameKey record last
  · rw [List.find?_cons_of_pos hrecord, List.find?_cons_of_pos hrecord]
  · have hnext : ¬ sameKey record next := by
      intro hsame
      rw [sameKey_congr hsame] at hrecord
      exact hrecord (sameKey_comm h)
    rw [List.find?_cons_of_neg hrecord, List.find?_cons_of_neg hnext,
      List.find?_cons_of_neg hrecord]

/-- Behind a record that was kept, the first of each later key stays. -/
theorem dropAfter_spec {last : α} {records : List α} (h : Sorted (last :: records)) :
    StrictlySorted (last :: dropDuplicates.dropAfter last records) ∧
      ∀ record, record ∈ last :: dropDuplicates.dropAfter last records ↔
        (last :: records).find? (sameKey record) = some record := by
  induction records generalizing last with
  | nil =>
    refine ⟨List.pairwise_singleton _ _, fun record => ?_⟩
    rw [dropDuplicates.dropAfter, List.mem_singleton, List.find?_singleton]
    constructor
    · rintro rfl
      rw [if_pos (sameKey_refl record)]
    · intro hfind
      split at hfind
      · exact (Option.some.inj hfind).symm
      · cases hfind
  | cons next rest ih =>
    obtain ⟨hlast, hsorted⟩ := List.pairwise_cons.1 h
    unfold dropDuplicates.dropAfter
    -- The next record is dropped if its key is that of the one before, which came first.
    by_cases heq : SortRecord.compareKeys last next = .eq
    · rw [if_pos heq]
      have hskip : Sorted (last :: rest) := h.sublist (.cons_cons _ (List.sublist_cons_self _ _))
      obtain ⟨hstrict, hmem⟩ := ih hskip
      refine ⟨hstrict, fun record => ?_⟩
      rw [hmem, find?_skip (sameKey_iff.2 heq)]
    · rw [if_neg heq]
      obtain ⟨hstrict, hmem⟩ := ih hsorted
      have hlt := compareKeys_eq_lt_of_keyLE (hlast next List.mem_cons_self) (decide_eq_false heq)
      -- Otherwise all later keys are larger, so none of them is that of `last`.
      have hbefore : ∀ record ∈ next :: rest, SortRecord.compareKeys last record = .lt := by
        intro record hrecord
        rcases List.mem_cons.1 hrecord with rfl | hrecord
        · exact hlt
        · exact Std.TransCmp.lt_of_lt_of_isLE hlt ((List.pairwise_cons.1 hsorted).1 record hrecord)
      have hkept : ∀ record ∈ next :: dropDuplicates.dropAfter next rest, record ∈ next :: rest :=
        fun record hrecord => List.mem_of_find?_eq_some ((hmem record).1 hrecord)
      refine ⟨List.pairwise_cons.2 ⟨fun a ha => hbefore a (hkept a ha), hstrict⟩, fun record => ?_⟩
      rw [List.mem_cons, hmem]
      by_cases hrecord : sameKey record last
      · rw [List.find?_cons_of_pos hrecord]
        constructor
        · rintro (rfl | hfind)
          · rfl
          · have hbehind := hbefore record (List.mem_of_find?_eq_some hfind)
            have hself := sameKey_eq_false_of_lt hbehind record hrecord
            rw [sameKey_refl] at hself
            cases hself
        · intro hfind
          exact .inl (Option.some.inj hfind).symm
      · rw [List.find?_cons_of_neg hrecord]
        refine or_iff_right ?_
        rintro rfl
        exact hrecord (sameKey_refl record)

/-- **Of sorted records, the first of each key stays.** -/
theorem dropDuplicates_spec {records : List α} (h : Sorted records) :
    StrictlySorted (dropDuplicates records) ∧ ∀ record, record ∈ dropDuplicates records ↔
      records.find? (sameKey record) = some record := by
  cases records with
  | nil => exact ⟨.nil, fun record => iff_of_false List.not_mem_nil nofun⟩
  | cons first rest => exact dropAfter_spec h

/-! ## Taking records -/

variable {sorter : RunSorter α} {arrived : List α}

theorem Holds.spill (h : sorter.Holds arrived) : sorter.spill.Holds arrived := by
  unfold RunSorter.spill
  split
  · exact h
  · refine ⟨fun key => ?_, ?_⟩
    · rw [← h.same key]
      simp only [List.reverse_cons, List.flatten_append, List.flatten_singleton, List.reverse_nil,
        List.append_nil, List.filter_append, filter_mergeSort]
    · exact List.forall_mem_cons.2 ⟨List.pairwise_mergeSort keyLE_trans keyLE_total _, h.sorted⟩

/-- **Each record taken is the last that arrived.** -/
theorem Holds.push (h : sorter.Holds arrived) (record : α) :
    (sorter.push record).Holds (arrived ++ [record]) := by
  have htaken : Holds { sorter with
      held := record :: sorter.held
      heldBytes := sorter.heldBytes + SortRecord.footprint record } (arrived ++ [record]) := by
    refine ⟨fun key => ?_, h.sorted⟩
    rw [List.reverse_cons, ← List.append_assoc, List.filter_append, h.same key, List.filter_append]
  unfold RunSorter.push
  dsimp only
  split
  · exact htaken.spill
  · exact htaken

theorem Holds.pushAll (h : sorter.Holds arrived) (records : List α) :
    (records.foldl RunSorter.push sorter).Holds (arrived ++ records) := by
  induction records generalizing sorter arrived with
  | nil => rwa [List.append_nil]
  | cons record rest ih =>
    have hrest := ih (h.push record)
    rwa [List.append_assoc] at hrest

/-! ## Returning them -/

theorem finish_strictlySorted (h : sorter.Holds arrived) : StrictlySorted sorter.finish :=
  (dropDuplicates_spec (sorted_mergeRuns fun run hrun =>
    h.spill.sorted run (List.mem_reverse.1 hrun))).1

/-- **What a sorter returns**: of each key, the record that arrived first. -/
theorem mem_finish (h : sorter.Holds arrived) {record : α} :
    record ∈ sorter.finish ↔ arrived.find? (sameKey record) = some record := by
  have hspilled := h.spill
  have hsorted : ∀ run ∈ sorter.spill.runs.reverse, Sorted run := fun run hrun =>
    hspilled.sorted run (List.mem_reverse.1 hrun)
  have hsame : (mergeRuns sorter.spill.runs.reverse).filter (sameKey record)
      = arrived.filter (sameKey record) := by
    rw [filter_mergeRuns hsorted, ← hspilled.same record, spill_held, List.reverse_nil,
      List.append_nil]
  rw [RunSorter.finish, (dropDuplicates_spec (sorted_mergeRuns hsorted)).2, ← List.head?_filter,
    hsame, List.head?_filter]

/-- Of each key, a sorter returns what arrived first. -/
theorem find?_finish (h : sorter.Holds arrived) (key : α) :
    sorter.finish.find? (sameKey key) = arrived.find? (sameKey key) := by
  cases hfound : sorter.finish.find? (sameKey key) with
  | some record =>
    have hfirst := (mem_finish h).1 (List.mem_of_find?_eq_some hfound)
    rw [sameKey_congr (List.find?_some hfound), hfirst]
  | none =>
    cases hfirst : arrived.find? (sameKey key) with
    | none => rfl
    | some record =>
      have hsame : sameKey key record = true := List.find?_some hfirst
      rw [sameKey_congr hsame] at hfirst
      exact absurd hsame (List.find?_eq_none.1 hfound record ((mem_finish h).2 hfirst))

/-- **Budgets and order do not matter**: sorters return the same if of each key the same record
    arrived first. -/
theorem finish_congr {sorter' : RunSorter α} {arrived' : List α} (h : sorter.Holds arrived)
    (h' : sorter'.Holds arrived')
    (hfirst : ∀ key, arrived.find? (sameKey key) = arrived'.find? (sameKey key)) :
    sorter.finish = sorter'.finish := by
  refine (finish_strictlySorted h).eq_of_mem_iff (finish_strictlySorted h') fun record => ?_
  rw [mem_finish h, mem_finish h', hfirst]

/-- The keys of all records that arrived are returned, each once and in order. -/
theorem finish_spec (h : sorter.Holds arrived) :
    StrictlySorted sorter.finish ∧ (∀ record ∈ sorter.finish, record ∈ arrived) ∧
      ∀ record ∈ arrived, ∃ kept ∈ sorter.finish, SortRecord.compareKeys kept record = .eq := by
  refine ⟨finish_strictlySorted h, ?_, ?_⟩
  · intro record hrecord
    exact List.mem_of_find?_eq_some ((mem_finish h).1 hrecord)
  · intro record hrecord
    have hsome : (arrived.find? (sameKey record)).isSome :=
      List.find?_isSome.2 ⟨record, hrecord, sameKey_refl record⟩
    obtain ⟨kept, hkept⟩ := Option.isSome_iff_exists.1 hsome
    have hsame : sameKey record kept = true := List.find?_some hkept
    refine ⟨kept, (mem_finish h).2 ?_, sameKey_iff.1 (sameKey_comm hsame)⟩
    rw [← sameKey_congr hsame, hkept]

/-- No more records are returned than arrived. -/
theorem finish_length_le (h : sorter.Holds arrived) : sorter.finish.length ≤ arrived.length := by
  obtain ⟨hstrict, hmem, -⟩ := finish_spec h
  exact (List.subperm_of_subset hstrict.nodup hmem).length_le

/-- A record that arrived alone is returned. -/
theorem finish_single {record : α} (h : sorter.Holds [record]) : sorter.finish = [record] := by
  obtain ⟨hstrict, hmem, hkept⟩ := finish_spec h
  obtain ⟨kept, hin, -⟩ := hkept record List.mem_cons_self
  obtain rfl := List.mem_singleton.1 (hmem kept hin)
  refine hstrict.eq_of_mem_iff (List.pairwise_singleton _ _) fun other => ⟨hmem other, ?_⟩
  intro hother
  rwa [List.mem_singleton.1 hother]

end RunSorter
end InvertedIndex
