import InvertedIndex.Proofs.DocId
import InvertedIndex.Proofs.Postings.Parted
import InvertedIndex.Snapshot.Check
import InvertedIndex.Snapshot.Walk

/-!
# `Proofs.Snapshot.Check` — what the check of the data accepts

The check goes through the data of a term and reports the first flaw. It finds none exactly if the
data consists of whole groups and these of whole entries, both ascending by number. Each number is
compared with the one before it; the first has none before it and passes, whatever it is.

## Contents
- `TermData.bodyFlaw?_of_some`, `TermData.dataFlaw?_of_some`: the check, step by step;
- `EncodedEntry`, `EncodedGroup`; `TermData.HoldsEntries`, `TermData.HoldsGroups`: of what bytes
  consist, which is one list of groups only (`HoldsGroups.unique`);
- `TermData.flaw?_eq_none_iff`: the data that passes the check;
- `HoldsGroups.landingsAll_ascending`: its ids ascend.
-/

namespace InvertedIndex
namespace TermData

/-! ## The check, step by step -/

section Steps

variable {stop : Nat} {last : Option UInt16} {body data : Bytes}

@[simp] theorem bodyFlaw?_nil (stop : Nat) (last : Option UInt16) :
    bodyFlaw? stop last [] = none := by
  unfold bodyFlaw?
  rfl

theorem bodyFlaw?_of_none (hbody : body ≠ []) (h : decodeMember? body = none) :
    bodyFlaw? stop last body = some (.badEntry (stop - body.length)) := by
  unfold bodyFlaw?
  rw [if_neg (by simpa using hbody)]
  dsimp only
  split
  · rfl
  next hsome =>
    rw [h] at hsome
    cases hsome

theorem bodyFlaw?_of_some {entry : DecodedEntry} (h : decodeMember? body = some entry) :
    bodyFlaw? stop last body =
      if last.any (entry.member ≤ ·) then some (.entryOrder (stop - body.length))
      else if entry.content.occurrences?.isNone then some (.badList (stop - body.length))
      else bodyFlaw? stop (some entry.member) entry.rest := by
  have hlength := decodeMember?_length h
  have hbody : ¬ body.isEmpty := by
    rw [List.isEmpty_iff]
    rintro rfl
    simp at hlength
  rw [bodyFlaw?, if_neg hbody]
  dsimp only
  split
  next hnone =>
    rw [h] at hnone
    cases hnone
  next hsome =>
    rw [h] at hsome
    cases hsome
    rfl

@[simp] theorem dataFlaw?_nil (stop : Nat) (last : Option UInt16) :
    dataFlaw? stop last [] = none := by
  unfold dataFlaw?
  rfl

theorem dataFlaw?_of_none (hdata : data ≠ []) (h : decodeGroup? data = none) :
    dataFlaw? stop last data = some (.badGroup (stop - data.length)) := by
  unfold dataFlaw?
  rw [if_neg (by simpa using hdata)]
  split
  · rfl
  next hsome =>
    rw [h] at hsome
    cases hsome

theorem dataFlaw?_of_some {group : DecodedGroup} (h : decodeGroup? data = some group) :
    dataFlaw? stop last data =
      if last.any (group.number ≤ ·) then some (.groupOrder group.number)
      else (bodyFlaw? (stop - group.rest.length) none group.body).or
        (dataFlaw? stop (some group.number) group.rest) := by
  have hlength := decodeGroup?_length h
  have hdata : ¬ data.isEmpty := by
    rw [List.isEmpty_iff]
    rintro rfl
    simp at hlength
  rw [dataFlaw?, if_neg hdata]
  split
  next hnone =>
    rw [h] at hnone
    cases hnone
  next hsome =>
    rw [h] at hsome
    cases hsome
    cases bodyFlaw? (stop - group.rest.length) none group.body <;> rfl

end Steps

end TermData

/-! ## Data that can be read to its end -/

/-- An entry, as read. -/
structure EncodedEntry where
  member : UInt16
  content : TermData.Content
  occurrences : List Occurrence

/-- The posting of an entry of the group with the number. -/
def EncodedEntry.landing (number : UInt16) (entry : EncodedEntry) : SnapshotLanding :=
  ⟨DocId.compose number entry.member, entry.content.bareValue, entry.occurrences⟩

/-- A group, as read. -/
structure EncodedGroup where
  number : UInt16
  entries : List EncodedEntry

namespace EncodedGroup

/-- The postings of a group. -/
def landings (group : EncodedGroup) : List SnapshotLanding :=
  group.entries.map (EncodedEntry.landing group.number)

/-- The postings of several groups. -/
def landingsAll (groups : List EncodedGroup) : List SnapshotLanding := groups.flatMap landings

/-- Groups ascend, and in each of them the entries do. -/
structure Ordered (groups : List EncodedGroup) : Prop where
  numbers : Ascending number groups
  members : ∀ group ∈ groups, Ascending EncodedEntry.member group.entries

end EncodedGroup

namespace TermData

/-- The body of a group consists of the entries. -/
inductive HoldsEntries : Bytes → List EncodedEntry → Prop where
  | nil : HoldsEntries [] []
  | cons {body rest : Bytes} {member : UInt16} {content : Content} {occurrences : List Occurrence}
      {entries : List EncodedEntry} (entry : decodeMember? body = some ⟨member, content, rest⟩)
      (list : content.occurrences? = some occurrences) (others : HoldsEntries rest entries) :
      HoldsEntries body (⟨member, content, occurrences⟩ :: entries)

/-- The data of a term consists of the groups. -/
inductive HoldsGroups : Bytes → List EncodedGroup → Prop where
  | nil : HoldsGroups [] []
  | cons {data body rest : Bytes} {number : UInt16} {entries : List EncodedEntry}
      {groups : List EncodedGroup} (group : decodeGroup? data = some ⟨number, body, rest⟩)
      (own : HoldsEntries body entries) (others : HoldsGroups rest groups) :
      HoldsGroups data (⟨number, entries⟩ :: groups)

/-- Member numbers have 12 bits, for the other four of a header are its control code. -/
theorem decodeMember?_member_lt {body : Bytes} {entry : DecodedEntry}
    (h : decodeMember? body = some entry) : entry.member.toNat < 4096 := by
  unfold decodeMember? at h
  split at h
  · cases h
  next header rest hheader =>
    split at h
    · cases h
    · cases h
      have hlt := header.toNat_lt
      show (header >>> 4).toNat < 4096
      rw [UInt16.toNat_shiftRight]
      show header.toNat >>> 4 < 4096
      rw [Nat.shiftRight_eq_div_pow]
      omega

theorem HoldsEntries.member_lt {body : Bytes} {entries : List EncodedEntry}
    (h : HoldsEntries body entries) : ∀ entry ∈ entries, entry.member.toNat < 4096 := by
  induction h with
  | nil => exact nofun
  | cons hentry hlist hothers ih =>
    exact List.forall_mem_cons.2 ⟨decodeMember?_member_lt hentry, ih⟩

theorem HoldsGroups.member_lt {data : Bytes} {groups : List EncodedGroup}
    (h : HoldsGroups data groups) :
    ∀ group ∈ groups, ∀ entry ∈ group.entries, entry.member.toNat < 4096 := by
  induction h with
  | nil => exact nofun
  | cons hgroup hentries hothers ih => exact List.forall_mem_cons.2 ⟨hentries.member_lt, ih⟩

/-- Bytes consist of one list of entries only, -/
theorem HoldsEntries.unique {body : Bytes} {entries others : List EncodedEntry}
    (h : HoldsEntries body entries) (h' : HoldsEntries body others) : entries = others := by
  induction h generalizing others with
  | nil =>
    cases h' with
    | nil => rfl
    | cons hentry => cases hentry
  | cons hentry hlist hothers ih =>
    cases h' with
    | nil => cases hentry
    | cons hentry' hlist' hothers' =>
      cases hentry.symm.trans hentry'
      cases hlist.symm.trans hlist'
      rw [ih hothers']

/-- and of one list of groups. -/
theorem HoldsGroups.unique {data : Bytes} {groups others : List EncodedGroup}
    (h : HoldsGroups data groups) (h' : HoldsGroups data others) : groups = others := by
  induction h generalizing others with
  | nil =>
    cases h' with
    | nil => rfl
    | cons hgroup => cases hgroup
  | cons hgroup hentries hothers ih =>
    cases h' with
    | nil => cases hgroup
    | cons hgroup' hentries' hothers' =>
      cases hgroup.symm.trans hgroup'
      rw [hentries.unique hentries', ih hothers']

/-- A number is in order if it exceeds the one before, should there be one. -/
theorem any_le_iff {last : Option UInt16} {number : UInt16} :
    ¬ last.any (number ≤ ·) ↔ ∀ before ∈ last, before < number := by
  cases last with
  | none => simp
  | some before => simp [UInt16.not_le]

/-- **A body passes the check if it consists of entries that ascend.** -/
theorem bodyFlaw?_eq_none_iff {stop : Nat} {last : Option UInt16} {body : Bytes} :
    bodyFlaw? stop last body = none ↔ ∃ entries, HoldsEntries body entries ∧
      Ascending EncodedEntry.member entries ∧ ∀ before ∈ last, ∀ entry ∈ entries,
        before < entry.member := by
  constructor
  · intro h
    fun_induction bodyFlaw? stop last body with
    | case1 last body hempty =>
      obtain rfl := List.isEmpty_iff.1 hempty
      exact ⟨[], .nil, .nil, fun _ _ => nofun⟩
    | case2 => cases h
    | case3 => cases h
    | case4 => cases h
    | case5 last body hempty entry hentry horder hlist ih =>
      obtain ⟨entries, hentries, hasc, hbehind⟩ := ih h
      have hbehind' := hbehind entry.member rfl
      have hlast := any_le_iff.1 horder
      cases hoccurrences : entry.content.occurrences? with
      | none => exact absurd (by rw [hoccurrences]; rfl) hlist
      | some occurrences =>
        refine ⟨_, .cons hentry hoccurrences hentries, List.pairwise_cons.2 ⟨hbehind', hasc⟩, ?_⟩
        intro before hbefore
        refine List.forall_mem_cons.2 ⟨hlast before hbefore, fun other hother => ?_⟩
        exact UInt16.lt_trans (hlast before hbefore) (hbehind' other hother)
  · rintro ⟨entries, hentries, hasc, hlast⟩
    induction hentries generalizing last with
    | nil => exact bodyFlaw?_nil stop last
    | cons hentry hlist hothers ih =>
      obtain ⟨hbehind, hasc'⟩ := List.pairwise_cons.1 hasc
      have horder := any_le_iff.2 fun before hbefore => hlast before hbefore _ List.mem_cons_self
      rw [bodyFlaw?_of_some hentry, if_neg horder, hlist, if_neg (by simp)]
      refine ih hasc' fun before hbefore => ?_
      cases hbefore
      exact hbehind

/-- Data passes the check if it consists of groups that pass it and ascend. -/
theorem dataFlaw?_eq_none_iff {stop : Nat} {last : Option UInt16} {data : Bytes} :
    dataFlaw? stop last data = none ↔ ∃ groups, HoldsGroups data groups ∧
      EncodedGroup.Ordered groups ∧ ∀ before ∈ last, ∀ group ∈ groups,
        before < group.number := by
  constructor
  · intro h
    fun_induction dataFlaw? stop last data with
    | case1 last data hempty =>
      obtain rfl := List.isEmpty_iff.1 hempty
      exact ⟨[], .nil, ⟨.nil, nofun⟩, fun _ _ => nofun⟩
    | case2 => cases h
    | case3 => cases h
    | case4 => cases h
    | case5 last data hempty group hgroup horder hbody ih =>
      obtain ⟨groups, hgroups, hordered, hbehind⟩ := ih h
      obtain ⟨entries, hentries, hasc, -⟩ := bodyFlaw?_eq_none_iff.1 hbody
      have hbehind' := hbehind group.number rfl
      have hlast := any_le_iff.1 horder
      refine ⟨_, .cons hgroup hentries hgroups, ⟨List.pairwise_cons.2 ⟨hbehind', hordered.numbers⟩,
        List.forall_mem_cons.2 ⟨hasc, hordered.members⟩⟩, ?_⟩
      intro before hbefore
      refine List.forall_mem_cons.2 ⟨hlast before hbefore, fun other hother => ?_⟩
      exact UInt16.lt_trans (hlast before hbefore) (hbehind' other hother)
  · rintro ⟨groups, hgroups, hordered, hlast⟩
    induction hgroups generalizing last with
    | nil => exact dataFlaw?_nil stop last
    | @cons data body rest number entries groups hgroup hentries hothers ih =>
      obtain ⟨hbehind, hnumbers⟩ := List.pairwise_cons.1 hordered.numbers
      obtain ⟨hasc, hmembers⟩ := List.forall_mem_cons.1 hordered.members
      have horder := any_le_iff.2 fun before hbefore => hlast before hbefore _ List.mem_cons_self
      have hbody (stop : Nat) : bodyFlaw? stop none body = none :=
        bodyFlaw?_eq_none_iff.2 ⟨entries, hentries, hasc, nofun⟩
      rw [dataFlaw?_of_some hgroup, if_neg horder, hbody, Option.none_or]
      refine ih ⟨hnumbers, hmembers⟩ fun before hbefore => ?_
      cases hbefore
      exact hbehind

/-- **Data passes the check if it consists of groups and entries that ascend.** -/
theorem flaw?_eq_none_iff {data : Bytes} :
    flaw? data = none ↔ ∃ groups, HoldsGroups data groups ∧ EncodedGroup.Ordered groups := by
  rw [flaw?, dataFlaw?_eq_none_iff]
  exact exists_congr fun groups => and_congr_right fun _ => and_iff_left fun _ => nofun

/-- Where groups and entries ascend, all ids do. -/
theorem HoldsGroups.landingsAll_ascending {data : Bytes} {groups : List EncodedGroup}
    (hdata : HoldsGroups data groups) (h : EncodedGroup.Ordered groups) :
    (EncodedGroup.landingsAll groups).Pairwise fun a b => a.id < b.id := by
  have hmember := hdata.member_lt
  refine List.pairwise_flatMap.2 ⟨fun group hgroup => ?_, ?_⟩
  · refine List.pairwise_map.2 (List.Pairwise.imp_of_mem ?_ (h.members group hgroup))
    intro a b ha hb hlt
    have hm := hmember group hgroup
    exact (DocId.compose_lt_iff (hm a ha) (hm b hb)).2 (.inr ⟨rfl, hlt⟩)
  · refine List.Pairwise.imp_of_mem ?_ h.numbers
    intro g g' hg hg' hlt a ha b hb
    obtain ⟨e, he, rfl⟩ := List.mem_map.1 ha
    obtain ⟨e', he', rfl⟩ := List.mem_map.1 hb
    exact (DocId.compose_lt_iff (hmember g hg e he) (hmember g' hg' e' he')).2 (.inl hlt)

end TermData
end InvertedIndex
