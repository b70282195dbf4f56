import InvertedIndex.DocId
import Mathlib.Algebra.Group.Nat.Defs
import Mathlib.Tactic.Common

/-!
# `Proofs.DocId` — the group/member split in numbers

The masks and shifts of the split are division and remainder by 4096. With that, an id within the
27 bits is the composition of its group and member, and ids of a lower group are smaller.

## Contents
- `DocId.group_toNat`, `DocId.member_toNat`, `DocId.compose_toNat`: the split as arithmetic;
- `DocId.compose_group_member` and the converses;
- `DocId.eq_iff_split`: two ids agree when group and member do;
- `DocId.compose_lt_of_group_lt`, `DocId.compose_lt_iff`: the order, group first.
-/

namespace InvertedIndex
namespace DocId

/-! ## The split as arithmetic -/

theorem largest_toNat : largest.toNat = 2 ^ 27 - 1 := rfl

theorem le_largest_iff {id : DocId} : id ≤ largest ↔ id.toNat < 2 ^ 27 := by
  rw [UInt32.le_iff_toNat_le, largest_toNat]
  omega

theorem member_toNat (id : DocId) : id.member.toNat = id.toNat % 4096 := by
  have hmask : (id &&& memberMask).toNat = id.toNat % 4096 :=
    Nat.and_two_pow_sub_one_eq_mod id.toNat 12
  show (id &&& memberMask).toNat % 2 ^ 16 = id.toNat % 4096
  rw [hmask]
  omega

theorem group_toNat (id : DocId) : id.group.toNat = id.toNat / 4096 % 32768 := by
  have hmask : (id &&& groupMask).toNat / 2 ^ 12 = id.toNat / 2 ^ 12 % 2 ^ 15 := by
    have hand : (id &&& groupMask).toNat = id.toNat &&& 0x7FFF000 := rfl
    rw [hand, Nat.and_div_two_pow, ← Nat.and_two_pow_sub_one_eq_mod]
  have hshift : ((id &&& groupMask) >>> 12).toNat = (id &&& groupMask).toNat / 2 ^ 12 := by
    rw [UInt32.toNat_shiftRight, Nat.shiftRight_eq_div_pow]
    rfl
  show ((id &&& groupMask) >>> 12).toNat % 2 ^ 16 = id.toNat / 4096 % 32768
  rw [hshift, hmask]
  omega

theorem member_lt (id : DocId) : id.member.toNat < 4096 := by
  rw [member_toNat]
  omega

theorem group_lt (id : DocId) : id.group.toNat < 32768 := by
  rw [group_toNat]
  omega

/-- Shifting a number up by 12 bits and filling these bits adds. -/
theorem shiftLeft_or_toNat {high low : UInt32} (hhigh : high.toNat < 2 ^ 20)
    (hlow : low.toNat < 4096) : ((high <<< 12) ||| low).toNat = high.toNat * 4096 + low.toNat := by
  have hshift : (high <<< 12).toNat = high.toNat <<< 12 := by
    rw [UInt32.toNat_shiftLeft]
    have hsmall : high.toNat <<< 12 < 2 ^ 32 := by
      rw [Nat.shiftLeft_eq]
      omega
    exact Nat.mod_eq_of_lt hsmall
  rw [UInt32.toNat_or, hshift, ← Nat.shiftLeft_add_eq_or_of_lt (i := 12) hlow, Nat.shiftLeft_eq]

theorem compose_toNat (group member : UInt16) :
    (compose group member).toNat = group.toNat * 4096 + member.toNat % 4096 := by
  have hlow : (member.toUInt32 &&& memberMask).toNat = member.toNat % 4096 :=
    Nat.and_two_pow_sub_one_eq_mod member.toNat 12
  have hgroup := group.toNat_lt
  have hhigh : group.toUInt32.toNat = group.toNat := UInt16.toNat_toUInt32 group
  unfold compose
  rw [shiftLeft_or_toNat (by omega) (by omega), hlow, hhigh]

/-! ## There and back -/

theorem compose_group_member {id : DocId} (h : id ≤ largest) :
    compose id.group id.member = id := by
  have hid := le_largest_iff.1 h
  apply UInt32.toNat_inj.1
  rw [compose_toNat, group_toNat, member_toNat]
  omega

theorem group_compose {group member : UInt16} (h : group.toNat < 32768) :
    (compose group member).group = group := by
  apply UInt16.toNat_inj.1
  rw [group_toNat, compose_toNat]
  omega

theorem member_compose {group member : UInt16} (h : member.toNat < 4096) :
    (compose group member).member = member := by
  apply UInt16.toNat_inj.1
  rw [member_toNat, compose_toNat]
  omega

theorem compose_le_largest {group member : UInt16} (h : group.toNat < 32768) :
    compose group member ≤ largest := by
  rw [le_largest_iff, compose_toNat]
  omega

/-- Two ids within the 27 bits agree when their groups and members do. -/
theorem eq_iff_split {a b : DocId} (ha : a ≤ largest) (hb : b ≤ largest) :
    a = b ↔ a.group = b.group ∧ a.member = b.member := by
  constructor
  · rintro rfl
    exact ⟨rfl, rfl⟩
  · rintro ⟨hgroup, hmember⟩
    rw [← compose_group_member ha, ← compose_group_member hb, hgroup, hmember]

/-! ## Order -/

/-- The group of any target bounds the ids of the groups below it, also when the target has bits
    above the 27th. -/
theorem compose_lt_of_group_lt {group member : UInt16} {target : DocId}
    (h : group < target.group) : compose group member < target := by
  have hgroup := UInt16.lt_iff_toNat_lt.1 h
  rw [group_toNat] at hgroup
  rw [UInt32.lt_iff_toNat_lt, compose_toNat]
  omega

/-- Ids are in the order of their groups, then of their members. -/
theorem compose_lt_iff {g g' m m' : UInt16} (hm : m.toNat < 4096) (hm' : m'.toNat < 4096) :
    compose g m < compose g' m' ↔ g < g' ∨ (g = g' ∧ m < m') := by
  rw [UInt32.lt_iff_toNat_lt, compose_toNat, compose_toNat, UInt16.lt_iff_toNat_lt,
    UInt16.lt_iff_toNat_lt, ← UInt16.toNat_inj]
  omega

end DocId
end InvertedIndex
