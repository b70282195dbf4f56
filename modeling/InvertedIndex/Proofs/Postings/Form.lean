import InvertedIndex.Proofs.Postings.Accounts

/-!
# `Proofs.Postings.Form` — which form a group takes

A group of a single short entry needs no block. A new group gets none for it, and an erasure that
leaves it gives the block back. But an entry that takes the place of another in a block stays there,
even as the only and a short one. So a change leaves a group with a single short entry in place,
unless it had its single entry in a block before.

## Contents
- `GroupBody.InPlace`, `GroupBody.Brief`: without a block, and fit to do without one;
- `GroupBody.Formed`: the form that a changed group takes;
- `Arena.newBody_formed`, `Arena.put_formed`, `Arena.remove_formed`: changes of a body;
- `Holding.insert_formed`, `Holding.erase_formed`: changes of a term;
- `Postings.Forms`, `Tracks.forms`: any change.
-/

namespace InvertedIndex

/-! ## Bodies -/

namespace GroupBody

/-- The body has no block. -/
def InPlace (body : GroupBody) : Prop := ∃ entry, body = .inline entry

/-- The body has a single entry, with a payload short enough to do without a block. -/
def Brief (body : GroupBody) : Prop :=
  ∃ entry, body.entries = [entry] ∧ entry.payload.length ≤ inlineCapacity

/-- A changed body is in place if it is brief, unless the body before it had a single entry in a
    block. -/
def Formed (old : Option GroupBody) (new : GroupBody) : Prop :=
  new.InPlace ↔ new.Brief ∧ ∀ body ∈ old, body.InPlace ∨ body.entries.length ≠ 1

theorem inPlace_inline (entry : Entry) : (GroupBody.inline entry).InPlace := ⟨entry, rfl⟩

theorem not_inPlace_block (c : SizeClass) (bytes : Bytes) : ¬ (GroupBody.block c bytes).InPlace := by
  rintro ⟨entry, ⟨⟩⟩

theorem brief_inline {entry : Entry} :
    (GroupBody.inline entry).Brief ↔ entry.payload.length ≤ inlineCapacity := by
  simp [Brief, entries]

/-- A body with several entries is not brief. -/
theorem not_brief {body : GroupBody} (h : body.entries.length ≠ 1) : ¬ body.Brief := by
  rintro ⟨entry, hentries, -⟩
  exact h (by rw [hentries]; rfl)

/-- A brief body in place that is left as it is keeps its form. -/
theorem formed_self {body : GroupBody} (h : body.InPlace → body.Brief) :
    Formed (some body) body := by
  constructor
  · rintro hplace
    refine ⟨h hplace, ?_⟩
    rintro _ ⟨⟩
    exact .inl hplace
  · rintro ⟨hbrief, hold⟩
    exact (hold body rfl).resolve_right fun hlength => not_brief hlength hbrief

/-- A block is formed if it is not brief, or the body before it had a single entry in a block. -/
theorem formed_block {old : Option GroupBody} {c : SizeClass} {bytes : Bytes}
    (h : (GroupBody.block c bytes).Brief → ∃ body ∈ old, ¬ body.InPlace ∧ body.entries.length = 1) :
    Formed old (.block c bytes) := by
  refine iff_of_false (not_inPlace_block c bytes) ?_
  rintro ⟨hbrief, hold⟩
  obtain ⟨body, hbody, hplace, hlength⟩ := h hbrief
  exact (hold body hbody).elim hplace fun hne => hne hlength

end GroupBody

open GroupBody

namespace Arena

variable {arena : Arena}

/-- A new body is in place if it is brief. -/
theorem newBody_formed (hclean : arena.Clean) {term : String} {entry : Entry} (hfits : entry.Fits)
    {body : GroupBody} {arena' : Arena} (h : arena.newBody term entry = .ok (body, arena')) :
    Formed none body := by
  obtain ⟨-, hentries, -⟩ := newBody_spec hclean hfits h
  cases newBody_cases hclean h with
  | short hshort => exact iff_of_true (inPlace_inline entry) ⟨brief_inline.2 hshort, nofun⟩
  | long hlong hclass =>
    refine formed_block ?_
    rintro ⟨other, hother, hshort⟩
    rw [hentries] at hother
    cases hother
    exact absurd hshort hlong

/-- Putting an entry into a body leaves it in place if it is brief, unless its only entry had a block
    already. -/
theorem put_formed (hclean : arena.Clean) {term : String} {body : GroupBody} (hbody : body.Sound)
    {entry : Entry} (hfits : entry.Fits) {body' : GroupBody} {added : Bool} {arena' : Arena}
    (h : arena.put term body entry = .ok (body', added, arena')) : Formed (some body) body' := by
  cases put_cases hclean hbody h with
  | anew hinline hmember hnew =>
    subst hinline
    refine (newBody_formed hclean hfits hnew).trans
      (and_congr_right fun _ => iff_of_true (by simp) ?_)
    rintro _ ⟨⟩
    exact .inl (inPlace_inline _)
  | @block found entries c hfound hreplaces hclass =>
    have hrun := hbody.run.put hfits hreplaces
    have hlength := hreplaces.length
    have hpos := List.length_pos_iff.2 hbody.run.nonempty
    have hone : found.toList.length ≤ 1 := Option.length_toList_le
    refine formed_block ?_
    rintro ⟨only, honly, -⟩
    rw [GroupBody.entries_block hrun] at honly
    rw [honly] at hlength
    simp only [Option.toList_some, List.length_singleton] at hlength
    -- The only entry took the place of another, so there was one, and it was in a block.
    refine ⟨_, rfl, ?_, by omega⟩
    rintro ⟨held, rfl⟩
    rw [hfound rfl, Option.toList_none, List.length_nil] at hlength
    omega

/-- Removing a member from a body leaves it in place if it is brief. -/
theorem remove_formed (hclean : arena.Clean) {body : GroupBody} (hbody : body.Sound)
    {member : UInt16} {body' : GroupBody} {arena' : Arena}
    (h : arena.remove body member = .kept body' arena') : Formed (some body) body' := by
  have hspec := remove_spec hclean hbody member
  have hdrops := remove_cases hclean hbody member
  rw [h] at hspec hdrops
  obtain ⟨⟨entry, hreplaces⟩, hsound, -⟩ := hspec
  -- There were at least two entries, of which one is left out.
  have hseveral : body.entries.length ≠ 1 := by
    have hlength := hreplaces.length
    have hpos := List.length_pos_iff.2 hsound.run.nonempty
    simp only [Option.toList_some, List.length_singleton, Option.toList_none, List.length_nil]
      at hlength
    omega
  have hform : body'.InPlace ↔ body'.Brief := by
    cases hdrops with
    | alone hleft hshort => exact iff_of_true (inPlace_inline _) (brief_inline.2 hshort)
    | block hblock hleft hne hlong =>
      refine iff_of_false (not_inPlace_block _ _) ?_
      rintro ⟨only, honly, hshort⟩
      rw [GroupBody.entries_block (hbody.run.drop hleft hne)] at honly
      exact hlong only honly hshort
  refine hform.trans ⟨fun hbrief => ⟨hbrief, ?_⟩, And.left⟩
  rintro _ ⟨⟩
  exact .inr hseveral

end Arena

/-! ## Terms -/

namespace Holding

variable {holding holding' : Holding} {arena arena' : Arena} {number : UInt16}

/-- The group that takes an inserted id has the form of a changed one. -/
theorem insert_formed (hclean : arena.Clean) (h : holding.Sound) {term : String} {entry : Entry}
    (hfits : entry.Fits) (hinsert : holding.insert arena term number entry = .ok (holding', arena')) :
    ∃ old new, Replaces Group.number number old (some new) holding.groups holding'.groups ∧
      Formed (old.map Group.body) new.body := by
  cases insert_cases hclean h hinsert with
  | group hnew hgroups hgrow =>
    exact ⟨none, _, hgroups, Arena.newBody_formed hclean hfits hnew⟩
  | member hput hgroups =>
    have hheld := h.groups _ (lookup_mem hgroups.lookup_old)
    exact ⟨some _, _, hgroups, Arena.put_formed hclean hheld.body hfits hput⟩

/-- The group that loses an erased id has the form of a changed one, if it is still there. -/
theorem erase_formed (hclean : arena.Clean) (h : holding.Sound) {member : UInt16}
    (herase : holding.erase arena number member = some (holding', arena')) :
    ∃ old new, Replaces Group.number number old new holding.groups holding'.groups ∧
      ∀ group ∈ new, Formed (old.map Group.body) group.body := by
  have hcases := erase_cases hclean h number member
  rw [herase] at hcases
  cases hcases with
  | group hremove hgroups harray => exact ⟨some _, none, hgroups, nofun⟩
  | member hremove hgroups =>
    have hheld := h.groups _ (lookup_mem hgroups.lookup_old)
    refine ⟨some _, some _, hgroups, ?_⟩
    rintro _ ⟨⟩
    exact Arena.remove_formed hclean hheld.body hremove

end Holding

/-! ## Any change -/

namespace Postings

variable {postings : Postings} {ledger : Ledger}

/-- Every group after a change has the form that the group before it with the same term and number
    leads to. -/
def Forms (before after : Postings) : Prop :=
  ∀ term, ∀ group ∈ (after.held term).groups,
    Formed ((lookup Group.number group.number (before.held term).groups).map Group.body) group.body

/-- No group in place needs a block. -/
def Frugal (postings : Postings) : Prop :=
  ∀ term, ∀ group ∈ (postings.held term).groups, group.body.InPlace → group.body.Brief

/-- Postings that stay as they are keep their forms. -/
theorem Tracks.forms_self (h : postings.Tracks ledger) (hfrugal : postings.Frugal) :
    postings.Forms postings := by
  intro term group hgroup
  have hsound : (postings.held term).Sound := (h.sound_getD term).1
  rw [hsound.ascending.lookup_of_mem hgroup]
  exact formed_self (hfrugal term group hgroup)

/-- Where one group of a term is replaced, only its form changes. -/
theorem Tracks.forms_insert (h : postings.Tracks ledger) (hfrugal : postings.Frugal) {term : String}
    {number : UInt16} {old new : Option Group} {holding : Holding} {arena : Arena}
    (hgroups : Replaces Group.number number old new (postings.held term).groups holding.groups)
    (hformed : ∀ group ∈ new, Formed (old.map Group.body) group.body) :
    postings.Forms ⟨postings.holdings.insert term holding, arena⟩ := by
  intro other group hgroup
  by_cases hterm : other = term
  · subst hterm
    rw [held_insert] at hgroup
    obtain hnumber | hnumber := eq_or_ne group.number number
    · have hsome : new = some group := by
        rw [← hgroups.lookup_new, ← hnumber]
        have hasc := hgroups.ascending (h.sound_getD other).1.ascending
        exact hasc.lookup_of_mem hgroup
      rw [hnumber, hgroups.lookup_old]
      exact hformed group hsome
    · have hlookup := hgroups.lookup_other hnumber
      have hasc := hgroups.ascending (h.sound_getD other).1.ascending
      rw [hasc.lookup_of_mem hgroup] at hlookup
      rw [← hlookup]
      exact formed_self (hfrugal other group (lookup_mem hlookup.symm))
  · rw [held_insert_other _ hterm] at hgroup
    exact h.forms_self hfrugal other group hgroup

/-- **Every change leads to such forms.** -/
theorem Tracks.forms (h : postings.Tracks ledger) (hfrugal : postings.Frugal) (change : Change) :
    postings.Forms (postings.apply change) := by
  have hacts := apply_acts h.clean change
  generalize postings.apply change = after at hacts
  cases hacts with
  | stays hplace hrefused => exact h.forms_self hfrugal
  | @inserts term id payload holding arena hplace haccepts hfits hinsert =>
    obtain ⟨old, new, hgroups, hformed⟩ :=
      Holding.insert_formed h.clean (h.sound_getD term).1 hfits hinsert
    refine h.forms_insert hfrugal hgroups ?_
    rintro _ ⟨⟩
    exact hformed
  | @erases term id holding arena hplace hrefused herase =>
    obtain ⟨old, new, hgroups, hformed⟩ :=
      Holding.erase_formed h.clean (h.sound_getD term).1 herase
    exact h.forms_insert hfrugal hgroups hformed
  | clears hchange =>
    intro term group hgroup
    have hnone : (postings.clear.held term).groups = [] := by simp [held, Postings.clear]
    rw [hnone] at hgroup
    cases hgroup

end Postings
end InvertedIndex
