import InvertedIndex.Proofs.Postings.Form

/-!
# `Proofs.Postings.Shortening` — the form of the groups after a run

A group with a single short payload should need no block, so that the bytes in use depend on the
postings alone. It does need one if its only payload was a long one and was replaced by a short one
since: the block is then kept, until another id joins the group and is erased again, or the group is
emptied. But for that, the form of every group and the total of the arena can be told from what a
look-up finds.

## Contents
- `Postings.Alone`: the only payload of a group; `alone_iff`: its only entry;
- `Postings.Shortened`: a group whose only payload was a long one; `shortened_concat`;
- `formed_run`: the forms after any run;
- `Tracks.groups_eq`: groups that hold the same in the same forms are equal;
- `forms_canonical`: forms and total of runs; `shortened_keeps_block`: a short payload in a block.
-/

namespace InvertedIndex

/-- An ascending list is determined by its items. -/
theorem Ascending.eq_of_mem_iff {α : Type} {key : α → UInt16} {items items' : List α}
    (h : Ascending key items) (h' : Ascending key items') (hmem : ∀ a, a ∈ items ↔ a ∈ items') :
    items = items' := by
  have hnodup {items : List α} (hasc : Ascending key items) : items.Nodup := by
    refine hasc.imp ?_
    rintro a b hlt rfl
    exact UInt16.lt_irrefl _ hlt
  refine ((List.perm_ext_iff_of_nodup (hnodup h) (hnodup h')).2 hmem).eq_of_pairwise ?_ h h'
  intro a b _ _ hab hba
  exact absurd (UInt16.lt_trans hab hba) (UInt16.lt_irrefl _)

namespace Postings

open GroupBody

variable {postings : Postings} {ledger : Ledger} {term : String} {number : UInt16} {group : Group}

/-! ## The only payload of a group -/

/-- The term has a single id in the group with the number, and this is its payload. -/
def Alone (postings : Postings) (term : String) (number : UInt16) (payload : Bytes) : Prop :=
  ∃ id : DocId, id.group = number ∧ postings.find? term id = some payload ∧
    ∀ other : DocId, other.group = number → (postings.find? term other).isSome → other = id

/-- What a term holds is in the map of terms, if it has a group. -/
theorem holding_of_group (hgroup : group ∈ (postings.held term).groups) :
    postings.holdings[term]? = some (postings.held term) := by
  unfold held at hgroup ⊢
  cases hholding : postings.holdings[term]? with
  | none =>
    rw [hholding] at hgroup
    cases hgroup
  | some holding => rfl

/-- The entries of a group are what a look-up finds. -/
theorem Tracks.mem_entries (h : postings.Tracks ledger)
    (hgroup : group ∈ (postings.held term).groups) {entry : Entry} :
    entry ∈ group.body.entries ↔ entry.member.toNat < 4096 ∧
      postings.find? term (DocId.compose group.number entry.member) = some entry.payload := by
  have hholding := holding_of_group hgroup
  have hsound := h.sound term _ hholding
  have hown := hsound.groups group hgroup
  have hfound (landing : Landing) : landing ∈ landingsOf (postings.held term).groups ↔
      postings.find? term landing.id = some landing.payload := by
    rw [h.landing hholding, h.find?_eq]
    refine and_iff_right_of_imp ?_
    intro hpayload
    by_contra hinvalid
    rw [h.payload, if_neg hinvalid] at hpayload
    cases hpayload
  constructor
  · intro hentry
    refine ⟨(hown.body.run.fits entry hentry).member, ?_⟩
    refine (hfound ⟨_, entry.payload⟩).1 ?_
    exact List.mem_flatMap.2 ⟨group, hgroup, List.mem_map.2 ⟨entry, hentry, rfl⟩⟩
  · rintro ⟨hmember, hpayload⟩
    let id := DocId.compose group.number entry.member
    obtain ⟨other, hother, hin⟩ := List.mem_flatMap.1 ((hfound ⟨id, entry.payload⟩).2 hpayload)
    obtain ⟨-, hnumber, hlookup⟩ := (Group.mem_landings (hsound.groups other hother)).1 hin
    have hidGroup : id.group = group.number := DocId.group_compose hown.number
    have hidMember : id.member = entry.member := DocId.member_compose hmember
    dsimp only at hnumber hlookup
    rw [hidGroup] at hnumber
    rw [hidMember] at hlookup
    -- No other group has the number.
    have hsame : some other = some group := by
      rw [← hsound.ascending.lookup_of_mem hother, ← hnumber, hsound.ascending.lookup_of_mem hgroup]
    obtain rfl := Option.some.inj hsame
    obtain ⟨found, hmem, heq⟩ := Option.map_eq_some_iff.1 hlookup
    obtain ⟨member, payload⟩ := entry
    obtain rfl : found = ⟨member, payload⟩ := by
      have hkey := lookup_key hmem
      cases found
      cases hkey
      cases heq
      rfl
    exact lookup_mem hmem

/-- What a look-up finds below a group is one of its entries. -/
theorem Tracks.entry_of_find? (h : postings.Tracks ledger)
    (hgroup : group ∈ (postings.held term).groups) {id : DocId} (hid : id.group = group.number)
    {payload : Bytes} (hpayload : postings.find? term id = some payload) :
    DocId.compose group.number id.member = id ∧ ⟨id.member, payload⟩ ∈ group.body.entries := by
  have hvalid : id.Valid := by
    by_contra hinvalid
    rw [h.find?_eq, h.payload, if_neg hinvalid] at hpayload
    cases hpayload
  have hcompose : DocId.compose group.number id.member = id := by
    rw [← hid]
    exact DocId.compose_group_member hvalid.2
  refine ⟨hcompose, (h.mem_entries hgroup).2 ⟨DocId.member_lt id, ?_⟩⟩
  rw [hcompose]
  exact hpayload

/-- **The only payload of a group is that of its only entry.** -/
theorem Tracks.alone_iff (h : postings.Tracks ledger)
    (hgroup : group ∈ (postings.held term).groups) {payload : Bytes} :
    postings.Alone term group.number payload ↔
      ∃ entry, group.body.entries = [entry] ∧ entry.payload = payload := by
  have hsound := (h.sound_getD term).1.groups group hgroup
  constructor
  · rintro ⟨id, hid, hpayload, honly⟩
    obtain ⟨-, hentry⟩ := h.entry_of_find? hgroup hid hpayload
    refine ⟨⟨id.member, payload⟩, ?_, rfl⟩
    refine hsound.body.run.ascending.eq_of_mem_iff (List.pairwise_singleton _ _) ?_
    intro entry
    rw [List.mem_singleton]
    refine ⟨?_, fun heq => heq ▸ hentry⟩
    intro hmem
    -- Its id is the only one, and so it has that member number.
    obtain ⟨hmember, hfound⟩ := (h.mem_entries hgroup).1 hmem
    have hsame := honly _ (DocId.group_compose hsound.number) (by rw [hfound]; rfl)
    rw [hsame, hpayload] at hfound
    rw [← hsame, DocId.member_compose hmember]
    obtain ⟨member, payload⟩ := entry
    cases hfound
    rfl
  · rintro ⟨entry, hentries, rfl⟩
    have hentry : entry ∈ group.body.entries := by simp [hentries]
    obtain ⟨-, hfound⟩ := (h.mem_entries hgroup).1 hentry
    refine ⟨_, DocId.group_compose hsound.number, hfound, ?_⟩
    intro other hother hsome
    obtain ⟨payload, hpayload⟩ := Option.isSome_iff_exists.1 hsome
    obtain ⟨hcompose, hmem⟩ := h.entry_of_find? hgroup hother hpayload
    rw [hentries, List.mem_singleton] at hmem
    rw [← hcompose, ← hmem]

/-- Without a group there is nothing to find. -/
theorem Tracks.find?_without_group (h : postings.Tracks ledger) {id : DocId}
    (hnone : lookup Group.number id.group (postings.held term).groups = none) :
    postings.find? term id = none := by
  rw [h.find?_eq, h.payload]
  split
  · have hgroups : lookup Group.number id.group ((postings.holdings[term]?).getD {}).groups = none :=
      hnone
    rw [(h.sound_getD term).2.2, payloadAt, hgroups]
    rfl
  · rfl

theorem Tracks.not_alone (h : postings.Tracks ledger)
    (hnone : lookup Group.number number (postings.held term).groups = none) {payload : Bytes} :
    ¬ postings.Alone term number payload := by
  rintro ⟨id, rfl, hpayload, -⟩
  rw [h.find?_without_group hnone] at hpayload
  cases hpayload

/-! ## Groups whose only payload was a long one -/

/-- The term had a single id in the group with the number at some time, with a payload too long to do
    without a block, and has had a single one there ever since. -/
def Shortened (changes : List Change) (term : String) (number : UInt16) : Prop :=
  ∃ done, done <+: changes ∧
    (∃ payload, (run done).Alone term number payload ∧ inlineCapacity < payload.length) ∧
    ∀ between, done <+: between → between <+: changes →
      ∃ payload, (run between).Alone term number payload

variable {changes : List Change} {change : Change}

theorem Shortened.alone (h : Shortened changes term number) :
    ∃ payload, (run changes).Alone term number payload := by
  obtain ⟨done, hdone, -, halone⟩ := h
  exact halone changes hdone (List.prefix_refl changes)

/-- After one more change a group is shortened if it has a single payload, and that is a long one or
    the group was shortened before. -/
theorem shortened_concat : Shortened (changes ++ [change]) term number ↔
    (∃ payload, (run (changes ++ [change])).Alone term number payload ∧
      inlineCapacity < payload.length) ∨
    ((∃ payload, (run (changes ++ [change])).Alone term number payload) ∧
      Shortened changes term number) := by
  constructor
  · rintro ⟨done, hdone, hlong, halone⟩
    rcases List.prefix_concat_iff.1 hdone with rfl | hbefore
    · exact .inl hlong
    · refine .inr ⟨halone _ hdone (List.prefix_refl _), done, hbefore, hlong, ?_⟩
      intro between hfrom hto
      exact halone between hfrom (hto.trans (List.prefix_append changes [change]))
  · rintro (⟨payload, halone, hlong⟩ | ⟨hlast, done, hdone, hlong, halone⟩)
    · refine ⟨_, List.prefix_refl _, ⟨payload, halone, hlong⟩, ?_⟩
      intro between hfrom hto
      obtain rfl := hfrom.eq_of_length_le hto.length_le
      exact ⟨payload, halone⟩
    · refine ⟨done, hdone.trans (List.prefix_append changes [change]), hlong, ?_⟩
      intro between hfrom hto
      rcases List.prefix_concat_iff.1 hto with rfl | hbefore
      · exact hlast
      · exact halone between hfrom hbefore

/-! ## The forms after a run -/

/-- A group is in place exactly if it has a single short payload and was not shortened. -/
def InForm (changes : List Change) : Prop :=
  ∀ term, ∀ group ∈ ((run changes).held term).groups,
    group.body.InPlace ↔ group.body.Brief ∧ ¬ Shortened changes term group.number

theorem InForm.frugal (h : InForm changes) : (run changes).Frugal :=
  fun term group hgroup hplace => ((h term group hgroup).1 hplace).1

/-- A group had a single entry in a block exactly if it was shortened. -/
theorem InForm.not_shortened_iff (h : InForm changes) (htracks : (run changes).Tracks ledger)
    (term : String) (number : UInt16) : ¬ Shortened changes term number ↔
      ∀ body ∈ (lookup Group.number number ((run changes).held term).groups).map Group.body,
        body.InPlace ∨ body.entries.length ≠ 1 := by
  cases hgroup : lookup Group.number number ((run changes).held term).groups with
  | none =>
    refine iff_of_true (fun hshortened => ?_) nofun
    obtain ⟨payload, halone⟩ := hshortened.alone
    exact htracks.not_alone hgroup halone
  | some group =>
    have hmem := lookup_mem hgroup
    obtain rfl := lookup_key hgroup
    simp only [Option.map_some, Option.mem_some_iff, forall_eq']
    by_cases hsingle : group.body.entries.length = 1
    · obtain ⟨entry, hentries⟩ := List.length_eq_one_iff.1 hsingle
      have halone := (htracks.alone_iff hmem).2 ⟨entry, hentries, rfl⟩
      rw [h term group hmem, or_iff_left (not_not_intro hsingle)]
      refine ⟨fun hkept => ⟨⟨entry, hentries, ?_⟩, hkept⟩, And.right⟩
      -- A long payload would be one to be shortened.
      by_contra hlong
      refine hkept ⟨changes, List.prefix_refl _, ⟨_, halone, Nat.lt_of_not_le hlong⟩, ?_⟩
      intro between hfrom hto
      obtain rfl := hfrom.eq_of_length_le hto.length_le
      exact ⟨_, halone⟩
    · refine iff_of_true (fun hshortened => ?_) (.inr hsingle)
      obtain ⟨payload, halone⟩ := hshortened.alone
      obtain ⟨entry, hentries, -⟩ := (htracks.alone_iff hmem).1 halone
      exact hsingle (by rw [hentries]; rfl)

/-- **After any run of changes** the groups in place are those with a single short payload that were
    not shortened. -/
theorem inForm_run (changes : List Change) : InForm changes := by
  induction changes using List.reverseRecOn with
  | nil =>
    intro term group hgroup
    simp [run, empty, held] at hgroup
  | append_singleton changes change ih =>
    obtain ⟨ledger, htracks⟩ := exists_tracks_run changes
    obtain ⟨ledger', htracks'⟩ := exists_tracks_run (changes ++ [change])
    intro term group hgroup
    have hforms := htracks.forms ih.frugal change
    rw [← run_concat] at hforms
    have hformed := hforms term group hgroup
    rw [Formed, ← ih.not_shortened_iff htracks] at hformed
    refine hformed.trans (and_congr_right ?_)
    rintro ⟨entry, hentries, hshort⟩
    -- The only payload is a short one, and so the group was shortened before.
    have halone := (htracks'.alone_iff hgroup).2 ⟨entry, hentries, rfl⟩
    rw [shortened_concat, not_or]
    refine ⟨fun hkept => ⟨?_, fun hboth => hkept hboth.2⟩, fun hneither hbefore => ?_⟩
    · rintro ⟨payload, hpayload, hlong⟩
      obtain ⟨other, hother, rfl⟩ := (htracks'.alone_iff hgroup).1 hpayload
      rw [hentries] at hother
      cases hother
      exact Nat.not_lt.2 hshort hlong
    · exact hneither.2 ⟨⟨_, halone⟩, hbefore⟩

/-! ## Postings that hold the same -/

/-- Bodies with the same entries in the same form are equal, their blocks being as small as can be. -/
theorem body_eq {body body' : GroupBody} (h : body.Sound) (h' : body'.Sound) (hsnug : body.Snug)
    (hsnug' : body'.Snug) (hentries : body.entries = body'.entries)
    (hform : body.InPlace ↔ body'.InPlace) : body = body' := by
  cases body with
  | inline entry =>
    obtain ⟨entry', rfl⟩ := hform.1 (inPlace_inline entry)
    rw [List.singleton_inj.1 hentries]
  | block c bytes =>
    cases body' with
    | inline entry' => exact absurd (hform.2 (inPlace_inline entry')) (not_inPlace_block c bytes)
    | block c' bytes' =>
      have hbytes : bytes = bytes' := by rw [h.block_eq, h'.block_eq, hentries]
      subst hbytes
      rw [(hsnug c bytes rfl).unique (hsnug' c' bytes rfl)]

variable {postings' : Postings} {ledger' : Ledger}

/-- Terms that hold the same in the same forms have the same groups. -/
theorem Tracks.groups_subset (h : postings.Tracks ledger) (h' : postings'.Tracks ledger')
    (hregular : postings.Regular) (hregular' : postings'.Regular)
    (hfind : ∀ id, postings.find? term id = postings'.find? term id)
    (hform : ∀ group ∈ (postings.held term).groups, ∀ group' ∈ (postings'.held term).groups,
      group.number = group'.number → (group.body.InPlace ↔ group'.body.InPlace)) :
    ∀ group ∈ (postings.held term).groups, group ∈ (postings'.held term).groups := by
  intro group hgroup
  have hsound := (h.sound_getD term).1.groups group hgroup
  -- The group has an entry, and so there is a group with its number on the other side.
  obtain ⟨entry, rest, hentries⟩ := List.exists_cons_of_ne_nil hsound.body.run.nonempty
  have hfound := ((h.mem_entries hgroup).1 (by rw [hentries]; exact List.mem_cons_self)).2
  have hother : lookup Group.number group.number (postings'.held term).groups ≠ none := by
    intro hnone
    have hnumber : (DocId.compose group.number entry.member).group = group.number :=
      DocId.group_compose hsound.number
    rw [← hnumber] at hnone
    rw [hfind, h'.find?_without_group hnone] at hfound
    cases hfound
  obtain ⟨group', hlookup⟩ := Option.ne_none_iff_exists'.1 hother
  have hgroup' := lookup_mem hlookup
  have hnumber : group'.number = group.number := lookup_key hlookup
  have hsound' := (h'.sound_getD term).1.groups group' hgroup'
  have hsame : group.body.entries = group'.body.entries := by
    refine hsound.body.run.ascending.eq_of_mem_iff hsound'.body.run.ascending ?_
    intro entry
    rw [h.mem_entries hgroup, h'.mem_entries hgroup', hnumber, hfind]
  have hbody := body_eq hsound.body hsound'.body ((hregular.fitted_held term).blocks group hgroup)
    ((hregular'.fitted_held term).blocks group' hgroup') hsame
    (hform group hgroup group' hgroup' hnumber.symm)
  obtain rfl : group = group' := by
    obtain ⟨number, body⟩ := group
    obtain ⟨number', body'⟩ := group'
    cases hnumber
    cases hbody
    rfl
  exact hgroup'

theorem Tracks.groups_eq (h : postings.Tracks ledger) (h' : postings'.Tracks ledger')
    (hregular : postings.Regular) (hregular' : postings'.Regular)
    (hfind : ∀ id, postings.find? term id = postings'.find? term id)
    (hform : ∀ group ∈ (postings.held term).groups, ∀ group' ∈ (postings'.held term).groups,
      group.number = group'.number → (group.body.InPlace ↔ group'.body.InPlace)) :
    (postings.held term).groups = (postings'.held term).groups := by
  have hsound : (postings.held term).Sound := (h.sound_getD term).1
  have hsound' : (postings'.held term).Sound := (h'.sound_getD term).1
  refine hsound.ascending.eq_of_mem_iff hsound'.ascending fun group => ⟨?_, ?_⟩
  · exact h.groups_subset h' hregular hregular' hfind hform group
  · refine h'.groups_subset h hregular' hregular (fun id => (hfind id).symm) ?_ group
    intro group' hgroup' group hgroup hnumber
    exact (hform group hgroup group' hgroup' hnumber.symm).symm

/-- Totals over the same terms, holding what counts the same, are the same. -/
theorem sumOver_congr {f : Holding → Nat}
    (hterms : ∀ term, postings.contains term = postings'.contains term)
    (hheld : ∀ term, f (postings.held term) = f (postings'.held term)) :
    postings.sumOver f = postings'.sumOver f := by
  have hkeys (postings : Postings) : postings.sumOver f
      = (postings.holdings.keys.map fun term => f (postings.held term)).sum := by
    rw [sumOver, ← Std.TreeMap.map_fst_toList_eq_keys, List.map_map]
    refine congrArg List.sum (List.map_congr_left ?_)
    rintro ⟨term, holding⟩ hentry
    have hholding := Std.TreeMap.mem_toList_iff_getElem?_eq_some.1 hentry
    show f holding = f (postings.held term)
    rw [held, hholding]
    rfl
  have hperm : postings.holdings.keys.Perm postings'.holdings.keys := by
    refine (List.perm_ext_iff_of_nodup Std.TreeMap.nodup_keys Std.TreeMap.nodup_keys).2 ?_
    intro term
    rw [Std.TreeMap.mem_keys, Std.TreeMap.mem_keys, Std.TreeMap.mem_iff_contains,
      Std.TreeMap.mem_iff_contains]
    exact Bool.eq_iff_iff.1 (hterms term)
  rw [hkeys, hkeys, (hperm.map _).sum_eq]
  exact congrArg List.sum (List.map_congr_left fun term _ => hheld term)

/-- **After any run of changes the form of every group is told by what it holds and whether it was
    shortened**: it is in place exactly if it holds a single short payload and was not shortened. So
    two runs after which the same terms are known, the same is found and the same groups were
    shortened have the same total. -/
theorem forms_canonical (changes : List Change) :
    (∀ term, ∀ group ∈ ((run changes).held term).groups, (∃ entry, group.body = .inline entry) ↔
      (∃ payload, (run changes).Alone term group.number payload ∧
        payload.length ≤ inlineCapacity) ∧ ¬ Shortened changes term group.number) ∧
    ∀ changes', (∀ term, (run changes).contains term = (run changes').contains term) →
      (∀ term id, (run changes).find? term id = (run changes').find? term id) →
      (∀ term number, Shortened changes term number ↔ Shortened changes' term number) →
      (run changes).totalBytes = (run changes').totalBytes := by
  have hplaced (changes : List Change) (term : String) (group : Group)
      (hgroup : group ∈ ((run changes).held term).groups) : group.body.InPlace ↔
        (∃ payload, (run changes).Alone term group.number payload ∧
          payload.length ≤ inlineCapacity) ∧ ¬ Shortened changes term group.number := by
    obtain ⟨ledger, htracks⟩ := exists_tracks_run changes
    rw [inForm_run changes term group hgroup]
    refine and_congr_left fun _ => ?_
    constructor
    · rintro ⟨entry, hentries, hshort⟩
      exact ⟨_, (htracks.alone_iff hgroup).2 ⟨entry, hentries, rfl⟩, hshort⟩
    · rintro ⟨payload, halone, hshort⟩
      obtain ⟨entry, hentries, rfl⟩ := (htracks.alone_iff hgroup).1 halone
      exact ⟨entry, hentries, hshort⟩
  refine ⟨hplaced changes, ?_⟩
  intro changes' hterms hfind hshortened
  obtain ⟨ledger, htracks⟩ := exists_tracks_run changes
  obtain ⟨ledger', htracks'⟩ := exists_tracks_run changes'
  have hregular := (kept_run changes).regular
  have hregular' := (kept_run changes').regular
  have hgroups (term : String) :
      ((run changes).held term).groups = ((run changes').held term).groups := by
    refine htracks.groups_eq htracks' hregular hregular' (hfind term) ?_
    intro group hgroup group' hgroup' hnumber
    have halone (payload : Bytes) : (run changes).Alone term group'.number payload
        ↔ (run changes').Alone term group'.number payload := by
      simp only [Alone, hfind]
    rw [hplaced changes term group hgroup, hplaced changes' term group' hgroup', hnumber,
      hshortened]
    simp only [halone]
  rw [(kept_run changes).total, (kept_run changes').total]
  refine sumOver_congr hterms fun term => ?_
  -- The groups are the same, and so are the classes of their arrays.
  have harray := (hregular'.fitted_held term).array
  rw [← hgroups] at harray
  rw [Holding.weight, Holding.weight, hgroups,
    (hregular.fitted_held term).array.unique harray]

/-- Postings in step with equal ledgers know the same and find the same. -/
theorem Tracks.same_answers (h : postings.Tracks ledger) (h' : postings'.Tracks ledger')
    (hterms : ledger.terms = ledger'.terms)
    (hpayload : ∀ term id, ledger.payload? term id = ledger'.payload? term id) :
    (∀ term, postings.contains term = postings'.contains term) ∧
      ∀ term id, postings.find? term id = postings'.find? term id := by
  refine ⟨fun term => ?_, fun term id => ?_⟩
  · rw [Bool.eq_iff_iff, h.agrees.contains, h'.agrees.contains, hterms]
  · rw [h.find?_eq, h'.find?_eq, hpayload]

/-- A short payload, and a long one that comes and goes beside it. -/
def visitedChanges : List Change :=
  [.insert "t" 1 [97], .insert "t" 2 (List.replicate 7 0), .erase "t" 2]

theorem tracks_visited {done : List Change} (h : done <+: visitedChanges) :
    (run done).Tracks (Ledger.run done) := by
  refine tracks_run_of_modest ?_ h
  simp [visitedChanges, Change.payload?, Modest, modestLength]

/-- The long payload is never the only one. -/
theorem not_shortened_visited {changes : List Change} (hchanges : changes <+: visitedChanges) :
    ¬ Shortened changes term number := by
  rintro ⟨done, hdone, ⟨payload, ⟨id, hid, hpayload, honly⟩, hlong⟩, -⟩
  have hprefix := hdone.trans hchanges
  have htracks := tracks_visited hprefix
  have hshort : ([97] : Bytes).length ≤ inlineCapacity := by decide
  have hone : DocId.Valid 1 := by decide
  have htwo : DocId.Valid 2 := by decide
  simp only [htracks.find?_eq] at hpayload honly
  simp only [visitedChanges, List.prefix_cons_iff, List.prefix_nil] at hprefix
  rcases hprefix with rfl | ⟨_, rfl, rfl | ⟨_, rfl, rfl | ⟨_, rfl, rfl⟩⟩⟩ <;>
    simp only [Ledger.run, List.foldl_cons, List.foldl_nil, Ledger.apply, Ledger.insert,
      if_pos hone, if_pos htwo, Ledger.put, Ledger.empty] at hpayload honly
  · cases hpayload
  · split at hpayload <;> cases hpayload
    exact Nat.not_lt.2 hshort hlong
  · split at hpayload
    next hplace =>
      -- The short payload is there, too.
      obtain ⟨rfl, rfl⟩ := hplace
      have hother := honly 1 (by rw [← hid]; decide) (by simp)
      exact absurd hother (by decide)
    next hother =>
      split at hpayload <;> cases hpayload
      exact Nat.not_lt.2 hshort hlong
  · split at hpayload
    · cases hpayload
    · split at hpayload <;> cases hpayload
      exact Nat.not_lt.2 hshort hlong

/-- After the long payload is gone, the group is in place, as if it had never come. -/
theorem forms_canonical_visited :
    (∀ group ∈ ((run visitedChanges).held "t").groups, ∃ entry, group.body = .inline entry) ∧
      (run visitedChanges).totalBytes = (run [.insert "t" 1 [97]]).totalBytes := by
  have hplain : [Change.insert "t" 1 [97]] <+: visitedChanges := ⟨_, rfl⟩
  have htracks := tracks_visited (List.prefix_refl visitedChanges)
  have hone : DocId.Valid 1 := by decide
  have htwo : DocId.Valid 2 := by decide
  have hpayload (term : String) (id : DocId) : (Ledger.run visitedChanges).payload? term id
      = if term = "t" ∧ id = 1 then some [97] else none := by
    simp only [visitedChanges, Ledger.run, List.foldl_cons, List.foldl_nil, Ledger.apply,
      Ledger.insert, if_pos hone, if_pos htwo, Ledger.put, Ledger.empty]
    by_cases hplace : term = "t" ∧ id = 2
    · simp [hplace]
    · simp [hplace]
  obtain ⟨hknown, hfound⟩ := htracks.same_answers (tracks_visited hplain) rfl fun term id => by
    rw [hpayload]
    simp [Ledger.run, Ledger.apply, Ledger.insert, hone, Ledger.put, Ledger.empty]
  obtain ⟨hforms, htotal⟩ := forms_canonical visitedChanges
  refine ⟨?_, htotal _ hknown hfound fun term number => ?_⟩
  · intro group hgroup
    have hnumber : group.number = 0 := by
      have hall : ∀ group ∈ ((run visitedChanges).held "t").groups, group.number = 0 := by
        decide +kernel
      exact hall group hgroup
    refine (hforms "t" group hgroup).2 ⟨⟨[97], ⟨1, ?_, ?_, ?_⟩, by decide⟩, ?_⟩
    · rw [hnumber]
      decide
    · rw [htracks.find?_eq, hpayload]
      rfl
    · intro other _ hother
      rw [htracks.find?_eq, hpayload] at hother
      by_contra hne
      simp [hne] at hother
    · exact not_shortened_visited (List.prefix_refl visitedChanges)
  · exact iff_of_false (not_shortened_visited (List.prefix_refl _)) (not_shortened_visited hplain)

/-- **A short payload that replaces a long one keeps its block**: the group has a single short entry
    and a block, and the same postings without the long payload need fewer bytes. -/
theorem shortened_keeps_block :
    let changes : List Change := [.insert "t" 1 (List.replicate 7 0), .insert "t" 1 [97]]
    let plain : List Change := [.insert "t" 1 [97]]
    ((run changes).held "t").groups = [⟨0, .block 1 (Entry.encodeAll [⟨1, [97]⟩])⟩] ∧
      (∀ term, (run changes).contains term = (run plain).contains term) ∧
      (∀ term id, (run changes).find? term id = (run plain).find? term id) ∧
      (run changes).totalBytes = 20 ∧ (run plain).totalBytes = 10 := by
  intro changes plain
  have htracks : (run changes).Tracks (Ledger.run changes) := by
    refine tracks_run_of_modest ?_ (List.prefix_refl changes)
    simp [changes, Change.payload?, Modest, modestLength]
  have htracks' : (run plain).Tracks (Ledger.run plain) := by
    refine tracks_run_of_modest ?_ (List.prefix_refl plain)
    simp [plain, Change.payload?, Modest, modestLength]
  have hone : DocId.Valid 1 := by decide
  obtain ⟨hknown, hfound⟩ := htracks.same_answers htracks' (by decide) fun term id => by
    simp only [changes, plain, Ledger.run, List.foldl_cons, List.foldl_nil, Ledger.apply,
      Ledger.insert, if_pos hone, Ledger.put, Ledger.empty]
    split <;> rfl
  exact ⟨by decide +kernel, hknown, hfound, by decide +kernel, by decide +kernel⟩

end Postings
end InvertedIndex
