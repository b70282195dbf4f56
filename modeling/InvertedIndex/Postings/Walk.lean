import InvertedIndex.Cursor.Protocol
import InvertedIndex.Postings.Group

/-!
# `InvertedIndex.Postings.Walk` — the ids of a term, straight from its groups

A walk reads the groups of a term one after the other and decodes an entry at a time. To seek, it
first passes over the groups below that of the target without reading them.

## Contents
- `Stretch`: a group as far as it is unread;
- `takeEntry`, `takeFrom`: the next id, and the next at or after a target;
- `Walk`, with its instance of `IdStream`.
-/

namespace InvertedIndex

/-- What is unread of a group. -/
inductive Unread where
  /-- The entry kept in place. -/
  | inline (entry : Entry)
  /-- The rest of a block. -/
  | bytes (rest : Bytes)

/-- A group as far as it is unread. -/
structure Stretch where
  number : UInt16
  unread : Unread

namespace Stretch

/-- A group none of which is read. -/
def ofGroup (group : Group) : Stretch :=
  match group.body with
  | .inline entry => ⟨group.number, .inline entry⟩
  | .block _ bytes => ⟨group.number, .bytes bytes⟩

/-- A bound on the entries left, for termination. -/
def weight (stretch : Stretch) : Nat :=
  match stretch.unread with
  | .inline _ => 2
  | .bytes rest => rest.length + 1

end Stretch

/-- A posting that a walk landed on. -/
structure Landing where
  id : DocId
  payload : Bytes

/-- The next posting and what is unread behind it. -/
def takeEntry : List Stretch → Option (Landing × List Stretch)
  | [] => none
  | ⟨number, .inline entry⟩ :: rest =>
    some (⟨DocId.compose number entry.member, entry.payload⟩, ⟨number, .bytes []⟩ :: rest)
  | ⟨number, .bytes bytes⟩ :: rest =>
    match Entry.decode? bytes with
    | some (entry, unread) =>
      some (⟨DocId.compose number entry.member, entry.payload⟩, ⟨number, .bytes unread⟩ :: rest)
    | none => takeEntry rest

/-- The bound on the entries left of several groups. -/
def weights (todo : List Stretch) : Nat :=
  todo.foldr (fun stretch total => stretch.weight + total) 0

theorem weights_takeEntry {todo rest : List Stretch} {landing : Landing}
    (h : takeEntry todo = some (landing, rest)) : weights rest < weights todo := by
  fun_induction takeEntry todo with
  | case1 => cases h
  | case2 number entry rest =>
    cases h
    simp only [weights, List.foldr_cons, Stretch.weight, List.length_nil]
    omega
  | case3 number bytes rest entry unread hdecode =>
    cases h
    have := Entry.decode?_length hdecode
    simp only [weights, List.foldr_cons, Stretch.weight]
    omega
  | case4 number bytes rest _ ih =>
    have := ih h
    simp only [weights, List.foldr_cons] at this ⊢
    omega

/-- The next posting at or after the target and what is unread behind it. -/
def takeFrom (target : DocId) (todo : List Stretch) : Option (Landing × List Stretch) :=
  match _h : takeEntry todo with
  | none => none
  | some (landing, rest) =>
    if target ≤ landing.id then some (landing, rest) else takeFrom target rest
termination_by weights todo
decreasing_by exact weights_takeEntry _h

/-- A walk over the postings of a term. -/
structure Walk where
  /-- The groups that are not read to their end. -/
  todo : List Stretch
  /-- The posting that the walk stands on. -/
  landing : Option Landing

namespace Walk

/-- A walk over groups, before its first move. -/
def ofGroups (groups : List Group) : Walk := ⟨groups.map Stretch.ofGroup, none⟩

/-- The id that the walk stands on. -/
def current (walk : Walk) : DocId :=
  match walk.landing with
  | some landing => landing.id
  | none => 0

/-- The payload at the current id. -/
def payload (walk : Walk) : Bytes :=
  match walk.landing with
  | some landing => landing.payload
  | none => []

/-- The walk that stands on what was taken, or past the end if nothing was. -/
def ofTaken : Option (Landing × List Stretch) → Walk
  | some (landing, rest) => ⟨rest, some landing⟩
  | none => ⟨[], none⟩

instance : IdStream Walk where
  current := current
  window walk := Window.decode walk.payload
  next walk := ofTaken (takeEntry walk.todo)
  seek target walk :=
    if (Move.seek target).rests walk.current then walk
    else
      let todo := walk.todo.dropWhile fun stretch => stretch.number < target.group
      ofTaken (takeFrom target todo)

end Walk
end InvertedIndex
