/-!
# `InvertedIndex.Query.Attribute` — the values behind `name:`

Behind a name and a colon stands an optional list of values in brackets and an optional last value:
`name:[a,"b c"]value`. A value in quotation marks of either kind ends at the next such mark that no
backslash precedes; any other ends at white space, in a list also at a comma or bracket.

## Contents
- `readQuoted`, `readValue`: one value off the front;
- `dropSeparator`: what stands between the values of a list;
- `readList`, `readAttributes`: all values, each with the rest and a bound on its length.
-/

namespace InvertedIndex

/-- A quoted value up to its closing mark, and the rest behind the mark. Backslashes stay in it. -/
def readQuoted (mark : Char) : List Char → List Char × List Char
  | [] => ([], [])
  | c :: rest =>
    if c = mark then ([], rest)
    else if c = '\\' then
      match rest with
      | [] => ([c], [])
      | d :: rest =>
        let (value, rest) := readQuoted mark rest
        (c :: d :: value, rest)
    else
      let (value, rest) := readQuoted mark rest
      (c :: value, rest)

/-- Whether a character goes on with a value that is not quoted. -/
def inValue (stops : List Char) (c : Char) : Bool := 0x20 < c.toNat && !stops.contains c

/-- A value off the front, and the rest. -/
def readValue (stops : List Char) (input : List Char) : List Char × List Char :=
  match input with
  | [] => ([], [])
  | c :: rest =>
    if c = '"' ∨ c = '\x27' then readQuoted c rest
    else (input.takeWhile (inValue stops), input.dropWhile (inValue stops))

/-- The characters at which a value in a list ends. -/
def listStops : List Char := [']', ',']

/-- Drops what follows a value in a list, up to the next value or the closing bracket: one
    character, or, if that is outside ASCII, the whole value that it starts and one more. -/
def dropSeparator (input : List Char) : List Char :=
  match input with
  | [] => []
  | c :: rest =>
    if c = ']' then input
    else if c.toNat < 0x80 then rest
    else
      match rest.dropWhile (inValue listStops) with
      | ']' :: rest => ']' :: rest
      | _ :: rest => rest
      | [] => []

/-! ## Bounds on the rest -/

theorem readQuoted_length (mark : Char) (input : List Char) :
    (readQuoted mark input).2.length ≤ input.length := by
  fun_induction readQuoted mark input <;> simp_all <;> omega

theorem readValue_length (stops input : List Char) :
    (readValue stops input).2.length ≤ input.length := by
  unfold readValue
  split
  · exact Nat.le_refl 0
  · next c rest =>
    split
    · exact Nat.le_succ_of_le (readQuoted_length c rest)
    · exact (List.dropWhile_suffix _).length_le

theorem dropSeparator_length (input : List Char) : (dropSeparator input).length ≤ input.length := by
  unfold dropSeparator
  split
  · exact Nat.le_refl 0
  · next c rest =>
    have hdrop := (List.dropWhile_suffix (l := rest) (inValue listStops)).length_le
    split
    · exact Nat.le_refl _
    · split
      · exact Nat.le_succ _
      · split
        · next hleft =>
          rw [hleft] at hdrop
          exact Nat.le_succ_of_le hdrop
        · next hleft =>
          rw [hleft] at hdrop
          exact Nat.le_trans (Nat.le_succ _) (Nat.le_succ_of_le hdrop)
        · exact Nat.zero_le _

/-- A value and what follows it take at least one character, unless the list is closed here. -/
theorem dropSeparator_readValue_length {c : Char} {rest : List Char} (h : c ≠ ']') :
    (dropSeparator (readValue listStops (c :: rest)).2).length < (c :: rest).length := by
  have hsep := dropSeparator_length (readValue listStops (c :: rest)).2
  by_cases hquote : c = '"' ∨ c = '\x27'
  · have hrest := readQuoted_length c rest
    simp only [readValue, if_pos hquote, List.length_cons] at hsep ⊢
    omega
  · simp only [readValue, if_neg hquote] at hsep ⊢
    by_cases hin : inValue listStops c
    · have hdrop := (List.dropWhile_suffix (l := rest) (inValue listStops)).length_le
      simp only [List.dropWhile, hin, List.length_cons] at hsep ⊢
      omega
    · have hdrop := (List.dropWhile_suffix (l := rest) (inValue listStops)).length_le
      simp only [List.dropWhile, hin, dropSeparator, if_neg h, List.length_cons]
      split
      · exact Nat.lt_succ_self _
      · split
        · next hleft =>
          rw [hleft] at hdrop
          exact Nat.lt_succ_of_le hdrop
        · next hleft =>
          rw [hleft] at hdrop
          exact Nat.lt_succ_of_le (Nat.le_trans (Nat.le_succ _) hdrop)
        · exact Nat.succ_pos _

/-! ## All values -/

/-- Adds a value unless it is empty. -/
def consValue (value : List Char) (values : List String) : List String :=
  if value.isEmpty then values else String.ofList value :: values

/-- The values of a list up to its closing bracket, and the rest behind the bracket. -/
def readList (input : List Char) : List String × List Char :=
  match input with
  | [] => ([], [])
  | c :: rest =>
    if _h : c = ']' then ([], rest)
    else
      let read := readValue listStops (c :: rest)
      let (values, behind) := readList (dropSeparator read.2)
      (consValue read.1 values, behind)
termination_by input.length
decreasing_by exact dropSeparator_readValue_length _h

/-- The values of the list in front, if there is one, and the rest. -/
def readListed : List Char → List String × List Char
  | '[' :: rest => readList rest
  | input => ([], input)

/-- The values behind `name:`, those of the list first, and the rest. -/
def readAttributes (input : List Char) : List String × List Char :=
  let (listed, rest) := readListed input
  let (value, rest) := readValue [] rest
  (listed ++ consValue value [], rest)

theorem readList_length (input : List Char) : (readList input).2.length ≤ input.length := by
  fun_induction readList input with
  | case1 => exact Nat.le_refl 0
  | case2 => exact Nat.le_succ _
  | case3 c rest hclose read values behind hread ih =>
    have hstep := @dropSeparator_readValue_length c rest hclose
    rw [hread] at ih
    exact Nat.le_of_lt (Nat.lt_of_le_of_lt ih hstep)

theorem readListed_length (input : List Char) : (readListed input).2.length ≤ input.length := by
  unfold readListed
  split
  · next rest => exact Nat.le_succ_of_le (readList_length rest)
  · exact Nat.le_refl _

theorem readAttributes_length (input : List Char) :
    (readAttributes input).2.length ≤ input.length :=
  Nat.le_trans (readValue_length [] _) (readListed_length input)

end InvertedIndex
