import Ipfs.Path.Split

/-!
# Clean paths

`ipfs_path_clean_path` edits one string: it looks for the last slash when a parent directory is named. Its rules
are about the segments of a path.
-/

namespace Ipfs

/-- The string up to its last slash, unless that is its first byte. -/
def cutLastSegment (r : Bytes) : Bytes :=
  match r.reverse.dropWhile (· ≠ 0x2f) with
  | _ :: c :: before => (c :: before).reverse
  | _ => r

def cleanSegment (r segment : Bytes) : Bytes :=
  if segment = [] ∧ r = [] then [0x2f]
  else if segment = [0x2e, 0x2e] then cutLastSegment r
  else if segment ≠ [] ∧ segment ≠ [0x2e] then
    if r = [] then [0x2e, 0x2f] ++ segment
    else if r.getLast? ≠ some 0x2f then r ++ [0x2f] ++ segment
    else r ++ segment
  else r

def pathCleanPath (str : Bytes) : Bytes := (str.splitOn 0x2f).foldl cleanSegment []

end Ipfs

namespace Ipfs.Path
open Conversion

def dot : Bytes := [0x2e]

def dotDot : Bytes := [0x2e, 0x2e]

theorem slash_nulFree : 0 ∉ [slash] := by decide

def slashText : CString := ⟨[slash], slash_nulFree⟩

/-- A part in a buffer of which `room` bytes can be filled. -/
def cleanPart (room : Nat) (r part : Bytes) : Bytes :=
  if part = [] ∧ r = [] then ([slash] : Bytes).take room
  else if part = dotDot then cutLastSegment r
  else if part ≠ [] ∧ part.head? ≠ some slash ∧ part ≠ dot then
    let r :=
      if r = [] then strncat r (dot ++ [slash]) (room - r.length)
      else if r.getLast? ≠ some slash then strncat r [slash] (room - r.length)
      else r
    strncat r part (room - r.length)
  else r

/-- `ipfs_path_clean_path`, with the size of its buffer in an `int`. The buffer is written to before it is checked. -/
def cleanPath (str : CString) : Outcome Bytes :=
  let l := sizeToInt (str.strlen + 3)
  if l < 0 then .fault .nullPointer
  else if l = 0 then .fault .outOfBounds
  else do
    let path ← splitN str slashText (-1)
    pure (path.foldl (cleanPart (l - 1).toNat) [])

/-! ## The rules -/

/-- What is kept of the segments so far. -/
def lexicalStep (kept : List Bytes) (segment : Bytes) : List Bytes :=
  if segment = [] ∨ segment = dot then kept
  else if segment = dotDot then kept.dropLast
  else kept ++ [segment]

def lexicalSegments (path : Bytes) : List Bytes := (path.splitOn slash).foldl lexicalStep []

def rooted (segments : List Bytes) : Bytes := slash :: [slash].intercalate segments

/-- The path that the rules define is returned, and cleaning it again changes nothing. -/
def Cleans (str : CString) : Prop :=
  ∃ cleaned : CString, cleaned.bytes = rooted (lexicalSegments str.bytes) ∧ cleanPath str = .returned cleaned.bytes ∧
    cleanPath cleaned = .returned cleaned.bytes

/-- No parent directory is named in the directory right below the root. -/
def NeverBelowRoot (segments : List Bytes) : Prop :=
  ∀ before, before ++ [dotDot] <+: segments → (before.foldl lexicalStep []).length ≠ 1

/-! ## The buffer has room -/

section
variable {r part : Bytes}

theorem cutLastSegment_length_le (r : Bytes) : (cutLastSegment r).length ≤ r.length := by
  have stripped := (List.dropWhile_sublist (l := r.reverse) (· ≠ 0x2f)).length_le
  rw [List.length_reverse] at stripped
  rw [cutLastSegment]
  split
  · rename_i last c before same
    rw [same] at stripped
    simp only [List.length_cons, List.length_reverse] at stripped ⊢
    omega
  · exact le_rfl

theorem cleanSegment_length_le (r part : Bytes) :
    max (cleanSegment r part).length 1 ≤ max r.length 1 + (part.length + 1) := by
  have cut := cutLastSegment_length_le r
  rw [cleanSegment]
  split
  · rw [List.length_singleton]
    omega
  · split
    · omega
    · split
      · split
        · simp only [List.length_append, List.length_cons, List.length_nil]
          omega
        · split
          · simp only [List.length_append, List.length_singleton]
            omega
          · rw [List.length_append]
            omega
      · omega

theorem strncat_of_room {ret text : Bytes} {n : Nat} (short : text.length ≤ n) : strncat ret text n = ret ++ text := by
  rw [strncat, List.take_of_length_le short]

theorem cleanPart_of_room {room : Nat} (clean : slash ∉ part)
    (enough : max r.length 1 + (part.length + 1) ≤ room) : cleanPart room r part = cleanSegment r part := by
  have notSlash : part.head? ≠ some slash := fun head => clean (List.mem_of_mem_head? head)
  rw [cleanPart, cleanSegment]
  simp only [dotDot, dot, notSlash, ne_eq, not_false_eq_true, true_and, show (0x2f : UInt8) = slash from rfl]
  by_cases first : r = []
  · subst first
    rw [List.length_nil] at enough
    have start : strncat [] [0x2e, slash] (room - 0) = [0x2e, slash] :=
      strncat_of_room (by simp only [List.length_cons, List.length_nil]; omega)
    have root : ([slash] : Bytes).take room = [slash] :=
      List.take_of_length_le (by rw [List.length_singleton]; omega)
    simp only [and_true, if_true, root, List.length_nil, List.singleton_append, start]
    rw [strncat_of_room (by simp only [List.length_cons, List.length_nil]; omega)]
  · simp only [first, and_false, if_false]
    by_cases ends : r.getLast? = some slash
    · simp only [ends, not_true, if_false]
      rw [strncat_of_room (by omega)]
    · have joined : strncat r [slash] (room - r.length) = r ++ [slash] :=
        strncat_of_room (by rw [List.length_singleton]; omega)
      simp only [ends, not_false_eq_true, if_true, joined]
      rw [strncat_of_room (by rw [List.length_append, List.length_singleton]; omega)]

theorem foldl_cleanPart {room : Nat} {parts : List Bytes} (clean : ∀ part ∈ parts, slash ∉ part)
    (enough : max r.length 1 + (parts.flatMap (slash :: ·)).length ≤ room) :
    parts.foldl (cleanPart room) r = parts.foldl cleanSegment r := by
  induction parts generalizing r with
  | nil => rfl
  | cons part parts ih =>
      rw [List.flatMap_cons, List.length_append, List.length_cons] at enough
      have grows := cleanSegment_length_le r part
      rw [List.foldl_cons, List.foldl_cons, cleanPart_of_room (clean part (by simp)) (by omega)]
      exact ih (fun other mem => clean other (by simp [mem])) (by omega)

theorem flatMap_splitOn_length (path : Bytes) :
    ((path.splitOn slash).flatMap (slash :: ·)).length = path.length + 1 := by
  rw [flatMap_slash (List.splitOn_ne_nil slash path), List.intercalate_splitOn, List.length_cons]

theorem splitOn_length_le (path : Bytes) : (path.splitOn slash).length ≤ path.length + 1 := by
  rw [← flatMap_splitOn_length]
  exact length_le_flatMap_slash _

theorem splitN_slash {str : CString} {parts : List Bytes} :
    splitN str slashText (-1) = .returned parts ↔
      parts = str.bytes.splitOn slash ∧ (str.bytes.splitOn slash).length ≤ 2 ^ 31 - 2 := by
  have pieces := Text.pieces_singleton slash str.bytes
  rw [splitN_eq_pieces_iff (show slashText.bytes ≠ [] by simp [slashText]) (by decide)]
  exact pieces ▸ Iff.rfl

theorem cleanPath_of_short {str : CString} (short : str.strlen ≤ 2 ^ 31 - 4) :
    cleanPath str = .returned (pathCleanPath str.bytes) := by
  have size : sizeToInt (str.strlen + 3) = (str.strlen + 3 : Nat) := sizeToInt_of_lt (by omega)
  have room : ((str.strlen + 3 : Nat) - 1 : Int).toNat = str.strlen + 2 := by omega
  have count := splitOn_length_le str.bytes
  have length : str.bytes.length = str.strlen := rfl
  rw [cleanPath, size, if_neg (by omega), if_neg (by omega), splitN_slash.mpr ⟨rfl, by omega⟩, Outcome.returned_bind, room,
    foldl_cleanPart (fun part mem => (Text.mem_splitOn mem).1)]
  · rfl
  · rw [flatMap_splitOn_length, List.length_nil]
    omega

theorem cleanPath_returns_iff {str : CString} : (∃ cleaned, cleanPath str = .returned cleaned) ↔
    0 < sizeToInt (str.strlen + 3) ∧ (str.bytes.splitOn slash).length ≤ 2 ^ 31 - 2 := by
  rw [cleanPath]
  by_cases negative : sizeToInt (str.strlen + 3) < 0
  · simp only [negative, if_true, reduceCtorEq, exists_false, false_iff, not_and]
    omega
  · by_cases zero : sizeToInt (str.strlen + 3) = 0
    · simp [zero]
    · simp only [negative, zero, if_false, Outcome.bind_eq_returned, splitN_slash, Outcome.pure_def, Outcome.returned.injEq]
      constructor
      · rintro ⟨_, _, ⟨-, few⟩, -⟩
        exact ⟨by omega, few⟩
      · rintro ⟨-, few⟩
        exact ⟨_, _, ⟨rfl, few⟩, rfl⟩

/-- Up to 2^32 - 4 bytes the size is right or negative. -/
theorem short_of_cleanPath {str : CString} (bound : str.strlen + 3 < 2 ^ 32) {cleaned : Bytes}
    (returned : cleanPath str = .returned cleaned) : str.strlen ≤ 2 ^ 31 - 4 := by
  by_contra long
  have wraps : sizeToInt (str.strlen + 3) = (str.strlen + 3 : Nat) - 2 ^ 32 :=
    (Int.bmod_eq_iff (by decide)).mpr ⟨by omega, by omega, by simp⟩
  rw [cleanPath, if_pos (by omega)] at returned
  cases returned

end

/-! ## Segments -/

/-- The first segment is not removed, as its slash is the first byte. -/
def cleanStep (kept : List Bytes) (segment : Bytes) : List Bytes :=
  if segment = dotDot ∧ kept.length = 1 then kept else lexicalStep kept segment

/-- A name that can be kept. -/
def Name (segment : Bytes) : Prop := segment ≠ [] ∧ segment ≠ dot ∧ segment ≠ dotDot ∧ slash ∉ segment

section
variable {kept segments : List Bytes} {segment : Bytes}

theorem rooted_eq (some : kept ≠ []) : rooted kept = kept.flatMap (slash :: ·) := (flatMap_slash some).symm

theorem rooted_concat (some : kept ≠ []) (segment : Bytes) :
    rooted (kept ++ [segment]) = rooted kept ++ slash :: segment := by
  rw [rooted_eq (by simp), rooted_eq some, List.flatMap_append, List.flatMap_singleton]

theorem rooted_singleton (segment : Bytes) : rooted [segment] = slash :: segment := by
  rw [rooted, List.intercalate_singleton]

theorem dropWhile_reverse (clean : slash ∉ segment) (front : Bytes) :
    (front ++ slash :: segment).reverse.dropWhile (· ≠ 0x2f) = slash :: front.reverse := by
  have others : ∀ b ∈ segment.reverse, decide (b ≠ 0x2f) = true := fun b mem =>
    decide_eq_true fun same : b = slash => clean (same ▸ List.mem_reverse.mp mem)
  rw [List.reverse_append, List.reverse_cons, List.append_assoc, List.singleton_append,
    List.dropWhile_append_of_pos others]
  exact List.dropWhile_cons_of_neg (by simp [slash])

theorem cutLastSegment_append {r : Bytes} (some : r ≠ []) (clean : slash ∉ segment) :
    cutLastSegment (r ++ slash :: segment) = r := by
  rw [cutLastSegment, dropWhile_reverse clean]
  cases reversed : r.reverse with
  | nil => exact absurd (List.reverse_eq_nil_iff.mp reversed) some
  | cons c before => exact (congrArg List.reverse reversed).symm.trans (List.reverse_reverse r)

theorem cutLastSegment_first (clean : slash ∉ segment) : cutLastSegment (slash :: segment) = slash :: segment := by
  have stripped := dropWhile_reverse clean []
  rw [List.nil_append, List.reverse_nil] at stripped
  rw [cutLastSegment, stripped]

theorem cutLastSegment_rooted (names : ∀ name ∈ kept, Name name) :
    cutLastSegment (rooted kept) = rooted (if kept.length = 1 then kept else kept.dropLast) := by
  induction kept using List.reverseRecOn with
  | nil => rfl
  | append_singleton init last =>
      have clean := (names last (by simp)).2.2.2
      cases init with
      | nil =>
          rw [List.nil_append, rooted_singleton, cutLastSegment_first clean]
          simp [rooted_singleton]
      | cons first init =>
          rw [rooted_concat (by simp), cutLastSegment_append (by simp [rooted]) clean, List.dropLast_concat]
          simp

theorem rooted_getLast? (names : ∀ name ∈ kept, Name name) : (rooted kept).getLast? = some slash ↔ kept = [] := by
  induction kept using List.reverseRecOn with
  | nil => simp [rooted]
  | append_singleton init last =>
      obtain ⟨nonempty, -, -, clean⟩ := names last (by simp)
      have ends : (rooted (init ++ [last])).getLast? = last.getLast? := by
        cases init with
        | nil => rw [List.nil_append, rooted_singleton, List.getLast?_cons_of_ne_nil nonempty]
        | cons first init =>
            rw [rooted_concat (by simp), List.getLast?_append_of_ne_nil _ (by simp), List.getLast?_cons_of_ne_nil nonempty]
      rw [ends]
      refine iff_of_false (fun isLast => clean (List.mem_of_getLast? isLast)) (by simp)

theorem cleanStep_dotDot (kept : List Bytes) :
    cleanStep kept dotDot = if kept.length = 1 then kept else kept.dropLast := by
  simp [cleanStep, lexicalStep, dotDot, dot]

theorem cleanStep_of_ne (other : segment ≠ dotDot) : cleanStep kept segment = lexicalStep kept segment := by
  rw [cleanStep, if_neg fun both => other both.1]

/-- One segment in the string and in the list. -/
theorem cleanSegment_rooted (names : ∀ name ∈ kept, Name name) (segment : Bytes) :
    cleanSegment (rooted kept) segment = rooted (cleanStep kept segment) := by
  have nonempty : rooted kept ≠ [] := by simp [rooted]
  rw [cleanSegment, if_neg (fun both => nonempty both.2)]
  by_cases up : segment = dotDot
  · subst up
    rw [if_pos (by rfl), cutLastSegment_rooted names, cleanStep_dotDot]
  · rw [if_neg (show ¬ segment = [0x2e, 0x2e] from up), cleanStep_of_ne up, lexicalStep]
    by_cases skipped : segment = [] ∨ segment = dot
    · rw [if_pos skipped, if_neg (show ¬ (segment ≠ [] ∧ segment ≠ [0x2e]) from fun both => skipped.elim both.1 both.2)]
    · rw [if_neg skipped, if_neg up, if_pos (show segment ≠ [] ∧ segment ≠ [0x2e] from not_or.mp skipped), if_neg nonempty]
      by_cases root : kept = []
      · subst root
        rw [if_neg (by simp [rooted, slash]), List.nil_append, rooted_singleton]
        simp [rooted]
      · have ends : (rooted kept).getLast? ≠ some 0x2f := fun last => root ((rooted_getLast? names).mp last)
        rw [if_pos ends, rooted_concat root, List.append_assoc]
        rfl

theorem lexicalStep_names (names : ∀ name ∈ kept, Name name) (clean : slash ∉ segment) :
    ∀ name ∈ lexicalStep kept segment, Name name := by
  intro name mem
  rw [lexicalStep] at mem
  split at mem
  · exact names name mem
  · rename_i some
    split at mem
    · exact names name (List.mem_of_mem_dropLast mem)
    · rename_i up
      rcases List.mem_append.mp mem with mem | mem
      · exact names name mem
      · rw [List.mem_singleton.mp mem]
        exact ⟨fun empty => some (.inl empty), fun isDot => some (.inr isDot), up, clean⟩

theorem cleanStep_names (names : ∀ name ∈ kept, Name name) (clean : slash ∉ segment) :
    ∀ name ∈ cleanStep kept segment, Name name := by
  rw [cleanStep]
  split
  · exact names
  · exact lexicalStep_names names clean

theorem foldl_cleanSegment (names : ∀ name ∈ kept, Name name) (clean : ∀ segment ∈ segments, slash ∉ segment) :
    segments.foldl cleanSegment (rooted kept) = rooted (segments.foldl cleanStep kept) := by
  induction segments generalizing kept with
  | nil => rfl
  | cons segment segments ih =>
      rw [List.foldl_cons, List.foldl_cons, cleanSegment_rooted names]
      exact ih (cleanStep_names names (clean segment (by simp))) fun other mem => clean other (by simp [mem])

theorem foldl_names {step : List Bytes → Bytes → List Bytes}
    (keeps : ∀ {kept segment}, (∀ name ∈ kept, Name name) → slash ∉ segment → ∀ name ∈ step kept segment, Name name)
    (names : ∀ name ∈ kept, Name name) (clean : ∀ segment ∈ segments, slash ∉ segment) :
    ∀ name ∈ segments.foldl step kept, Name name := by
  induction segments generalizing kept with
  | nil => exact names
  | cons segment segments ih =>
      exact ih (keeps names (clean segment (by simp))) fun other mem => clean other (by simp [mem])

end

theorem pathCleanPath_eq {path : Bytes} (start : path.head? = some slash) :
    pathCleanPath path = rooted ((path.splitOn slash).foldl cleanStep []) := by
  obtain ⟨rest, rfl⟩ := List.head?_eq_some_iff.mp start
  have split : (slash :: rest).splitOn slash = [] :: rest.splitOn slash := by
    rw [List.splitOn_cons_eq_if_modifyHead]
    simp
  have root : cleanSegment [] [] = rooted [] := rfl
  have first : cleanStep [] [] = [] := rfl
  rw [pathCleanPath, show (0x2f : UInt8) = slash from rfl, split, List.foldl_cons, List.foldl_cons, root, first]
  exact foldl_cleanSegment (by simp) fun segment mem => (Text.mem_splitOn mem).1

/-! ## The segment right below the root -/

theorem neverBelowRoot_nil : NeverBelowRoot [] := by
  intro before isPrefix
  simp at isPrefix

theorem neverBelowRoot_concat {segments : List Bytes} {segment : Bytes} :
    NeverBelowRoot (segments ++ [segment]) ↔
      NeverBelowRoot segments ∧ (segment = dotDot → (segments.foldl lexicalStep []).length ≠ 1) := by
  constructor
  · intro never
    refine ⟨fun before isPrefix => never before (isPrefix.trans (List.prefix_append _ _)), ?_⟩
    rintro rfl
    exact never segments List.prefix_rfl
  · rintro ⟨never, last⟩ before isPrefix
    rcases List.prefix_concat_iff.mp isPrefix with same | earlier
    · obtain ⟨rfl, isLast⟩ := List.append_singleton_inj.mp same
      exact last isLast.symm
    · exact never before earlier

/-- The code keeps what the rules keep, or the first segment that should have been removed in front of it. -/
theorem foldl_cleanStep (segments : List Bytes) :
    NeverBelowRoot segments ∧ segments.foldl cleanStep [] = segments.foldl lexicalStep [] ∨
      ¬ NeverBelowRoot segments ∧
        ∃ first, segments.foldl cleanStep [] = first :: segments.foldl lexicalStep [] := by
  induction segments using List.reverseRecOn with
  | nil => exact .inl ⟨neverBelowRoot_nil, rfl⟩
  | append_singleton segments segment ih =>
      rw [neverBelowRoot_concat, List.foldl_append, List.foldl_append]
      simp only [List.foldl_cons, List.foldl_nil]
      generalize segments.foldl lexicalStep [] = kept at ih ⊢
      by_cases up : segment = dotDot
      · subst up
        rw [cleanStep_dotDot, show lexicalStep kept dotDot = kept.dropLast by simp [lexicalStep, dotDot, dot]]
        rcases ih with ⟨never, same⟩ | ⟨below, first, same⟩
        · rw [same]
          by_cases single : kept.length = 1
          · right
            obtain ⟨only, rfl⟩ := List.length_eq_one_iff.mp single
            exact ⟨fun both => both.2 rfl single, only, by simp⟩
          · left
            exact ⟨⟨never, fun _ => single⟩, if_neg single⟩
        · right
          refine ⟨fun both => below both.1, first, ?_⟩
          rw [same]
          cases kept with
          | nil => rfl
          | cons second kept => simp
      · rw [cleanStep_of_ne up]
        rcases ih with ⟨never, same⟩ | ⟨below, first, same⟩
        · left
          exact ⟨⟨never, fun isUp => absurd isUp up⟩, by rw [same]⟩
        · right
          refine ⟨fun both => below both.1, first, ?_⟩
          rw [same, lexicalStep, lexicalStep]
          split
          · rfl
          · rfl

/-! ## The path that the rules define -/

theorem rooted_length (segments : List Bytes) :
    (rooted segments).length = max 1 (segments.flatMap (slash :: ·)).length := by
  cases segments with
  | nil => rfl
  | cons first others =>
      rw [rooted_eq (by simp), List.flatMap_cons, List.length_append, List.length_cons]
      omega

theorem lexicalStep_length_le (kept : List Bytes) (segment : Bytes) :
    ((lexicalStep kept segment).flatMap (slash :: ·)).length ≤
      (kept.flatMap (slash :: ·)).length + (segment.length + 1) := by
  rw [lexicalStep]
  split
  · omega
  · split
    · have shorter : (kept.dropLast.flatMap (slash :: ·)).length ≤ (kept.flatMap (slash :: ·)).length :=
        ((List.dropLast_sublist kept).flatMap (slash :: ·)).length_le
      omega
    · rw [List.flatMap_append, List.flatMap_singleton, List.length_append, List.length_cons]

theorem foldl_lexicalStep_length_le (segments kept : List Bytes) :
    ((segments.foldl lexicalStep kept).flatMap (slash :: ·)).length ≤
      (kept.flatMap (slash :: ·)).length + (segments.flatMap (slash :: ·)).length := by
  induction segments generalizing kept with
  | nil => simp
  | cons segment segments ih =>
      have grows := lexicalStep_length_le kept segment
      have rest := ih (lexicalStep kept segment)
      rw [List.foldl_cons, List.flatMap_cons, List.length_append, List.length_cons]
      omega

theorem rooted_lexicalSegments_length_le {path : Bytes} (start : path.head? = some slash) :
    (rooted (lexicalSegments path)).length ≤ path.length := by
  obtain ⟨rest, rfl⟩ := List.head?_eq_some_iff.mp start
  have split : lexicalSegments (slash :: rest) = (rest.splitOn slash).foldl lexicalStep [] := by
    rw [lexicalSegments, List.splitOn_cons_eq_if_modifyHead]
    simp [lexicalStep]
  have bound := foldl_lexicalStep_length_le (rest.splitOn slash) []
  rw [← split, flatMap_splitOn_length, List.flatMap_nil, List.length_nil] at bound
  rw [rooted_length, List.length_cons]
  omega

theorem lexicalSegments_names (path : Bytes) : ∀ name ∈ lexicalSegments path, Name name :=
  foldl_names lexicalStep_names (by simp) fun _ mem => (Text.mem_splitOn mem).1

theorem foldl_lexicalStep_self {kept segments : List Bytes} (names : ∀ name ∈ segments, Name name) :
    segments.foldl lexicalStep kept = kept ++ segments := by
  induction segments generalizing kept with
  | nil => simp
  | cons segment segments ih =>
      obtain ⟨nonempty, isDot, up, -⟩ := names segment (by simp)
      rw [List.foldl_cons, lexicalStep, if_neg (not_or.mpr ⟨nonempty, isDot⟩), if_neg up,
        ih fun name mem => names name (by simp [mem]), List.append_assoc, List.singleton_append]

theorem foldl_cleanStep_of_absent {segments : List Bytes} (absent : dotDot ∉ segments) :
    segments.foldl cleanStep [] = segments.foldl lexicalStep [] := by
  rcases foldl_cleanStep segments with ⟨-, same⟩ | ⟨below, -⟩
  · exact same
  · exact absurd (fun before isPrefix => absurd (isPrefix.subset (by simp)) absent) below

/-- Of a path that is clean nothing is dropped. -/
theorem splitOn_rooted {segments : List Bytes} (names : ∀ name ∈ segments, Name name) :
    dotDot ∉ (rooted segments).splitOn slash ∧
      ((rooted segments).splitOn slash).foldl lexicalStep [] = segments := by
  have front (text : Bytes) : (slash :: text).splitOn slash = [] :: text.splitOn slash := by
    rw [List.splitOn_cons_eq_if_modifyHead]
    simp
  by_cases root : segments = []
  · subst root
    exact ⟨by decide, by decide⟩
  · have split : (rooted segments).splitOn slash = [] :: segments := by
      rw [rooted, front, List.splitOn_intercalate slash (fun name mem => (names name mem).2.2.2) root]
    rw [split]
    refine ⟨fun mem => ?_, ?_⟩
    · rcases List.mem_cons.mp mem with empty | mem
      · cases empty
      · exact (names _ mem).2.2.1 rfl
    · rw [List.foldl_cons, show lexicalStep [] [] = [] from rfl, foldl_lexicalStep_self names, List.nil_append]

theorem pathCleanPath_rooted {segments : List Bytes} (names : ∀ name ∈ segments, Name name) :
    pathCleanPath (rooted segments) = rooted segments := by
  obtain ⟨absent, same⟩ := splitOn_rooted names
  rw [pathCleanPath_eq rfl, foldl_cleanStep_of_absent absent, same]

theorem foldl_lexicalStep_subset {kept segments : List Bytes} {name : Bytes}
    (mem : name ∈ segments.foldl lexicalStep kept) : name ∈ kept ∨ name ∈ segments := by
  induction segments generalizing kept with
  | nil => exact .inl mem
  | cons segment segments ih =>
      rcases ih mem with mem | mem
      · rw [lexicalStep] at mem
        split at mem
        · exact .inl mem
        · split at mem
          · exact .inl (List.mem_of_mem_dropLast mem)
          · rcases List.mem_append.mp mem with mem | mem
            · exact .inl mem
            · exact .inr (by simp [List.mem_singleton.mp mem])
      · exact .inr (List.mem_cons_of_mem _ mem)

theorem rooted_nulFree (path : CString) : 0 ∉ rooted (lexicalSegments path.bytes) := by
  intro zero
  by_cases root : lexicalSegments path.bytes = []
  · rw [root] at zero
    revert zero
    decide
  · rw [rooted_eq root, List.mem_flatMap] at zero
    obtain ⟨name, mem, zero⟩ := zero
    rcases List.mem_cons.mp zero with isSlash | zero
    · revert isSlash
      decide
    · rcases foldl_lexicalStep_subset mem with mem | mem
      · cases mem
      · exact path.nulFree ((Text.mem_splitOn mem).2 0 zero)

/-- The path that the rules define, as a string. -/
def lexicalPath (str : CString) : CString := ⟨rooted (lexicalSegments str.bytes), rooted_nulFree str⟩

theorem cleanPath_lexicalPath {str : CString} (start : str.bytes.head? = some slash) (short : str.strlen ≤ 2 ^ 31 - 4) :
    cleanPath (lexicalPath str) = .returned (lexicalPath str).bytes := by
  have bound : (lexicalPath str).strlen ≤ str.strlen := rooted_lexicalSegments_length_le start
  rw [cleanPath_of_short (bound.trans short)]
  exact congrArg Outcome.returned (pathCleanPath_rooted (lexicalSegments_names str.bytes))

theorem pathCleanPath_meets_iff {path : Bytes} (start : path.head? = some slash) :
    pathCleanPath path = rooted (lexicalSegments path) ↔ NeverBelowRoot (path.splitOn slash) := by
  rw [pathCleanPath_eq start, lexicalSegments]
  rcases foldl_cleanStep (path.splitOn slash) with ⟨never, same⟩ | ⟨below, first, longer⟩
  · exact iff_of_true (congrArg rooted same) never
  · refine iff_of_false (fun same => ?_) below
    have nonempty : first ≠ [] := by
      have names : ∀ name ∈ (path.splitOn slash).foldl cleanStep [], Name name :=
        foldl_names cleanStep_names (by simp) fun _ mem => (Text.mem_splitOn mem).1
      exact (names first (by simp [longer])).1
    have positive := List.length_pos_of_ne_nil nonempty
    have length := congrArg List.length same
    rw [longer, rooted_length, rooted_length, List.flatMap_cons, List.length_append, List.length_cons] at length
    omega

/-- A path is cleaned as the rules say if its size is an `int` and no `..` stands right below the root. For 2^32 - 3
bytes and more the size is positive again, and what is left of the segments can come out right by chance. -/
theorem cleanPath_meets_iff (str : CString) (start : str.bytes.head? = some slash) :
    (str.strlen ≤ 2 ^ 31 - 4 ∧ NeverBelowRoot (str.bytes.splitOn slash) → Cleans str) ∧
      (str.strlen + 3 < 2 ^ 32 → Cleans str → str.strlen ≤ 2 ^ 31 - 4 ∧ NeverBelowRoot (str.bytes.splitOn slash)) := by
  constructor
  · rintro ⟨short, never⟩
    refine ⟨lexicalPath str, rfl, ?_, cleanPath_lexicalPath start short⟩
    rw [cleanPath_of_short short, (pathCleanPath_meets_iff start).mpr never]
    rfl
  · rintro bound ⟨cleaned, isClean, returned, -⟩
    have short := short_of_cleanPath bound returned
    rw [cleanPath_of_short short, isClean, Outcome.returned.injEq] at returned
    exact ⟨short, (pathCleanPath_meets_iff start).mp returned⟩

/-- "/a/.." -/
def parentPath : CString := ⟨[slash, 0x61, slash, 0x2e, 0x2e], by decide⟩

/-- "/a/b//./../c/" -/
def dottedPath : CString :=
  ⟨[slash, 0x61, slash, 0x62, slash, slash, 0x2e, slash, 0x2e, 0x2e, slash, 0x63, slash], by decide⟩

theorem cleanPath_meets_dotted : Cleans dottedPath ∧ lexicalPath dottedPath = ⟨[slash, 0x61, slash, 0x63], by decide⟩ := by
  refine ⟨(cleanPath_meets_iff dottedPath rfl).1 ⟨by decide, ?_⟩, by decide⟩
  have start : dottedPath.bytes.head? = some slash := rfl
  exact (pathCleanPath_meets_iff start).mp (by decide)

/-- The first segment is kept. -/
theorem not_cleanPath_meets_parent : ¬ Cleans parentPath := by
  rintro ⟨cleaned, isClean, returned, -⟩
  have kept : cleanPath parentPath = .returned [slash, 0x61] := by
    rw [cleanPath_of_short (by decide)]
    decide
  rw [kept, isClean] at returned
  revert returned
  decide

end Ipfs.Path
