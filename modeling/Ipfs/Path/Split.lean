import Ipfs.Lib.Conversion
import Ipfs.Lib.Text
import Ipfs.Lib.Wire

/-!
# Splitting and joining paths

`ipfs_path_split_n` counts the parts of a string first and then cuts a copy of it. Lengths and counts are kept in
`int`s.
-/

namespace Ipfs.Path
open Conversion

def intMax : Nat := 2 ^ 31 - 1

/-- The position behind an occurrence, which must lie in the string. -/
def advance (size position : Nat) (dlen : Int) : Outcome Nat :=
  if 0 ≤ position + dlen ∧ position + dlen ≤ size then .returned (position + dlen).toNat else .fault .outOfBounds

/-- Count all delimiters and one more; `n` can be incremented so many times. -/
def countParts (p delim : Bytes) (dlen : Int) : Nat → Nat → Outcome Nat
  | 0, _ => .fault .overflow
  | room + 1, c =>
      match Text.search delim (p.drop c) with
      | none => .returned 1
      | some (before, _) => do
          let c ← advance p.length (c + before.length) dlen
          let n ← countParts p delim dlen room c
          pure (n + 1)

/-- The starts of at most `n` parts, and the buffer with a NUL at the end of each. -/
def cutParts (delim : Bytes) (dlen : Int) : Nat → Bytes → Nat → Outcome (List Nat × Bytes)
  | 0, rbuf, _ => .returned ([], rbuf)
  | n + 1, rbuf, c =>
      match Text.search delim (cString (rbuf.drop c)) with
      | none => .returned ([c], rbuf)
      | some (before, _) => do
          let next ← advance rbuf.length (c + before.length) dlen
          let (r, rbuf) ← cutParts delim dlen n (rbuf.set (c + before.length) 0) next
          pure (c :: r, rbuf)

/-- The most parts there can be. -/
def partLimit (p delim : Bytes) (dlen n : Int) : Outcome Int :=
  if n < 0 then do
    let n ← countParts p delim dlen intMax 0
    pure (n : Int)
  else intAdd n 1

/-- `ipfs_path_split_n`. -/
def splitN (p delim : CString) (n : Int) : Outcome (List Bytes) :=
  if n = 0 then .failed
  else do
    let dlen := sizeToInt delim.strlen
    let n ← partLimit p.bytes delim.bytes dlen n
    -- splits plus NULL pointer termination
    let _ ← intAdd n 1
    let (r, rbuf) ← cutParts delim.bytes dlen n.toNat p.bytes 0
    pure (r.map fun c => cString (rbuf.drop c))

def slash : UInt8 := 0x2f

/-- `ipfs_path_split_segments` ignores a leading slash. -/
def skipSlash (p : CString) : CString :=
  if p.bytes.head? = some slash then ⟨p.bytes.tail, fun mem => p.nulFree (List.mem_of_mem_tail mem)⟩ else p

def splitSegments (p : CString) : Outcome (List Bytes) := splitN (skipSlash p) ⟨[slash], by decide⟩ (-1)

def strncat (ret text : Bytes) (n : Nat) : Bytes := ret ++ text.take n

def appendSegment (room : Nat) (ret seg : Bytes) : Bytes :=
  let ret := strncat ret [slash] (room - ret.length)
  strncat ret seg (room - ret.length)

/-- Count each segment length and a slash. -/
def segmentsLength (retlen : Int) (seg : List Bytes) : Int :=
  seg.foldl (fun retlen s => (retlen + s.length + 1).bmod (2 ^ 32)) retlen

/-- `ipfs_path_from_segments`; no memory is found for a negative size. -/
def fromSegments (start : Bytes) (seg : List Bytes) : Outcome Bytes := do
  let retlen := segmentsLength (sizeToInt start.length) seg
  let size ← intAdd retlen 1
  if size < 0 then .failed
  else if retlen < 0 then .fault .outOfBounds
  else pure (seg.foldl (appendSegment retlen.toNat) (start.take retlen.toNat))

/-! ## The parts -/

/-- What the two passes see when they go on `k` bytes behind the beginning of each occurrence. -/
inductive Cut (delim : Bytes) (k : Nat) : Bytes → List Bytes → Prop
  | last {text : Bytes} (absent : Text.search delim text = none) : Cut delim k text [text]
  | more {text before behind : Bytes} {parts : List Bytes} (found : Text.search delim text = some (before, behind))
      (inside : before.length + k ≤ text.length) (rest : Cut delim k (text.drop (before.length + k)) parts) :
      Cut delim k text (before :: parts)

section
variable {p delim text : Bytes} {k : Nat}

theorem advance_eq_returned {size position next : Nat} :
    advance size position (k : Int) = .returned next ↔ position + k ≤ size ∧ next = position + k := by
  rw [advance]
  split
  · rw [Outcome.returned.injEq]
    omega
  · simp only [reduceCtorEq, false_iff, not_and]
    omega

theorem Cut.ne_nil {parts : List Bytes} (cut : Cut delim k text parts) : parts ≠ [] := by
  cases cut <;> simp

theorem Cut.unique {parts parts' : List Bytes} (cut : Cut delim k text parts) (cut' : Cut delim k text parts') :
    parts = parts' := by
  induction cut generalizing parts' with
  | last absent =>
      cases cut' with
      | last => rfl
      | more found => cases absent.symm.trans found
  | more found inside rest ih =>
      cases cut' with
      | last absent => cases absent.symm.trans found
      | more found' inside' rest' =>
          obtain ⟨rfl, rfl⟩ := Prod.mk.injEq .. ▸ Option.some.inj (found.symm.trans found')
          rw [ih rest']

theorem countParts_eq_returned {room c n : Nat} (inside : c ≤ p.length) :
    countParts p delim k room c = .returned n ↔
      ∃ parts, Cut delim k (p.drop c) parts ∧ parts.length = n ∧ n ≤ room := by
  induction room generalizing c n with
  | zero =>
      rw [countParts]
      refine iff_of_false (by simp) ?_
      rintro ⟨parts, cut, length, bound⟩
      have := List.length_pos_of_ne_nil cut.ne_nil
      omega
  | succ room ih =>
      rw [countParts]
      cases found : Text.search delim (p.drop c) with
      | none =>
          simp only [Outcome.returned.injEq]
          constructor
          · rintro rfl
            exact ⟨_, .last found, rfl, by omega⟩
          · rintro ⟨parts, cut, rfl, -⟩
            rw [cut.unique (.last found)]
            rfl
      | some halves =>
          obtain ⟨before, behind⟩ := halves
          simp only [Outcome.bind_eq_returned, advance_eq_returned, Outcome.pure_def, Outcome.returned.injEq]
          constructor
          · rintro ⟨_, ⟨bound, rfl⟩, m, counted, rfl⟩
            obtain ⟨parts, cut, rfl, small⟩ := (ih bound).mp counted
            refine ⟨before :: parts, .more found ?_ ?_, rfl, by omega⟩
            · rw [List.length_drop]
              omega
            · rwa [List.drop_drop, ← Nat.add_assoc]
          · rintro ⟨parts, cut, rfl, small⟩
            cases cut with
            | last absent => cases absent.symm.trans found
            | more found' bound rest =>
                obtain ⟨rfl, rfl⟩ := Prod.mk.injEq .. ▸ Option.some.inj (found.symm.trans found')
                rw [List.length_drop] at bound
                rw [List.drop_drop, ← Nat.add_assoc] at rest
                rw [List.length_cons] at small
                exact ⟨_, ⟨by omega, rfl⟩, _, (ih (by omega)).mpr ⟨_, rest, rfl, by omega⟩, rfl⟩

theorem cString_append_nul {before : Bytes} (clean : 0 ∉ before) (behind : Bytes) :
    cString (before ++ 0 :: behind) = before := by
  have own := cString_of_clean clean
  rw [cString] at own ⊢
  rw [List.takeWhile_append_of_pos (List.takeWhile_eq_self_iff.mp own), List.takeWhile_cons_of_neg (by simp),
    List.append_nil]

theorem set_append_append (front before behind : Bytes) (x : UInt8) :
    (front ++ (before ++ x :: behind)).set (front.length + before.length) 0 = front ++ (before ++ 0 :: behind) := by
  rw [List.set_append_right _ _ (by omega), Nat.add_sub_cancel_left, List.set_append_right _ _ le_rfl, Nat.sub_self,
    List.set_cons_zero]

/-- The cutting pass writes behind the first start only, and finds the same parts, as many as it may. -/
theorem cutParts_of_cut (positive : 0 < k) {parts : List Bytes} (cut : Cut delim k text parts) (clean : 0 ∉ text)
    (front : Bytes) (n : Nat) :
    ∃ r changed, cutParts delim k n (front ++ text) front.length = .returned (r, front ++ changed) ∧
      r.map (fun start => cString ((front ++ changed).drop start)) = parts.take n := by
  obtain ⟨k, rfl⟩ := Nat.exists_eq_succ_of_ne_zero positive.ne'
  induction cut generalizing front n with
  | @last text absent =>
      cases n with
      | zero => exact ⟨[], text, rfl, rfl⟩
      | succ n =>
          refine ⟨[front.length], text, ?_, by simp [cString_of_clean clean]⟩
          rw [cutParts, List.drop_left, cString_of_clean clean, absent]
  | @more text before behind parts found inside rest ih =>
      cases n with
      | zero => exact ⟨[], text, rfl, rfl⟩
      | succ n =>
          have whole := Text.search_eq_some found
          cases token : delim ++ behind with
          | nil =>
              rw [whole, token] at inside
              simp at inside
          | cons x xs =>
              rw [token] at whole
              have behindCut : text.drop (before.length + (k + 1)) = xs.drop k := by
                rw [whole, List.drop_append, List.drop_eq_nil_of_le (by omega), Nat.add_sub_cancel_left,
                  List.drop_succ_cons, List.nil_append]
              have cleanBefore : 0 ∉ before := fun mem => clean (whole ▸ List.mem_append_left _ mem)
              have cleanRest : 0 ∉ text.drop (before.length + (k + 1)) := fun mem => clean (List.mem_of_mem_drop mem)
              obtain ⟨r, changed, ran, starts⟩ := ih cleanRest (front ++ (before ++ 0 :: xs.take k)) n
              have buffer : (front ++ text).set (front.length + before.length) 0 =
                  front ++ (before ++ 0 :: xs.take k) ++ text.drop (before.length + (k + 1)) := by
                rw [behindCut, whole, set_append_append]
                simp
              have size : text.length = before.length + (xs.length + 1) := by
                rw [whole, List.length_append, List.length_cons]
              have start : (front ++ (before ++ 0 :: xs.take k)).length = front.length + before.length + (k + 1) := by
                simp only [List.length_append, List.length_cons, List.length_take]
                omega
              have next : advance (front ++ text).length (front.length + before.length) ((k + 1 : Nat) : Int) =
                  .returned (front.length + before.length + (k + 1)) := by
                rw [advance_eq_returned, List.length_append]
                omega
              refine ⟨front.length :: r, before ++ 0 :: (xs.take k ++ changed), ?_, ?_⟩
              · rw [cutParts, List.drop_left, cString_of_clean clean, found]
                simp only [next, Outcome.returned_bind, buffer]
                rw [← start, ran]
                simp
              · have same : front ++ (before ++ 0 :: (xs.take k ++ changed)) =
                    front ++ (before ++ 0 :: xs.take k) ++ changed := by simp
                rw [List.map_cons, List.drop_left, cString_append_nul cleanBefore, same, starts, List.take_succ_cons]

theorem countParts_stuck {dlen : Int} (back : dlen ≤ 0) {room c n : Nat} (occurs : delim <:+: p.drop c) :
    countParts p delim dlen room c ≠ .returned n := by
  induction room generalizing c n with
  | zero => simp [countParts]
  | succ room ih =>
      rw [countParts]
      cases found : Text.search delim (p.drop c) with
      | none => exact absurd occurs (Text.search_eq_none.mp found)
      | some halves =>
          obtain ⟨before, behind⟩ := halves
          simp only [ne_eq, Outcome.bind_eq_returned, not_exists, not_and]
          intro next reached m counted
          rw [advance] at reached
          split at reached
          · obtain rfl := Outcome.returned.inj reached
            refine absurd counted (ih ?_)
            -- the occurrence is still ahead
            have ahead : p.drop (c + before.length) = delim ++ behind := by
              rw [← List.drop_drop, Text.search_eq_some found, List.drop_left]
            have suffix : p.drop (c + before.length) <:+ p.drop (↑(c + before.length) + dlen).toNat :=
              List.drop_suffix_drop_left p (by omega)
            rw [ahead] at suffix
            exact (List.prefix_append delim behind).isInfix.trans suffix.isInfix
          · cases reached

/-- Going on behind the occurrences finds the pieces. -/
theorem cut_pieces (nonempty : delim ≠ []) (text : Bytes) : Cut delim delim.length text (Text.pieces delim text) := by
  refine Text.pieces_induction nonempty (fun text absent => .last absent) ?_ text
  intro text before behind found rest
  have whole := Text.search_eq_some found
  refine .more found ?_ ?_
  · rw [whole, List.length_append, List.length_append]
    omega
  · rwa [whole, ← List.append_assoc, ← List.length_append, List.drop_left]

/-- Going on inside an occurrence, what is left of it is joined again. -/
theorem Cut.length_le (short : k ≤ delim.length) {parts : List Bytes} (cut : Cut delim k text parts) :
    text.length ≤ (delim.intercalate parts).length := by
  induction cut with
  | last => rw [List.intercalate_singleton]
  | more found inside rest ih =>
      rw [List.intercalate_cons_of_ne_nil rest.ne_nil, List.length_append, List.length_append]
      rw [List.length_drop] at ih
      omega

theorem Cut.length_lt (short : k < delim.length) {parts : List Bytes} (cut : Cut delim k text parts)
    (occurs : delim <:+: text) : text.length < (delim.intercalate parts).length := by
  cases cut with
  | last absent => exact absurd occurs (Text.search_eq_none.mp absent)
  | more found inside rest =>
      have tail := rest.length_le short.le
      rw [List.intercalate_cons_of_ne_nil rest.ne_nil, List.length_append, List.length_append]
      rw [List.length_drop] at tail
      omega

end

section
variable {p delim : CString}

theorem intAdd_one_eq_returned {n : Nat} {m : Int} : intAdd n 1 = .returned m ↔ n ≤ 2 ^ 31 - 2 ∧ m = n + 1 := by
  rw [intAdd_eq_returned]
  omega

theorem splitN_all_eq_returned {parts : List Bytes} :
    splitN p delim (-1) = .returned parts ↔
      ∃ n, countParts p.bytes delim.bytes (sizeToInt delim.strlen) intMax 0 = .returned n ∧ n ≤ 2 ^ 31 - 2 ∧
        ∃ r rbuf, cutParts delim.bytes (sizeToInt delim.strlen) n p.bytes 0 = .returned (r, rbuf) ∧
          r.map (fun c => cString (rbuf.drop c)) = parts := by
  rw [splitN, if_neg (by decide)]
  simp only [partLimit, show (-1 : Int) < 0 by decide, if_true, Outcome.bind_eq_returned, Outcome.pure_def,
    Outcome.returned.injEq]
  constructor
  · rintro ⟨_, ⟨n, counted, rfl⟩, _, added, ⟨r, rbuf⟩, cut, rfl⟩
    exact ⟨n, counted, (intAdd_one_eq_returned.mp added).1, r, rbuf, cut, rfl⟩
  · rintro ⟨n, counted, bound, r, rbuf, cut, rfl⟩
    exact ⟨n, ⟨n, counted, rfl⟩, _, intAdd_one_eq_returned.mpr ⟨bound, rfl⟩, (r, rbuf), cut, rfl⟩

theorem splitN_cut {k : Nat} (step : sizeToInt delim.strlen = k) (positive : 0 < k) {parts : List Bytes} :
    splitN p delim (-1) = .returned parts ↔ Cut delim.bytes k p.bytes parts ∧ parts.length ≤ 2 ^ 31 - 2 := by
  rw [splitN_all_eq_returned, step]
  have cutting {parts : List Bytes} (cut : Cut delim.bytes k p.bytes parts) :=
    List.take_length (l := parts) ▸ cutParts_of_cut positive cut p.nulFree [] parts.length
  constructor
  · rintro ⟨n, counted, bound, r, rbuf, ran, rfl⟩
    obtain ⟨parts, cut, rfl, -⟩ := (countParts_eq_returned (Nat.zero_le _)).mp counted
    rw [List.drop_zero] at cut
    obtain ⟨r', changed, ran', starts⟩ := cutting cut
    obtain ⟨rfl, rfl⟩ := Prod.mk.injEq .. ▸ Outcome.returned.inj (ran.symm.trans ran')
    rw [List.nil_append] at starts
    rw [starts]
    exact ⟨cut, bound⟩
  · rintro ⟨cut, bound⟩
    obtain ⟨r, changed, ran, starts⟩ := cutting cut
    refine ⟨parts.length, (countParts_eq_returned (Nat.zero_le _)).mpr ⟨parts, cut, rfl, ?_⟩, bound, r, changed, ran, starts⟩
    rw [intMax]
    omega

theorem splitN_absent (absent : ¬ delim.bytes <:+: p.bytes) :
    countParts p.bytes delim.bytes (sizeToInt delim.strlen) intMax 0 = .returned 1 ∧
      splitN p delim (-1) = .returned [p.bytes] := by
  have nowhere := Text.search_eq_none.mpr absent
  have counted : countParts p.bytes delim.bytes (sizeToInt delim.strlen) intMax 0 = .returned 1 := by
    rw [intMax, show 2 ^ 31 - 1 = 2147483646 + 1 by decide, countParts, List.drop_zero, nowhere]
  refine ⟨counted, splitN_all_eq_returned.mpr ⟨1, counted, by decide, [0], p.bytes, ?_, ?_⟩⟩
  · rw [cutParts, List.drop_zero, cString_of_clean p.nulFree, nowhere]
  · rw [List.map_singleton, List.drop_zero, cString_of_clean p.nulFree]

/-- The parts of a string: as many as were counted, none with a delimiter in it, and together the string. -/
def SplitMeets (p delim : CString) : Prop :=
  ∃ n parts, countParts p.bytes delim.bytes (sizeToInt delim.strlen) intMax 0 = .returned n ∧
    splitN p delim (-1) = .returned parts ∧ parts.length = n ∧ delim.bytes.intercalate parts = p.bytes ∧
    ∀ part ∈ parts, ¬ delim.bytes <:+: part

/-- The length of a delimiter that occurs, and the number of the parts and of the pointers to them, are `int`s. -/
def SplitFits (p delim : CString) : Prop :=
  (delim.bytes <:+: p.bytes → delim.strlen < 2 ^ 31) ∧ (Text.pieces delim.bytes p.bytes).length ≤ 2 ^ 31 - 2

/-- A length that does not fit into an `int` is taken for a smaller one. -/
theorem not_splitMeets_long (occurs : delim.bytes <:+: p.bytes) (long : 2 ^ 31 ≤ delim.strlen) :
    ¬ SplitMeets p delim := by
  rintro ⟨n, parts, counted, split, -, joined, -⟩
  rcases le_or_gt (sizeToInt delim.strlen) 0 with back | positive
  · exact countParts_stuck back (by rwa [List.drop_zero]) counted
  · obtain ⟨k, step⟩ := Int.eq_ofNat_of_zero_le positive.le
    have upper := sizeToInt_lt delim.strlen
    obtain ⟨cut, -⟩ := (splitN_cut step (by omega)).mp split
    have longer := cut.length_lt (by rw [← CString.strlen]; omega) occurs
    rw [joined] at longer
    exact absurd longer (lt_irrefl _)

theorem splitN_eq_pieces_iff (nonempty : delim.bytes ≠ []) (short : delim.strlen < 2 ^ 31) {parts : List Bytes} :
    splitN p delim (-1) = .returned parts ↔
      parts = Text.pieces delim.bytes p.bytes ∧ (Text.pieces delim.bytes p.bytes).length ≤ 2 ^ 31 - 2 := by
  have pieces := cut_pieces nonempty p.bytes
  rw [splitN_cut (sizeToInt_of_lt short) (List.length_pos_of_ne_nil nonempty)]
  constructor
  · rintro ⟨cut, bound⟩
    obtain rfl := cut.unique pieces
    exact ⟨rfl, bound⟩
  · rintro ⟨rfl, bound⟩
    exact ⟨pieces, bound⟩

theorem splitMeets_iff (nonempty : delim.bytes ≠ []) : SplitMeets p delim ↔ SplitFits p delim := by
  by_cases occurs : delim.bytes <:+: p.bytes
  · by_cases long : 2 ^ 31 ≤ delim.strlen
    · exact iff_of_false (not_splitMeets_long occurs long) fun fits => absurd (fits.1 occurs) (not_lt.mpr long)
    · have short := not_le.mp long
      have step : sizeToInt delim.strlen = ((delim.bytes.length : Nat) : Int) := sizeToInt_of_lt short
      constructor
      · rintro ⟨n, parts, -, split, -⟩
        exact ⟨fun _ => short, ((splitN_eq_pieces_iff nonempty short).mp split).2⟩
      · rintro ⟨-, bound⟩
        refine ⟨_, _, ?_, (splitN_eq_pieces_iff nonempty short).mpr ⟨rfl, bound⟩, rfl,
          Text.intercalate_pieces nonempty p.bytes, fun part mem => Text.not_infix_of_mem_pieces nonempty mem⟩
        rw [step, countParts_eq_returned (Nat.zero_le _), List.drop_zero, intMax]
        exact ⟨_, cut_pieces nonempty p.bytes, rfl, by omega⟩
  · have single := Text.pieces_of_none (Text.search_eq_none.mpr occurs)
    obtain ⟨counted, split⟩ := splitN_absent occurs
    have clean : ∀ part ∈ [p.bytes], ¬ delim.bytes <:+: part := by
      intro part mem
      rwa [List.mem_singleton.mp mem]
    have one : (Text.pieces delim.bytes p.bytes).length = 1 := by rw [single, List.length_singleton]
    have meets : SplitMeets p delim :=
      ⟨1, [p.bytes], counted, split, List.length_singleton, List.intercalate_singleton, clean⟩
    have fits : SplitFits p delim := ⟨fun occurs' => absurd occurs' occurs, one.trans_le (by decide)⟩
    exact iff_of_true meets fits

end

/-! ## Joining -/

theorem segmentsLength_nil (retlen : Int) : segmentsLength retlen [] = retlen := rfl

theorem segmentsLength_cons (retlen : Int) (s : Bytes) (seg : List Bytes) :
    segmentsLength retlen (s :: seg) = segmentsLength ((retlen + s.length + 1).bmod (2 ^ 32)) seg := rfl

theorem segmentsLength_sizeToInt (size : Nat) (seg : List Bytes) :
    segmentsLength (sizeToInt size) seg = sizeToInt (size + (seg.flatMap (slash :: ·)).length) := by
  induction seg generalizing size with
  | nil => rw [segmentsLength_nil, List.flatMap_nil, List.length_nil, Nat.add_zero]
  | cons s seg ih =>
      have step : (sizeToInt size + s.length + 1).bmod (2 ^ 32) = sizeToInt (size + (s.length + 1)) := by
        have sum : sizeToInt size + s.length + 1 = sizeToInt size + ((s.length + 1 : Nat) : Int) := by
          rw [Nat.cast_succ, Int.add_assoc]
        rw [sum, bmod_sizeToInt_add]
      rw [segmentsLength_cons, step, ih, List.flatMap_cons, List.length_append, List.length_cons, Nat.add_assoc]

section
variable {room : Nat} {ret seg : Bytes}

theorem appendSegment_of_room (enough : ret.length + seg.length + 1 ≤ room) :
    appendSegment room ret seg = ret ++ slash :: seg := by
  have first : strncat ret [slash] (room - ret.length) = ret ++ [slash] := by
    rw [strncat, List.take_of_length_le (by rw [List.length_singleton]; omega)]
  rw [appendSegment, first, strncat, List.take_of_length_le (by rw [List.length_append, List.length_singleton]; omega),
    List.append_assoc]
  rfl

theorem appendSegment_length_le (inside : ret.length ≤ room) : (appendSegment room ret seg).length ≤ room := by
  simp only [appendSegment, strncat, List.length_append, List.length_take]
  omega

theorem foldl_appendSegment {segs : List Bytes} (enough : ret.length + (segs.flatMap (slash :: ·)).length ≤ room) :
    segs.foldl (appendSegment room) ret = ret ++ segs.flatMap (slash :: ·) := by
  induction segs generalizing ret with
  | nil => simp
  | cons s segs ih =>
      rw [List.flatMap_cons, List.length_append, List.length_cons] at enough
      rw [List.foldl_cons, appendSegment_of_room (by omega), ih, List.flatMap_cons, List.append_assoc]
      rw [List.length_append, List.length_cons]
      omega

theorem foldl_appendSegment_length_le (segs : List Bytes) (inside : ret.length ≤ room) :
    (segs.foldl (appendSegment room) ret).length ≤ room := by
  induction segs generalizing ret with
  | nil => exact inside
  | cons s segs ih => exact ih (appendSegment_length_le inside)

theorem flatMap_slash {segs : List Bytes} (nonempty : segs ≠ []) :
    segs.flatMap (slash :: ·) = slash :: [slash].intercalate segs := by
  induction segs with
  | nil => exact absurd rfl nonempty
  | cons s segs ih =>
      cases segs with
      | nil => simp
      | cons s' segs =>
          rw [List.flatMap_cons, ih (by simp), List.intercalate_cons_cons]
          simp

end

theorem length_le_flatMap_slash (segs : List Bytes) : segs.length ≤ (segs.flatMap (slash :: ·)).length := by
  induction segs with
  | nil => exact Nat.zero_le _
  | cons s segs ih =>
      rw [List.flatMap_cons, List.length_append, List.length_cons, List.length_cons]
      omega

/-- The segments of a path with a slash in front of each have the length of the path, as an `int`. -/
theorem fromSegments_eq_returned_iff {segs : List Bytes} {path : Bytes} (whole : segs.flatMap (slash :: ·) = path) :
    fromSegments [] segs = .returned path ↔ path.length ≤ 2 ^ 31 - 2 := by
  have retlen : segmentsLength (sizeToInt ([] : Bytes).length) segs = sizeToInt path.length := by
    rw [segmentsLength_sizeToInt, whole, List.length_nil, Nat.zero_add]
  simp only [fromSegments, retlen, List.take_nil, Outcome.bind_eq_returned, Outcome.pure_def]
  constructor
  · rintro ⟨size, added, joined⟩
    rw [intAdd] at added
    split at added
    · obtain rfl := Outcome.returned.inj added
      split at joined
      · cases joined
      · split at joined
        · cases joined
        · have bound : (segs.foldl (appendSegment (sizeToInt path.length).toNat) []).length ≤
              (sizeToInt path.length).toNat :=
            foldl_appendSegment_length_le segs (by simp)
          rw [Outcome.returned.inj joined] at bound
          omega
    · cases added
  · intro short
    have small : path.length < 2 ^ 31 := by omega
    rw [sizeToInt_of_lt small]
    refine ⟨path.length + 1, intAdd_one_eq_returned.mpr ⟨short, rfl⟩, ?_⟩
    rw [if_neg (by omega), if_neg (by omega), Int.toNat_natCast, foldl_appendSegment (by simp [whole]), whole,
      List.nil_append]

def Rejoined (p : CString) : Prop :=
  (do let seg ← splitSegments p
      fromSegments [] seg) = .returned p.bytes

theorem rejoined_iff {p : CString} (rooted : p.bytes.head? = some slash) : Rejoined p ↔ p.strlen ≤ 2 ^ 31 - 2 := by
  obtain ⟨bytes, nulFree⟩ := p
  obtain ⟨rest, rfl⟩ := List.head?_eq_some_iff.mp rooted
  have short : CString.strlen ⟨[slash], by decide⟩ < 2 ^ 31 := by decide
  have skipped : (skipSlash ⟨slash :: rest, nulFree⟩).bytes = rest := by
    rw [skipSlash, if_pos rooted]
    rfl
  have pieces : (Text.pieces [slash] rest).flatMap (slash :: ·) = slash :: rest := by
    rw [flatMap_slash (Text.pieces_ne_nil _ _), Text.intercalate_pieces (by simp)]
  have count : (Text.pieces [slash] rest).length ≤ (slash :: rest).length := by
    rw [← pieces]
    exact length_le_flatMap_slash _
  rw [Rejoined, Outcome.bind_eq_returned]
  simp only [splitSegments, splitN_eq_pieces_iff (show ([slash] : Bytes) ≠ [] by simp) short, skipped, CString.strlen]
  constructor
  · rintro ⟨_, ⟨rfl, -⟩, joined⟩
    exact (fromSegments_eq_returned_iff pieces).mp joined
  · intro fits
    exact ⟨_, ⟨rfl, count.trans fits⟩, (fromSegments_eq_returned_iff pieces).mpr fits⟩

/-- Splitting and joining do what they are for as long as every number on the way is an `int`. -/
theorem splitting_joining_iff (p delim : CString) :
    (delim.bytes ≠ [] → (SplitMeets p delim ↔ SplitFits p delim)) ∧
      (p.bytes.head? = some slash → (Rejoined p ↔ p.strlen ≤ 2 ^ 31 - 2)) :=
  ⟨splitMeets_iff, rejoined_iff⟩

def dashes : CString := ⟨[0x2d, 0x2d], by decide⟩

/-- "-a---", which is split at "--" into "-a" and "-". -/
def dashedText : CString := ⟨[0x2d, 0x61, 0x2d, 0x2d, 0x2d], by decide⟩

def rootedPath : CString := ⟨[slash, 0x61, slash], by decide⟩

theorem splitting_joining_small : SplitMeets dashedText dashes ∧ Rejoined rootedPath := by
  have pieces : Text.pieces dashes.bytes dashedText.bytes = [[0x2d, 0x61], [0x2d]] := by
    have first : Text.search dashes.bytes dashedText.bytes = some ([0x2d, 0x61], [0x2d]) := by decide
    have rest : Text.search dashes.bytes [0x2d] = none := by decide
    rw [Text.pieces_of_some (by decide) first, Text.pieces_of_none rest]
  refine ⟨((splitting_joining_iff dashedText dashes).1 (by decide)).mpr ⟨fun _ => by decide, ?_⟩,
    ((splitting_joining_iff rootedPath dashes).2 rfl).mpr (by decide)⟩
  rw [pieces]
  decide

def longPath (letters : Nat) : CString :=
  ⟨slash :: List.replicate letters 0x61, by simp [slash]⟩

/-- The length of the path is the largest `int`, and its terminating NUL does not fit behind it. -/
theorem not_rejoined_longPath : ¬ Rejoined (longPath 2147483646) := by
  have length (letters : Nat) : (longPath letters).strlen = letters + 1 := by
    simp [longPath, CString.strlen]
  rw [rejoined_iff rfl, length]
  decide

end Ipfs.Path
