import Ipfs.Core.Request
import Ipfs.Lib.Run

/-!
# Multipart bodies

`boundary_find` looks for `--` from the start of the body each time, and `boundary_size` keeps the length of its window
when it goes on.
-/

namespace Ipfs
open Http

def dash : UInt8 := 0x2d

def dashes : Bytes := [dash, dash]

/-! ## `boundary_find` -/

def skipSpaces (text : Bytes) : Bytes := text.dropWhile (· = space)

/-- A pointer is the text that it points at. -/
def strTok (str tok : Bytes) : Option Bytes := (Text.search tok str).map fun parts => skipSpaces parts.2

def boundaryFind (str boundary : Bytes) : Loop (Option Bytes) (Option Bytes) where
  step
    | none => .inl none
    | some p =>
        if boundary <+: p then .inl ((Text.search emptyLine p).map Prod.snd)
        else .inr (strTok str dashes)

/-- A line that is two dashes and the boundary, and what is in front of it and behind it. -/
structure DelimiterLine (boundary body before behind : Bytes) : Prop where
  whole : body = before ++ (dashes ++ (boundary ++ behind))
  starts : before = [] ∨ [cr, lf] <:+ before
  ends : behind = [] ∨ [cr, lf] <+: behind

def FirstDelimiter (boundary body before behind : Bytes) : Prop :=
  DelimiterLine boundary body before behind ∧
    ∀ before' behind', DelimiterLine boundary body before' behind' → before.length ≤ before'.length

/-- Behind the header of the first part, if there is one. -/
def FindsPart (boundary body : Bytes) : Option Bytes → Prop
  | some content => ∃ before behind, FirstDelimiter boundary body before behind ∧
      ∃ header, Text.search emptyLine behind = some (header, content)
  | none => ∀ before behind, DelimiterLine boundary body before behind → ¬ emptyLine <:+: behind

/-- The first two dashes, if there are any, have the boundary behind them, and the first delimiter line comes before every
empty line that follows. -/
def FirstDashesDelimit (boundary body : Bytes) : Prop :=
  ∀ before behind, Text.search dashes body = some (before, behind) → boundary <+: skipSpaces behind ∧
    ∀ left right, skipSpaces behind = left ++ (emptyLine ++ right) →
      ∃ before' behind', FirstDelimiter boundary body before' behind' ∧ (emptyLine ++ right).length ≤ behind'.length

section Find
variable {boundary body before behind : Bytes}

theorem DelimiterLine.length (line : DelimiterLine boundary body before behind) :
    body.length = before.length + (2 + (boundary.length + behind.length)) := by
  rw [line.whole]
  simp [dashes]
  omega

theorem DelimiterLine.behind_suffix_body (line : DelimiterLine boundary body before behind) : behind <:+ body :=
  ⟨before ++ (dashes ++ boundary), by rw [line.whole]; simp⟩

theorem DelimiterLine.first_exists (line : DelimiterLine boundary body before behind) :
    ∃ before' behind', FirstDelimiter boundary body before' behind' := by
  classical
  have some : ∃ n before' behind', DelimiterLine boundary body before' behind' ∧ before'.length = n :=
    ⟨_, before, behind, line, rfl⟩
  obtain ⟨before', behind', line', length⟩ := Nat.find_spec some
  refine ⟨before', behind', line', fun other behindOther otherLine => ?_⟩
  rw [length]
  exact Nat.find_min' some ⟨other, behindOther, otherLine, rfl⟩

/-- No delimiter line ends before the spaces behind the first dashes do. -/
theorem DelimiterLine.behind_suffix (line : DelimiterLine boundary body before behind) {front rest : Bytes}
    (found : Text.search dashes body = some (front, rest)) : behind <:+ skipSpaces rest := by
  have whole := Text.search_eq_some found
  have first := Text.search_first found line.whole
  have total := line.length
  have suffix : behind <:+ rest := by
    have ending : rest <:+ body := ⟨front ++ dashes, by rw [whole]; simp⟩
    apply List.suffix_of_suffix_length_le line.behind_suffix_body ending
    have two : dashes.length = 2 := rfl
    rw [whole, List.length_append, List.length_append] at total
    omega
  apply Text.suffix_dropWhile suffix
  intro b head
  rcases line.ends with rfl | ⟨more, rfl⟩
  · cases head
  · cases head
    decide

theorem FirstDelimiter.behind_le {before' behind' : Bytes} (first : FirstDelimiter boundary body before behind)
    (line : DelimiterLine boundary body before' behind') : behind'.length ≤ behind.length := by
  have least := first.2 before' behind' line
  have total := first.1.length
  have total' := line.length
  omega

theorem FirstDelimiter.unique {before' behind' : Bytes} (first : FirstDelimiter boundary body before behind)
    (other : FirstDelimiter boundary body before' behind') : behind = behind' := by
  have same : behind.length = behind'.length := Nat.le_antisymm (other.behind_le first.1) (first.behind_le other.1)
  exact (List.suffix_of_suffix_length_le first.1.behind_suffix_body other.1.behind_suffix_body same.le).eq_of_length same

/-- There is always one answer. -/
theorem findsPart_existsUnique (boundary body : Bytes) : ∃! r, FindsPart boundary body r := by
  by_cases some : ∃ before behind, DelimiterLine boundary body before behind ∧ emptyLine <:+: behind
  · obtain ⟨before, behind, line, inside⟩ := some
    obtain ⟨before', behind', first⟩ := line.first_exists
    have suffix : behind <:+ behind' :=
      List.suffix_of_suffix_length_le line.behind_suffix_body first.1.behind_suffix_body (first.behind_le line)
    have inside' := inside.trans suffix.isInfix
    cases found : Text.search emptyLine behind' with
    | none => exact absurd inside' (Text.search_eq_none.mp found)
    | some parts =>
        refine ⟨some parts.2, ⟨before', behind', first, parts.1, found⟩, ?_⟩
        rintro (_ | content) finds
        · exact absurd inside' (finds before' behind' first.1)
        · obtain ⟨_, behindOther, other, header, foundOther⟩ := finds
          rw [other.unique first, found] at foundOther
          rw [(Prod.mk.inj (Option.some.inj foundOther)).2]
  · refine ⟨none, fun before behind line inside => some ⟨before, behind, line, inside⟩, ?_⟩
    rintro (_ | content) finds
    · rfl
    · obtain ⟨before, behind, first, header, found⟩ := finds
      have whole := Text.search_eq_some found
      exact absurd ⟨before, behind, first.1, header, content, by rw [whole, List.append_assoc]⟩ some

theorem boundaryFind_some (p : Bytes) (matches' : boundary <+: p) {r : Option Bytes} :
    (boundaryFind body boundary).Ends (some p) r ↔ r = (Text.search emptyLine p).map Prod.snd := by
  apply Loop.ends_of_result
  unfold boundaryFind
  simp only [if_pos matches']

/-- The search starts over, and finds the same. -/
theorem boundaryFind_stuck {p : Bytes} (found : strTok body dashes = some p) (differs : ¬ boundary <+: p)
    (r : Option Bytes) : ¬ (boundaryFind body boundary).Ends (some p) r := by
  apply Loop.not_ends_of_fixed
  unfold boundaryFind
  simp only [if_neg differs, found]

theorem strTok_found {before behind : Bytes} (found : Text.search dashes body = some (before, behind)) :
    strTok body dashes = some (skipSpaces behind) := by
  unfold strTok
  rw [found, Option.map_some]

theorem firstDashesDelimit_of_finds {r : Option Bytes} (ends : (boundaryFind body boundary).Ends (strTok body dashes) r)
    (finds : FindsPart boundary body r) : FirstDashesDelimit boundary body := by
  intro before behind found
  have pointer := strTok_found found
  rw [pointer] at ends
  by_cases same : boundary <+: skipSpaces behind
  · refine ⟨same, fun left right empty => ?_⟩
    rw [boundaryFind_some _ same] at ends
    cases search : Text.search emptyLine (skipSpaces behind) with
    | none => exact absurd ⟨left, right, by rw [empty, List.append_assoc]⟩ (Text.search_eq_none.mp search)
    | some parts =>
        rw [search, Option.map_some] at ends
        subst ends
        obtain ⟨before', behind', first, header, inside⟩ := finds
        refine ⟨before', behind', first, ?_⟩
        have earliest := Text.search_first search empty
        have total := congrArg List.length empty
        have total' := congrArg List.length (Text.search_eq_some search)
        have fits := congrArg List.length (Text.search_eq_some inside)
        simp only [List.length_append] at total total' fits ⊢
        omega
  · exact absurd ends (boundaryFind_stuck pointer same r)

theorem finds_of_firstDashesDelimit (delimits : FirstDashesDelimit boundary body) :
    ∃ r, (boundaryFind body boundary).Ends (strTok body dashes) r ∧ FindsPart boundary body r := by
  cases found : Text.search dashes body with
  | none =>
      have pointer : strTok body dashes = none := by
        unfold strTok
        rw [found, Option.map_none]
      refine ⟨none, ?_, fun before behind line => ?_⟩
      · rw [pointer]
        exact .result rfl
      · exact absurd ⟨before, boundary ++ behind, by rw [line.whole, List.append_assoc]⟩ (Text.search_eq_none.mp found)
  | some parts =>
      obtain ⟨before, behind⟩ := parts
      obtain ⟨same, follows⟩ := delimits before behind found
      refine ⟨_, by rw [strTok_found found, boundaryFind_some _ same], ?_⟩
      cases search : Text.search emptyLine (skipSpaces behind) with
      | none =>
          intro before' behind' line inside
          exact Text.search_eq_none.mp search (inside.trans (line.behind_suffix found).isInfix)
      | some parts =>
          obtain ⟨left, right⟩ := parts
          obtain ⟨before', behind', first, fits⟩ := follows left right (Text.search_eq_some search)
          refine ⟨before', behind', first, ?_⟩
          exact Text.search_suffix search (first.1.behind_suffix found) fits

theorem boundaryFind_iff (boundary body : Bytes) :
    (∃ r, (boundaryFind body boundary).Ends (strTok body dashes) r ∧ FindsPart boundary body r) ↔
      FirstDashesDelimit boundary body := by
  constructor
  · rintro ⟨r, ends, finds⟩
    exact firstDashesDelimit_of_finds ends finds
  · exact finds_of_firstDashesDelimit

end Find

/-! ## `boundary_size` -/

def crlfDashes : Bytes := [cr, lf, dash, dash]

structure SizeSearch where
  offset : Nat
  -- where the calls of `memmem` so far began and ended
  windows : List (Nat × Nat)

/-- `bin` is the memory from the content on. -/
def boundarySize (bin boundary : Bytes) (limit : Nat) : Loop SizeSearch (Outcome Nat × List (Nat × Nat)) where
  step s :=
    let windows := s.windows ++ [(s.offset, s.offset + limit)]
    if bin.length < s.offset + limit then .inl (.fault .outOfBounds, windows)
    else match Text.search crlfDashes ((bin.drop s.offset).take limit) with
      | none => .inl (.returned 0, windows)
      | some (before, _) =>
          let p := s.offset + before.length + crlfDashes.length
          if boundary <+: bin.drop p ∧ [dash, dash, cr, lf] <+: bin.drop (p + boundary.length) then
            .inl (.returned (p - 4), windows)
          else .inr { offset := p, windows := windows }

def SizeSearch.start : SizeSearch where
  offset := 0
  windows := []

/-- A content with the end of the multipart behind it, all of that within the limit, which is within the memory. -/
structure LastPart (boundary : Bytes) where
  content : Bytes
  rest : Bytes
  limit : Nat
  covers : (content ++ (crlfDashes ++ (boundary ++ [dash, dash, cr, lf]))).length ≤ limit
  readable : limit ≤ (content ++ (crlfDashes ++ (boundary ++ ([dash, dash, cr, lf] ++ rest)))).length

def LastPart.bin {boundary : Bytes} (part : LastPart boundary) : Bytes :=
  part.content ++ (crlfDashes ++ (boundary ++ ([dash, dash, cr, lf] ++ part.rest)))

section Size
variable {boundary : Bytes}

/-- What has been searched stays on record. -/
theorem ends_windows {bin : Bytes} {limit : Nat} {s : SizeSearch} {r : Outcome Nat × List (Nat × Nat)}
    (ends : (boundarySize bin boundary limit).Ends s r) : s.windows ++ [(s.offset, s.offset + limit)] <+: r.2 := by
  induction ends with
  | result step =>
      unfold boundarySize at step
      dsimp only at step
      split at step
      · cases step
        exact List.prefix_rfl
      · split at step
        · cases step
          exact List.prefix_rfl
        · split at step
          · cases step
            exact List.prefix_rfl
          · cases step
  | next step _ ih =>
      unfold boundarySize at step
      dsimp only at step
      split at step
      · cases step
      · split at step
        · cases step
        · split at step
          · cases step
          · cases step
            exact (List.prefix_append _ _).trans ih

theorem LastPart.window (part : LastPart boundary) :
    ∃ more, part.bin.take part.limit = part.content ++ (crlfDashes ++ more) := by
  have covers := part.covers
  unfold LastPart.bin
  refine ⟨(boundary ++ ([dash, dash, cr, lf] ++ part.rest)).take (part.limit - part.content.length - crlfDashes.length), ?_⟩
  simp only [List.length_append] at covers
  rw [List.take_append, List.take_of_length_le (by omega), List.take_append, List.take_of_length_le (by omega)]

theorem boundarySize_readable (part : LastPart boundary) : ¬ part.bin.length < part.limit := by
  have readable := part.readable
  unfold LastPart.bin
  omega

theorem boundarySize_start (part : LastPart boundary) :
    ∃ before behind, Text.search crlfDashes (part.bin.take part.limit) = some (before, behind) ∧
      (boundarySize part.bin boundary part.limit).step .start =
        if boundary <+: part.bin.drop (before.length + 4) ∧
            [dash, dash, cr, lf] <+: part.bin.drop (before.length + 4 + boundary.length) then
          .inl (.returned before.length, [(0, part.limit)])
        else .inr { offset := before.length + 4, windows := [(0, part.limit)] } := by
  obtain ⟨more, window⟩ := part.window
  cases found : Text.search crlfDashes (part.bin.take part.limit) with
  | none => exact absurd ⟨part.content, more, by rw [window, List.append_assoc]⟩ (Text.search_eq_none.mp found)
  | some parts =>
      obtain ⟨before, behind⟩ := parts
      refine ⟨before, behind, rfl, ?_⟩
      have four : crlfDashes.length = 4 := rfl
      unfold boundarySize SizeSearch.start
      simp only [Nat.zero_add, if_neg (boundarySize_readable part), List.drop_zero, found, four, List.nil_append,
        Nat.add_sub_cancel]

theorem boundarySize_iff (part : LastPart boundary) :
    (∃ windows, (boundarySize part.bin boundary part.limit).Ends .start (.returned part.content.length, windows) ∧
      ∀ window ∈ windows, window.2 ≤ part.limit) ↔ ¬ crlfDashes <:+: part.content := by
  obtain ⟨more, window⟩ := part.window
  obtain ⟨before, behind, found, step⟩ := boundarySize_start part
  constructor
  · rintro ⟨windows, ends, inside⟩ ⟨left, right, content⟩
    have earlier : before.length < part.content.length := by
      have whole : part.bin.take part.limit = left ++ (crlfDashes ++ (right ++ (crlfDashes ++ more))) := by
        rw [window, ← content]
        simp only [List.append_assoc]
      have first := Text.search_first found whole
      have four : crlfDashes.length = 4 := rfl
      rw [← content]
      simp only [List.length_append]
      omega
    split at step
    · rw [Loop.ends_of_result step] at ends
      have same := Outcome.returned.inj (Prod.mk.inj ends).1
      omega
    · rw [Loop.ends_of_next step] at ends
      have again := (ends_windows ends).subset (List.mem_append_right _ (List.mem_singleton_self _))
      have behindLimit := inside _ again
      dsimp only at behindLimit
      omega
  · intro clean
    rw [window, crlfDashes, Text.search_append_token (by decide) clean more] at found
    cases found
    have delimiter : boundary <+: part.bin.drop (part.content.length + 4) ∧
        [dash, dash, cr, lf] <+: part.bin.drop (part.content.length + 4 + boundary.length) := by
      have four : crlfDashes.length = 4 := rfl
      have behindDashes : part.bin.drop (part.content.length + 4) = boundary ++ ([dash, dash, cr, lf] ++ part.rest) := by
        unfold LastPart.bin
        rw [← four, ← List.drop_drop, List.drop_left, List.drop_left]
      constructor
      · rw [behindDashes]
        exact List.prefix_append _ _
      · rw [← List.drop_drop, behindDashes, List.drop_left]
        exact List.prefix_append _ _
    rw [if_pos delimiter] at step
    exact ⟨[(0, part.limit)], .result step, by simp⟩

end Size

/-! ## Both scans -/

/-- The scan for the first part is right exactly when the first two dashes of the body delimit it, and the size exactly
when the content has no CRLF with two dashes behind it. -/
theorem multipart_iff (body boundary : CString) (part : LastPart boundary.bytes) :
    ((∃ p, (boundaryFind body.bytes boundary.bytes).Ends (strTok body.bytes dashes) p ∧
        FindsPart boundary.bytes body.bytes p) ↔ FirstDashesDelimit boundary.bytes body.bytes) ∧
      ((∃ windows, (boundarySize part.bin boundary.bytes part.limit).Ends .start
          (.returned part.content.length, windows) ∧ ∀ window ∈ windows, window.2 ≤ part.limit) ↔
        ¬ crlfDashes <:+: part.content) :=
  ⟨boundaryFind_iff boundary.bytes body.bytes, boundarySize_iff part⟩

/-- `a--a`, CRLF, the line of the boundary `b`, and an empty line. -/
def dashedBody : CString where
  bytes := [0x61, dash, dash, 0x61, cr, lf, dash, dash, 0x62, cr, lf, cr, lf]
  nulFree := by decide

theorem letter_nulFree : 0 ∉ ([0x62] : Bytes) := by decide

def letterBoundary : CString where
  bytes := [0x62]
  nulFree := letter_nulFree

/-- The content is CRLF and two dashes. -/
def dashedPart : LastPart letterBoundary.bytes where
  content := crlfDashes
  rest := []
  limit := 13
  covers := by decide
  readable := by decide

theorem not_multipart_dashed :
    (¬ ∃ p, (boundaryFind dashedBody.bytes letterBoundary.bytes).Ends (strTok dashedBody.bytes dashes) p ∧
        FindsPart letterBoundary.bytes dashedBody.bytes p) ∧
      ¬ ∃ windows, (boundarySize dashedPart.bin letterBoundary.bytes dashedPart.limit).Ends .start
          (.returned dashedPart.content.length, windows) ∧ ∀ window ∈ windows, window.2 ≤ dashedPart.limit := by
  constructor
  · rintro ⟨p, ends, -⟩
    exact boundaryFind_stuck (p := [0x61, cr, lf, dash, dash, 0x62, cr, lf, cr, lf]) (by decide) (by decide) p ends
  · rw [boundarySize_iff]
    decide

end Ipfs
