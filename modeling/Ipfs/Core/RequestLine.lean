import Ipfs.Core.Request

/-!
# The request line

The space, the question mark and the CR are looked for as far as the head goes, which the server cuts as it goes.
-/

namespace Ipfs
open Http

structure RequestLine where
  method : Bytes
  target : Bytes
  version : Bytes
  method_clean : ∀ b ∈ method, b ≠ 0 ∧ b ≠ cr ∧ b ≠ space
  target_clean : ∀ b ∈ target, b ≠ 0 ∧ b ≠ cr ∧ b ≠ space
  version_clean : ∀ b ∈ version, b ≠ 0 ∧ b ≠ cr

/-- What the server takes from a request. -/
structure LineValues where
  method : Bytes
  path : Bytes
  query : Option Bytes
  httpVer : Bytes
  deriving DecidableEq

namespace RequestLine

def bytes (line : RequestLine) : Bytes := line.method ++ space :: (line.target ++ space :: line.version)

def values (line : RequestLine) : LineValues where
  method := line.method
  path := line.target.takeWhile (· ≠ question)
  query := (Text.cut question line.target).map Prod.snd
  httpVer := line.version

end RequestLine

/-- The header lines, each with its CRLF in front, go up to the first empty line. -/
structure RequestHead where
  line : RequestLine
  block : Bytes
  starts : block = [] ∨ [cr, lf] <+: block
  ends : Text.search emptyLine (line.bytes ++ block ++ emptyLine) = some (line.bytes ++ block, [])

def RequestHead.bytes (head : RequestHead) : Bytes := head.line.bytes ++ head.block ++ emptyLine

/-- From what the first `read` gives. -/
def extracted (received : Bytes) : Outcome LineValues := do
  let request ← readHead received
  pure ⟨request.method, request.path, request.query, request.httpVer⟩

/-- The head comes with the first read, which does not fill the buffer, and has no NUL. There is a header. A question
mark is in the target, or nowhere behind it. -/
structure RequestHead.Fits (head : RequestHead) (received : Bytes) : Prop where
  whole : head.bytes.length ≤ received.length
  short : received.length ≤ maxRead
  clean : 0 ∉ head.block
  headers : head.block ≠ []
  question : question ∈ head.line.target ∨ question ∉ head.line.version ++ head.block

/-! ## The head -/

namespace RequestHead
variable (head : RequestHead)

theorem space_not_mem_method : space ∉ head.line.method := fun mem => (head.line.method_clean space mem).2.2 rfl

theorem space_not_mem_target : space ∉ head.line.target := fun mem => (head.line.target_clean space mem).2.2 rfl

theorem cut_version : Text.cut cr (head.line.version ++ head.block) =
    if head.block = [] then none else some (head.line.version, head.block.tail) := by
  have clean : cr ∉ head.line.version := fun mem => (head.line.version_clean cr mem).2 rfl
  by_cases empty : head.block = []
  · rw [if_pos empty, empty, List.append_nil, Text.cut_eq_none]
    exact clean
  · obtain ⟨rest, eq⟩ := head.starts.resolve_left empty
    rw [if_neg empty, ← eq]
    exact Text.cut_append clean _

theorem values_eq : head.line.values =
    match Text.cut question head.line.target with
    | some (path, query) => ⟨head.line.method, path, some query, head.line.version⟩
    | none => ⟨head.line.method, head.line.target, none, head.line.version⟩ := by
  unfold RequestLine.values
  cases cut : Text.cut question head.line.target with
  | none =>
      have plain : head.line.target.takeWhile (· ≠ question) = head.line.target :=
        List.takeWhile_eq_self_iff.mpr fun b mem => by
          simpa using ne_of_mem_of_not_mem mem (Text.cut_eq_none.mp cut)
      rw [plain]
      rfl
  | some parts =>
      obtain ⟨target, plain⟩ := Text.cut_eq_some (show Text.cut question head.line.target = some (parts.1, parts.2) from cut)
      have path : head.line.target.takeWhile (· ≠ question) = parts.1 := by
        rw [target, List.takeWhile_append_of_pos fun b mem => by simpa using ne_of_mem_of_not_mem mem plain]
        simp
      rw [path]
      rfl

/-- How the whole head is split. -/
theorem splitHead_iff :
    (∃ request, splitHead (head.line.bytes ++ head.block) = .returned request ∧
        (⟨request.method, request.path, request.query, request.httpVer⟩ : LineValues) = head.line.values) ↔
      head.block ≠ [] ∧ (question ∈ head.line.target ∨ question ∉ head.line.version ++ head.block) := by
  have bytes : head.line.bytes ++ head.block =
      head.line.method ++ space :: (head.line.target ++ space :: (head.line.version ++ head.block)) := by
    simp [RequestLine.bytes]
  rw [bytes, head.values_eq]
  cases cut : Text.cut question head.line.target with
  | some parts =>
      obtain ⟨target, plain⟩ := Text.cut_eq_some (show Text.cut question head.line.target = some (parts.1, parts.2) from cut)
      have whole : space ∉ parts.2 := fun mem => head.space_not_mem_target (by simp [target, mem])
      have named : question ∈ head.line.target := by simp [target]
      conv_lhs => rw [target, splitHead_query_eq head.space_not_mem_method plain whole, head.cut_version]
      by_cases empty : head.block = []
      · simp [empty]
      · simp [empty, named]
  | none =>
      have plain := Text.cut_eq_none.mp cut
      by_cases late : question ∈ head.line.version ++ head.block
      · simp only [plain, late, not_true, or_self, and_false, iff_false, not_exists, not_and]
        intro request split same
        obtain ⟨more, path⟩ := splitHead_late_eq head.space_not_mem_method plain late split
        have lengths := congrArg List.length (path.symm.trans (congrArg LineValues.path same))
        simp at lengths
      · rw [splitHead_plain_eq head.space_not_mem_method plain head.space_not_mem_target late, head.cut_version]
        by_cases empty : head.block = []
        · simp [empty]
        · simp [empty, late]

theorem zero_not_mem_line : 0 ∉ head.line.bytes := by
  simp only [RequestLine.bytes, List.mem_append, List.mem_cons, not_or]
  exact ⟨fun mem => (head.line.method_clean 0 mem).1 rfl, by decide, fun mem => (head.line.target_clean 0 mem).1 rfl,
    by decide, fun mem => (head.line.version_clean 0 mem).1 rfl⟩

/-- The head is found when it is there as a whole and has no NUL. -/
theorem search_received (body : Bytes) (count : Nat) :
    Text.search emptyLine (((head.bytes ++ body).take count).takeWhile (· ≠ 0)) =
      if head.bytes.length ≤ count ∧ 0 ∉ head.block then
        some (head.line.bytes ++ head.block, ((body.take (count - head.bytes.length)).takeWhile (· ≠ 0)))
      else none := by
  by_cases clean : 0 ∈ head.block
  · rw [if_neg fun fits => fits.2 clean, Text.search_eq_none]
    intro inside
    apply Text.search_before (by decide) head.ends
    have cut : (head.line.bytes ++ head.block).takeWhile (· ≠ 0) ≠ head.line.bytes ++ head.block := by
      intro all
      have nonzero := List.takeWhile_eq_self_iff.mp all 0 (List.mem_append_right _ clean)
      simp at nonzero
    have before : (head.bytes ++ body).takeWhile (· ≠ 0) = (head.line.bytes ++ head.block).takeWhile (· ≠ 0) := by
      rw [RequestHead.bytes, List.append_assoc, List.takeWhile_append, if_neg]
      intro length
      exact cut ((List.takeWhile_prefix _).eq_of_length length)
    rw [← List.take_takeWhile, before] at inside
    exact inside.trans ((List.take_prefix _ _).trans (List.takeWhile_prefix _)).isInfix
  · have zeros : ∀ b ∈ head.bytes, b ≠ 0 := by
      rintro b mem rfl
      simp only [RequestHead.bytes, List.mem_append] at mem
      rcases mem with (mem | mem) | mem
      · exact head.zero_not_mem_line mem
      · exact clean mem
      · exact absurd mem (by decide)
    by_cases whole : head.bytes.length ≤ count
    · rw [if_pos ⟨whole, clean⟩, List.take_append, List.take_of_length_le whole,
        List.takeWhile_append_of_pos fun b mem => by simpa using zeros b mem]
      exact Text.search_append head.ends _
    · rw [if_neg fun fits => whole fits.1, List.take_append_of_le_length (by omega)]
      have same : (head.bytes.take count).takeWhile (· ≠ 0) = head.bytes.take count :=
        List.takeWhile_eq_self_iff.mpr fun b mem => by simpa using zeros b (List.mem_of_mem_take mem)
      rw [same]
      apply Text.search_take_eq_none head.ends
      exact not_le.mp whole

/-- What the first read gives, of the head and what follows it. -/
theorem extracted_iff (body : Bytes) (count : Nat) :
    extracted ((head.bytes ++ body).take count) = .returned head.line.values ↔
      head.Fits ((head.bytes ++ body).take count) := by
  have received : head.bytes.length ≤ ((head.bytes ++ body).take count).length ↔ head.bytes.length ≤ count := by
    rw [List.length_take, List.length_append]
    omega
  by_cases short : ((head.bytes ++ body).take count).length ≤ maxRead
  · have split := head.splitHead_iff
    have found := head.search_received body count
    have all : ((head.bytes ++ body).take count).take (maxRead + 1) = (head.bytes ++ body).take count :=
      List.take_of_length_le (by omega)
    have read : readHead ((head.bytes ++ body).take count) =
        if head.bytes.length ≤ count ∧ 0 ∉ head.block then splitHead (head.line.bytes ++ head.block) else .failed := by
      rw [readHead, all]
      simp only [not_lt.mpr short, if_false, found]
      by_cases fits : head.bytes.length ≤ count ∧ 0 ∉ head.block
      · have nonempty : (head.bytes ++ body).take count ≠ [] := by
          apply List.ne_nil_of_length_pos
          have positive : 0 < head.bytes.length := by simp [RequestHead.bytes, emptyLine]
          have enough := received.mpr fits.1
          omega
        rw [if_neg nonempty, if_pos fits, if_pos fits]
        rfl
      · rw [if_neg fits, if_neg fits]
        simp
    unfold extracted
    rw [read]
    constructor
    · intro returned
      by_cases fits : head.bytes.length ≤ count ∧ 0 ∉ head.block
      · rw [if_pos fits, Outcome.bind_eq_returned] at returned
        obtain ⟨request, ran, same⟩ := returned
        obtain ⟨headers, questions⟩ := split.mp ⟨request, ran, Outcome.returned.inj same⟩
        exact ⟨received.mpr fits.1, short, fits.2, headers, questions⟩
      · rw [if_neg fits] at returned
        cases returned
    · intro fits
      obtain ⟨request, ran, same⟩ := split.mpr ⟨fits.headers, fits.question⟩
      rw [if_pos ⟨received.mp fits.whole, fits.clean⟩, ran, ← same]
      rfl
  · constructor
    · intro returned
      rw [extracted, readHead_long (by omega)] at returned
      cases returned
    · intro fits
      exact absurd fits.short short

end RequestHead

/-- Every request and whatever its first read gives; and two requests with the same line. -/
theorem requestLine_extracted_iff (head : RequestHead) (body : Bytes) (count : Nat) :
    (extracted ((head.bytes ++ body).take count) = .returned head.line.values ↔
        head.Fits ((head.bytes ++ body).take count)) ∧
      ∀ (head' : RequestHead) (body' : Bytes) (count' : Nat), head'.line = head.line →
        head.Fits ((head.bytes ++ body).take count) → head'.Fits ((head'.bytes ++ body').take count') →
          extracted ((head'.bytes ++ body').take count') = extracted ((head.bytes ++ body).take count) := by
  refine ⟨head.extracted_iff body count, ?_⟩
  intro head' body' count' line fits fits'
  rw [(head.extracted_iff body count).mpr fits, (head'.extracted_iff body' count').mpr fits', line]

/-- "GET / HTTP/1.1" -/
def getLine : RequestLine where
  method := getHead.method
  target := [0x2f]
  version := getHead.version
  method_clean := getHead.method_clean
  target_clean := by simp [cr, space]
  version_clean := getHead.version_clean

/-- "A: b" -/
def plainHead : RequestHead where
  line := getLine
  block := [cr, lf, 0x41, 0x3a, 0x20, 0x62]
  starts := by decide
  ends := by decide

/-- "A: ?" -/
def askingHead : RequestHead where
  line := getLine
  block := [cr, lf, 0x41, 0x3a, 0x20, 0x3f]
  starts := by decide
  ends := by decide

theorem requestLine_extracted_plain :
    extracted ((plainHead.bytes ++ []).take 100) = .returned getLine.values :=
  (requestLine_extracted_iff plainHead [] 100).1.mpr ⟨by decide, by decide, by decide, by decide, by decide⟩

theorem not_requestLine_extracted_asking :
    ¬ ((∀ (head : RequestHead) (body : Bytes), (head.bytes ++ body).length ≤ maxRead →
        extracted (head.bytes ++ body) = .returned head.line.values) ∧
      ∀ (head head' : RequestHead) (body : Bytes), head'.line = head.line → (head.bytes ++ body).length ≤ maxRead →
        (head'.bytes ++ body).length ≤ maxRead → extracted (head'.bytes ++ body) = extracted (head.bytes ++ body)) := by
  rintro ⟨values, -⟩
  have returned := values askingHead [] (by decide)
  revert returned
  decide

end Ipfs
