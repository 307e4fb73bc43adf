import Ipfs.Core.FindChunk
import Ipfs.Lib.Run

/-!
# Chunked bodies

`read_chunked` keeps the received bytes in a buffer of fixed size. Bytes behind those that count stay there from
earlier reads, and a header or the CRLF behind a chunk may be read from them.
-/

namespace Ipfs
open Http

/-! ## `read_chunked` -/

structure ChunkState where
  /-- The bytes of `buf` that have been assigned, of which the first `bufSize` count. -/
  buf : Bytes
  bufSize : Nat
  already : Bytes
  /-- What the reads to come return, if there is room. -/
  unread : List Bytes
  /-- The body in the request. -/
  body : Bytes
  deriving DecidableEq

namespace ChunkState

/-- The part that was already read, as far as it fits. -/
def start (already : Bytes) (unread : List Bytes) : ChunkState where
  buf := already.take maxRead
  bufSize := (already.take maxRead).length
  already := already.drop maxRead
  unread := unread
  body := []

/-- `memcpy` of the content to the body, and `memmove` of what is behind it to the start of the buffer. -/
def consume (s : ChunkState) (pos r : Nat) : ChunkState :=
  let left := s.bufSize - pos - r
  { s with
    buf := (s.buf.drop (pos + r)).take left ++ s.buf.drop left
    bufSize := left
    body := s.body ++ (s.buf.drop pos).take r }

/-- More of what was already read; it is copied to the start of the buffer. -/
def takeAlready (s : ChunkState) : ChunkState :=
  let more := s.already.take (maxRead - s.bufSize)
  { s with
    buf := more ++ s.buf.drop more.length
    bufSize := s.bufSize + more.length
    already := s.already.drop more.length }

def store (s : ChunkState) (bytes : Bytes) (unread : List Bytes) : ChunkState :=
  { s with
    buf := s.buf.take s.bufSize ++ bytes ++ s.buf.drop (s.bufSize + bytes.length)
    bufSize := s.bufSize + bytes.length
    unread := unread }

end ChunkState

/-- Where the loop stands: at the head of `while`, at `CPCHUNK`, or at the `memcmp` behind it. -/
inductive ChunkPoint
  | header
  | copy (pos nsize : Nat)
  | crlf
  deriving DecidableEq

/-- From `CPCHUNK` on. `select` reports data while there is something unread. -/
def copyStep (pos nsize : Nat) (s : ChunkState) : Outcome Bytes ⊕ (ChunkPoint × ChunkState) :=
  -- `buf_size -= pos` wraps, and `memmove` leaves the buffer
  if s.bufSize < pos then .inl (.fault .outOfBounds)
  else
    let r := min nsize (s.bufSize - pos)
    let s := (s.consume pos r).takeAlready
    let nsize := nsize - r
    let after : ChunkPoint := if nsize = 0 then .crlf else .copy 0 nsize
    match s.unread with
    | [] => .inr (after, s)
    | segment :: unread =>
        let got := segment.take (maxRead - s.bufSize)
        let unread := if got.length < segment.length then segment.drop got.length :: unread else unread
        if got = [] then .inl (if nsize = 0 then .returned s.body else .failed)
        else .inr (after, s.store got unread)

/-- The outcome is that of `read_chunked`, with the body it leaves when it returns 1. -/
def readChunked : Loop (ChunkPoint × ChunkState) (Outcome Bytes) where
  step
    | (.header, s) =>
        if s.bufSize = 0 then .inl (.returned s.body)
        else match findChunk s.buf with
          | .returned (nsize, pos) => if nsize = 0 then .inl (.returned s.body) else .inr (.copy pos nsize, s)
          | .failed => .inl .failed
          | .fault cause => .inl (.fault cause)
    | (.copy pos nsize, s) => copyStep pos nsize s
    | (.crlf, s) =>
        if s.buf.length < 2 then .inl (.fault .unassigned)
        else if s.buf.take 2 = [cr, lf] then .inr (.header, s)
        else .inl .failed

/-! ## Chunked bodies -/

/-- The size of a chunk as text, and its extension with what is in front of the first semicolon. -/
structure ChunkHeader where
  size : Bytes
  extension : Bytes := []
  size_nonempty : size ≠ []
  size_hex : ∀ b ∈ size, isHex b
  extension_form : ∀ b ∈ extension.head?, b = 0x3b ∨ b = 0x20 ∨ b = 0x09
  extension_clean : ∀ b ∈ extension, b ≠ cr ∧ b ≠ lf

structure Chunk extends ChunkHeader where
  content : Bytes
  sized : hexNumber size = content.length
  nonempty : content ≠ []

/-- The chunks, the zero chunk and the lines of the trailer. -/
structure ChunkedBody where
  chunks : List Chunk
  last : ChunkHeader
  trailer : List Bytes := []
  last_zero : hexNumber last.size = 0
  trailer_clean : ∀ line ∈ trailer, line ≠ [] ∧ ∀ b ∈ line, b ≠ cr ∧ b ≠ lf

def ChunkHeader.bytes (header : ChunkHeader) : Bytes := header.size ++ header.extension ++ [cr, lf]

def Chunk.bytes (chunk : Chunk) : Bytes := chunk.toChunkHeader.bytes ++ chunk.content ++ [cr, lf]

def ChunkedBody.bytes (body : ChunkedBody) : Bytes :=
  body.chunks.flatMap Chunk.bytes ++ body.last.bytes ++ body.trailer.flatMap (fun line => line ++ [cr, lf]) ++ [cr, lf]

def ChunkedBody.content (body : ChunkedBody) : Bytes := body.chunks.flatMap Chunk.content

/-- The way through `CPCHUNK` to the end of a chunk. -/
inductive Copied : Nat → Nat → ChunkState → ChunkState → Prop
  | last {pos nsize : Nat} {s s' : ChunkState} (step : copyStep pos nsize s = .inr (.crlf, s')) : Copied pos nsize s s'
  | more {pos nsize pos' nsize' : Nat} {s next s' : ChunkState}
      (step : copyStep pos nsize s = .inr (.copy pos' nsize', next)) (rest : Copied pos' nsize' next s') :
      Copied pos nsize s s'

/-- Each time the header of a chunk is looked for it has been received, with the CRLF in front of it, and it is short and
without extension. At the zero chunk, or what is left in the buffer in its place, the buffer has a zero size. -/
def Timely : List Chunk → Bytes → ChunkState → Prop
  | [], front, s => front <+: s.buf ∧ (s.bufSize = 0 ∨ ∃ pos, findChunk s.buf = .returned (0, pos))
  | chunk :: chunks, front, s =>
      chunk.extension = [] ∧ front.length + chunk.size.length ≤ 10 ∧
        front.length + chunk.size.length + 2 ≤ s.bufSize ∧
        ∃ s', Copied (front.length + chunk.size.length + 2) chunk.content.length s s' ∧ Timely chunks [cr, lf] s'

/-- A body cut into the part that was already read and what the reads return. The part already read is from the same
`read` as the end of the head. -/
structure Arrival (body : ChunkedBody) where
  already : Bytes
  unread : List Bytes
  whole : already ++ unread.flatten = body.bytes
  already_fits : already.length ≤ maxRead
  unread_nonempty : ∀ segment ∈ unread, segment ≠ []

def Arrival.start {body : ChunkedBody} (arrival : Arrival body) : ChunkState :=
  .start arrival.already arrival.unread

/-! ## The buffer -/

/-- What counts in the buffer and what is unread make up the rest of the body. -/
structure Holds (s : ChunkState) (text : Bytes) : Prop where
  already : s.already = []
  assigned : s.bufSize ≤ s.buf.length
  fits : s.bufSize ≤ maxRead
  rest : s.buf.take s.bufSize ++ s.unread.flatten = text
  nonempty : ∀ segment ∈ s.unread, segment ≠ []

theorem Arrival.holds {body : ChunkedBody} (arrival : Arrival body) : Holds arrival.start body.bytes where
  already := by simp [start, ChunkState.start, arrival.already_fits]
  assigned := le_rfl
  fits := by simp [start, ChunkState.start]
  rest := by
    simp only [start, ChunkState.start, List.take_length, List.take_of_length_le arrival.already_fits]
    exact arrival.whole
  nonempty := arrival.unread_nonempty

theorem takeAlready_nil {s : ChunkState} (read : s.already = []) : s.takeAlready = s := by
  cases s
  simp_all [ChunkState.takeAlready]

variable {s : ChunkState} {text : Bytes}

theorem Holds.window (holds : Holds s text) {n : Nat} (within : n ≤ s.bufSize) : s.buf.take n = text.take n := by
  rw [← holds.rest, List.take_append_of_le_length (by rwa [List.length_take_of_le holds.assigned]), List.take_take,
    Nat.min_eq_left within]

theorem Holds.getElem? (holds : Holds s text) {i : Nat} (within : i < s.bufSize) : s.buf[i]? = text[i]? := by
  have window := congrArg (·[i]?) (holds.window (Nat.succ_le_of_lt within))
  simpa using window

theorem Holds.length (holds : Holds s text) : text.length = s.bufSize + s.unread.flatten.length := by
  rw [← holds.rest, List.length_append, List.length_take_of_le holds.assigned]

theorem Holds.consume (holds : Holds s text) {pos r : Nat} (room : pos + r ≤ s.bufSize) :
    Holds (s.consume pos r) (text.drop (pos + r)) where
  already := holds.already
  assigned := by
    have assigned := holds.assigned
    simp only [ChunkState.consume, List.length_append, List.length_take, List.length_drop]
    omega
  fits := by
    have fits := holds.fits
    simp only [ChunkState.consume]
    omega
  rest := by
    have assigned := holds.assigned
    have moved : ((s.buf.drop (pos + r)).take (s.bufSize - pos - r)).length = s.bufSize - pos - r := by
      rw [List.length_take, List.length_drop]
      omega
    rw [← holds.rest, List.drop_append_of_le_length (by rw [List.length_take_of_le assigned]; exact room), List.drop_take,
      Nat.sub_add_eq]
    simp only [ChunkState.consume]
    rw [List.take_left' moved]
  nonempty := holds.nonempty

theorem Holds.consume_body (holds : Holds s text) {pos r : Nat} (room : pos + r ≤ s.bufSize) :
    (s.consume pos r).body = s.body ++ (text.drop pos).take r := by
  rw [List.take_drop, ← holds.window room, ← List.take_drop]
  rfl

theorem Holds.store (holds : Holds s text) {got : Bytes} {unread : List Bytes} (room : got.length ≤ maxRead - s.bufSize)
    (read : got ++ unread.flatten = s.unread.flatten) (nonempty : ∀ segment ∈ unread, segment ≠ []) :
    Holds (s.store got unread) text where
  already := holds.already
  assigned := by
    have assigned := holds.assigned
    simp only [ChunkState.store, List.length_append, List.length_take, List.length_drop]
    omega
  fits := by
    have fits := holds.fits
    simp only [ChunkState.store]
    omega
  rest := by
    have filled : (s.buf.take s.bufSize ++ got).length = s.bufSize + got.length := by
      rw [List.length_append, List.length_take_of_le holds.assigned]
    simp only [ChunkState.store]
    rw [List.take_left' filled, List.append_assoc, read, holds.rest]
  nonempty := nonempty

/-! ## `CPCHUNK` -/

theorem read_flatten (segment : Bytes) (others : List Bytes) (n : Nat) :
    segment.take n ++ (if (segment.take n).length < segment.length then segment.drop (segment.take n).length :: others
      else others).flatten = (segment :: others).flatten := by
  rw [List.length_take, List.flatten_cons]
  split
  · rename_i short
    rw [Nat.min_eq_left (by omega), List.flatten_cons, ← List.append_assoc, List.take_append_drop]
  · rename_i long
    rw [List.take_of_length_le (by omega)]

theorem read_nonempty {segment : Bytes} {others : List Bytes} (nonempty : ∀ later ∈ segment :: others, later ≠ []) (n : Nat) :
    ∀ later ∈ (if n < segment.length then segment.drop n :: others else others), later ≠ [] := by
  intro later mem
  split at mem
  · rename_i short
    rcases List.mem_cons.mp mem with rfl | mem
    · simpa using short
    · exact nonempty later (by simp [mem])
  · exact nonempty later (by simp [mem])

theorem copyStep_holds (holds : Holds s text) {pos nsize : Nat} (room : pos ≤ s.bufSize) (positive : 0 < nsize)
    {r : Nat} (copied : r = min nsize (s.bufSize - pos)) :
    ∃ s', copyStep pos nsize s = .inr (if nsize - r = 0 then .crlf else .copy 0 (nsize - r), s') ∧
      Holds s' (text.drop (pos + r)) ∧ s'.body = s.body ++ (text.drop pos).take r ∧
      (s.unread ≠ [] → s'.unread.flatten.length < s.unread.flatten.length) := by
  have within : pos + r ≤ s.bufSize := by omega
  have consumed := holds.consume within
  have body := holds.consume_body within
  rw [copyStep, if_neg (by omega)]
  simp only [← copied, takeAlready_nil consumed.already]
  cases unread : (s.consume pos r).unread with
  | nil => exact ⟨_, rfl, consumed, body, fun some => absurd unread some⟩
  | cons segment others =>
      have nonempty := unread ▸ consumed.nonempty
      have full : segment ≠ [] := nonempty segment (by simp)
      have free : maxRead - (s.consume pos r).bufSize ≠ 0 := by
        have fits := holds.fits
        simp only [ChunkState.consume, maxRead] at *
        omega
      have got : segment.take (maxRead - (s.consume pos r).bufSize) ≠ [] := by
        simp [full, free]
      simp only [if_neg got]
      have read := read_flatten segment others (maxRead - (s.consume pos r).bufSize)
      have stored := consumed.store (List.length_take_le _ _) (read.trans (congrArg _ unread.symm))
        (read_nonempty nonempty _)
      refine ⟨_, rfl, stored, body, fun _ => ?_⟩
      have shrinks := congrArg List.length read
      rw [List.length_append] at shrinks
      have some := List.length_pos_of_ne_nil got
      change _ < (s.consume pos r).unread.flatten.length
      rw [unread]
      simp only [ChunkState.store]
      omega

theorem copied_exists (holds : Holds s text) {pos nsize : Nat} (room : pos ≤ s.bufSize) (positive : 0 < nsize)
    (long : pos + nsize ≤ text.length) : ∃ s', Copied pos nsize s s' ∧ Holds s' (text.drop (pos + nsize)) ∧
      s'.body = s.body ++ (text.drop pos).take nsize := by
  induction left : s.unread.flatten.length using Nat.strong_induction_on generalizing pos nsize s text with
  | h left ih =>
      obtain ⟨next, step, holds', body, shrinks⟩ := copyStep_holds holds room positive rfl
      by_cases complete : nsize ≤ s.bufSize - pos
      · rw [Nat.min_eq_left complete] at step holds' body
        rw [Nat.sub_self, if_pos rfl] at step
        exact ⟨next, .last step, holds', body⟩
      · -- the chunk goes on behind what has been received, so something is unread
        have length := holds.length
        have some : s.unread ≠ [] := by
          rintro none
          rw [none, List.flatten_nil, List.length_nil] at length
          omega
        have missing : 0 < nsize - (s.bufSize - pos) := by omega
        rw [Nat.min_eq_right (by omega)] at step holds' body
        rw [if_neg missing.ne'] at step
        obtain ⟨s', copied, last, whole⟩ := ih _ (left ▸ shrinks some) holds' (Nat.zero_le _) missing
          (by rw [List.length_drop]; omega) rfl
        refine ⟨s', .more step copied, ?_, ?_⟩
        · rw [List.drop_drop] at last
          exact (show pos + (s.bufSize - pos) + (0 + (nsize - (s.bufSize - pos))) = pos + nsize by omega) ▸ last
        · rw [whole, body, List.append_assoc, List.drop_drop, Nat.add_zero, ← List.drop_drop, ← List.take_add]
          congr 2
          omega

theorem Copied.ends {pos nsize : Nat} {s' : ChunkState} (copied : Copied pos nsize s s') (r : Outcome Bytes) :
    readChunked.Ends (.copy pos nsize, s) r ↔ readChunked.Ends (.crlf, s') r := by
  induction copied with
  | last step => exact Loop.ends_of_next step
  | more step _ ih => exact (Loop.ends_of_next step).trans ih

/-! ## Headers -/

section Header
variable {front rest : Bytes} {header : ChunkHeader}

theorem ChunkHeader.stop (header : ChunkHeader) (rest : Bytes) :
    ∃ stop more, header.extension ++ [cr, lf] ++ rest = stop :: more ∧ isHex stop = false ∧ (stop ≠ 0x78 ∧ stop ≠ 0x58) ∧
      (stop = cr → header.extension = []) := by
  cases form : header.extension with
  | nil => exact ⟨cr, lf :: rest, rfl, by decide, by decide, fun _ => rfl⟩
  | cons stop more =>
      refine ⟨stop, more ++ [cr, lf] ++ rest, rfl, ?_, ?_, ?_⟩
      · rcases header.extension_form stop (by simp [form]) with rfl | rfl | rfl <;> decide
      · rcases header.extension_form stop (by simp [form]) with rfl | rfl | rfl <;> decide
      · intro isCr
        exact absurd isCr (header.extension_clean stop (by simp [form])).1

theorem strtol_header (holds : Holds s (front ++ (header.bytes ++ rest))) (spaces : ∀ b ∈ front, isSpace b) :
    (s.bufSize ≤ front.length + header.size.length ∧ ∀ size p, strtol s.buf = some (size, p) → size = 0 ∨ s.bufSize ≤ p) ∨
      (strtol s.buf = some (clampLong (hexNumber header.size), front.length + header.size.length) ∧
        ∃ stop more, s.buf.drop (front.length + header.size.length) = stop :: more ∧ (stop = cr → header.extension = [])) := by
  rcases Nat.lt_or_ge (front.length + header.size.length) s.bufSize with received | cut
  · right
    obtain ⟨stop, more, behind, ends, plain, isCr⟩ := header.stop rest
    have whole : front ++ (header.bytes ++ rest) = front ++ header.size ++ [stop] ++ more := by
      rw [ChunkHeader.bytes, List.append_assoc header.size, List.append_assoc header.size, behind]
      simp
    have window := holds.window (Nat.succ_le_of_lt received)
    rw [whole, List.take_left' (by simp; omega)] at window
    have buf := (List.take_append_drop (front.length + header.size.length).succ s.buf).symm
    rw [window, List.append_assoc, List.append_assoc, List.singleton_append] at buf
    generalize s.buf.drop (front.length + header.size.length).succ = others at buf
    refine ⟨?_, stop, others, ?_, isCr⟩
    · rw [buf]
      exact strtol_digits spaces header.size_nonempty header.size_hex ends plain _
    · rw [buf, ← List.append_assoc, List.drop_left' (by simp)]
  · left
    refine ⟨cut, fun size p number => ?_⟩
    have window := holds.window le_rfl
    rw [ChunkHeader.bytes, List.append_assoc, List.append_assoc, ← List.append_assoc front,
      List.take_append_of_le_length (by rwa [List.length_append]), List.take_append] at window
    rw [← List.take_append_drop s.bufSize s.buf, window, List.append_assoc] at number
    have reached := strtol_window (fun b mem => spaces b (List.mem_of_mem_take mem))
      (fun b mem => header.size_hex b (List.mem_of_mem_take mem)) number
    rw [List.length_take, List.length_take] at reached
    omega

/-- The header of a chunk is found within what has been received when it has no extension and is short. -/
theorem findChunk_header (holds : Holds s (front ++ (header.bytes ++ rest))) (spaces : ∀ b ∈ front, isSpace b)
    {nsize pos : Nat} (found : findChunk s.buf = .returned (nsize, pos)) (nonzero : nsize ≠ 0) (room : pos ≤ s.bufSize) :
    header.extension = [] ∧ front.length + header.size.length ≤ 10 ∧
      pos = front.length + header.size.length + 2 ∧ nsize = hexNumber header.size := by
  obtain ⟨size, p, number, short, first, second, rfl, rfl⟩ := findChunk_eq_returned.mp found
  rcases strtol_header holds spaces with ⟨cut, behind⟩ | ⟨whole, stop, more, buf, isCr⟩
  · rcases behind size p number with rfl | reached
    · simp at nonzero
    · omega
  · obtain ⟨rfl, rfl⟩ := Prod.mk.injEq .. ▸ Option.some.inj (whole.symm.trans number)
    rw [← List.head?_drop, buf] at first
    exact ⟨isCr (Option.some.inj first), short, rfl, clampLong_hexNumber (by omega)⟩

theorem findChunk_received (holds : Holds s (front ++ (header.bytes ++ rest))) (spaces : ∀ b ∈ front, isSpace b)
    (plain : header.extension = []) (short : front.length + header.size.length ≤ 10)
    (room : front.length + header.size.length + 2 ≤ s.bufSize) :
    findChunk s.buf = .returned (hexNumber header.size, front.length + header.size.length + 2) := by
  rcases strtol_header holds spaces with ⟨cut, -⟩ | ⟨whole, -⟩
  · omega
  · have behind (i : Nat) (small : i < 2) :
        s.buf[front.length + header.size.length + i]? = [cr, lf][i]? := by
      rw [holds.getElem? (by omega), ChunkHeader.bytes, plain, List.append_nil, List.append_assoc, ← List.append_assoc,
        List.getElem?_append_right (by simp), List.getElem?_append_left (by simp; omega)]
      simp
    exact findChunk_eq_returned.mpr ⟨_, _, whole, short, behind 0 (by norm_num), behind 1 (by norm_num),
      (clampLong_hexNumber (by omega)).symm, rfl⟩

end Header

/-! ## The loop -/

theorem step_empty (empty : s.bufSize = 0) : readChunked.step (.header, s) = .inl (.returned s.body) := by
  simp [readChunked, empty]

theorem step_found (some : s.bufSize ≠ 0) {nsize pos : Nat} (found : findChunk s.buf = .returned (nsize, pos)) :
    readChunked.step (.header, s) = if nsize = 0 then .inl (.returned s.body) else .inr (.copy pos nsize, s) := by
  simp [readChunked, some, found]

theorem ends_found {body : Bytes} (ends : readChunked.Ends (.header, s) (.returned body)) :
    s.bufSize = 0 ∧ body = s.body ∨ ∃ nsize pos, findChunk s.buf = .returned (nsize, pos) ∧ s.bufSize ≠ 0 := by
  by_cases empty : s.bufSize = 0
  · exact .inl ⟨empty, Outcome.returned.inj ((Loop.ends_of_result (step_empty empty)).mp ends)⟩
  · cases found : findChunk s.buf with
    | failed =>
        have step : readChunked.step (.header, s) = .inl .failed := by simp [readChunked, empty, found]
        cases (Loop.ends_of_result step).mp ends
    | fault cause =>
        have step : readChunked.step (.header, s) = .inl (.fault cause) := by simp [readChunked, empty, found]
        cases (Loop.ends_of_result step).mp ends
    | returned chunk => exact .inr ⟨chunk.1, chunk.2, rfl, empty⟩

theorem ends_copy_room {pos nsize : Nat} {body : Bytes}
    (ends : readChunked.Ends (.copy pos nsize, s) (.returned body)) : pos ≤ s.bufSize := by
  by_contra behind
  have step : readChunked.step (.copy pos nsize, s) = .inl (.fault .outOfBounds) := by
    simp only [readChunked, copyStep, if_pos (Nat.not_le.mp behind)]
  cases (Loop.ends_of_result step).mp ends

theorem ends_crlf {body : Bytes} : readChunked.Ends (.crlf, s) (.returned body) ↔
    [cr, lf] <+: s.buf ∧ readChunked.Ends (.header, s) (.returned body) := by
  rw [List.prefix_iff_eq_take, eq_comm]
  by_cases assigned : s.buf.length < 2
  · have step : readChunked.step (.crlf, s) = .inl (.fault .unassigned) := by
      simp only [readChunked, if_pos assigned]
    rw [Loop.ends_of_result step]
    constructor
    · intro same
      cases same
    · rintro ⟨both, -⟩
      have two := congrArg List.length both
      rw [List.length_take] at two
      simp only [List.length_cons, List.length_nil] at two
      omega
  · by_cases both : s.buf.take 2 = [cr, lf]
    · have step : readChunked.step (.crlf, s) = .inr (.header, s) := by
        simp only [readChunked, if_neg assigned, if_pos both]
      rw [Loop.ends_of_next step]
      exact (and_iff_right both).symm
    · have step : readChunked.step (.crlf, s) = .inl .failed := by
        simp only [readChunked, if_neg assigned, if_neg both]
      rw [Loop.ends_of_result step]
      constructor
      · intro same
        cases same
      · rintro ⟨both', -⟩
        exact absurd both' both

theorem ends_header {front rest : Bytes} {header : ChunkHeader} (holds : Holds s (front ++ (header.bytes ++ rest)))
    (spaces : ∀ b ∈ front, isSpace b) {body : Bytes} : readChunked.Ends (.header, s) (.returned body) ↔
      (s.bufSize = 0 ∨ ∃ pos, findChunk s.buf = .returned (0, pos)) ∧ body = s.body ∨
        hexNumber header.size ≠ 0 ∧ header.extension = [] ∧ front.length + header.size.length ≤ 10 ∧
          front.length + header.size.length + 2 ≤ s.bufSize ∧
          readChunked.Ends (.copy (front.length + header.size.length + 2) (hexNumber header.size), s) (.returned body) := by
  constructor
  · intro ends
    rcases ends_found ends with ⟨empty, same⟩ | ⟨nsize, pos, found, some⟩
    · exact .inl ⟨.inl empty, same⟩
    · have step := step_found some found
      by_cases zero : nsize = 0
      · rw [if_pos zero] at step
        exact .inl ⟨.inr ⟨pos, zero ▸ found⟩, Outcome.returned.inj ((Loop.ends_of_result step).mp ends)⟩
      · rw [if_neg zero] at step
        have copies := (Loop.ends_of_next step).mp ends
        have room := ends_copy_room copies
        obtain ⟨plain, short, rfl, rfl⟩ := findChunk_header holds spaces found zero room
        exact .inr ⟨zero, plain, short, room, copies⟩
  · rintro (⟨empty | ⟨pos, found⟩, rfl⟩ | ⟨nonzero, plain, short, room, copies⟩)
    · exact .result (step_empty empty)
    · by_cases empty : s.bufSize = 0
      · exact .result (step_empty empty)
      · exact .result ((step_found empty found).trans (if_pos rfl))
    · have found := findChunk_received holds spaces plain short room
      exact .next ((step_found (by omega) found).trans (if_neg nonzero)) copies

theorem Copied.unique {pos nsize : Nat} {first second : ChunkState} (copied : Copied pos nsize s first)
    (other : Copied pos nsize s second) : first = second := by
  induction copied with
  | last step =>
      cases other with
      | last step' => simpa using step.symm.trans step'
      | more step' _ => cases step.symm.trans step'
  | more step _ ih =>
      cases other with
      | last step' => cases step.symm.trans step'
      | more step' rest' =>
          cases step.symm.trans step'
          exact ih rest'

theorem front_spaces {front : Bytes} (form : front = [] ∨ front = [cr, lf]) : ∀ b ∈ front, isSpace b := by
  rcases form with rfl | rfl
  · simp
  · exact List.all_iff_forall_prop.mp (by decide)

theorem copied_chunk {front rest : Bytes} {chunk : Chunk}
    (holds : Holds s (front ++ (chunk.toChunkHeader.bytes ++ (chunk.content ++ rest)))) (plain : chunk.extension = [])
    (room : front.length + chunk.size.length + 2 ≤ s.bufSize) :
    ∃ s', Copied (front.length + chunk.size.length + 2) chunk.content.length s s' ∧ Holds s' rest ∧
      s'.body = s.body ++ chunk.content := by
  have header : (front ++ chunk.toChunkHeader.bytes).length = front.length + chunk.size.length + 2 := by
    simp [ChunkHeader.bytes, plain]
    omega
  obtain ⟨s', copied, holds', body⟩ := copied_exists holds room (List.length_pos_of_ne_nil chunk.nonempty) (by
    rw [← header]
    simp only [List.length_append]
    omega)
  rw [← List.drop_drop, ← List.append_assoc, List.drop_left' header, List.drop_left] at holds'
  rw [← List.append_assoc, List.drop_left' header, List.take_left] at body
  exact ⟨s', copied, holds', body⟩

/-- The loop is through with the chunks and leaves their contents exactly when their headers come in time. -/
theorem ends_chunks {last : ChunkHeader} (zero : hexNumber last.size = 0) {tail front : Bytes}
    (form : front = [] ∨ front = [cr, lf]) {chunks : List Chunk}
    (holds : Holds s (front ++ (chunks.flatMap Chunk.bytes ++ (last.bytes ++ tail)))) :
    front <+: s.buf ∧ readChunked.Ends (.header, s) (.returned (s.body ++ chunks.flatMap Chunk.content)) ↔
      Timely chunks front s := by
  induction chunks generalizing s front with
  | nil =>
      rw [ends_header holds (front_spaces form), Timely]
      simp [zero]
  | cons chunk chunks ih =>
      simp only [List.flatMap_cons, Chunk.bytes, List.append_assoc] at holds
      have next {s' : ChunkState} (holds' : Holds s' ([cr, lf] ++ (chunks.flatMap Chunk.bytes ++ (last.bytes ++ tail))))
          (body : s'.body = s.body ++ chunk.content) :
          readChunked.Ends (.crlf, s') (.returned (s.body ++ (chunk :: chunks).flatMap Chunk.content)) ↔
            Timely chunks [cr, lf] s' := by
        rw [ends_crlf, List.flatMap_cons, ← List.append_assoc, ← body]
        exact ih (.inr rfl) holds'
      rw [ends_header holds (front_spaces form), Timely, chunk.sized]
      constructor
      · rintro ⟨-, ⟨-, same⟩ | ⟨-, plain, short, room, copies⟩⟩
        · simp [chunk.nonempty] at same
        · obtain ⟨s', copied, holds', body⟩ := copied_chunk holds plain room
          exact ⟨plain, short, room, s', copied, (next holds' body).mp ((copied.ends _).mp copies)⟩
      · rintro ⟨plain, short, room, s', copied, timely⟩
        obtain ⟨reached, path, holds', body⟩ := copied_chunk holds plain room
        obtain rfl := path.unique copied
        have within : front <+: s.buf := by
          have window := holds.window (show front.length ≤ s.bufSize by omega)
          rw [List.take_left] at window
          exact window ▸ List.take_prefix _ _
        have nonzero := (List.length_pos_of_ne_nil chunk.nonempty).ne'
        exact ⟨within, .inr ⟨nonzero, plain, short, room, (copied.ends _).mpr ((next holds' body).mpr timely)⟩⟩

theorem readChunked_iff {body : ChunkedBody} (arrival : Arrival body) :
    readChunked.Ends (.header, arrival.start) (.returned body.content) ↔ Timely body.chunks [] arrival.start := by
  have holds := arrival.holds
  simp only [ChunkedBody.bytes, List.append_assoc] at holds
  rw [← ends_chunks body.last_zero (.inl rfl) holds]
  exact (and_iff_right List.nil_prefix).symm

def plainHeader (size : Bytes) (nonempty : size ≠ []) (hex : ∀ b ∈ size, isHex b) : ChunkHeader where
  size := size
  size_nonempty := nonempty
  size_hex := hex
  extension_form := by simp
  extension_clean := by simp

/-- One chunk, `hello`. -/
def helloBody : ChunkedBody where
  chunks := [{
    toChunkHeader := plainHeader [0x35] (by decide) (by simp [isHex, hexValue])
    content := [0x68, 0x65, 0x6c, 0x6c, 0x6f]
    sized := by decide
    nonempty := by decide }]
  last := plainHeader [0x30] (by decide) (by simp [isHex, hexValue])
  last_zero := by decide
  trailer_clean := by simp

example : readChunked.run 5 (.header, .start (helloBody.bytes.take 6) [helloBody.bytes.drop 6]) =
    some (.returned helloBody.content) := by decide

/-- A body that comes after the head, all of it. -/
def helloLater : Arrival helloBody where
  already := []
  unread := [helloBody.bytes]
  whole := by simp
  already_fits := by simp
  unread_nonempty := by simp; decide

theorem not_readChunked_helloLater :
    ¬ readChunked.Ends (.header, helloLater.start) (.returned helloBody.content) := by
  have ran : readChunked.run 1 (.header, helloLater.start) = some (.returned []) := by decide
  rw [Loop.ends_of_run ran]
  decide

end Ipfs
