import Ipfs.Core.Chunked

/-!
# The buffers of the chunked reader

The numbers of `read_chunked` as the unsigned counters they are, with what `realloc`, `select` and `read` answer.
-/

namespace Ipfs
open Http

inductive ReadAnswer
  | notReady
  | failed
  | data
  deriving DecidableEq

structure ChunkAnswer where
  allocated : Bool
  read : ReadAnswer

structure ChunkReader where
  -- none when it has returned
  point : Option ChunkPoint
  chunk : ChunkState
  size : Nat
  body : Nat
  bodySize : Nat

/-- Its call. Nobody has assigned what is in `buf`. -/
structure ChunkCall where
  memory : Bytes
  memory_size : memory.length = maxRead
  already : Bytes
  unread : List Bytes
  size : Nat
  size_small : size < 2 ^ 63

namespace ChunkReader

def start (call : ChunkCall) : ChunkReader where
  point := some .header
  chunk :=
    { ChunkState.start call.already call.unread with
      buf := call.already.take maxRead ++ call.memory.drop (call.already.take maxRead).length }
  size := call.size
  body := call.size
  bodySize := 0

def finish (s : ChunkReader) : ChunkReader := { s with point := none }

/-- `realloc` gives no more than `PTRDIFF_MAX` bytes, and none frees the memory. -/
def reallocates (answer : ChunkAnswer) (size : Nat) : Bool := answer.allocated && (0 < size && size < 2 ^ 63)

/-- At the head of `while`. A size whose text goes on behind the buffer is none: it ends too late. -/
def headerStep (s : ChunkReader) (answer : ChunkAnswer) : ChunkReader :=
  if s.chunk.bufSize = 0 then s.finish
  else match findChunk s.chunk.buf with
    | .returned (nsize, pos) =>
        if nsize = 0 then s.finish
        else if reallocates answer ((s.size + nsize) % 2 ^ 64) then
          { s with point := some (.copy pos nsize), size := (s.size + nsize) % 2 ^ 64 }
        else s.finish
    | _ => s.finish

/-- From `CPCHUNK` on, when `pos` bytes are held. -/
def transfer (pos nsize : Nat) (s : ChunkReader) (read : ReadAnswer) : ChunkReader :=
  let r := min nsize (s.chunk.bufSize - pos)
  let chunk := (s.chunk.consume pos r).takeAlready
  let nsize := nsize - r
  let s := { s with
    point := some (if nsize = 0 then .crlf else .copy 0 nsize)
    chunk := chunk
    bodySize := s.bodySize + r }
  match read with
  | .notReady => s
  -- -1 is added, and is not below 0
  | .failed => { s with chunk := { chunk with bufSize := (chunk.bufSize + (2 ^ 64 - 1)) % 2 ^ 64 } }
  | .data =>
      match chunk.unread with
      | [] => s.finish
      | segment :: unread =>
          let got := segment.take (maxRead - chunk.bufSize)
          let unread := if got.length < segment.length then segment.drop got.length :: unread else unread
          if got = [] then s.finish else { s with chunk := chunk.store got unread }

/-- The bytes held behind the header are those from `pos` on, and the body has room. -/
structure Transfers (s : ChunkReader) (pos nsize : Nat) : Prop where
  header : pos ≤ s.chunk.bufSize
  source : pos + min nsize (s.chunk.bufSize - pos) ≤ s.chunk.bufSize
  destination : s.body + s.bodySize + min nsize (s.chunk.bufSize - pos) ≤ s.size

instance (s : ChunkReader) (pos nsize : Nat) : Decidable (s.Transfers pos nsize) :=
  decidable_of_iff (pos ≤ s.chunk.bufSize ∧ pos + min nsize (s.chunk.bufSize - pos) ≤ s.chunk.bufSize ∧
      s.body + s.bodySize + min nsize (s.chunk.bufSize - pos) ≤ s.size)
    ⟨fun all => ⟨all.1, all.2.1, all.2.2⟩, fun all => ⟨all.header, all.source, all.destination⟩⟩

end ChunkReader

/-- A `memcpy` that leaves the bytes held or the body does not come back. -/
def chunkReader : Machine ChunkReader ChunkAnswer where
  step s answer :=
    match s.point with
    | none => some s
    | some .header => some (s.headerStep answer)
    | some (.copy pos nsize) => if s.Transfers pos nsize then some (s.transfer pos nsize answer.read) else none
    | some .crlf => some (if s.chunk.buf.take 2 = [cr, lf] then { s with point := some .header } else s.finish)

namespace ChunkReader

/-- The body is inside the request, and what counts as held is inside the buffer. -/
structure InBounds (s : ChunkReader) : Prop where
  body : s.body + s.bodySize ≤ s.size
  held : s.chunk.bufSize ≤ maxRead

/-- The copy stays inside, and no counter wraps. -/
def Safe (s : ChunkReader) (answer : ChunkAnswer) : Prop :=
  match s.point with
  | some .header => ∀ size p nsize pos, s.chunk.bufSize ≠ 0 → strtol s.chunk.buf = some (size, p) →
      findChunk s.chunk.buf = .returned (nsize, pos) → nsize = size ∧
        (nsize ≠ 0 → reallocates answer ((s.size + nsize) % 2 ^ 64) → s.size + nsize < 2 ^ 64)
  | some (.copy pos nsize) => s.Transfers pos nsize ∧ (answer.read = .failed →
      (s.transfer pos nsize .notReady).chunk.bufSize + (2 ^ 64 - 1) < 2 ^ 64)
  | _ => True

/-- The size of a chunk is not negative, its header has been received, and no read fails. -/
def Allowed (s : ChunkReader) (answer : ChunkAnswer) : Prop :=
  match s.point with
  | some .header => ∀ size p, s.chunk.bufSize ≠ 0 → strtol s.chunk.buf = some (size, p) →
      (∃ found, findChunk s.chunk.buf = .returned found) → 0 ≤ size
  | some (.copy pos _) => pos ≤ s.chunk.bufSize ∧ answer.read ≠ .failed
  | _ => True

/-- What is left of a chunk has its room in the request, as `realloc` has given it. -/
structure Counts (s : ChunkReader) : Prop extends s.InBounds where
  small : s.size < 2 ^ 63
  room : ∀ pos nsize, s.point = some (.copy pos nsize) → s.body + s.bodySize + nsize ≤ s.size

/-! ### Steps -/

variable {s : ChunkReader} {answer : ChunkAnswer}

theorem Counts.finish (counts : s.Counts) : s.finish.Counts where
  body := counts.body
  held := counts.held
  small := counts.small
  room := by simp [ChunkReader.finish]

theorem start_counts (call : ChunkCall) : (start call).Counts where
  body := le_rfl
  held := by simp [start, ChunkState.start]
  small := call.size_small
  room := by simp [start]

theorem headerStep_cases (s : ChunkReader) (answer : ChunkAnswer) : s.headerStep answer = s.finish ∨
    ∃ nsize pos, s.chunk.bufSize ≠ 0 ∧ findChunk s.chunk.buf = .returned (nsize, pos) ∧ nsize ≠ 0 ∧
      reallocates answer ((s.size + nsize) % 2 ^ 64) ∧
      s.headerStep answer = { s with point := some (.copy pos nsize), size := (s.size + nsize) % 2 ^ 64 } := by
  unfold headerStep
  split
  · exact .inl rfl
  · rename_i some
    split
    · rename_i nsize pos found
      split
      · exact .inl rfl
      · rename_i nonzero
        split
        · rename_i allocated
          exact .inr ⟨nsize, pos, some, found, nonzero, allocated, rfl⟩
        · exact .inl rfl
    · exact .inl rfl

theorem headerStep_found {nsize pos : Nat} (nonempty : s.chunk.bufSize ≠ 0)
    (found : findChunk s.chunk.buf = .returned (nsize, pos)) (nonzero : nsize ≠ 0)
    (allocated : reallocates answer ((s.size + nsize) % 2 ^ 64)) :
    s.headerStep answer = { s with point := some (.copy pos nsize), size := (s.size + nsize) % 2 ^ 64 } := by
  unfold headerStep
  simp only [if_neg nonempty, found, if_neg nonzero, if_pos allocated]

theorem reallocates_small {size : Nat} (allocated : reallocates answer size) : size < 2 ^ 63 := by
  unfold reallocates at allocated
  simp only [Bool.and_eq_true, decide_eq_true_eq] at allocated
  exact allocated.2.2

theorem Counts.headerStep (counts : s.Counts) (safe : s.Safe answer) (header : s.point = some .header) :
    (s.headerStep answer).Counts := by
  rcases headerStep_cases s answer with finished | ⟨nsize, pos, some, found, nonzero, allocated, stepped⟩
  · rw [finished]
    exact counts.finish
  · obtain ⟨size, p, number, -⟩ := findChunk_eq_returned.mp found
    simp only [Safe, header] at safe
    have below := (safe size p nsize pos some number found).2 nonzero allocated
    rw [stepped]
    rw [Nat.mod_eq_of_lt below] at allocated ⊢
    refine ⟨⟨?_, counts.held⟩, reallocates_small allocated, ?_⟩
    · exact counts.body.trans (Nat.le_add_right _ _)
    · rintro pos' nsize' same
      cases same
      exact Nat.add_le_add_right counts.body nsize

theorem allowed_header_iff (counts : s.Counts) (header : s.point = some .header) : s.Allowed answer ↔ s.Safe answer := by
  simp only [Allowed, Safe, header]
  constructor
  · intro allowed size p nsize pos some number found
    have positive := allowed size p some number ⟨_, found⟩
    obtain ⟨size', p', number', -, -, -, rfl, rfl⟩ := findChunk_eq_returned.mp found
    obtain ⟨rfl, rfl⟩ := Prod.mk.injEq .. ▸ Option.some.inj (number.symm.trans number')
    have small := strtol_lt number
    have same : ((size % 2 ^ 64).toNat : Int) = size := by omega
    refine ⟨same, fun _ _ => ?_⟩
    have := counts.small
    omega
  · rintro safe size p some number ⟨⟨nsize, pos⟩, found⟩
    have same := (safe size p nsize pos some number found).1
    omega

theorem takeAlready_held {chunk : ChunkState} (held : chunk.bufSize ≤ maxRead) : chunk.takeAlready.bufSize ≤ maxRead := by
  unfold ChunkState.takeAlready
  simp only [List.length_take]
  omega

theorem transfers_iff (counts : s.Counts) {pos nsize : Nat} (copying : s.point = some (.copy pos nsize)) :
    s.Transfers pos nsize ↔ pos ≤ s.chunk.bufSize := by
  constructor
  · exact Transfers.header
  · intro header
    have room := counts.room pos nsize copying
    exact ⟨header, by omega, by omega⟩

theorem transfer_counts (counts : s.Counts) {pos nsize : Nat} (copying : s.point = some (.copy pos nsize)) :
    (s.transfer pos nsize .notReady).Counts := by
  have room := counts.room pos nsize copying
  unfold transfer
  refine ⟨⟨?_, ?_⟩, counts.small, ?_⟩
  · dsimp only
    omega
  · apply takeAlready_held
    have held := counts.held
    unfold ChunkState.consume
    dsimp only
    omega
  · intro pos' nsize' same
    dsimp only at same ⊢
    split at same
    · cases same
    · cases same
      omega

theorem transfer_data_counts (counts : s.Counts) {pos nsize : Nat} (copying : s.point = some (.copy pos nsize)) :
    (s.transfer pos nsize .data).Counts := by
  have moved := transfer_counts counts copying
  unfold transfer at moved ⊢
  dsimp only at moved ⊢
  split
  · exact moved.finish
  · split
    · exact moved.finish
    · refine ⟨⟨moved.body, ?_⟩, moved.small, moved.room⟩
      have held := moved.held
      unfold ChunkState.store
      simp only [List.length_take] at held ⊢
      omega

/-- The -1 counts as held, or the sum wraps. -/
theorem transfer_failed {pos nsize : Nat}
    (safe : (s.transfer pos nsize .notReady).chunk.bufSize + (2 ^ 64 - 1) < 2 ^ 64) :
    ¬ (s.transfer pos nsize .failed).InBounds := by
  intro inBounds
  have held := inBounds.held
  unfold transfer at safe held
  dsimp only at safe held
  rw [Nat.mod_eq_of_lt safe] at held
  unfold maxRead at held
  omega

theorem step_counts (counts : s.Counts) (allowed : s.Allowed answer) :
    ∃ s', chunkReader.step s answer = some s' ∧ s'.Counts := by
  unfold chunkReader
  dsimp only
  rcases point : s.point with _ | _ | ⟨pos, nsize⟩ | _
  · exact ⟨s, rfl, counts⟩
  · exact ⟨_, rfl, counts.headerStep ((allowed_header_iff counts point).mp allowed) point⟩
  · unfold Allowed at allowed
    simp only [point] at allowed
    obtain ⟨header, reads⟩ := allowed
    dsimp only
    rw [if_pos ((transfers_iff counts point).mpr header)]
    refine ⟨_, rfl, ?_⟩
    cases read : answer.read with
    | notReady => exact transfer_counts counts point
    | failed => exact absurd read reads
    | data => exact transfer_data_counts counts point
  · refine ⟨_, rfl, ?_⟩
    split
    · exact ⟨⟨counts.body, counts.held⟩, counts.small, by simp⟩
    · exact counts.finish

theorem step_allowed_iff (counts : s.Counts) : s.Allowed answer ↔
    s.Safe answer ∧ ∃ s', chunkReader.step s answer = some s' ∧ s'.InBounds := by
  constructor
  · intro allowed
    obtain ⟨s', step, counts'⟩ := step_counts counts allowed
    refine ⟨?_, s', step, counts'.toInBounds⟩
    rcases point : s.point with _ | _ | ⟨pos, nsize⟩ | _
    · simp [Safe, point]
    · exact (allowed_header_iff counts point).mp allowed
    · unfold Allowed at allowed
      unfold Safe
      simp only [point] at allowed ⊢
      exact ⟨(transfers_iff counts point).mpr allowed.1, fun failed => absurd failed allowed.2⟩
    · simp [Safe, point]
  · rintro ⟨safe, s', step, inBounds⟩
    rcases point : s.point with _ | _ | ⟨pos, nsize⟩ | _
    · simp [Allowed, point]
    · exact (allowed_header_iff counts point).mpr safe
    · unfold Safe at safe
      unfold Allowed
      simp only [point] at safe ⊢
      refine ⟨safe.1.header, fun failed => ?_⟩
      unfold chunkReader at step
      dsimp only at step
      rw [point] at step
      dsimp only at step
      rw [if_pos safe.1, failed, Option.some.injEq] at step
      exact transfer_failed (safe.2 failed) (step ▸ inBounds)
    · simp [Allowed, point]

end ChunkReader

/-- Whatever comes, the reader stays inside its buffers exactly as long as no chunk has a negative size, each header is
taken from the bytes held, and no `read` fails. -/
theorem chunkReader_inBounds_iff (call : ChunkCall) (answers : List ChunkAnswer) :
    chunkReader.RunMeets ChunkReader.Allowed (.start call) answers ↔
      chunkReader.RunMeets (fun s answer => s.InBounds ∧ s.Safe answer) (.start call) answers ∧
        ∃ s, chunkReader.run (.start call) answers = some s ∧ s.InBounds := by
  apply @Machine.runMeets_iff _ _ chunkReader ChunkReader.Allowed ChunkReader.Safe ChunkReader.Counts ChunkReader.InBounds
  · exact fun s counts => counts.toInBounds
  · exact fun s answer counts => ChunkReader.step_allowed_iff counts
  · intro s answer s' counts allowed step
    obtain ⟨next, stepped, counts'⟩ := ChunkReader.step_counts counts allowed
    rw [step, Option.some.injEq] at stepped
    exact stepped ▸ counts'
  · exact ChunkReader.start_counts call

def minusOneCall : ChunkCall where
  memory := List.replicate maxRead 0
  memory_size := List.length_replicate
  already := [0x2d, 0x31, cr, lf]
  unread := []
  size := 100
  size_small := by norm_num

theorem findChunk_minusOne (rest : Bytes) :
    findChunk (0x2d :: 0x31 :: cr :: lf :: rest) = .returned (2 ^ 64 - 1, 4) := by
  have number : strtol (0x2d :: 0x31 :: cr :: lf :: rest) = some (-1, 2) := by
    simp [strtol, strtolSign, hexPrefix, isSpace, isHex, hexValue, hexNumber, cr, clampLong]
  exact findChunk_eq_returned.mpr ⟨-1, 2, number, by norm_num, rfl, rfl, by decide, rfl⟩

/-- The request shrinks below the head that is in it. -/
theorem not_chunkReader_inBounds_minusOne :
    ¬ (chunkReader.RunMeets (fun s answer => s.InBounds ∧ s.Safe answer) (.start minusOneCall) [⟨true, .data⟩] ∧
      ∃ s, chunkReader.run (.start minusOneCall) [⟨true, .data⟩] = some s ∧ s.InBounds) := by
  rintro ⟨-, s, ran, inBounds⟩
  have found : findChunk (ChunkReader.start minusOneCall).chunk.buf = .returned (2 ^ 64 - 1, 4) := findChunk_minusOne _
  have allocated : ChunkReader.reallocates ⟨true, .data⟩ ((100 + (2 ^ 64 - 1)) % 2 ^ 64) := by decide
  have stepped := ChunkReader.headerStep_found (by decide) found (by decide) allocated
  have ran' := Option.some.inj ran
  rw [stepped] at ran'
  have body := inBounds.body
  rw [← ran'] at body
  exact absurd body (by decide)

/-! ### The loop of `read_chunked` -/

namespace ChunkReader

/-- `select` reports data while there is something unread, and there is memory. -/
def answered (s : ChunkReader) : ChunkAnswer where
  allocated := true
  read := if s.chunk.unread = [] then .notReady else .data

theorem moved_unread (chunk : ChunkState) (pos r : Nat) : (chunk.consume pos r).takeAlready.unread = chunk.unread := rfl

section
variable {s : ChunkReader} {next : ChunkPoint} {chunk : ChunkState}

theorem step_next_header (memory : ∀ nsize pos, findChunk s.chunk.buf = .returned (nsize, pos) → s.size + nsize < 2 ^ 63)
    (at_header : s.point = some .header) (step : readChunked.step (.header, s.chunk) = .inr (next, chunk)) :
    ∃ s', chunkReader.step s s.answered = some s' ∧ s'.point = some next ∧ s'.chunk = chunk := by
  unfold readChunked at step
  unfold chunkReader
  dsimp only at step ⊢
  rw [at_header]
  split at step
  · cases step
  · rename_i nonempty
    split at step
    · rename_i nsize pos found
      split at step
      · cases step
      · rename_i nonzero
        cases step
        have room := memory nsize pos found
        refine ⟨_, rfl, ?_⟩
        have allocated : reallocates s.answered ((s.size + nsize) % 2 ^ 64) = true := by
          unfold reallocates answered
          rw [Nat.mod_eq_of_lt (room.trans (by norm_num))]
          simp only [Bool.true_and, Bool.and_eq_true, decide_eq_true_eq]
          omega
        rw [headerStep_found nonempty found nonzero allocated]
        exact ⟨rfl, rfl⟩
    · cases step
    · cases step

theorem step_next_copy (counts : s.Counts) {pos nsize : Nat} (at_copy : s.point = some (.copy pos nsize))
    (step : readChunked.step (.copy pos nsize, s.chunk) = .inr (next, chunk)) :
    ∃ s', chunkReader.step s s.answered = some s' ∧ s'.point = some next ∧ s'.chunk = chunk := by
  unfold readChunked copyStep at step
  unfold chunkReader
  dsimp only at step ⊢
  rw [at_copy]
  split at step
  · cases step
  · rename_i header
    dsimp only
    rw [if_pos ((transfers_iff counts at_copy).mpr (Nat.not_lt.mp header))]
    refine ⟨_, rfl, ?_⟩
    unfold answered transfer
    dsimp only at step ⊢
    cases unread : s.chunk.unread with
    | nil =>
        rw [if_pos rfl]
        simp only [moved_unread, unread] at step
        cases step
        exact ⟨rfl, rfl⟩
    | cons segment unread =>
        rw [if_neg (List.cons_ne_nil _ _)]
        simp only [moved_unread, unread] at step ⊢
        split at step
        · cases step
        · rename_i received
          cases step
          rw [if_neg received]
          exact ⟨rfl, rfl⟩

theorem step_next_crlf (at_crlf : s.point = some .crlf) (step : readChunked.step (.crlf, s.chunk) = .inr (next, chunk)) :
    ∃ s', chunkReader.step s s.answered = some s' ∧ s'.point = some next ∧ s'.chunk = chunk := by
  unfold readChunked at step
  unfold chunkReader
  dsimp only at step ⊢
  rw [at_crlf]
  split at step
  · cases step
  · split at step
    · rename_i both
      cases step
      exact ⟨_, rfl, by rw [if_pos both], by rw [if_pos both]⟩
    · cases step

theorem step_next (counts : s.Counts) {point : ChunkPoint}
    (memory : ∀ nsize pos, findChunk s.chunk.buf = .returned (nsize, pos) → s.size + nsize < 2 ^ 63)
    (at_point : s.point = some point) (step : readChunked.step (point, s.chunk) = .inr (next, chunk)) :
    ∃ s', chunkReader.step s s.answered = some s' ∧ s'.point = some next ∧ s'.chunk = chunk := by
  cases point with
  | header => exact step_next_header memory at_point step
  | copy pos nsize => exact step_next_copy counts at_point step
  | crlf => exact step_next_crlf at_point step

end

end ChunkReader
end Ipfs
