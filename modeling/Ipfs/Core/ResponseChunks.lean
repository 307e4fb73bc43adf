import Ipfs.Core.Chunked
import Ipfs.Lib.Text

/-!
# Chunked responses

`api_send_resp_chunks` writes the zero chunk with the last block, and a response without bytes has no block.
-/

namespace Ipfs
open Http

def maxChunk : Nat := 32 * 1024

def hexDigit (digit : Nat) : UInt8 := if digit < 10 then (0x30 + digit).toUInt8 else (0x57 + digit).toUInt8

/-- `%x`. -/
def hexText (number : Nat) : Bytes := if number = 0 then [0x30] else (Nat.digits 16 number).reverse.map hexDigit

structure Sending where
  buf : Bytes
  -- the calls of `writev` so far, and what they have written
  calls : Nat
  sent : Bytes

def Sending.start (data : Bytes) : Sending where
  buf := data
  calls := 0
  sent := []

/-- Head, content and trailer of the next block. -/
def blockParts (buf : Bytes) : Bytes :=
  let s := min buf.length maxChunk
  hexText (s % 2 ^ 32) ++ [cr, lf] ++ buf.take s ++
    if buf.drop s = [] then [cr, lf, 0x30, cr, lf, cr, lf] else [cr, lf]

/-- `writes` tells which calls of `writev` do not return -1. -/
def apiSendRespChunks (writes : Nat → Bool) : Loop Sending (Outcome Unit × Bytes) where
  step s :=
    if s.buf = [] then .inl (.returned (), s.sent)
    else if writes s.calls then
      .inr { buf := s.buf.drop (min s.buf.length maxChunk), calls := s.calls + 1, sent := s.sent ++ blockParts s.buf }
    else .inl (.failed, s.sent)

/-! ## Sizes -/

theorem hexValue_hexDigit {digit : Nat} (small : digit < 16) : hexValue (hexDigit digit) = some digit := by
  interval_cases digit <;> rfl

theorem isHex_hexText (number : Nat) : ∀ b ∈ hexText number, isHex b := by
  unfold hexText
  split
  · simp [isHex, hexValue]
  · intro b mem
    obtain ⟨digit, isDigit, rfl⟩ := List.mem_map.mp mem
    have small := Nat.digits_lt_base (by norm_num) (List.mem_reverse.mp isDigit)
    unfold isHex
    rw [hexValue_hexDigit small]
    rfl

theorem hexText_ne_nil (number : Nat) : hexText number ≠ [] := by
  unfold hexText
  split
  · simp
  · rename_i nonzero
    simpa [Nat.digits_eq_nil_iff_eq_zero] using nonzero

theorem hexNumber_hexText (number : Nat) : hexNumber (hexText number) = number := by
  unfold hexText
  split
  · rename_i zero
    rw [zero]
    rfl
  · have value := Nat.ofDigits_digits 16 number
    rw [Nat.ofDigits_eq_foldr] at value
    unfold hexNumber
    rw [List.foldl_map, List.foldl_reverse]
    refine Eq.trans ?_ value
    apply List.foldr_ext
    intro digit mem number
    rw [hexValue_hexDigit (Nat.digits_lt_base (by norm_num) mem)]
    simp [Nat.add_comm]

/-! ## Bodies are read in one way -/

variable {rest rest' : Bytes}

theorem ChunkHeader.unique {header other : ChunkHeader} (same : header.bytes ++ rest = other.bytes ++ rest') :
    header.size = other.size ∧ rest = rest' := by
  have size : header.size = other.size := by
    obtain ⟨stop, more, behind, ends, -⟩ := header.stop rest
    obtain ⟨stop', more', behind', ends', -⟩ := other.stop rest'
    unfold ChunkHeader.bytes at same
    rw [List.append_assoc, List.append_assoc, List.append_assoc, List.append_assoc, ← List.append_assoc header.extension,
      ← List.append_assoc other.extension, behind, behind'] at same
    rw [← (dropWhile_front header.size_hex ends more).2, same, (dropWhile_front other.size_hex ends' more').2]
  refine ⟨size, ?_⟩
  unfold ChunkHeader.bytes at same
  rw [size] at same
  simp only [List.append_assoc] at same
  have behind := congrArg (Text.cut cr) (List.append_cancel_left same)
  have clean (header : ChunkHeader) : cr ∉ header.extension := fun mem => (header.extension_clean cr mem).1 rfl
  simp only [List.cons_append, Text.cut_append (clean _)] at behind
  exact (by simpa using behind : _ ∧ rest = rest').2

theorem chunks_content_unique {chunks others : List Chunk} {last last' : ChunkHeader} (zero : hexNumber last.size = 0)
    (zero' : hexNumber last'.size = 0)
    (same : chunks.flatMap Chunk.bytes ++ (last.bytes ++ rest) = others.flatMap Chunk.bytes ++ (last'.bytes ++ rest')) :
    chunks.flatMap Chunk.content = others.flatMap Chunk.content := by
  have sized (chunk : Chunk) : hexNumber chunk.size ≠ 0 := by
    rw [chunk.sized]
    exact (List.length_pos_of_ne_nil chunk.nonempty).ne'
  induction chunks generalizing others with
  | nil =>
      cases others with
      | nil => rfl
      | cons other others =>
          simp only [List.flatMap_nil, List.nil_append, List.flatMap_cons, Chunk.bytes, List.append_assoc] at same
          have size := (ChunkHeader.unique same).1
          exact absurd (size ▸ zero) (sized other)
  | cons chunk chunks ih =>
      cases others with
      | nil =>
          simp only [List.flatMap_nil, List.nil_append, List.flatMap_cons, Chunk.bytes, List.append_assoc] at same
          have size := (ChunkHeader.unique same).1
          exact absurd (size ▸ zero') (sized chunk)
      | cons other others =>
          simp only [List.flatMap_cons, Chunk.bytes, List.append_assoc] at same ⊢
          obtain ⟨size, behind⟩ := ChunkHeader.unique same
          have length : chunk.content.length = other.content.length := by
            rw [← chunk.sized, ← other.sized, size]
          obtain ⟨content, behind⟩ := List.append_inj behind length
          rw [content, ih (List.append_cancel_left behind)]

theorem ChunkedBody.content_unique {body other : ChunkedBody} (same : body.bytes = other.bytes) :
    body.content = other.content := by
  unfold ChunkedBody.bytes at same
  simp only [List.append_assoc] at same
  exact chunks_content_unique body.last_zero other.last_zero same

/-- The bytes are a body, and however they are read its content is this. -/
def DecodesTo (written data : Bytes) : Prop :=
  (∃ body : ChunkedBody, body.bytes = written) ∧ ∀ body : ChunkedBody, body.bytes = written → body.content = data

theorem ChunkedBody.decodesTo (body : ChunkedBody) : DecodesTo body.bytes body.content :=
  ⟨⟨body, rfl⟩, fun _ same => content_unique same⟩

/-! ## What is written -/

def blockChunk (content : Bytes) (nonempty : content ≠ []) : Chunk where
  toChunkHeader := plainHeader (hexText content.length) (hexText_ne_nil _) (isHex_hexText _)
  content := content
  sized := hexNumber_hexText _
  nonempty := nonempty

theorem noTrailer_clean : ∀ line ∈ ([] : List Bytes), line ≠ [] ∧ ∀ b ∈ line, b ≠ cr ∧ b ≠ lf := by simp

/-- The chunks, with the zero chunk as it is written, and no trailer. -/
def bodyOf (chunks : List Chunk) : ChunkedBody where
  chunks := chunks
  last := plainHeader (hexText 0) (hexText_ne_nil 0) (isHex_hexText 0)
  last_zero := hexNumber_hexText 0
  trailer_clean := noTrailer_clean

theorem take_block_ne_nil {data : Bytes} (nonempty : data ≠ []) : data.take (min data.length maxChunk) ≠ [] := by
  have some := List.length_pos_of_ne_nil nonempty
  rw [Ne, List.take_eq_nil_iff, not_or]
  refine ⟨?_, nonempty⟩
  unfold maxChunk
  omega

theorem blockParts_eq {data : Bytes} (nonempty : data ≠ []) :
    ∃ chunk : Chunk, chunk.content = data.take (min data.length maxChunk) ∧
      blockParts data = chunk.bytes ++ if data.drop (min data.length maxChunk) = [] then (bodyOf []).bytes else [] := by
  have small : min data.length maxChunk % 2 ^ 32 = min data.length maxChunk := by
    apply Nat.mod_eq_of_lt
    unfold maxChunk
    omega
  refine ⟨blockChunk _ (take_block_ne_nil nonempty), rfl, ?_⟩
  unfold blockParts
  simp only [small, Chunk.bytes, ChunkHeader.bytes, blockChunk, plainHeader, List.length_take_of_le (Nat.min_le_left _ _),
    List.append_nil, List.append_assoc]
  split
  · rfl
  · simp

theorem bodyOf_cons_bytes (chunk : Chunk) (chunks : List Chunk) :
    (bodyOf (chunk :: chunks)).bytes = chunk.bytes ++ (bodyOf chunks).bytes := by
  simp [ChunkedBody.bytes, bodyOf]

theorem bodyOf_cons_content (chunk : Chunk) (chunks : List Chunk) :
    (bodyOf (chunk :: chunks)).content = chunk.content ++ (bodyOf chunks).content := by
  simp [ChunkedBody.content, bodyOf]

theorem sends_body {data : Bytes} (nonempty : data ≠ []) (calls : Nat) (sent : Bytes) :
    ∃ chunks, (bodyOf chunks).content = data ∧
      (apiSendRespChunks fun _ => true).Ends ⟨data, calls, sent⟩ (.returned (), sent ++ (bodyOf chunks).bytes) := by
  induction length : data.length using Nat.strong_induction_on generalizing data calls sent with
  | _ n ih =>
      have step : (apiSendRespChunks fun _ => true).step ⟨data, calls, sent⟩ =
          .inr ⟨data.drop (min data.length maxChunk), calls + 1, sent ++ blockParts data⟩ := by
        unfold apiSendRespChunks
        simp only [if_neg nonempty, if_true]
      obtain ⟨chunk, content, parts⟩ := blockParts_eq nonempty
      have whole := List.take_append_drop (min data.length maxChunk) data
      by_cases last : data.drop (min data.length maxChunk) = []
      · refine ⟨[chunk], ?_, .next step ?_⟩
        · rw [bodyOf_cons_content, content, ← whole, last]
          simp [ChunkedBody.content, bodyOf]
        · rw [last, parts, if_pos last, bodyOf_cons_bytes]
          exact .result rfl
      · have shorter : (data.drop (min data.length maxChunk)).length < n := by
          have some := List.length_pos_of_ne_nil nonempty
          rw [List.length_drop]
          unfold maxChunk
          omega
        obtain ⟨chunks, content', ends⟩ := ih _ shorter last (calls + 1) (sent ++ blockParts data) rfl
        refine ⟨chunk :: chunks, ?_, .next step ?_⟩
        · rw [bodyOf_cons_content, content, content', whole]
        · rw [bodyOf_cons_bytes, ← List.append_assoc]
          rw [parts, if_neg last, List.append_nil] at ends ⊢
          exact ends

theorem sends_nothing {sent data : Bytes}
    (ends : (apiSendRespChunks fun _ => true).Ends (.start []) (.returned (), sent)) : ¬ DecodesTo sent data := by
  rintro ⟨⟨body, rfl⟩, -⟩
  have nothing : (apiSendRespChunks fun _ => true).step (.start []) = .inl (.returned (), []) := rfl
  have empty := congrArg Prod.snd ((Loop.ends_of_result nothing).mp ends)
  simp [ChunkedBody.bytes] at empty

/-- The bytes written are a chunked body that decodes to the response exactly when the response is not empty. -/
theorem apiSendRespChunks_iff (data : Bytes) :
    (∃ sent, (apiSendRespChunks fun _ => true).Ends (.start data) (.returned (), sent) ∧ DecodesTo sent data) ↔ data ≠ [] := by
  constructor
  · rintro ⟨sent, ends, decodes⟩ rfl
    exact sends_nothing ends decodes
  · intro nonempty
    obtain ⟨chunks, content, ends⟩ := sends_body nonempty 0 []
    exact ⟨_, ends, content ▸ (bodyOf chunks).decodesTo⟩

theorem not_apiSendRespChunks_empty :
    ¬ ∃ sent, (apiSendRespChunks fun _ => true).Ends (.start []) (.returned (), sent) ∧ DecodesTo sent [] := by
  rintro ⟨sent, ends, decodes⟩
  exact sends_nothing ends decodes

end Ipfs
