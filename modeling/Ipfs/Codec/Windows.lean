import Ipfs.Codec.Journal
import Ipfs.Codec.Message
import Ipfs.Codec.Node

/-!
# The windows of the decoders

The payload of a field is read through a window that ends where the buffer ends. The tag is read
through one of the length of the whole buffer, wherever it starts.
-/

namespace Ipfs
variable {σ : Type}

def Window.Inside (length : Nat) (window : Window) : Prop := window.offset + window.length ≤ length

structure Scan.WindowSafe (length : Nat) (scan : Scan σ) : Prop where
  windows : ∀ window ∈ scan.windows, window.Inside length
  positions : ∀ position ∈ scan.positions, position ≤ length

/-- The decoder reads at most one field: the buffer is empty, its first tag or the payload behind it
is refused, or the first field ends where the buffer ends. -/
def ReadsOneField (pb : Protobuf) (fields : Nat → Option (Field σ)) (buffer : Bytes) (s : σ) : Prop :=
  buffer = [] ∨
    match pb.decodeFieldAndType buffer with
    | .malformed | .truncated => True
    | .done fieldNo _ n =>
        match fields fieldNo with
        | none => n = buffer.length
        | some field =>
            match field.read pb s (buffer.drop n) with
            | .returned (_, m) => n + m = buffer.length
            | .failed | .fault _ => True

def Iteration.windows : Iteration σ → List Window
  | .exit _ windows => windows
  | .next _ _ windows => windows

section
variable (pb : Protobuf) (fields : Nat → Option (Field σ))

theorem decodeStep_windows {length pos : Nat} {rest : Bytes} (s : σ) (whole : pos + rest.length = length) :
    ∃ payload, (decodeStep pb fields length pos rest s).windows = ⟨pos, length⟩ :: payload ∧
      ∀ window ∈ payload, window.Inside length := by
  unfold decodeStep
  cases tag : pb.decodeFieldAndType rest with
  | malformed | truncated => exact ⟨[], rfl, by simp⟩
  | done fieldNo type n =>
      have consumed := pb.decodeFieldAndType_bound rest fieldNo type n tag
      have inside : ∀ window ∈ [(⟨pos + n, length - (pos + n)⟩ : Window)], window.Inside length := by
        simp only [List.mem_singleton, forall_eq, Window.Inside]
        omega
      cases known : fields fieldNo with
      | none => exact ⟨[], by simp [Iteration.windows, known], by simp⟩
      | some field =>
          cases read : field.read pb s (rest.drop n) <;>
            exact ⟨_, by simp only [known, read, Iteration.windows], inside⟩

theorem decodeLoop_windows (length fuel pos : Nat) {rest : Bytes} (s : σ) (nonempty : rest ≠ [])
    (whole : pos + rest.length = length) (enough : rest.length ≤ fuel) :
    ⟨pos, length⟩ ∈ (decodeLoop pb fields length fuel pos rest s).windows := by
  obtain ⟨fuel, rfl⟩ := Nat.exists_eq_add_one.mpr (Nat.lt_of_lt_of_le (List.length_pos_iff.mpr nonempty) enough)
  obtain ⟨payload, windows, _⟩ := decodeStep_windows pb fields s whole
  rw [decodeLoop, if_neg nonempty]
  cases step : decodeStep pb fields length pos rest s <;>
    simp_all [Iteration.windows, Scan.after]

theorem readsOneField_iff {buffer : Bytes} (s : σ) (nonempty : buffer ≠ []) :
    ReadsOneField pb fields buffer s ↔
      match decodeStep pb fields buffer.length 0 buffer s with
      | .exit _ _ => True
      | .next _ n _ => n = buffer.length := by
  simp only [ReadsOneField, nonempty, false_or, decodeStep]
  cases tag : pb.decodeFieldAndType buffer with
  | malformed | truncated => simp
  | done fieldNo type n =>
      cases known : fields fieldNo with
      | none => simp [known]
      | some field => cases read : field.read pb s (buffer.drop n) <;> simp [known, read]

theorem decodeFields_windowSafe_iff (buffer : Bytes) (s : σ) :
    (decodeFields pb fields buffer s).WindowSafe buffer.length ↔ ReadsOneField pb fields buffer s := by
  by_cases nonempty : buffer = []
  · subst nonempty
    exact iff_of_true ⟨by simp [decodeFields, decodeLoop], by simp [decodeFields, decodeLoop]⟩ (.inl rfl)
  obtain ⟨payload, windows, inside⟩ :=
    decodeStep_windows pb fields s (show 0 + buffer.length = buffer.length by omega)
  have first : ∀ window ∈ (decodeStep pb fields buffer.length 0 buffer s).windows,
      window.Inside buffer.length := by
    simp only [windows, List.mem_cons, forall_eq_or_imp]
    exact ⟨by simp [Window.Inside], inside⟩
  rw [readsOneField_iff pb fields s nonempty, decodeFields_eq pb fields s nonempty]
  cases step : decodeStep pb fields buffer.length 0 buffer s with
  | exit result handed =>
      rw [step] at first
      exact iff_of_true ⟨first, by simp⟩ trivial
  | next s' n handed =>
      rw [step] at first
      have consumed := decodeStep_consumed step
      by_cases whole : n = buffer.length
      · refine iff_of_true ⟨?_, ?_⟩ whole
        · simpa [whole, decodeLoop, Scan.after, Iteration.windows] using first
        · simp [whole, decodeLoop, Scan.after]
      · refine iff_of_false (fun safe => ?_) whole
        have nonempty' : buffer.drop n ≠ [] := by
          rw [Ne, List.drop_eq_nil_iff]
          omega
        have second := decodeLoop_windows pb fields buffer.length (buffer.length - n) n s' nonempty'
          (by simp only [List.length_drop]; omega) (by simp)
        have outside := safe.windows _ (by simpa [Scan.after] using Or.inr second)
        simp only [Window.Inside] at outside
        omega

end

/-! ## The decoders -/

inductive Decoder
  | node
  | nodeLink
  | block
  | cid
  | unixFS
  | bitswapMessage
  | wantlist
  | journalMessage

namespace Decoder

def State : Decoder → Type
  | node => HashtableNode
  | nodeLink => NodeLink
  | block => Block
  | cid => CidDecoding
  | unixFS => UnixFS
  | bitswapMessage => BitswapMessage
  | wantlist => BitswapWantlist
  | journalMessage => Collecting JournalMessage

def init : (decoder : Decoder) → decoder.State
  | node => ({} : HashtableNode)
  | nodeLink => ({} : NodeLink)
  | block => ({} : Block)
  | cid => ({} : CidDecoding)
  | unixFS => ({} : UnixFS)
  | bitswapMessage => ({} : BitswapMessage)
  | wantlist => ({} : BitswapWantlist)
  | journalMessage => ({ out := {} } : Collecting JournalMessage)

def fields (pb : Protobuf) : (decoder : Decoder) → Nat → Option (Field decoder.State)
  | node => hashtableNodeFields pb
  | nodeLink => nodeLinkFields
  | block => blockFields pb
  | cid => cidFields
  | unixFS => unixfsFields
  | bitswapMessage => bitswapMessageFields pb
  | wantlist => bitswapWantlistFields pb
  | journalMessage => journalMessageFields pb

def scan (pb : Protobuf) (decoder : Decoder) (buffer : Bytes) : Scan decoder.State :=
  decodeFields pb (decoder.fields pb) buffer decoder.init

end Decoder

variable (pb : Protobuf)

theorem Decoder.scan_result (buffer : Bytes) (nonempty : buffer ≠ []) :
    hashtableNodeProtobufDecode pb buffer = (node.scan pb buffer).result ∧
    nodeLinkProtobufDecode pb buffer = (nodeLink.scan pb buffer).result ∧
    blocksBlockProtobufDecode pb buffer = (block.scan pb buffer).result ∧
    cidProtobufDecode pb buffer = ((cid.scan pb buffer).result >>= fun s : CidDecoding => do
      let hash ← .access .unassigned s.hash
      pure (some (cidNew s.version hash s.codec))) ∧
    unixfsProtobufDecode pb buffer = (unixFS.scan pb buffer).result ∧
    bitswapMessageProtobufDecode pb buffer = ((bitswapMessage.scan pb buffer).result >>= fun m => pure (some m)) ∧
    bitswapWantlistProtobufDecode pb buffer = ((wantlist.scan pb buffer).result >>= fun l => pure (some l)) ∧
    journalMessageDecode pb buffer = ((journalMessage.scan pb buffer).result >>= Collecting.result) := by
  refine ⟨?_, rfl, rfl, ?_, ?_, ?_, ?_, rfl⟩
  · exact if_neg nonempty
  · exact if_neg nonempty
  · exact if_neg nonempty
  · exact if_neg nonempty
  · exact if_neg nonempty

theorem decoder_windowSafe_iff (decoder : Decoder) (buffer : Bytes) :
    (decoder.scan pb buffer).WindowSafe buffer.length ↔
      ReadsOneField pb (decoder.fields pb) buffer decoder.init :=
  decodeFields_windowSafe_iff pb (decoder.fields pb) buffer decoder.init

theorem decoder_windowSafe_twoFields :
    ¬ ∀ (decoder : Decoder) (buffer : Bytes),
      (decoder.scan .standard buffer).WindowSafe buffer.length := by
  intro safe
  have second : (⟨2, 4⟩ : Window) ∈ (Decoder.unixFS.scan .standard [8, 2, 24, 5]).windows := by decide
  have inside := (safe .unixFS [8, 2, 24, 5]).windows _ second
  simp [Window.Inside] at inside

end Ipfs
