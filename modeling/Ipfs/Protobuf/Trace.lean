import Ipfs.Protobuf.Scan

/-!
# The fields that stand in a buffer

What a decoding loop meets, told without the object it decodes into: the fields in order, with the
payload of those that have one, and how the loop would come to an end by itself. A loop whose
payloads are decoded further on is undefined when one of those is, or when it gets to the end and
that is a tag cut off by the end of the buffer.
-/

namespace Ipfs

inductive TraceEnd
  | finished
  -- a tag or a payload that the primitives refuse
  | refused
  -- a tag that is cut off, read through a window longer than the buffer
  | overrun
  deriving DecidableEq

inductive PayloadKind
  | delimited
  | varint
  deriving DecidableEq

def traceLoop (pb : Protobuf) (kinds : Nat → Option PayloadKind) :
    Nat → Nat → Bytes → List (Nat × Bytes) × TraceEnd
  | 0, _, _ => ([], .finished)
  | fuel + 1, pos, rest =>
      if rest = [] then ([], .finished)
      else match pb.decodeFieldAndType rest with
        | .malformed => ([], .refused)
        | .truncated => ([], if pos = 0 then .refused else .overrun)
        | .done fieldNo _ n =>
            match kinds fieldNo with
            | none => traceLoop pb kinds fuel (pos + n) (rest.drop n)
            | some .varint =>
                let m := (pb.varintDecode (rest.drop n)).2
                traceLoop pb kinds fuel (pos + (n + m)) (rest.drop (n + m))
            | some .delimited =>
                match pb.decodeLengthDelimited (rest.drop n) with
                | none => ([], .refused)
                | some (payload, m) =>
                    let trace := traceLoop pb kinds fuel (pos + (n + m)) (rest.drop (n + m))
                    ((fieldNo, payload) :: trace.1, trace.2)

def fieldTrace (pb : Protobuf) (kinds : Nat → Option PayloadKind) (buffer : Bytes) :
    List (Nat × Bytes) × TraceEnd :=
  traceLoop pb kinds buffer.length 0 buffer

/-- Every payload up to the first one that is not accepted is safe, and after the last one there is
no overrun. -/
def TraceSafe (safe accepted : Nat → Bytes → Prop) : List (Nat × Bytes) → TraceEnd → Prop
  | [], last => last ≠ .overrun
  | (fieldNo, payload) :: trace, last =>
      safe fieldNo payload ∧ (accepted fieldNo payload → TraceSafe safe accepted trace last)

theorem TraceSafe.always (trace : List (Nat × Bytes)) (last : TraceEnd) :
    TraceSafe (fun _ _ => True) (fun _ _ => True) trace last ↔ last ≠ .overrun := by
  induction trace with
  | nil => exact Iff.rfl
  | cons field trace ih => simpa [TraceSafe] using ih

variable {σ : Type}

/-- The fields of a decoder are payloads that are decoded on their own, and numbers. -/
structure Traced (pb : Protobuf) (fields : Nat → Option (Field σ)) (kinds : Nat → Option PayloadKind)
    (safe accepted : Nat → Bytes → Prop) : Prop where
  unknown : ∀ fieldNo, kinds fieldNo = none → fields fieldNo = none
  varint : ∀ fieldNo, kinds fieldNo = some .varint → ∃ store, fields fieldNo = some (.rawVarint store)
  delimited : ∀ fieldNo, kinds fieldNo = some .delimited → ∃ store, fields fieldNo = some (.lengthDelimited store) ∧
    ∀ s payload, ((store s payload).Defined ↔ safe fieldNo payload) ∧
      ((∃ s', store s payload = .returned s') ↔ accepted fieldNo payload)

theorem decodeLoop_defined_iff {pb : Protobuf} {fields : Nat → Option (Field σ)} {kinds : Nat → Option PayloadKind}
    {safe accepted : Nat → Bytes → Prop} (traced : Traced pb fields kinds safe accepted) (length fuel pos : Nat)
    (rest : Bytes) (s : σ) :
    (decodeLoop pb fields length fuel pos rest s).result.Defined ↔
      TraceSafe safe accepted (traceLoop pb kinds fuel pos rest).1 (traceLoop pb kinds fuel pos rest).2 := by
  induction fuel generalizing pos rest s with
  | zero => simp [decodeLoop, traceLoop, TraceSafe]
  | succ fuel ih =>
      by_cases empty : rest = []
      · simp [decodeLoop, traceLoop, TraceSafe, empty]
      · simp only [decodeLoop, traceLoop, empty, if_false, decodeStep]
        cases tag : pb.decodeFieldAndType rest with
        | malformed => simp [TraceSafe]
        | truncated => by_cases first : pos = 0 <;> simp [TraceSafe, first]
        | done fieldNo type n =>
            cases kind : kinds fieldNo with
            | none =>
                simp only [kind, traced.unknown fieldNo kind, Scan.after]
                exact ih _ _ _
            | some kind' =>
                cases kind' with
                | varint =>
                    obtain ⟨store, known⟩ := traced.varint fieldNo kind
                    simp only [kind, known, Field.read, Outcome.pure_def, Scan.after]
                    exact ih _ _ _
                | delimited =>
                    obtain ⟨store, known, stores⟩ := traced.delimited fieldNo kind
                    cases read : pb.decodeLengthDelimited (rest.drop n) with
                    | none => simp [kind, known, Field.read, read, TraceSafe]
                    | some p =>
                        obtain ⟨defined, returns⟩ := stores s p.1
                        simp only [kind, known, Field.read, read, Outcome.ofOption_some, Outcome.returned_bind,
                          TraceSafe, ← defined, ← returns]
                        cases stored : store s p.1 with
                        | returned s' =>
                            simp only [Outcome.returned_bind, Outcome.pure_def, Scan.after, ih]
                            simp
                        | failed => simp
                        | fault cause => simp

theorem decodeOptional_defined_iff {pb : Protobuf} {fields : Nat → Option (Field σ)} {kinds : Nat → Option PayloadKind}
    {safe accepted : Nat → Bytes → Prop} (traced : Traced pb fields kinds safe accepted) (buffer : Bytes) (s : σ) :
    Outcome.Defined (if buffer = [] then .returned none
      else (decodeFields pb fields buffer s).result >>= fun decoded => pure (some decoded)) ↔
      TraceSafe safe accepted (fieldTrace pb kinds buffer).1 (fieldTrace pb kinds buffer).2 := by
  by_cases empty : buffer = []
  · simp [fieldTrace, traceLoop, TraceSafe, empty]
  · have loop := decodeLoop_defined_iff traced buffer.length buffer.length 0 buffer s
    simp [empty, decodeFields, fieldTrace, Outcome.defined_bind, loop]

end Ipfs
