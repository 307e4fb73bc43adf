import Ipfs.Lib.Outcome
import Ipfs.Protobuf.Primitives

/-!
# The decoding loop

Every decoder of the repository is the same loop: read a tag, switch on the field number, read the
payload of a known field, advance; an unknown field number advances past the tag alone. The tag is
read through the window `(&buffer[pos], buffer_length)`, the payload through
`(&buffer[pos], buffer_length - pos)`. `decodeLoop` is that loop over a table of fields; it also
records the windows it hands out and the position after each iteration.
-/

namespace Ipfs

structure Window where
  offset : Nat
  length : Nat
  deriving DecidableEq

/-- How a `case` of the switch reads its payload and what it stores. -/
inductive Field (σ : Type)
  | lengthDelimited (store : σ → Bytes → Outcome σ)
  | string (store : σ → CString → σ)
  | varint (store : σ → UInt64 → σ)
  -- `varint_decode`, whose failure shows only in the bytes it consumed
  | rawVarint (store : σ → UInt64 → σ)
  -- `protobuf_decode_length_delimited` with its return value ignored
  | uncheckedLengthDelimited (store : σ → Bytes → Outcome σ)

structure Scan (σ : Type) where
  result : Outcome σ
  -- what has been stored by then, also when the loop is left early
  state : σ
  windows : List Window
  positions : List Nat

variable {σ : Type}

def Field.read (pb : Protobuf) (field : Field σ) (s : σ) (window : Bytes) : Outcome (σ × Nat) :=
  match field with
  | .lengthDelimited store => do
      let p ← .ofOption (pb.decodeLengthDelimited window)
      let s' ← store s p.1
      pure (s', p.2)
  | .string store => do
      let p ← .ofOption (pb.decodeString window)
      pure (store s p.1, p.2)
  | .varint store => do
      let p ← .ofOption (pb.decodeVarint window)
      pure (store s p.1, p.2)
  | .rawVarint store => pure (store s (pb.varintDecode window).1, (pb.varintDecode window).2)
  | .uncheckedLengthDelimited store => do
      -- on failure `temp` was never assigned
      let p ← .access .unassigned (pb.decodeLengthDelimited window)
      let s' ← store s p.1
      pure (s', p.2)

def Scan.after (scan : Scan σ) (windows : List Window) (position : Nat) : Scan σ :=
  ⟨scan.result, scan.state, windows ++ scan.windows, position :: scan.positions⟩

inductive Iteration (σ : Type)
  | exit (result : Outcome σ) (windows : List Window)
  | next (s : σ) (consumed : Nat) (windows : List Window)

def decodeStep (pb : Protobuf) (fields : Nat → Option (Field σ)) (length pos : Nat) (rest : Bytes)
    (s : σ) : Iteration σ :=
  match pb.decodeFieldAndType rest with
  | .malformed => .exit .failed [⟨pos, length⟩]
  -- past the first iteration the window does not end where the buffer ends
  | .truncated => .exit (if pos = 0 then .failed else .fault .outOfBounds) [⟨pos, length⟩]
  | .done fieldNo _ n =>
      match fields fieldNo with
      | none => .next s n [⟨pos, length⟩]
      | some field =>
          match field.read pb s (rest.drop n) with
          | .returned (s', m) => .next s' (n + m) [⟨pos, length⟩, ⟨pos + n, length - (pos + n)⟩]
          | .failed => .exit .failed [⟨pos, length⟩, ⟨pos + n, length - (pos + n)⟩]
          | .fault cause => .exit (.fault cause) [⟨pos, length⟩, ⟨pos + n, length - (pos + n)⟩]

def decodeLoop (pb : Protobuf) (fields : Nat → Option (Field σ)) (length : Nat) :
    Nat → Nat → Bytes → σ → Scan σ
  | 0, _, _, s => ⟨.returned s, s, [], []⟩
  | fuel + 1, pos, rest, s =>
      if rest = [] then ⟨.returned s, s, [], []⟩
      else match decodeStep pb fields length pos rest s with
        | .exit result windows => ⟨result, s, windows, []⟩
        | .next s' n windows =>
            (decodeLoop pb fields length fuel (pos + n) (rest.drop n) s').after windows (pos + n)

def decodeFields (pb : Protobuf) (fields : Nat → Option (Field σ)) (buffer : Bytes) (s : σ) : Scan σ :=
  decodeLoop pb fields buffer.length buffer.length 0 buffer s

/-- What a `case` that comes to its end has read and stored. -/
def Field.Reads (pb : Protobuf) (s : σ) (window : Bytes) (s' : σ) (m : Nat) : Field σ → Prop
  | .lengthDelimited store | .uncheckedLengthDelimited store =>
      ∃ data, pb.decodeLengthDelimited window = some (data, m) ∧ store s data = .returned s'
  | .string store => ∃ text, pb.decodeString window = some (text, m) ∧ store s text = s'
  | .varint store => ∃ value, pb.decodeVarint window = some (value, m) ∧ store s value = s'
  | .rawVarint store => store s (pb.varintDecode window).1 = s' ∧ (pb.varintDecode window).2 = m

theorem Field.read_eq_returned {pb : Protobuf} {field : Field σ} {s s' : σ} {window : Bytes} {m : Nat} :
    field.read pb s window = .returned (s', m) ↔ field.Reads pb s window s' m := by
  cases field with
  | lengthDelimited store | uncheckedLengthDelimited store =>
      simp only [Field.read, Field.Reads, Outcome.bind_eq_returned, Outcome.ofOption_eq_returned,
        Outcome.access_eq_returned, Outcome.pure_def, Outcome.returned.injEq, Prod.mk.injEq, Prod.exists]
      constructor
      · rintro ⟨data, _, payload, _, stored, rfl, rfl⟩
        exact ⟨data, payload, stored⟩
      · rintro ⟨data, payload, stored⟩
        exact ⟨data, m, payload, s', stored, rfl, rfl⟩
  | string store | varint store =>
      simp only [Field.read, Field.Reads, Outcome.bind_eq_returned, Outcome.ofOption_eq_returned, Outcome.pure_def,
        Outcome.returned.injEq, Prod.mk.injEq, Prod.exists]
      constructor
      · rintro ⟨value, _, payload, stored, rfl⟩
        exact ⟨value, payload, stored⟩
      · rintro ⟨value, payload, stored⟩
        exact ⟨value, m, payload, stored, rfl⟩
  | rawVarint store => simp only [Field.read, Field.Reads, Outcome.pure_def, Outcome.returned.injEq, Prod.mk.injEq]

theorem Field.read_bound (pb : Protobuf) (field : Field σ) (s s' : σ) (window : Bytes) (m : Nat)
    (read : field.read pb s window = .returned (s', m)) : m ≤ window.length := by
  rw [Field.read_eq_returned] at read
  cases field with
  | lengthDelimited store | uncheckedLengthDelimited store =>
      obtain ⟨data, payload, _⟩ := read
      exact (pb.decodeLengthDelimited_bound window data m payload).2
  | string store =>
      obtain ⟨text, payload, _⟩ := read
      exact pb.decodeString_bound window text m payload
  | varint store =>
      obtain ⟨value, payload, _⟩ := read
      exact pb.decodeVarint_bound window value m payload
  | rawVarint store => exact read.2 ▸ pb.varintDecode_bound window

section
variable {pb : Protobuf} {fields : Nat → Option (Field σ)} {length pos : Nat} {rest : Bytes} {s : σ}
  {windows : List Window}

theorem decodeStep_next {s' : σ} {n : Nat}
    (step : decodeStep pb fields length pos rest s = .next s' n windows) :
    ∃ fieldNo type k, pb.decodeFieldAndType rest = .done fieldNo type k ∧
      ((fields fieldNo = none ∧ s' = s ∧ n = k) ∨
        ∃ field m, fields fieldNo = some field ∧ field.read pb s (rest.drop k) = .returned (s', m) ∧ n = k + m) := by
  unfold decodeStep at step
  cases tag : pb.decodeFieldAndType rest with
  | malformed => simp [tag] at step
  | truncated => simp [tag] at step
  | done fieldNo type k =>
      refine ⟨fieldNo, type, k, rfl, ?_⟩
      cases known : fields fieldNo with
      | none =>
          simp only [tag, known, Iteration.next.injEq] at step
          exact .inl ⟨rfl, step.1.symm, step.2.1.symm⟩
      | some field =>
          cases read : field.read pb s (rest.drop k) with
          | failed => simp [tag, known, read] at step
          | fault cause => simp [tag, known, read] at step
          | returned p =>
              simp only [tag, known, read, Iteration.next.injEq] at step
              exact .inr ⟨field, p.2, rfl, by rw [read, ← step.1], step.2.1.symm⟩

theorem decodeStep_exit {result : Outcome σ}
    (step : decodeStep pb fields length pos rest s = .exit result windows) (s' : σ) : result ≠ .returned s' := by
  unfold decodeStep at step
  cases tag : pb.decodeFieldAndType rest with
  | malformed =>
      simp only [tag, Iteration.exit.injEq] at step
      simp [← step.1]
  | truncated =>
      simp only [tag, Iteration.exit.injEq] at step
      rw [← step.1]
      split <;> simp
  | done fieldNo type k =>
      cases known : fields fieldNo with
      | none => simp [tag, known] at step
      | some field =>
          cases read : field.read pb s (rest.drop k) with
          | returned p => simp [tag, known, read] at step
          | failed | fault cause =>
              simp only [tag, known, read, Iteration.exit.injEq] at step
              simp [← step.1]

theorem decodeStep_consumed {s' : σ} {n : Nat}
    (step : decodeStep pb fields length pos rest s = .next s' n windows) : 0 < n ∧ n ≤ rest.length := by
  obtain ⟨fieldNo, type, k, tag, ⟨_, _, rfl⟩ | ⟨field, m, _, read, rfl⟩⟩ := decodeStep_next step
  · exact pb.decodeFieldAndType_bound rest fieldNo type n tag
  · have consumed := pb.decodeFieldAndType_bound rest fieldNo type k tag
    have payload := field.read_bound pb s s' (rest.drop k) m read
    rw [List.length_drop] at payload
    omega

end

theorem decodeLoop_fuel (pb : Protobuf) (fields : Nat → Option (Field σ)) (length fuel fuel' pos : Nat)
    (rest : Bytes) (s : σ) (enough : rest.length ≤ fuel) (enough' : rest.length ≤ fuel') :
    decodeLoop pb fields length fuel pos rest s = decodeLoop pb fields length fuel' pos rest s := by
  induction fuel generalizing fuel' pos rest s with
  | zero =>
      obtain rfl : rest = [] := List.eq_nil_of_length_eq_zero (by omega)
      cases fuel' <;> simp [decodeLoop]
  | succ fuel ih =>
      by_cases empty : rest = []
      · subst empty
        cases fuel' <;> simp [decodeLoop]
      · have := List.length_pos_iff.mpr empty
        obtain ⟨fuel', rfl⟩ := Nat.exists_eq_add_one.mpr (show 0 < fuel' by omega)
        simp only [decodeLoop, empty, if_false]
        cases step : decodeStep pb fields length pos rest s with
        | exit result windows => rfl
        | next s' n windows =>
            have consumed := decodeStep_consumed step
            simp only
            rw [ih fuel' (pos + n) (rest.drop n) s']
            all_goals
              simp only [List.length_drop]
              omega

theorem decodeLoop_next {pb : Protobuf} {fields : Nat → Option (Field σ)} {length fuel pos : Nat} {rest : Bytes}
    {s r : σ} (nonempty : rest ≠ [])
    (done : (decodeLoop pb fields length (fuel + 1) pos rest s).result = .returned r) :
    ∃ s' n windows, decodeStep pb fields length pos rest s = .next s' n windows ∧
      (decodeLoop pb fields length fuel (pos + n) (rest.drop n) s').result = .returned r := by
  simp only [decodeLoop, nonempty, if_false] at done
  cases step : decodeStep pb fields length pos rest s with
  | exit result windows =>
      simp only [step] at done
      exact absurd done (decodeStep_exit step r)
  | next s' n windows =>
      simp only [step, Scan.after] at done
      exact ⟨s', n, windows, rfl, done⟩

theorem decodeLoop_state {pb : Protobuf} {fields : Nat → Option (Field σ)} {length fuel pos : Nat} {rest : Bytes}
    {s s' : σ} (done : (decodeLoop pb fields length fuel pos rest s).result = .returned s') :
    (decodeLoop pb fields length fuel pos rest s).state = s' := by
  induction fuel generalizing pos rest s with
  | zero => simpa [decodeLoop] using done
  | succ fuel ih =>
      by_cases empty : rest = []
      · simpa [decodeLoop, empty] using done
      · obtain ⟨s'', n, windows, step, behind⟩ := decodeLoop_next empty done
        simp only [decodeLoop, empty, if_false, step, Scan.after]
        exact ih behind

/-- The `case` of a field preserves a property, for payloads up to a length. -/
def Field.Keeps (Inv : σ → Prop) (bound : Nat) : Field σ → Prop
  | .lengthDelimited store | .uncheckedLengthDelimited store =>
      ∀ s data s', Inv s → data.length ≤ bound → store s data = .returned s' → Inv s'
  | .string store => ∀ s text, Inv s → Inv (store s text)
  | .varint store | .rawVarint store => ∀ s value, Inv s → Inv (store s value)

theorem Field.Keeps.read {pb : Protobuf} {Inv : σ → Prop} {bound : Nat} {field : Field σ}
    (keeps : field.Keeps Inv bound) {s s' : σ} {window : Bytes} {m : Nat} (holds : Inv s)
    (short : window.length ≤ bound) (read : field.read pb s window = .returned (s', m)) : Inv s' := by
  rw [Field.read_eq_returned] at read
  cases field with
  | lengthDelimited store | uncheckedLengthDelimited store =>
      obtain ⟨data, payload, stored⟩ := read
      have length := pb.decodeLengthDelimited_bound window data m payload
      exact keeps s data s' holds (by omega) stored
  | string store | varint store =>
      obtain ⟨value, _, rfl⟩ := read
      exact keeps s value holds
  | rawVarint store => exact read.1 ▸ keeps s _ holds

theorem decodeLoop_invariant {pb : Protobuf} {fields : Nat → Option (Field σ)} {Inv : σ → Prop} {bound : Nat}
    (each : ∀ fieldNo field, fields fieldNo = some field → field.Keeps Inv bound)
    {length fuel pos : Nat} {rest : Bytes} {s s' : σ} (short : rest.length ≤ bound + 1) (holds : Inv s)
    (done : (decodeLoop pb fields length fuel pos rest s).result = .returned s') : Inv s' := by
  induction fuel generalizing pos rest s with
  | zero =>
      simp only [decodeLoop, Outcome.returned.injEq] at done
      exact done ▸ holds
  | succ fuel ih =>
      by_cases empty : rest = []
      · simp only [decodeLoop, empty, if_true, Outcome.returned.injEq] at done
        exact done ▸ holds
      · obtain ⟨s'', n, windows, step, behind⟩ := decodeLoop_next empty done
        refine ih (by rw [List.length_drop]; omega) ?_ behind
        obtain ⟨fieldNo, type, k, tag, ⟨_, rfl, _⟩ | ⟨field, m, known, read, _⟩⟩ := decodeStep_next step
        · exact holds
        · -- the tag takes a byte
          have consumed := pb.decodeFieldAndType_bound rest fieldNo type k tag
          exact (each fieldNo field known).read holds (by rw [List.length_drop]; omega) read

theorem decodeFields_invariant {pb : Protobuf} {fields : Nat → Option (Field σ)} (Inv : σ → Prop) {buffer : Bytes}
    {s s' : σ} (each : ∀ fieldNo field, fields fieldNo = some field → field.Keeps Inv (buffer.length - 1)) (holds : Inv s)
    (done : (decodeFields pb fields buffer s).result = .returned s') : Inv s' :=
  decodeLoop_invariant each (by omega) holds done

theorem decodeFields_eq (pb : Protobuf) (fields : Nat → Option (Field σ)) {buffer : Bytes} (s : σ)
    (nonempty : buffer ≠ []) :
    decodeFields pb fields buffer s =
      match decodeStep pb fields buffer.length 0 buffer s with
      | .exit result windows => ⟨result, s, windows, []⟩
      | .next s' n windows =>
          (decodeLoop pb fields buffer.length (buffer.length - n) n (buffer.drop n) s').after windows n := by
  have long := List.length_pos_iff.mpr nonempty
  rw [decodeFields, decodeLoop_fuel pb fields buffer.length buffer.length (buffer.length + 1) 0 buffer s
    le_rfl (by omega), decodeLoop, if_neg nonempty]
  cases step : decodeStep pb fields buffer.length 0 buffer s with
  | exit result windows => rfl
  | next s' n windows =>
      have consumed := decodeStep_consumed step
      simp only [Nat.zero_add]
      rw [decodeLoop_fuel pb fields buffer.length buffer.length (buffer.length - n)]
      all_goals
        simp only [List.length_drop]
        omega

theorem decodeFields_failed {pb : Protobuf} {fields : Nat → Option (Field σ)} {store : σ → Bytes → Outcome σ}
    {fieldNo : Nat} {type : WireType} {s : σ} {data : Bytes} (pos : 0 < fieldNo) (bound : fieldNo < 2 ^ 28)
    (known : fields fieldNo = some (.lengthDelimited store)) (failed : store s data = .failed) (rest : Bytes) :
    (decodeFields pb fields (Wire.bytesField fieldNo type data ++ rest) s).result = .failed := by
  have nonempty : Wire.bytesField fieldNo type data ++ rest ≠ [] :=
    List.append_ne_nil_of_left_ne_nil (List.ne_nil_of_length_pos (Wire.bytesField_length_pos fieldNo type data)) rest
  have bytes : Wire.bytesField fieldNo type data ++ rest =
      Wire.tag fieldNo type ++ (Leb128.encode data.length ++ (data ++ rest)) := by
    simp only [Wire.bytesField, List.append_assoc]
  have read : (Field.lengthDelimited store).read pb s (Leb128.encode data.length ++ (data ++ rest)) = .failed := by
    simp [Field.read, pb.decodeLengthDelimited_encode, failed]
  rw [decodeFields_eq pb fields s nonempty, bytes, decodeStep, pb.decodeFieldAndType_tag fieldNo type _ pos bound]
  simp only [known, List.drop_left, read]

/-! ## Decoding what was written field by field -/

section Feeds
variable (pb : Protobuf) (fields : Nat → Option (Field σ))

/-- The loop takes `bytes` from state `s` to state `s'`, whatever stands before and behind them. -/
def Feeds (s : σ) (bytes : Bytes) (s' : σ) : Prop :=
  ∀ length pos rest,
    (decodeLoop pb fields length (bytes ++ rest).length pos (bytes ++ rest) s).result =
      (decodeLoop pb fields length rest.length (pos + bytes.length) rest s').result

variable {pb fields}

theorem decodeFields_feeds {s s' : σ} {bytes : Bytes} (feeds : Feeds pb fields s bytes s') :
    (decodeFields pb fields bytes s).result = .returned s' := by
  have h := feeds bytes.length 0 []
  rw [List.append_nil] at h
  rw [decodeFields, h]
  rfl

theorem Feeds.nil (s : σ) : Feeds pb fields s [] s := fun _ _ _ => rfl

theorem Feeds.append {s s' s'' : σ} {bytes bytes' : Bytes} (first : Feeds pb fields s bytes s')
    (second : Feeds pb fields s' bytes' s'') : Feeds pb fields s (bytes ++ bytes') s'' := by
  intro length pos rest
  rw [List.append_assoc, first, second, List.length_append, Nat.add_assoc]

theorem Feeds.flatMap {α : Type} (encode : α → Bytes) (store : σ → α → σ) (items : List α) (s : σ)
    (each : ∀ item ∈ items, ∀ s, Feeds pb fields s (encode item) (store s item)) :
    Feeds pb fields s (items.flatMap encode) (items.foldl store s) := by
  induction items generalizing s with
  | nil => exact .nil s
  | cons item items ih =>
      rw [List.flatMap_cons, List.foldl_cons]
      exact (each item (by simp) s).append (ih _ fun x mem => each x (by simp [mem]))

theorem Feeds.field {field : Field σ} {fieldNo : Nat} {type : WireType} {s s' : σ} {body : Bytes}
    (pos : 0 < fieldNo) (bound : fieldNo < 2 ^ 28) (known : fields fieldNo = some field)
    (read : ∀ rest, field.read pb s (body ++ rest) = .returned (s', body.length)) :
    Feeds pb fields s (Wire.tag fieldNo type ++ body) s' := by
  intro length start rest
  have nonempty := Wire.tag_length_pos fieldNo type
  have step : decodeStep pb fields length start (Wire.tag fieldNo type ++ body ++ rest) s =
      .next s' ((Wire.tag fieldNo type).length + body.length)
        [⟨start, length⟩, ⟨start + (Wire.tag fieldNo type).length,
          length - (start + (Wire.tag fieldNo type).length)⟩] := by
    rw [decodeStep, List.append_assoc, pb.decodeFieldAndType_tag fieldNo type _ pos bound]
    simp only [known, List.drop_left, read]
  obtain ⟨fuel, fuelEq⟩ : ∃ k, (Wire.tag fieldNo type ++ body ++ rest).length = k + 1 :=
    ⟨(Wire.tag fieldNo type ++ body ++ rest).length - 1, by simp only [List.length_append]; omega⟩
  have behind : (Wire.tag fieldNo type ++ body ++ rest).drop
      ((Wire.tag fieldNo type).length + body.length) = rest := by
    rw [← List.length_append, List.drop_left]
  rw [fuelEq, decodeLoop, if_neg (by simp [List.ne_nil_of_length_pos nonempty]), step]
  simp only [Scan.after, behind, List.length_append]
  rw [decodeLoop_fuel pb fields length fuel rest.length]
  · simp only [List.length_append] at fuelEq
    omega
  · exact le_rfl

theorem Feeds.lengthDelimited {store : σ → Bytes → Outcome σ} {fieldNo : Nat} {type : WireType}
    {s s' : σ} {data : Bytes} (pos : 0 < fieldNo) (bound : fieldNo < 2 ^ 28)
    (known : fields fieldNo = some (.lengthDelimited store)) (stored : store s data = .returned s') :
    Feeds pb fields s (Wire.bytesField fieldNo type data) s' :=
  .field pos bound known fun rest => by
    simp [Field.read, pb.decodeLengthDelimited_encode, stored]

/-- A loop that comes to its end has stored the field in front. -/
theorem decodeLoop_stored {store : σ → Bytes → Outcome σ} {fieldNo : Nat} {type : WireType} {length start : Nat}
    {s r : σ} {data rest : Bytes} (pos : 0 < fieldNo) (bound : fieldNo < 2 ^ 28)
    (known : fields fieldNo = some (.lengthDelimited store))
    (done : (decodeLoop pb fields length (Wire.bytesField fieldNo type data ++ rest).length start
      (Wire.bytesField fieldNo type data ++ rest) s).result = .returned r) :
    ∃ s', store s data = .returned s' ∧
      (decodeLoop pb fields length rest.length (start + (Wire.bytesField fieldNo type data).length) rest s').result =
        .returned r := by
  have present := Wire.bytesField_length_pos fieldNo type data
  obtain ⟨s', stored⟩ : ∃ s', store s data = .returned s' := by
    rw [decodeLoop_fuel pb fields length _ ((Wire.bytesField fieldNo type data ++ rest).length + 1) start _ s le_rfl
      (Nat.le_succ _)] at done
    obtain ⟨s', n, windows, step, -⟩ := decodeLoop_next (by simp [List.ne_nil_of_length_pos present]) done
    obtain ⟨fieldNo', type', k, tag, found⟩ := decodeStep_next step
    have bytes : Wire.bytesField fieldNo type data ++ rest =
        Wire.tag fieldNo type ++ (Leb128.encode data.length ++ (data ++ rest)) := by
      simp only [Wire.bytesField, List.append_assoc]
    rw [bytes, pb.decodeFieldAndType_tag fieldNo type _ pos bound, TagRead.done.injEq] at tag
    obtain ⟨rfl, -, rfl⟩ := tag
    rcases found with ⟨unknown, -, -⟩ | ⟨field, m, known', read, -⟩
    · rw [known] at unknown
      cases unknown
    · obtain rfl := Option.some.inj (known.symm.trans known')
      rw [bytes, List.drop_left, Field.read_eq_returned] at read
      obtain ⟨data', payload, stored⟩ := read
      rw [pb.decodeLengthDelimited_encode, Option.some.injEq, Prod.mk.injEq] at payload
      exact ⟨s', payload.1 ▸ stored⟩
  rw [Feeds.lengthDelimited pos bound known stored] at done
  exact ⟨s', stored, done⟩

theorem Feeds.uncheckedLengthDelimited {store : σ → Bytes → Outcome σ} {fieldNo : Nat} {type : WireType}
    {s s' : σ} {data : Bytes} (pos : 0 < fieldNo) (bound : fieldNo < 2 ^ 28)
    (known : fields fieldNo = some (.uncheckedLengthDelimited store))
    (stored : store s data = .returned s') :
    Feeds pb fields s (Wire.bytesField fieldNo type data) s' :=
  .field pos bound known fun rest => by
    simp [Field.read, pb.decodeLengthDelimited_encode, stored]

theorem Feeds.string {store : σ → CString → σ} {fieldNo : Nat} {type : WireType} {s s' : σ}
    {text : CString} (pos : 0 < fieldNo) (bound : fieldNo < 2 ^ 28)
    (known : fields fieldNo = some (.string store)) (stored : store s text = s') :
    Feeds pb fields s (Wire.bytesField fieldNo type text.bytes) s' :=
  .field pos bound known fun rest => by simp [Field.read, pb.decodeString_encode, stored]

theorem Feeds.varint {store : σ → UInt64 → σ} {fieldNo : Nat} {type : WireType} {s s' : σ}
    {value : UInt64} (pos : 0 < fieldNo) (bound : fieldNo < 2 ^ 28)
    (known : fields fieldNo = some (.varint store)) (stored : store s value = s') :
    Feeds pb fields s (Wire.varintField fieldNo type value.toNat) s' :=
  .field pos bound known fun rest => by simp [Field.read, pb.decodeVarint_encode, stored]

theorem Feeds.rawVarint {store : σ → UInt64 → σ} {fieldNo : Nat} {type : WireType} {s s' : σ}
    {value : UInt64} (pos : 0 < fieldNo) (bound : fieldNo < 2 ^ 28)
    (known : fields fieldNo = some (.rawVarint store)) (stored : store s value = s') :
    Feeds pb fields s (Wire.varintField fieldNo type value.toNat) s' :=
  .field pos bound known fun rest => by simp [Field.read, pb.varintDecode_encode, stored]

end Feeds
end Ipfs
