import Ipfs.Protobuf.Scan

/-!
# What the decoding loop passes without storing

Bytes in the middle of a message leave a decoder as it was when the loop, which reads them as fields,
stores nothing on its way through them. Two messages that decode to different objects tell whether it
does: what one field stores is the same behind both of them.
-/

namespace Ipfs
variable {σ α : Type}

/-! ## Messages field by field -/

inductive Content
  | varint (value : UInt64)
  | bytes (data : Bytes)

structure WireField where
  number : Nat
  content : Content

def WireField.bytes : WireField → Bytes
  | ⟨number, .varint value⟩ => Wire.varintField number .varint value.toNat
  | ⟨number, .bytes data⟩ => Wire.bytesField number .lengthDelimited data

theorem WireField.bytes_ne_nil (wire : WireField) : wire.bytes ≠ [] := by
  obtain ⟨number, content⟩ := wire
  cases content with
  | varint value => exact List.ne_nil_of_length_pos (Wire.varintField_length_pos number .varint value.toNat)
  | bytes data => exact List.ne_nil_of_length_pos (Wire.bytesField_length_pos number .lengthDelimited data)

/-- A field of the type that the `case` reads, with what it stores. -/
def Field.Takes : Field σ → σ → Content → σ → Prop
  | .lengthDelimited store, s, .bytes data, s' => store s data = .returned s'
  | .uncheckedLengthDelimited store, s, .bytes data, s' => store s data = .returned s'
  | .string store, s, .bytes data, s' => ∃ text : CString, text.bytes = data ∧ store s text = s'
  | .varint store, s, .varint value, s' => store s value = s'
  | .rawVarint store, s, .varint value, s' => store s value = s'
  | _, _, _, _ => False

inductive Encodes (fields : Nat → Option (Field σ)) : σ → List WireField → σ → Prop
  | nil (s : σ) : Encodes fields s [] s
  | cons {s s' s'' : σ} {number : Nat} {content : Content} {wires : List WireField} {field : Field σ}
      (valid : 0 < number ∧ number < 2 ^ 28) (known : fields number = some field)
      (takes : field.Takes s content s') (rest : Encodes fields s' wires s'') :
      Encodes fields s (⟨number, content⟩ :: wires) s''

section
variable {pb : Protobuf} {fields : Nat → Option (Field σ)}

theorem Field.Takes.feeds {field : Field σ} {s s' : σ} {number : Nat} {content : Content}
    (pos : 0 < number) (bound : number < 2 ^ 28) (known : fields number = some field)
    (takes : field.Takes s content s') : Feeds pb fields s (WireField.bytes ⟨number, content⟩) s' := by
  cases content with
  | varint value =>
      cases field with
      | lengthDelimited store | uncheckedLengthDelimited store | string store => exact takes.elim
      | varint store => exact .varint pos bound known takes
      | rawVarint store => exact .rawVarint pos bound known takes
  | bytes data =>
      cases field with
      | varint store | rawVarint store => exact takes.elim
      | lengthDelimited store => exact .lengthDelimited pos bound known takes
      | uncheckedLengthDelimited store => exact .uncheckedLengthDelimited pos bound known takes
      | string store =>
          obtain ⟨text, rfl, stored⟩ := takes
          exact .string pos bound known stored

theorem Encodes.feeds (pb : Protobuf) {s s' : σ} {wires : List WireField} (encodes : Encodes fields s wires s') :
    Feeds pb fields s (wires.flatMap WireField.bytes) s' := by
  induction encodes with
  | nil s => exact .nil s
  | cons valid known takes rest ih =>
      rw [List.flatMap_cons]
      exact (takes.feeds valid.1 valid.2 known).append ih

theorem Encodes.split {s s'' : σ} {before after : List WireField}
    (encodes : Encodes fields s (before ++ after) s'') :
    ∃ s', Encodes fields s before s' ∧ Encodes fields s' after s'' := by
  induction before generalizing s with
  | nil => exact ⟨s, .nil s, encodes⟩
  | cons wire before ih =>
      cases encodes with
      | cons valid known takes rest =>
          obtain ⟨s', front, back⟩ := ih rest
          exact ⟨s', .cons valid known takes front, back⟩

end

/-! ## Passing bytes without storing -/

/-- The loop passes the bytes whatever its state is and whatever follows: they are tags of numbers that the
decoder does not know, and fields whose payload its `case` leaves aside. -/
inductive Skims (pb : Protobuf) (fields : Nat → Option (Field σ)) : Bytes → Prop
  | nil : Skims pb fields []
  | unknown {bytes : Bytes} {fieldNo n : Nat} {type : WireType}
      (tag : ∀ rest, pb.decodeFieldAndType (bytes ++ rest) = .done fieldNo type n) (within : n ≤ bytes.length)
      (absent : fields fieldNo = none) (rest : Skims pb fields (bytes.drop n)) : Skims pb fields bytes
  | idle {bytes : Bytes} {fieldNo n m : Nat} {type : WireType} {field : Field σ}
      (tag : ∀ rest, pb.decodeFieldAndType (bytes ++ rest) = .done fieldNo type n)
      (within : n + m ≤ bytes.length) (known : fields fieldNo = some field)
      (read : ∀ s rest, field.read pb s (bytes.drop n ++ rest) = .returned (s, m))
      (rest : Skims pb fields (bytes.drop (n + m))) : Skims pb fields bytes

section
variable {pb : Protobuf} {fields : Nat → Option (Field σ)}

theorem Feeds.step {s s' s'' : σ} {bytes : Bytes} {n : Nat} (within : n ≤ bytes.length)
    (step : ∀ length pos rest, ∃ windows,
      decodeStep pb fields length pos (bytes ++ rest) s = .next s' n windows)
    (feeds : Feeds pb fields s' (bytes.drop n) s'') : Feeds pb fields s bytes s'' := by
  intro length pos rest
  obtain ⟨windows, next⟩ := step length pos rest
  have consumed := decodeStep_consumed next
  have behind : (bytes ++ rest).drop n = bytes.drop n ++ rest := List.drop_append_of_le_length within
  obtain ⟨fuel, fuelEq⟩ := Nat.exists_eq_add_one.mpr (show 0 < (bytes ++ rest).length by omega)
  rw [fuelEq, decodeLoop, if_neg (List.ne_nil_of_length_pos (by omega)), next]
  simp only [Scan.after, behind]
  rw [decodeLoop_fuel pb fields length fuel (bytes.drop n ++ rest).length, feeds, List.length_drop,
    show pos + n + (bytes.length - n) = pos + bytes.length by omega]
  · simp only [List.length_append, List.length_drop] at fuelEq ⊢
    omega
  · exact le_rfl

theorem Skims.feeds {bytes : Bytes} (skims : Skims pb fields bytes) (s : σ) : Feeds pb fields s bytes s := by
  induction skims with
  | nil => exact .nil s
  | unknown tag within absent rest ih =>
      refine .step within (fun length pos rest => ?_) ih
      simp only [decodeStep, tag, absent]
      exact ⟨_, rfl⟩
  | @idle bytes fieldNo n m type field tag within known read rest ih =>
      refine .step within (fun length pos rest => ?_) ih
      have behind : (bytes ++ rest).drop n = bytes.drop n ++ rest := List.drop_append_of_le_length (by omega)
      simp only [decodeStep, tag, known, behind, read]
      exact ⟨_, rfl⟩

end

/-! ## Two runs over the same bytes -/

/-- A reader looks at the front of its window only. -/
structure Protobuf.ReadsFront (pb : Protobuf) : Prop where
  fieldAndType : ∀ window fieldNo type n rest, pb.decodeFieldAndType window = .done fieldNo type n →
    pb.decodeFieldAndType (window ++ rest) = .done fieldNo type n
  lengthDelimited : ∀ window data n rest, pb.decodeLengthDelimited window = some (data, n) →
    pb.decodeLengthDelimited (window ++ rest) = some (data, n)

theorem Protobuf.standard_readsFront : Protobuf.standard.ReadsFront where
  fieldAndType window fieldNo type n rest read := by
    simp only [standard, readTag] at read ⊢
    cases key : Leb128.decode window with
    | none => simp [key] at read
    | some p => simpa only [key, Leb128.decode_append key] using read
  lengthDelimited window data n rest read := by
    simp only [standard, readBytes] at read ⊢
    cases length : Leb128.decode window with
    | none => simp [length] at read
    | some p =>
        have within := (Leb128.decode_bound length).2
        simp only [length, Option.ite_none_right_eq_some, Option.some.injEq, Prod.mk.injEq] at read
        obtain ⟨fits, rfl, rfl⟩ := read
        simp only [Leb128.decode_append length, List.length_append]
        rw [if_pos (by omega), List.drop_append_of_le_length within,
          List.take_append_of_le_length (by rw [List.length_drop]; omega)]

/-- A payload makes any two states alike, or is left aside in every state. -/
def Field.Merges (Merged : σ → σ → Prop) : Field σ → Prop
  | .lengthDelimited store | .uncheckedLengthDelimited store => ∀ data,
      (∀ s, store s data = .returned s) ∨
        ∀ s t s' t', store s data = .returned s' → store t data = .returned t' → Merged s' t'
  | .string store => ∀ s t text, Merged (store s text) (store t text)
  | .varint store | .rawVarint store => ∀ s t value, Merged (store s value) (store t value)

section
variable {pb : Protobuf} {fields : Nat → Option (Field σ)} {Merged : σ → σ → Prop}

theorem Field.Merges.read {field : Field σ} (merges : field.Merges Merged) (front : pb.ReadsFront)
    {s t s' t' : σ} {window : Bytes} {m k : Nat} (first : field.read pb s window = .returned (s', m))
    (second : field.read pb t window = .returned (t', k)) :
    m = k ∧ (Merged s' t' ∨
      s' = s ∧ t' = t ∧ ∀ s rest, field.read pb s (window ++ rest) = .returned (s, m)) := by
  rw [Field.read_eq_returned] at first second
  cases field with
  | lengthDelimited store | uncheckedLengthDelimited store =>
      obtain ⟨data, payload, stored⟩ := first
      obtain ⟨data', payload', stored'⟩ := second
      obtain ⟨rfl, rfl⟩ : data = data' ∧ m = k := by simpa using payload.symm.trans payload'
      refine ⟨rfl, ?_⟩
      rcases merges data with idle | merged
      · right
        obtain rfl := Outcome.returned.inj (stored.symm.trans (idle s))
        obtain rfl := Outcome.returned.inj (stored'.symm.trans (idle t))
        refine ⟨rfl, rfl, fun s rest => ?_⟩
        rw [Field.read_eq_returned]
        exact ⟨data, front.lengthDelimited window data m rest payload, idle s⟩
      · exact .inl (merged s t s' t' stored stored')
  | string store | varint store =>
      obtain ⟨value, payload, rfl⟩ := first
      obtain ⟨value', payload', rfl⟩ := second
      obtain ⟨rfl, rfl⟩ : value = value' ∧ m = k := by simpa using payload.symm.trans payload'
      exact ⟨rfl, .inl (merges s t value)⟩
  | rawVarint store =>
      obtain ⟨rfl, rfl⟩ := first
      obtain ⟨rfl, rfl⟩ := second
      exact ⟨rfl, .inl (merges s t _)⟩

/-- One field of the same bytes read in two states makes them alike, or is passed without storing. -/
theorem decodeStep_lockstep (front : pb.ReadsFront)
    (each : ∀ fieldNo field, fields fieldNo = some field → field.Merges Merged)
    {length length' pos pos' n n' : Nat} {bytes : Bytes} {s t s' t' : σ} {windows windows' : List Window}
    (step : decodeStep pb fields length pos bytes s = .next s' n windows)
    (step' : decodeStep pb fields length' pos' bytes t = .next t' n' windows') :
    n = n' ∧ (Merged s' t' ∨ s' = s ∧ t' = t ∧ (Skims pb fields (bytes.drop n) → Skims pb fields bytes)) := by
  have within := (decodeStep_consumed step).2
  obtain ⟨fieldNo, type, k, tag, action⟩ := decodeStep_next step
  obtain ⟨fieldNo', type', k', tag', action'⟩ := decodeStep_next step'
  obtain ⟨rfl, rfl, rfl⟩ : fieldNo = fieldNo' ∧ type = type' ∧ k = k' := by
    simpa using tag.symm.trans tag'
  have always (rest : Bytes) := front.fieldAndType bytes fieldNo type k rest tag
  rcases action with ⟨absent, rfl, rfl⟩ | ⟨field, m, known, read, rfl⟩
  · obtain ⟨rfl, rfl⟩ : t' = t ∧ n' = n := by simpa [absent] using action'
    exact ⟨rfl, .inr ⟨rfl, rfl, .unknown always within absent⟩⟩
  · obtain ⟨m', read', rfl⟩ : ∃ m', field.read pb t (bytes.drop k) = .returned (t', m') ∧ n' = k + m' := by
      simpa [known] using action'
    obtain ⟨rfl, merged | ⟨same, same', idle⟩⟩ := (each fieldNo field known).read front read read'
    · exact ⟨rfl, .inl merged⟩
    · exact ⟨rfl, .inr ⟨same, same', .idle always within known idle⟩⟩

theorem decodeLoop_lockstep (front : pb.ReadsFront)
    (each : ∀ fieldNo field, fields fieldNo = some field → field.Merges Merged)
    {length length' fuel pos pos' : Nat} {bytes : Bytes} {s t s' t' : σ} (enough : bytes.length ≤ fuel)
    (first : (decodeLoop pb fields length fuel pos bytes s).result = .returned s')
    (second : (decodeLoop pb fields length' fuel pos' bytes t).result = .returned t') :
    Merged s' t' ∨ (s' = s ∧ t' = t ∧ Skims pb fields bytes) := by
  induction fuel generalizing pos pos' bytes s t with
  | zero =>
      obtain rfl : bytes = [] := List.eq_nil_of_length_eq_zero (by omega)
      obtain rfl := Outcome.returned.inj first
      obtain rfl := Outcome.returned.inj second
      exact .inr ⟨rfl, rfl, .nil⟩
  | succ fuel ih =>
      by_cases empty : bytes = []
      · simp only [decodeLoop, empty, if_true, Outcome.returned.injEq] at first second
        exact .inr ⟨first.symm, second.symm, empty ▸ .nil⟩
      obtain ⟨s₁, n, windows, step, first'⟩ := decodeLoop_next empty first
      obtain ⟨t₁, n', windows', step', second'⟩ := decodeLoop_next empty second
      obtain ⟨rfl, made⟩ := decodeStep_lockstep front each step step'
      have consumed := decodeStep_consumed step
      have shorter : (bytes.drop n).length ≤ fuel := by
        rw [List.length_drop]
        omega
      rcases ih shorter first' second' with later | ⟨rfl, rfl, skims⟩
      · exact .inl later
      · rcases made with merged | ⟨rfl, rfl, passed⟩
        · exact .inl merged
        · exact .inr ⟨rfl, rfl, passed skims⟩

end

/-! ## Readers -/

/-- A decoder: the loop over its table of fields, and what is made of the state it ends in. -/
structure Reader (α : Type) where
  State : Type
  init : State
  fields : Nat → Option (Field State)
  finish : State → Outcome α
  -- an empty buffer may have a `return` of its own
  empty : Outcome α := finish init

namespace Reader

def decode (pb : Protobuf) (reader : Reader α) (buffer : Bytes) : Outcome α :=
  if buffer = [] then reader.empty
  else (decodeFields pb reader.fields buffer reader.init).result >>= reader.finish

/-- The fields are an encoding of the object. -/
def Writes (reader : Reader α) (wires : List WireField) (object : α) : Prop :=
  ∃ s, Encodes reader.fields reader.init wires s ∧ reader.finish s = .returned object ∧
    (wires = [] → reader.empty = .returned object)

/-- There are two messages whose objects are too far apart for any field to make them alike. -/
inductive Apart (reader : Reader α) : Prop
  | messages {Merged : reader.State → reader.State → Prop} {wires wires' : List WireField} {object object' : α}
      (merges : ∀ fieldNo field, reader.fields fieldNo = some field → field.Merges Merged)
      (writes : reader.Writes wires object) (writes' : reader.Writes wires' object')
      (apart : ∀ s s', reader.finish s = .returned object → reader.finish s' = .returned object' → ¬ Merged s s') :
      Apart reader

variable {pb : Protobuf} {reader : Reader α}

theorem decode_feeds {bytes : Bytes} {s : reader.State} (nonempty : bytes ≠ [])
    (feeds : Feeds pb reader.fields reader.init bytes s) : reader.decode pb bytes = reader.finish s := by
  rw [decode, if_neg nonempty, decodeFields_feeds feeds, Outcome.returned_bind]

theorem flatMap_bytes_eq_nil {wires : List WireField} : wires.flatMap WireField.bytes = [] ↔ wires = [] := by
  cases wires with
  | nil => simp
  | cons wire wires => simp [wire.bytes_ne_nil]

theorem Writes.decode_eq (pb : Protobuf) {wires : List WireField} {object : α} (writes : reader.Writes wires object) :
    reader.decode pb (wires.flatMap WireField.bytes) = .returned object := by
  obtain ⟨s, encodes, finished, empty⟩ := writes
  by_cases none : wires = []
  · subst none
    exact empty rfl
  · rw [decode_feeds (mt flatMap_bytes_eq_nil.mp none) (encodes.feeds pb), finished]

theorem keeps_of_skims {bytes : Bytes} (skims : Skims pb reader.fields bytes) (nonempty : bytes ≠ [])
    {before after : List WireField} {object : α} (writes : reader.Writes (before ++ after) object) :
    reader.decode pb (before.flatMap WireField.bytes ++ bytes ++ after.flatMap WireField.bytes) =
      .returned object := by
  obtain ⟨s, encodes, finished, _⟩ := writes
  obtain ⟨s', front, back⟩ := encodes.split
  have feeds := (front.feeds pb).append (skims.feeds s') |>.append (back.feeds pb)
  rw [decode_feeds (by simp [nonempty]) feeds, finished]

theorem skims_of_keeps (front : pb.ReadsFront) (apart : reader.Apart) {bytes : Bytes}
    (keeps : ∀ wires object, reader.Writes wires object →
      reader.decode pb (wires.flatMap WireField.bytes ++ bytes) = .returned object) (nonempty : bytes ≠ []) :
    Skims pb reader.fields bytes := by
  obtain ⟨merges, writes, writes', apart⟩ := apart
  have ends {wires : List WireField} {object : α} (writes : reader.Writes wires object) :
      ∃ s s' length pos, (decodeLoop pb reader.fields length bytes.length pos bytes s).result = .returned s' ∧
        reader.finish s' = .returned object := by
    have kept := keeps wires object writes
    obtain ⟨s, encodes, _⟩ := writes
    have run := encodes.feeds pb (wires.flatMap WireField.bytes ++ bytes).length 0 bytes
    rw [decode, if_neg (by simp [nonempty]), decodeFields, run] at kept
    obtain ⟨s', scanned, finished⟩ := Outcome.bind_eq_returned.mp kept
    exact ⟨s, s', _, _, scanned, finished⟩
  obtain ⟨s, r, length, pos, scanned, finished⟩ := ends writes
  obtain ⟨s', r', length', pos', scanned', finished'⟩ := ends writes'
  rcases decodeLoop_lockstep front merges le_rfl scanned scanned' with merged | ⟨_, _, skims⟩
  · exact absurd merged (apart r r' finished finished')
  · exact skims

theorem keeps_iff_skims (front : pb.ReadsFront) (apart : reader.Apart) {bytes : Bytes} (nonempty : bytes ≠ []) :
    (∀ before after object, reader.Writes (before ++ after) object →
      reader.decode pb (before.flatMap WireField.bytes ++ bytes ++ after.flatMap WireField.bytes) =
        reader.decode pb ((before ++ after).flatMap WireField.bytes)) ↔
      Skims pb reader.fields bytes := by
  constructor
  · intro keeps
    refine skims_of_keeps front apart (fun wires object writes => ?_) nonempty
    have kept := keeps wires [] object (by rwa [List.append_nil])
    rwa [List.flatMap_nil, List.append_nil, List.append_nil, writes.decode_eq pb] at kept
  · intro skims before after object writes
    rw [keeps_of_skims skims nonempty writes, writes.decode_eq pb]

end Reader
end Ipfs
