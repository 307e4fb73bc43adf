import Ipfs.Codec.Node
import Ipfs.Protobuf.Trace

/-!
# The links of a decoded node

A link field whose content does not decode leaves no link behind, and the node decodes all the same.
-/

namespace Ipfs
variable (pb : Protobuf)

def hashtableNodeKinds : Nat → Option PayloadKind
  | 1 | 2 => some .delimited
  | _ => none

/-- The contents of the link fields, in the order in which they stand in the buffer. -/
def linkPayloads (fields : List (Nat × Bytes)) : List Bytes := (fields.filter fun field => field.1 = 2).map Prod.snd

def linkFields (buffer : Bytes) : List Bytes := linkPayloads (fieldTrace pb hashtableNodeKinds buffer).1

def decodedLink (payload : Bytes) : Option NodeLink :=
  match nodeLinkProtobufDecode pb payload with
  | .returned link => some link
  | .failed | .fault _ => none

section
variable {pb}

theorem decodedLink_eq_some {payload : Bytes} {link : NodeLink} :
    decodedLink pb payload = some link ↔ nodeLinkProtobufDecode pb payload = .returned link := by
  rw [decodedLink]
  cases nodeLinkProtobufDecode pb payload <;> simp

theorem storeLink_links {s s' : HashtableNode} {payload : Bytes}
    (stored : (match nodeLinkProtobufDecode pb payload with
      | .returned link => .returned (hashtableNodeAddLink s link)
      | .failed => .returned s
      | .fault cause => .fault cause) = Outcome.returned s') :
    s'.links = s.links ++ (decodedLink pb payload).toList := by
  rw [decodedLink]
  cases decoded : nodeLinkProtobufDecode pb payload with
  | returned link =>
      rw [decoded] at stored
      obtain rfl := Outcome.returned.inj stored
      rfl
  | failed =>
      rw [decoded] at stored
      obtain rfl := Outcome.returned.inj stored
      simp
  | fault cause =>
      rw [decoded] at stored
      cases stored

theorem hashtableNodeKinds_unknown {fieldNo : Nat} (unknown : hashtableNodeFields pb fieldNo = none) :
    hashtableNodeKinds fieldNo = none := by
  match fieldNo, unknown with
  | 0, _ => rfl
  | _ + 3, _ => rfl

theorem linkPayloads_cons (fieldNo : Nat) (payload : Bytes) (fields : List (Nat × Bytes)) :
    linkPayloads ((fieldNo, payload) :: fields) = linkPayloads [(fieldNo, payload)] ++ linkPayloads fields := by
  simp only [linkPayloads, ← List.map_append, ← List.filter_append, List.singleton_append]

theorem hashtableNodeFields_links {fieldNo : Nat} {field : Field HashtableNode} {s s' : HashtableNode}
    {window : Bytes} {m : Nat} (known : hashtableNodeFields pb fieldNo = some field)
    (read : field.read pb s window = .returned (s', m)) :
    ∃ payload, hashtableNodeKinds fieldNo = some .delimited ∧
      pb.decodeLengthDelimited window = some (payload, m) ∧
      s'.links = s.links ++ (linkPayloads [(fieldNo, payload)]).filterMap (decodedLink pb) := by
  match fieldNo, known with
  | 1, rfl =>
      obtain ⟨payload, payloadRead, stored⟩ := Field.read_eq_returned.mp read
      obtain rfl := Outcome.returned.inj stored
      exact ⟨payload, rfl, payloadRead, by simp [linkPayloads]⟩
  | 2, rfl =>
      obtain ⟨payload, payloadRead, stored⟩ := Field.read_eq_returned.mp read
      refine ⟨payload, rfl, payloadRead, ?_⟩
      rw [storeLink_links stored]
      cases decoded : decodedLink pb payload <;> simp [linkPayloads, decoded]

theorem decodeLoop_links {length fuel pos : Nat} {rest : Bytes} {s node : HashtableNode}
    (done : (decodeLoop pb (hashtableNodeFields pb) length fuel pos rest s).result = .returned node) :
    node.links = s.links ++
      (linkPayloads (traceLoop pb hashtableNodeKinds fuel pos rest).1).filterMap (decodedLink pb) := by
  induction fuel generalizing pos rest s with
  | zero =>
      obtain rfl := Outcome.returned.inj done
      simp [traceLoop, linkPayloads]
  | succ fuel ih =>
      by_cases empty : rest = []
      · simp only [decodeLoop, empty, if_true, Outcome.returned.injEq] at done
        simp [traceLoop, empty, linkPayloads, done]
      · obtain ⟨s', n, windows, step, behind⟩ := decodeLoop_next empty done
        simp only [traceLoop, empty, if_false]
        have later := ih behind
        obtain ⟨fieldNo, type, k, tag, ⟨unknown, rfl, rfl⟩ | ⟨field, m, known, read, rfl⟩⟩ := decodeStep_next step
        · simp only [tag, hashtableNodeKinds_unknown unknown]
          exact later
        · obtain ⟨payload, delimited, payloadRead, links⟩ := hashtableNodeFields_links known read
          simp only [tag, delimited, payloadRead]
          rw [later, links, List.append_assoc, ← List.filterMap_append, ← linkPayloads_cons]

theorem hashtableNodeProtobufDecode_links {buffer : Bytes} {node : HashtableNode}
    (decoded : hashtableNodeProtobufDecode pb buffer = .returned node) :
    node.links = (linkFields pb buffer).filterMap (decodedLink pb) := by
  rw [hashtableNodeProtobufDecode] at decoded
  split at decoded
  · cases decoded
  · exact decodeLoop_links decoded

/-- Nothing is dropped when as many come out as went in. -/
theorem forall₂_filterMap_iff {α β : Type} {f : α → Option β} {items : List α} :
    List.Forall₂ (fun item result => f item = some result) items (items.filterMap f) ↔
      ∀ item ∈ items, (f item).isSome := by
  induction items with
  | nil => simp
  | cons item items ih =>
      cases result : f item with
      | some b => simp [result, ih]
      | none =>
          simp only [List.filterMap_cons_none result, List.mem_cons, forall_eq_or_imp, result, Option.isSome_none,
            Bool.false_eq_true, false_and, iff_false]
          intro related
          have length := related.length_eq
          have short := List.length_filterMap_le f items
          rw [List.length_cons] at length
          omega

end

end Ipfs
