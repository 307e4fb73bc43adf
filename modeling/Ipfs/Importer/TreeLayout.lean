import Ipfs.Importer.RoundTrip
import Ipfs.Importer.Tree
import Ipfs.Store.AddGet

/-!
# What a directory becomes

The nodes of a tree in the order in which they are added, and what the import of a tree comes to by
the adds it makes: it crashes with the first add that does, it returns 0 when it meets a file that
does not open, and it returns the node of the tree when all adds succeed.
-/

namespace Ipfs
variable {lib : Library}

/-- The root of a file, unless it is the only chunk. -/
def fileRoot (lib : Library) : List Bytes → List HashtableNode
  | [_] => []
  | chunks => [linkedNode lib chunks]

def fileNodes (lib : Library) (chunks : List Bytes) : List HashtableNode :=
  chunks.map chunkNode ++ fileRoot lib chunks

def addCall (lib : Library) (node : HashtableNode) : AddCall := ⟨node, .returned (nodeFileLength lib node)⟩

def writtenLength (lib : Library) (nodes : List HashtableNode) : Nat := (nodes.map (nodeFileLength lib)).sum

def fileWritten (lib : Library) (content : Option Bytes) : Nat :=
  writtenLength lib (fileNodes lib (chunksOf (content.getD [])))

mutual

/-- What the import of the tree leaves in `bytes_written`. -/
def LocalFile.written (lib : Library) : LocalFile → Nat → Nat
  | .file content, bytesWritten => bytesWritten + fileWritten lib content
  | .directory entries, bytesWritten => entries.written lib bytesWritten

def FileList.written (lib : Library) : FileList → Nat → Nat
  | .nil, bytesWritten => bytesWritten
  | .cons _ file next, _ => next.written lib (file.written lib 0)

end

def directoryNode (links : List NodeLink) : HashtableNode :=
  { data := unixfsBytes { dataType := .directory }, links }

def entryLink (lib : Library) (fileName : CString) (node : HashtableNode) (written : Nat) : NodeLink :=
  { nodeLinkCreate (some fileName) (nodeHash lib node) with tSize := .ofNat written }

mutual

/-- The node that the tree is imported as, before it has its hash. -/
def LocalFile.node (lib : Library) : LocalFile → HashtableNode
  | .file content => fileNode lib (chunksOf (content.getD []))
  | .directory entries => directoryNode (entries.links lib)

def FileList.links (lib : Library) : FileList → List NodeLink
  | .nil => []
  | .cons fileName file next => entryLink lib fileName (file.node lib) (file.written lib 0) :: next.links lib

end

mutual

/-- The nodes that are added for the tree, itself last. -/
def LocalFile.nodes (lib : Library) : LocalFile → List HashtableNode
  | .file content => fileNodes lib (chunksOf (content.getD []))
  | .directory entries => entries.nodes lib ++ [LocalFile.node lib (.directory entries)]

def FileList.nodes (lib : Library) : FileList → List HashtableNode
  | .nil => []
  | .cons _ file next => file.nodes lib ++ next.nodes lib

end

mutual

/-- Every file of the tree can be opened. -/
def LocalFile.Opens : LocalFile → Prop
  | .file content => content.isSome
  | .directory entries => entries.Opens

def FileList.Opens : FileList → Prop
  | .nil => True
  | .cons _ file next => file.Opens ∧ next.Opens

end

mutual

/-- The length of a file is an `off_t`, and the size of a directory node does not wrap around a `size_t`. -/
def LocalFile.Sized (lib : Library) : LocalFile → Prop
  | .file content => (content.getD []).length < 2 ^ 63
  | .directory entries =>
      hashtableNodeProtobufEncodeSize (directoryNode (entries.links lib)) + 88 < 2 ^ 64 ∧ entries.Sized lib

def FileList.Sized (lib : Library) : FileList → Prop
  | .nil => True
  | .cons _ file next => file.Sized lib ∧ next.Sized lib

end

/-! ## How a part of an import ends -/

section
variable {α β : Type}

/-- A part of an import makes some adds and crashes with them; otherwise it returns when every file opens, and 0
when one does not. -/
def Ends (x : Act (FsRepo lib × List AddCall) α) (opens : Prop) (Value : α → Prop) : Prop :=
  ∀ repo log, ∃ result repo' new, x (repo, log) = (result, repo', log ++ new) ∧
    ((∃ call ∈ new, call.Crashes) ∧ (∃ cause, result = .fault cause) ∨
      (∀ call ∈ new, ¬ call.Crashes) ∧ (opens ∧ (∃ value, Value value ∧ result = .returned value) ∨
        ¬ opens ∧ result = .failed))

/-- When every file opens and every add succeeds, these are the adds and this is the value. -/
def Stores (x : Act (FsRepo lib × List AddCall) α) (opens : Prop) (calls : List AddCall) (value : α) : Prop :=
  ∀ repo log result repo' new, x (repo, log) = (result, repo', log ++ new) → opens →
    (∀ call ∈ new, call.Succeeds) → result = .returned value ∧ new = calls

theorem AddCall.Succeeds.not_crashes {call : AddCall} (succeeds : call.Succeeds) : ¬ call.Crashes := by
  rintro ⟨cause, crashed⟩
  obtain ⟨bytesWritten, returned⟩ := succeeds
  cases returned.symm.trans crashed

theorem Ends.pure {Value : α → Prop} {value : α} (holds : Value value) :
    Ends (Pure.pure value : Act (FsRepo lib × List AddCall) α) True Value :=
  fun repo log => ⟨_, repo, [], by rw [List.append_nil]; rfl,
    .inr ⟨fun _ mem => absurd mem List.not_mem_nil, .inl ⟨trivial, value, holds, rfl⟩⟩⟩

theorem Stores.pure (value : α) : Stores (Pure.pure value : Act (FsRepo lib × List AddCall) α) True [] value := by
  intro repo log result repo' new ran _ _
  obtain ⟨rfl, same⟩ := Prod.mk.inj ran
  obtain ⟨_, logs⟩ := Prod.mk.inj same
  exact ⟨rfl, List.self_eq_append_right.mp logs⟩

theorem Ends.failed {opens : Prop} {Value : α → Prop} (closed : ¬ opens) :
    Ends (Act.lift .failed : Act (FsRepo lib × List AddCall) α) opens Value :=
  fun repo log => ⟨_, repo, [], by rw [List.append_nil]; rfl,
    .inr ⟨fun _ mem => absurd mem List.not_mem_nil, .inr ⟨closed, rfl⟩⟩⟩

theorem Ends.imp {x : Act (FsRepo lib × List AddCall) α} {opens : Prop} {Value Value' : α → Prop}
    (ends : Ends x opens Value) (weaker : ∀ value, Value value → Value' value) : Ends x opens Value' := by
  intro repo log
  obtain ⟨result, repo', new, ran, crashed | ⟨running, ⟨opened, value, holds, rfl⟩ | refused⟩⟩ := ends repo log
  · exact ⟨_, _, _, ran, .inl crashed⟩
  · exact ⟨_, _, _, ran, .inr ⟨running, .inl ⟨opened, value, weaker value holds, rfl⟩⟩⟩
  · exact ⟨_, _, _, ran, .inr ⟨running, .inr refused⟩⟩

theorem Ends.opens {x : Act (FsRepo lib × List AddCall) α} {opens : Prop} {Value : α → Prop}
    (ends : Ends x opens Value) {state state' : FsRepo lib × List AddCall} {value : α}
    (ran : x state = (.returned value, state')) : opens := by
  obtain ⟨result, repo', new, ran', crashed | ⟨_, ⟨opened, _⟩ | ⟨_, rfl⟩⟩⟩ := ends state.1 state.2
  · obtain ⟨_, cause, rfl⟩ := crashed
    cases ran.symm.trans ran'
  · exact opened
  · cases ran.symm.trans ran'

section
variable {x : Act (FsRepo lib × List AddCall) α} {f : α → Act (FsRepo lib × List AddCall) β} {opens opens' : Prop}
  {Value : α → Prop} {Value' : β → Prop}

theorem Ends.bind (first : Ends x opens Value) (second : ∀ value, Value value → Ends (f value) opens' Value') :
    Ends (x >>= f) (opens ∧ opens') Value' := by
  intro repo log
  obtain ⟨result, repo₁, new, ran, crashed | ⟨running, ⟨opened, value, holds, rfl⟩ | ⟨closed, rfl⟩⟩⟩ := first repo log
  · obtain ⟨crash, cause, rfl⟩ := crashed
    exact ⟨_, _, new, by rw [Act.bind_apply, ran], .inl ⟨crash, cause, rfl⟩⟩
  · obtain ⟨result', repo₂, new', ran', ends⟩ := second value holds repo₁ (log ++ new)
    refine ⟨result', repo₂, new ++ new', by rw [Act.bind_returned ran, ran', List.append_assoc], ?_⟩
    rcases ends with ⟨⟨call, mem, crash⟩, fault⟩ | ⟨running', ends⟩
    · exact .inl ⟨⟨call, List.mem_append_right _ mem, crash⟩, fault⟩
    · refine .inr ⟨fun call mem => (List.mem_append.mp mem).elim (running call) (running' call), ?_⟩
      exact ends.imp (fun ⟨opened', ends⟩ => ⟨⟨opened, opened'⟩, ends⟩)
        fun ⟨closed, failed⟩ => ⟨fun both => closed both.2, failed⟩
  · exact ⟨_, _, new, by rw [Act.bind_apply, ran], .inr ⟨running, .inr ⟨fun both => closed both.1, rfl⟩⟩⟩

theorem Ends.andThen (first : Ends x True Value) (second : ∀ value, Value value → Ends (f value) opens' Value') :
    Ends (x >>= f) opens' Value' := by
  have ends := first.bind second
  rwa [true_and] at ends

theorem Stores.bind {calls calls' : List AddCall} {value : α} {value' : β} (first : Ends x opens Value)
    (stores : Stores x opens calls value) (second : ∀ value, Value value → Ends (f value) opens' fun _ => True)
    (next : Stores (f value) opens' calls' value') : Stores (x >>= f) (opens ∧ opens') (calls ++ calls') value' := by
  intro repo log result repo₂ new ran opened succeed
  obtain ⟨result₁, repo₁, new₁, ran₁, ends⟩ := first repo log
  have spec := stores repo log result₁ repo₁ new₁ ran₁ opened.1
  have returned (a : α) (holds : Value a) (same : result₁ = .returned a) :
      result = .returned value' ∧ new = calls ++ calls' := by
    subst same
    obtain ⟨result₂, repo₂', new₂, ran₂, _⟩ := second a holds repo₁ (log ++ new₁)
    rw [Act.bind_returned ran₁, ran₂, List.append_assoc] at ran
    obtain ⟨rfl, rest⟩ := Prod.mk.inj ran
    obtain ⟨rfl, logs⟩ := Prod.mk.inj rest
    obtain rfl := List.append_cancel_left logs
    obtain ⟨isValue, rfl⟩ := spec fun call mem => succeed call (List.mem_append_left _ mem)
    obtain rfl := Outcome.returned.inj isValue
    obtain ⟨rfl, rfl⟩ := next _ _ _ _ _ ran₂ opened.2 fun call mem => succeed call (List.mem_append_right _ mem)
    exact ⟨rfl, rfl⟩
  rcases ends with ⟨⟨call, mem, crash⟩, cause, rfl⟩ | ⟨_, ⟨_, a, holds, same⟩ | ⟨closed, _⟩⟩
  · rw [Act.bind_apply, ran₁] at ran
    obtain rfl := List.append_cancel_left (Prod.mk.inj (Prod.mk.inj ran).2).2
    exact absurd crash (succeed call mem).not_crashes
  · exact returned a holds same
  · exact absurd opened.1 closed

theorem Stores.andThen {calls calls' : List AddCall} {value : α} {value' : β} (first : Ends x True Value)
    (stores : Stores x True calls value) (second : ∀ value, Value value → Ends (f value) opens' fun _ => True)
    (next : Stores (f value) opens' calls' value') : Stores (x >>= f) opens' (calls ++ calls') value' := by
  have both := Stores.bind first stores second next
  rwa [true_and] at both

end
end

/-! ## One add -/

section
variable (node : HashtableNode) (bytesWritten : Nat)

theorem HashtableNode.key_of_unhashed {node : HashtableNode} (unhashed : node.hash = none) :
    node.key lib = nodeHash lib node := by
  rw [HashtableNode.key, unhashed]
  rfl

theorem HashtableNode.file_of_unhashed {node : HashtableNode} (unhashed : node.hash = none) :
    (node.file lib).length = nodeFileLength lib node := by
  rw [HashtableNode.file, HashtableNode.key_of_unhashed unhashed]
  rfl

theorem merkledagAddReport_run (repo : FsRepo lib) :
    (∃ cause repo', merkledagAdd node repo = (.fault cause, repo') ∧
      merkledagAddReport node bytesWritten repo = (.fault cause, repo')) ∨
    (∃ written repo', merkledagAdd node repo = (.failed, repo') ∧ merkledagAddReport node bytesWritten repo =
      (.returned ⟨false, (merkledagHash lib node).getD node, written⟩, repo')) ∨
    ∃ node' written repo', merkledagAdd node repo = (.returned (node', written), repo') ∧
      merkledagAddReport node bytesWritten repo = (.returned ⟨true, node', written⟩, repo') := by
  rw [merkledagAddReport]
  obtain ⟨result, repo'⟩ := merkledagAdd node repo
  cases result with
  | returned added => exact .inr (.inr ⟨added.1, added.2, repo', rfl, rfl⟩)
  | failed => exact .inr (.inl ⟨_, repo', rfl, rfl⟩)
  | fault cause => exact .inl ⟨cause, repo', rfl, rfl⟩

theorem addLogged_run (repo : FsRepo lib) (log : List AddCall) :
    (∃ cause repo', addLogged lib node bytesWritten (repo, log) =
      (.fault cause, repo', log ++ [⟨node, .fault cause⟩])) ∨
    (∃ added repo', addLogged lib node bytesWritten (repo, log) =
      (.returned added, repo', log ++ [⟨node, .failed⟩]) ∧ added.retVal = false) ∨
    ∃ node' written repo', merkledagAdd node repo = (.returned (node', written), repo') ∧
      addLogged lib node bytesWritten (repo, log) =
        (.returned ⟨true, node', written⟩, repo', log ++ [⟨node, .returned written⟩]) := by
  rw [addLogged, logged]
  rcases merkledagAddReport_run node bytesWritten repo with
    ⟨cause, repo', run, report⟩ | ⟨written, repo', run, report⟩ | ⟨node', written, repo', run, report⟩
  · exact .inl ⟨cause, repo', by rw [report]⟩
  · exact .inr (.inl ⟨_, repo', by rw [report]; rfl, rfl⟩)
  · exact .inr (.inr ⟨node', written, repo', run, by rw [report]; rfl⟩)

theorem merkledagAdd_value {node : HashtableNode} (unhashed : node.hash = none) (addable : node.Addable)
    {repo repo' : FsRepo lib} {node' : HashtableNode} {written : Nat}
    (added : merkledagAdd node repo = (.returned (node', written), repo')) :
    node' = { node with hash := some (nodeHash lib node) } ∧ written = nodeFileLength lib node := by
  obtain ⟨_, faults⟩ | ⟨datastore, result, _, ends, failed | ⟨returned, _⟩⟩ := merkledagAdd_ends addable repo
  · cases added.symm.trans faults
  · subst failed
    cases added.symm.trans ends
  · subst returned
    cases added.symm.trans ends
    exact ⟨by rw [HashtableNode.key_of_unhashed unhashed], HashtableNode.file_of_unhashed unhashed⟩

/-- A successful add of the node has given it its hash and counted its file. -/
def AddsNode (lib : Library) (node : HashtableNode) (added : Added) : Prop :=
  node.hash = none → node.Addable → added.retVal = true →
    added = ⟨true, { node with hash := some (nodeHash lib node) }, nodeFileLength lib node⟩

theorem addLogged_ends : Ends (addLogged lib node bytesWritten) True (AddsNode lib node) := by
  intro repo log
  rcases addLogged_run node bytesWritten repo log with
    ⟨cause, repo', ran⟩ | ⟨added, repo', ran, failed⟩ | ⟨node', written, repo', added, ran⟩
  · exact ⟨_, repo', _, ran, .inl ⟨⟨_, List.mem_singleton_self _, cause, rfl⟩, cause, rfl⟩⟩
  · refine ⟨_, repo', _, ran, .inr ⟨fun call mem => ?_, .inl ⟨trivial, added, fun _ _ succeeded => ?_, rfl⟩⟩⟩
    · obtain rfl := List.mem_singleton.mp mem
      rintro ⟨cause, crashed⟩
      cases crashed
    · rw [failed] at succeeded
      cases succeeded
  · refine ⟨_, repo', _, ran, .inr ⟨fun call mem => ?_, .inl ⟨trivial, _, fun unhashed addable _ => ?_, rfl⟩⟩⟩
    · obtain rfl := List.mem_singleton.mp mem
      rintro ⟨cause, crashed⟩
      cases crashed
    · obtain ⟨rfl, rfl⟩ := merkledagAdd_value unhashed addable added
      rfl

theorem addLogged_stores {node : HashtableNode} (unhashed : node.hash = none) (addable : node.Addable) :
    Stores (addLogged lib node bytesWritten) True [addCall lib node]
      ⟨true, { node with hash := some (nodeHash lib node) }, nodeFileLength lib node⟩ := by
  intro repo log result repo' new ran _ succeed
  have alone {call : AddCall} (logs : log ++ [call] = log ++ new) : new = [call] :=
    (List.append_cancel_left logs).symm
  rcases addLogged_run node bytesWritten repo log with
    ⟨cause, repo₁, ran₁⟩ | ⟨added, repo₁, ran₁, failed⟩ | ⟨node', written, repo₁, added, ran₁⟩
  · obtain rfl := alone (Prod.mk.inj (Prod.mk.inj (ran₁.symm.trans ran)).2).2
    obtain ⟨_, returned⟩ := succeed _ (List.mem_singleton_self _)
    cases returned
  · obtain rfl := alone (Prod.mk.inj (Prod.mk.inj (ran₁.symm.trans ran)).2).2
    obtain ⟨_, returned⟩ := succeed _ (List.mem_singleton_self _)
    cases returned
  · obtain ⟨rfl, rest⟩ := Prod.mk.inj (ran₁.symm.trans ran)
    obtain rfl := alone (Prod.mk.inj rest).2
    obtain ⟨rfl, rfl⟩ := merkledagAdd_value unhashed addable added
    exact ⟨rfl, rfl⟩

end
/-! ## A chunk -/

theorem linkedNode_addable {chunks : List Bytes} (shorts : ∀ chunk ∈ chunks, chunk.length ≤ maxDataSize)
    (bounded : chunks.length ≤ 2 ^ 50) : (linkedNode lib chunks).Addable where
  hashed := (linkedNode_saveable lib shorts bounded).hashed
  sized := by
    have size := linkedNode_size lib shorts
    have data := linkedNode_data_length_le lib shorts
    have none : ((linkedNode lib chunks).hash.getD []).length = 0 := rfl
    omega

theorem fileRoot_of_ne {chunks : List Bytes} (many : chunks.length ≠ 1) : fileRoot lib chunks = [linkedNode lib chunks] := by
  match chunks, many with
  | [], _ => rfl
  | [_], many => exact absurd rfl many
  | _ :: _ :: _, _ => rfl

section
variable {chunk : Bytes} (short : chunk.length ≤ maxDataSize) (done : List Bytes)

theorem linkNewNode_added {σ : Type} : (linkNewNode lib (parentNode lib done) chunk.length
    ⟨true, { chunkNode chunk with hash := some (nodeHash lib (chunkNode chunk)) }, nodeFileLength lib (chunkNode chunk)⟩ :
      Act σ _) = pure (some (linkedNode lib (done ++ [chunk]), nodeFileLength lib (chunkNode chunk))) := by
  have grown := @importerAddFilesizeToDataSection_parentNode lib done chunk
  simp only [linkNewNode, if_true, Option.getD_some]
  exact congrArg (fun parentNode => (Act.lift parentNode >>= _ : Act σ _)) grown

include short

theorem chunkNode_addable : (chunkNode chunk).Addable where
  hashed := (chunkNode_saveable short).hashed
  sized := by
    have size := chunkNode_size_le short
    have none : ((chunkNode chunk).hash.getD []).length = 0 := rfl
    rw [maxDataSize] at size
    omega

theorem linkNewNode_ends {added : Added} (adds : AddsNode lib (chunkNode chunk) added) :
    Ends (linkNewNode lib (parentNode lib done) chunk.length added : Act (FsRepo lib × List AddCall) _) True
      fun result => ∀ linked, result = some linked →
        linked = (linkedNode lib (done ++ [chunk]), nodeFileLength lib (chunkNode chunk)) := by
  by_cases succeeded : added.retVal = true
  · rw [adds rfl (chunkNode_addable short) succeeded, linkNewNode_added]
    exact Ends.pure fun linked same => (Option.some.inj same).symm
  · rw [linkNewNode, if_neg succeeded]
    exact Ends.pure fun linked same => absurd same (Option.some_ne_none linked).symm

theorem importLinkedNodeWith_ends :
    Ends (importLinkedNodeWith lib (addLogged lib) (chunkNode chunk).data (parentNode lib done) chunk.length) True
      fun result => ∀ linked, result = some linked →
        linked = (linkedNode lib (done ++ [chunk]), nodeFileLength lib (chunkNode chunk)) :=
  (addLogged_ends (chunkNode chunk) 0).andThen fun _ adds => linkNewNode_ends short done adds

theorem importLinkedNodeWith_stores :
    Stores (importLinkedNodeWith lib (addLogged lib) (chunkNode chunk).data (parentNode lib done) chunk.length) True
      [addCall lib (chunkNode chunk)]
      (some (linkedNode lib (done ++ [chunk]), nodeFileLength lib (chunkNode chunk))) := by
  have added : Stores (addLogged lib (chunkNode chunk) 0) True _ _ := addLogged_stores 0 rfl (chunkNode_addable short)
  refine Stores.andThen (addLogged_ends _ _) added
    (fun _ adds => (linkNewNode_ends short done adds).imp fun _ _ => trivial) ?_
  rw [linkNewNode_added]
  exact Stores.pure _

theorem importProtobufWith_ends :
    Ends (importProtobufWith lib (addLogged lib) (chunkNode chunk).data (parentNode lib done) chunk.length) True
      fun part => part.bytesRead = maxDataSize → part.parentNode = parentNode lib (done ++ [chunk]) := by
  have linked := @importLinkedNodeWith_ends lib _ short done
  have unread : 0 ≠ maxDataSize := by decide
  rw [importProtobufWith]
  by_cases full : chunk.length = maxDataSize
  · rw [if_pos full]
    refine linked.andThen fun result holds => ?_
    cases result with
    | none => exact Ends.pure fun read => absurd read unread
    | some result =>
        obtain rfl := holds _ rfl
        exact Ends.pure fun _ => by simp [parentNode]
  · rw [if_neg full]
    split
    · exact (addLogged_ends _ _).andThen fun _ _ => Ends.pure fun read => absurd read full
    · refine linked.andThen fun result _ => ?_
      cases result with
      | none => exact Ends.pure fun read => absurd read unread
      | some result => exact (addLogged_ends _ _).andThen fun _ _ => Ends.pure fun read => absurd read full

theorem importProtobufWith_full (full : chunk.length = maxDataSize) :
    Stores (importProtobufWith lib (addLogged lib) (chunkNode chunk).data (parentNode lib done) chunk.length) True
      [addCall lib (chunkNode chunk)]
      ⟨maxDataSize, parentNode lib (done ++ [chunk]), nodeFileLength lib (chunkNode chunk)⟩ := by
  have value : parentNode lib (done ++ [chunk]) = linkedNode lib (done ++ [chunk]) := by simp [parentNode]
  rw [importProtobufWith, if_pos full, value]
  refine Stores.andThen (importLinkedNodeWith_ends short done) (importLinkedNodeWith_stores short done)
    (fun result _ => ?_) ?_
  · cases result <;> exact Ends.pure trivial
  · rw [full]
    exact Stores.pure _

theorem importProtobufWith_last (last : chunk.length ≠ maxDataSize)
    (shorts : ∀ chunk ∈ done, chunk.length ≤ maxDataSize) (bounded : (done ++ [chunk]).length ≤ 2 ^ 50) :
    Stores (importProtobufWith lib (addLogged lib) (chunkNode chunk).data (parentNode lib done) chunk.length) True
      ((chunkNode chunk :: fileRoot lib (done ++ [chunk])).map (addCall lib))
      ⟨chunk.length, { fileNode lib (done ++ [chunk]) with hash := some (nodeHash lib (fileNode lib (done ++ [chunk]))) },
        writtenLength lib (chunkNode chunk :: fileRoot lib (done ++ [chunk]))⟩ := by
  rw [importProtobufWith, if_neg last]
  by_cases only : done = []
  · have added : Stores (addLogged lib (chunkNode chunk) (chunkNode chunk).data.length) True _ _ :=
      addLogged_stores _ rfl (chunkNode_addable short)
    have start : parentNode lib [] = {} := if_pos rfl
    have node : fileNode lib ([] ++ [chunk]) = chunkNode chunk := rfl
    have root : fileRoot lib ([] ++ [chunk]) = [] := rfl
    have sum : writtenLength lib [chunkNode chunk] = nodeFileLength lib (chunkNode chunk) := by simp [writtenLength]
    subst only
    rw [start, if_pos rfl, node, root, sum]
    exact Stores.andThen (addLogged_ends _ _) added (fun _ _ => Ends.pure trivial) (Stores.pure _)
  · have many : (done ++ [chunk]).length ≠ 1 := by simpa using only
    have root : Stores (addLogged lib (linkedNode lib (done ++ [chunk])) (chunkNode chunk).data.length) True _ _ :=
      addLogged_stores _ rfl (linkedNode_addable (short_concat shorts short) bounded)
    have sum : writtenLength lib [chunkNode chunk, linkedNode lib (done ++ [chunk])] =
        nodeFileLength lib (linkedNode lib (done ++ [chunk])) + nodeFileLength lib (chunkNode chunk) := by
      simp [writtenLength, Nat.add_comm]
    rw [if_neg (by simpa [parentNode_links] using only), fileNode_of_ne many, fileRoot_of_ne many, sum]
    refine Stores.andThen (importLinkedNodeWith_ends short done) (importLinkedNodeWith_stores short done)
      (fun result _ => ?_) ?_
    · cases result with
      | none => exact Ends.pure trivial
      | some result => exact (addLogged_ends _ _).andThen fun _ _ => Ends.pure trivial
    · exact Stores.andThen (addLogged_ends _ _) root (fun _ _ => Ends.pure trivial) (Stores.pure _)

theorem importChunkWith_eq {σ : Type} (add : HashtableNode → Nat → Act σ Added) (parentNode : HashtableNode) :
    importChunkWith lib add chunk parentNode =
      importProtobufWith lib add (chunkNode chunk).data parentNode chunk.length := by
  funext s
  exact Act.attempt_bind_returned (congrArg (·, s) (unixfsProtobufEncode_chunk short)) _

end

/-! ## A file -/

theorem importChunksWith_ends (fuel : Nat) (file : Bytes) (done : List Bytes) (bytesWritten : Nat) :
    Ends (importChunksWith lib (addLogged lib) fuel file (parentNode lib done) bytesWritten) True fun _ => True := by
  induction fuel generalizing file done bytesWritten with
  | zero => exact Ends.pure trivial
  | succ fuel ih =>
      have short : (file.take maxDataSize).length ≤ maxDataSize := List.length_take_le _ _
      rw [importChunksWith, importChunkWith_eq short]
      refine (importProtobufWith_ends short done).andThen fun part read => ?_
      split
      · next full =>
          rw [read full]
          exact ih _ _ _
      · exact Ends.pure trivial

theorem importChunksWith_stores (fuel : Nat) (file : Bytes) (enough : file.length / maxDataSize < fuel)
    (done : List Bytes) (bytesWritten : Nat) (shorts : ∀ chunk ∈ done, chunk.length ≤ maxDataSize)
    (bounded : (done ++ fileChunks fuel file).length ≤ 2 ^ 50) :
    Stores (importChunksWith lib (addLogged lib) fuel file (parentNode lib done) bytesWritten) True
      (((fileChunks fuel file).map chunkNode ++ fileRoot lib (done ++ fileChunks fuel file)).map (addCall lib))
      ({ fileNode lib (done ++ fileChunks fuel file) with
          hash := some (nodeHash lib (fileNode lib (done ++ fileChunks fuel file))) },
        bytesWritten +
          writtenLength lib ((fileChunks fuel file).map chunkNode ++ fileRoot lib (done ++ fileChunks fuel file))) := by
  induction fuel generalizing file done bytesWritten with
  | zero => exact absurd enough (Nat.not_lt_zero _)
  | succ fuel ih =>
      have short : (file.take maxDataSize).length ≤ maxDataSize := List.length_take_le _ _
      have second (part : ImportedChunk)
          (read : part.bytesRead = maxDataSize → part.parentNode = parentNode lib (done ++ [file.take maxDataSize])) :
          Ends (if part.bytesRead = maxDataSize then importChunksWith lib (addLogged lib) fuel (file.drop maxDataSize)
            part.parentNode (bytesWritten + part.written) else pure (part.parentNode, bytesWritten + part.written))
            True fun _ => True := by
        split
        · next full =>
            rw [read full]
            exact importChunksWith_ends _ _ _ _
        · exact Ends.pure trivial
      rw [importChunksWith, importChunkWith_eq short]
      by_cases full : (file.take maxDataSize).length = maxDataSize
      · have chunks : fileChunks (fuel + 1) file = file.take maxDataSize :: fileChunks fuel (file.drop maxDataSize) := by
          rw [fileChunks, if_pos full]
        have rest : (file.drop maxDataSize).length / maxDataSize < fuel := chunks_drop_lt (long_of_full full) enough
        rw [chunks, List.append_cons] at bounded ⊢
        have stores := Stores.andThen (importProtobufWith_ends short done) (importProtobufWith_full short done full)
          second (by
            rw [if_pos rfl]
            exact ih _ rest _ _ (short_concat shorts short) bounded)
        simpa [writtenLength, Nat.add_assoc] using stores
      · have chunks : fileChunks (fuel + 1) file = [file.take maxDataSize] := by
          rw [fileChunks, if_neg full]
        rw [chunks] at bounded ⊢
        have stores := Stores.andThen (importProtobufWith_ends short done)
          (importProtobufWith_last short done full shorts bounded) second (by
            rw [if_neg full]
            exact Stores.pure _)
        rwa [List.append_nil] at stores

theorem LocalFile.opens_content (content : Bytes) : LocalFile.Opens (.file (some content)) = True := by
  simp [LocalFile.Opens]

theorem importFile_ends (content : Bytes) (bytesWritten : Nat) :
    Ends (importTreeWith lib (addLogged lib) true (.file (some content)) bytesWritten)
      (LocalFile.Opens (.file (some content))) fun _ => True := by
  have ends := @importChunksWith_ends lib (content.length / maxDataSize + 1) content [] bytesWritten
  have start : parentNode lib [] = {} := if_pos rfl
  rw [start] at ends
  rw [LocalFile.opens_content]
  exact ends

theorem importFile_stores {content : Bytes} (sized : content.length < 2 ^ 63) (bytesWritten : Nat) :
    Stores (importTreeWith lib (addLogged lib) true (.file (some content)) bytesWritten)
      (LocalFile.Opens (.file (some content)))
      ((fileNodes lib (chunksOf content)).map (addCall lib))
      ({ fileNode lib (chunksOf content) with hash := some (nodeHash lib (fileNode lib (chunksOf content))) },
        bytesWritten + fileWritten lib (some content)) := by
  have stores := @importChunksWith_stores lib (content.length / maxDataSize + 1) content (Nat.lt_succ_self _) []
    bytesWritten (by simp) (chunksOf_bounded sized)
  have start : parentNode lib [] = {} := if_pos rfl
  rw [start] at stores
  rw [LocalFile.opens_content]
  exact stores

/-! ## A tree -/

theorem hashtableNodeCreateDirectory_eq (pb : Protobuf) :
    hashtableNodeCreateDirectory pb = .returned (directoryNode []) := by
  have encode := unixfsProtobufEncode_eq pb { dataType := .directory } _
    (unixfsBytes_length_le { dataType := .directory } trivial (by decide))
  rw [hashtableNodeCreateDirectory]
  exact congrArg (· >>= _) encode

mutual

theorem importTree_ends : ∀ (tree : LocalFile) (bytesWritten : Nat),
    Ends (importTreeWith lib (addLogged lib) true tree bytesWritten) tree.Opens fun _ => True
  | .file none, _ => Ends.failed nofun
  | .file (some content), bytesWritten => importFile_ends content bytesWritten
  | .directory entries, bytesWritten => by
      have saved (parentNode : HashtableNode) (bytesWritten : Nat) :
          Ends (addLogged lib parentNode 0 >>= fun added => pure (added.node, bytesWritten)) True fun _ => True :=
        (addLogged_ends _ _).andThen fun _ _ => Ends.pure trivial
      rw [importTreeWith, hashtableNodeCreateDirectory_eq]
      have ends := (importEntries_ends entries (directoryNode []) bytesWritten).bind fun result _ => saved result.1 result.2
      rw [and_true] at ends
      exact ends

theorem importEntries_ends : ∀ (entries : FileList) (parentNode : HashtableNode) (bytesWritten : Nat),
    Ends (importEntriesWith lib (addLogged lib) true entries parentNode bytesWritten) entries.Opens fun _ => True
  | .nil, _, _ => Ends.pure trivial
  | .cons _ file next, _, _ => (importTree_ends file 0).bind fun _ _ => importEntries_ends next _ _

end

theorem entryLink_hashed (fileName : CString) (node : HashtableNode) (written : Nat) :
    (entryLink lib fileName node written).Hashed := by
  have hash : (entryLink lib fileName node written).hash.length = 32 := nodeHash_length _
  constructor <;> omega

theorem FileList.links_hashed : ∀ (entries : FileList), ∀ link ∈ entries.links lib, link.Hashed
  | .nil, _, mem => absurd mem List.not_mem_nil
  | .cons fileName file next, link, mem => by
      rw [links, List.mem_cons] at mem
      rcases mem with rfl | later
      · exact entryLink_hashed _ _ _
      · exact next.links_hashed link later

theorem directoryNode_addable {entries : FileList}
    (sized : hashtableNodeProtobufEncodeSize (directoryNode (entries.links lib)) + 88 < 2 ^ 64) :
    (directoryNode (entries.links lib)).Addable :=
  ⟨entries.links_hashed, sized⟩

mutual

theorem importTree_stores : ∀ (tree : LocalFile) (bytesWritten : Nat), tree.Sized lib →
    Stores (importTreeWith lib (addLogged lib) true tree bytesWritten) tree.Opens
      ((tree.nodes lib).map (addCall lib))
      ({ tree.node lib with hash := some (nodeHash lib (tree.node lib)) }, tree.written lib bytesWritten)
  | .file none, _, _ => by
      rintro repo log result repo' new _ opens
      simp [LocalFile.Opens] at opens
  | .file (some content), bytesWritten, sized => by
      rw [LocalFile.Sized] at sized
      rw [LocalFile.nodes, LocalFile.node, LocalFile.written]
      exact importFile_stores sized bytesWritten
  | .directory entries, bytesWritten, sized => by
      rw [LocalFile.Sized] at sized
      have added : Stores (addLogged lib (directoryNode (entries.links lib)) 0) True _ _ :=
        addLogged_stores 0 rfl (directoryNode_addable sized.1)
      have second (result : HashtableNode × Nat) (_ : True) :
          Ends (addLogged lib result.1 0 >>= fun added => pure (added.node, result.2)) True fun _ => True :=
        (addLogged_ends _ _).andThen fun _ _ => Ends.pure trivial
      have saved := Stores.andThen (addLogged_ends _ _) added
        (fun added _ => @Ends.pure lib _ (fun _ => True) (added.node, entries.written lib bytesWritten) trivial)
        (Stores.pure _)
      rw [importTreeWith, hashtableNodeCreateDirectory_eq, LocalFile.nodes, LocalFile.node, LocalFile.written,
        List.map_append]
      have stores := (Stores.bind (importEntries_ends entries (directoryNode []) bytesWritten)
        (importEntries_stores entries (directoryNode []) bytesWritten sized.2) second saved)
      rw [and_true] at stores
      exact stores

theorem importEntries_stores : ∀ (entries : FileList) (parentNode : HashtableNode) (bytesWritten : Nat),
    entries.Sized lib → Stores (importEntriesWith lib (addLogged lib) true entries parentNode bytesWritten) entries.Opens
      ((entries.nodes lib).map (addCall lib))
      ({ parentNode with links := parentNode.links ++ entries.links lib }, entries.written lib bytesWritten)
  | .nil, parentNode, bytesWritten, _ => by
      rw [FileList.links, List.append_nil]
      exact Stores.pure _
  | .cons fileName file next, parentNode, bytesWritten, sized => by
      rw [FileList.Sized] at sized
      rw [FileList.nodes, FileList.written, FileList.links, List.map_append, List.append_cons]
      refine Stores.bind (importTree_ends file 0) (importTree_stores file 0 sized.1)
        (fun _ _ => importEntries_ends next _ _) ?_
      exact importEntries_stores next _ _ sized.2

end

end Ipfs
