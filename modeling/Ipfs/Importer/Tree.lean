import Ipfs.Importer.Importer

/-!
# Import of a directory

`ipfs_import_file` calls itself for every entry of a directory, links to the nodes that come back and
adds the directory last. What it counts in `bytes_written` becomes the size of the link.
-/

namespace Ipfs

mutual

/-- What a path leads to; a file that `fopen` refuses has no content. -/
inductive LocalFile
  | file (content : Option Bytes)
  | directory (entries : FileList)

inductive FileList
  | nil
  | cons (fileName : CString) (file : LocalFile) (next : FileList)

end

/-- The return value of `ipfs_merkledag_add`, and its node and `bytes_written` afterwards. -/
structure Added where
  retVal : Bool
  node : HashtableNode
  bytesWritten : Nat

section
variable {lib : Library}

/-- What the call leaves in `bytes_written`: the result of `fwrite`, when it comes to that. -/
def merkledagAddWritten (node : HashtableNode) (bytesWritten : Nat) (repo : FsRepo lib) : Nat :=
  match (do
      let node ← merkledagHash lib node
      let block ← merkledagConvertNodeToBlock lib node
      blocksBlockProtobufEncode lib.pb block (blocksBlockProtobufEncodeSize block)) with
  | some protobuf => ((repo.disk.headD .complete).kept protobuf).length
  | none => bytesWritten

def merkledagAddReport (node : HashtableNode) (bytesWritten : Nat) : Act (FsRepo lib) Added := fun repo =>
  match merkledagAdd node repo with
  | (.returned (node, bytesWritten), repo') => (.returned ⟨true, node, bytesWritten⟩, repo')
  | (.failed, repo') =>
      (.returned ⟨false, (merkledagHash lib node).getD node, merkledagAddWritten node bytesWritten repo⟩, repo')
  | (.fault cause, repo') => (.fault cause, repo')

end

/-- `ipfs_import_chunk`: the bytes read, 0 when it fails, its `parent_node` and its `bytes_written`. -/
structure ImportedChunk where
  bytesRead : Nat
  parentNode : HashtableNode
  written : Nat

section
variable (lib : Library) {σ : Type} (add : HashtableNode → Nat → Act σ Added)

/-- The link to a chunk that was added, put in the parent node. -/
def linkNewNode (lib : Library) (parentNode : HashtableNode) (bytesRead : Nat) (added : Added) :
    Act σ (Option (HashtableNode × Nat)) :=
  if added.retVal then do
    let newLink := { nodeLinkCreate none (added.node.hash.getD []) with tSize := .ofNat added.bytesWritten }
    let parentNode ← .lift (importerAddFilesizeToDataSection lib.pb (hashtableNodeAddLink parentNode newLink) bytesRead)
    pure (some (parentNode, added.bytesWritten))
  else pure none

def importLinkedNodeWith (protobuf : Bytes) (parentNode : HashtableNode) (bytesRead : Nat) :
    Act σ (Option (HashtableNode × Nat)) := do
  let added ← add { data := protobuf } 0
  linkNewNode lib parentNode bytesRead added

/-- The chunk as the bytes of its UnixFS object. -/
def importProtobufWith (protobuf : Bytes) (parentNode : HashtableNode) (bytesRead : Nat) : Act σ ImportedChunk := do
  if bytesRead = maxDataSize then do
    match ← importLinkedNodeWith lib add protobuf parentNode bytesRead with
    | none => pure ⟨0, parentNode, protobuf.length⟩
    | some (parentNode, sizeOfNode) => pure ⟨bytesRead, parentNode, sizeOfNode⟩
  else if parentNode.links = [] then do
    -- the result of the add is not looked at
    let added ← add { parentNode with data := protobuf } protobuf.length
    pure ⟨bytesRead, added.node, added.bytesWritten⟩
  else do
    match ← importLinkedNodeWith lib add protobuf parentNode bytesRead with
    | none => pure ⟨0, parentNode, protobuf.length⟩
    | some (parentNode, sizeOfNode) =>
        let added ← add parentNode protobuf.length
        pure ⟨bytesRead, added.node, added.bytesWritten + sizeOfNode⟩

def importChunkWith (buffer : Bytes) (parentNode : HashtableNode) : Act σ ImportedChunk := do
  let newUnixfs := unixfsAddData lib buffer { dataType := .file, fileSize := .ofNat buffer.length }
  match ← (Act.lift (unixfsProtobufEncode lib.pb newUnixfs (unixfsProtobufEncodeSize newUnixfs))).attempt with
  | none => pure ⟨0, parentNode, 0⟩
  | some protobuf => importProtobufWith lib add protobuf parentNode buffer.length

def importChunksWith : Nat → Bytes → HashtableNode → Nat → Act σ (HashtableNode × Nat)
  | 0, _, parentNode, bytesWritten => pure (parentNode, bytesWritten)
  | fuel + 1, file, parentNode, bytesWritten => do
      let chunk ← importChunkWith lib add (file.take maxDataSize) parentNode
      if chunk.bytesRead = maxDataSize then
        importChunksWith fuel (file.drop maxDataSize) chunk.parentNode (bytesWritten + chunk.written)
      else pure (chunk.parentNode, bytesWritten + chunk.written)

variable (recursive : Bool)

mutual

/-- `ipfs_import_file`, from the `bytes_written` of its caller, without the calls to `Provide` at its end. -/
def importTreeWith : LocalFile → Nat → Act σ (HashtableNode × Nat)
  | .file none, _ => .lift .failed
  | .file (some content), bytesWritten =>
      importChunksWith lib add (content.length / maxDataSize + 1) content {} bytesWritten
  | .directory entries, bytesWritten => do
      let parentNode ← .lift (hashtableNodeCreateDirectory lib.pb)
      let (parentNode, bytesWritten) ←
        (if recursive then importEntriesWith entries parentNode bytesWritten else pure (parentNode, bytesWritten))
      -- the directory is counted in a variable of its own, and the result of the add is not looked at
      let added ← add parentNode 0
      pure (added.node, bytesWritten)

def importEntriesWith : FileList → HashtableNode → Nat → Act σ (HashtableNode × Nat)
  | .nil, parentNode, bytesWritten => pure (parentNode, bytesWritten)
  | .cons fileName file next, parentNode, _ => do
      let (fileNode, bytesWritten) ← importTreeWith file 0
      let fileNodeLink := { nodeLinkCreate (some fileName) (fileNode.hash.getD []) with tSize := .ofNat bytesWritten }
      importEntriesWith next (hashtableNodeAddLink parentNode fileNodeLink) bytesWritten

end

end

def importTree (lib : Library) : LocalFile → Nat → Act (FsRepo lib) (HashtableNode × Nat) :=
  importTreeWith lib merkledagAddReport true

/-! ## The adds of an import -/

/-- An add that was made, and how it ended. -/
structure AddCall where
  node : HashtableNode
  result : Outcome Nat

def AddCall.Succeeds (call : AddCall) : Prop := ∃ bytesWritten, call.result = .returned bytesWritten

def AddCall.Crashes (call : AddCall) : Prop := ∃ cause, call.result = .fault cause

section
variable {lib : Library} {σ : Type}

/-- The add, with a record of the calls beside its state. -/
def logged (add : HashtableNode → Nat → Act σ Added) (node : HashtableNode) (bytesWritten : Nat) :
    Act (σ × List AddCall) Added := fun (s, log) =>
  match add node bytesWritten s with
  | (.returned added, s') =>
      (.returned added, s', log ++ [⟨node, if added.retVal then .returned added.bytesWritten else .failed⟩])
  | (.failed, s') => (.failed, s', log ++ [⟨node, .failed⟩])
  | (.fault cause, s') => (.fault cause, s', log ++ [⟨node, .fault cause⟩])

def addLogged (lib : Library) : HashtableNode → Nat → Act (FsRepo lib × List AddCall) Added := logged merkledagAddReport

def importLogged (lib : Library) : LocalFile → Nat → Act (FsRepo lib × List AddCall) (HashtableNode × Nat) :=
  importTreeWith lib (addLogged lib) true

theorem logged_erases (add : HashtableNode → Nat → Act σ Added) (node : HashtableNode) (bytesWritten : Nat) :
    Act.Erases (logged add node bytesWritten) (add node bytesWritten) := by
  intro s log
  rw [logged]
  match add node bytesWritten s with
  | (.returned added, s') => exact ⟨rfl, rfl⟩
  | (.failed, s') => exact ⟨rfl, rfl⟩
  | (.fault cause, s') => exact ⟨rfl, rfl⟩

end

/-! ### What holds of an import when it holds of its adds -/

section
variable {lib : Library} {σ τ : Type} {R : ∀ {α : Type}, Act σ α → Act τ α → Prop} (congruence : Act.Congruence R)
  {add : HashtableNode → Nat → Act σ Added} {add' : HashtableNode → Nat → Act τ Added}
  (adds : ∀ node bytesWritten, R (add node bytesWritten) (add' node bytesWritten))

section
include congruence adds

theorem importLinkedNodeWith_related (protobuf : Bytes) (parentNode : HashtableNode) (bytesRead : Nat) :
    R (importLinkedNodeWith lib add protobuf parentNode bytesRead)
      (importLinkedNodeWith lib add' protobuf parentNode bytesRead) := by
  refine congruence.bind (adds _ _) fun added => ?_
  rw [linkNewNode, linkNewNode]
  split
  · exact congruence.bind (congruence.lift _) fun _ => congruence.pure _
  · exact congruence.pure _

theorem importProtobufWith_related (protobuf : Bytes) (parentNode : HashtableNode) (bytesRead : Nat) :
    R (importProtobufWith lib add protobuf parentNode bytesRead)
      (importProtobufWith lib add' protobuf parentNode bytesRead) := by
  have linked : R (importLinkedNodeWith lib add protobuf parentNode bytesRead)
      (importLinkedNodeWith lib add' protobuf parentNode bytesRead) :=
    importLinkedNodeWith_related congruence adds protobuf parentNode bytesRead
  rw [importProtobufWith, importProtobufWith]
  split
  · refine congruence.bind linked fun result => ?_
    cases result <;> exact congruence.pure _
  · split
    · exact congruence.bind (adds _ _) fun _ => congruence.pure _
    · refine congruence.bind linked fun result => ?_
      cases result with
      | none => exact congruence.pure _
      | some result => exact congruence.bind (adds _ _) fun _ => congruence.pure _

theorem importChunkWith_related (buffer : Bytes) (parentNode : HashtableNode) :
    R (importChunkWith lib add buffer parentNode) (importChunkWith lib add' buffer parentNode) := by
  refine congruence.bind (congruence.attempt (congruence.lift _)) fun protobuf => ?_
  cases protobuf with
  | none => exact congruence.pure _
  | some protobuf => exact importProtobufWith_related congruence adds _ _ _

theorem importChunksWith_related (fuel : Nat) (file : Bytes) (parentNode : HashtableNode) (bytesWritten : Nat) :
    R (importChunksWith lib add fuel file parentNode bytesWritten)
      (importChunksWith lib add' fuel file parentNode bytesWritten) := by
  induction fuel generalizing file parentNode bytesWritten with
  | zero => exact congruence.pure _
  | succ fuel ih =>
      refine congruence.bind (importChunkWith_related congruence adds _ _) fun chunk => ?_
      split
      · exact ih _ _ _
      · exact congruence.pure _

end

mutual

theorem importTreeWith_related (congruence : Act.Congruence R)
    (adds : ∀ node bytesWritten, R (add node bytesWritten) (add' node bytesWritten)) (recursive : Bool) :
    ∀ (tree : LocalFile) (bytesWritten : Nat),
      R (importTreeWith lib add recursive tree bytesWritten) (importTreeWith lib add' recursive tree bytesWritten)
  | .file none, _ => congruence.lift _
  | .file (some _), _ => importChunksWith_related congruence adds _ _ _ _
  | .directory entries, bytesWritten => by
      refine congruence.bind (congruence.lift _) fun parentNode => ?_
      refine congruence.bind ?_ fun result => congruence.bind (adds _ _) fun _ => congruence.pure _
      split
      · exact importEntriesWith_related congruence adds recursive entries parentNode bytesWritten
      · exact congruence.pure _

theorem importEntriesWith_related (congruence : Act.Congruence R)
    (adds : ∀ node bytesWritten, R (add node bytesWritten) (add' node bytesWritten)) (recursive : Bool) :
    ∀ (entries : FileList) (parentNode : HashtableNode) (bytesWritten : Nat),
      R (importEntriesWith lib add recursive entries parentNode bytesWritten)
        (importEntriesWith lib add' recursive entries parentNode bytesWritten)
  | .nil, _, _ => congruence.pure _
  | .cons _ file next, _, _ => congruence.bind (importTreeWith_related congruence adds recursive file 0) fun _ =>
      importEntriesWith_related congruence adds recursive next _ _

end

end

theorem importLogged_erases (lib : Library) (tree : LocalFile) (bytesWritten : Nat) :
    Act.Erases (importLogged lib tree bytesWritten) (importTree lib tree bytesWritten) :=
  importTreeWith_related (Act.Erases.congruence _ _) (logged_erases merkledagAddReport) true tree bytesWritten

end Ipfs
