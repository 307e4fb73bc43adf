import Ipfs.Store.Merkledag

/-!
# Import of a file

The file is read in chunks. A full chunk becomes a node of its own and a link of the root; a chunk
that is not full ends the file and becomes the root itself when there are no links yet.
-/

namespace Ipfs
variable {lib : Library}

def maxDataSize : Nat := 262144

def unixfsAddData (lib : Library) (data : Bytes) (unixFs : UnixFS) : UnixFS :=
  { unixFs with bytes := data, hash := lib.crypto.sha256 data }

def importerDataSection (pb : Protobuf) (data : Bytes) : Outcome UnixFS :=
  if data = [] then .returned { dataType := .file } else unixfsProtobufDecoded pb data

def importerAddFilesizeToDataSection (pb : Protobuf) (node : HashtableNode) (bytesRead : Nat) :
    Outcome HashtableNode := do
  let dataSection ← importerDataSection pb node.data
  let dataSection := unixfsAddBlocksize (.ofNat bytesRead) dataSection
  let dataSection := { dataSection with fileSize := dataSection.fileSize + .ofNat bytesRead }
  let protobuf ← unixfsProtobufEncode pb dataSection (unixfsProtobufEncodeSize dataSection)
  pure { node with data := protobuf }

def importLinkedNode (protobuf : Bytes) (parentNode : HashtableNode) (bytesRead : Nat) :
    Act (FsRepo lib) HashtableNode := do
  let (newNode, sizeOfNode) ← merkledagAdd { data := protobuf }
  let newLink := { nodeLinkCreate none (newNode.hash.getD []) with tSize := .ofNat sizeOfNode }
  .lift (importerAddFilesizeToDataSection lib.pb (hashtableNodeAddLink parentNode newLink) bytesRead)

def importPersist (parentNode : HashtableNode) : Act (FsRepo lib) HashtableNode := do
  match ← (merkledagAdd parentNode).attempt with
  | some (parentNode, _) => pure parentNode
  | none => pure ((merkledagHash lib parentNode).getD parentNode)

def importChunk (buffer : Bytes) (parentNode : HashtableNode) : Act (FsRepo lib) HashtableNode := do
  let newUnixfs := unixfsAddData lib buffer { dataType := .file, fileSize := .ofNat buffer.length }
  let protobuf ← .lift (unixfsProtobufEncode lib.pb newUnixfs (unixfsProtobufEncodeSize newUnixfs))
  if buffer.length = maxDataSize then importLinkedNode protobuf parentNode buffer.length
  else if parentNode.links = [] then importPersist { parentNode with data := protobuf }
  else do
    let parentNode ← importLinkedNode protobuf parentNode buffer.length
    importPersist parentNode

/-- At most this many chunks; a chunk that fails ends the loop like one that is not full. -/
def importChunks : Nat → Bytes → HashtableNode → Act (FsRepo lib) HashtableNode
  | 0, _, parentNode => pure parentNode
  | fuel + 1, file, parentNode => do
      let buffer := file.take maxDataSize
      match ← (importChunk buffer parentNode).attempt with
      | none => pure parentNode
      | some parentNode =>
          if buffer.length = maxDataSize then importChunks fuel (file.drop maxDataSize) parentNode
          else pure parentNode

/-- `ipfs_import_file` on a regular file. Every full chunk takes an iteration, and one more ends the file. -/
def importFile (file : Bytes) : Act (FsRepo lib) HashtableNode :=
  importChunks (file.length / maxDataSize + 1) file {}

end Ipfs
