import Ipfs.Store.Merkledag

/-!
# Export of a file

Both exports fetch nodes through the routing. `ipfs_exporter_to_filestream` writes the root or the
nodes it links to; `ipfs_exporter_cat_node` writes a node and then everything below it.
-/

namespace Ipfs
variable {lib : Library}

/-- `malloc` of a `size_t` that went through an `int`; a negative size is never allocated. -/
def intAllocation (size : Nat) : Option Nat :=
  if size % 2 ^ 32 < 2 ^ 31 then some (size % 2 ^ 32) else none

/-- `ipfs_routing_generic_get_value` of a node that is not a client of an API. -/
def routingGenericGetValue (repo : FsRepo lib) (key : Bytes) : Outcome Bytes := do
  let node ← merkledagGet repo key
  let protobufSize ← .ofOption (intAllocation (hashtableNodeProtobufEncodeSize node))
  .ofOption (hashtableNodeProtobufEncode lib.pb lib.mh node protobufSize)

def exporterGetNode (repo : FsRepo lib) (hash : Bytes) : Outcome HashtableNode := do
  let buffer ← routingGenericGetValue repo hash
  let node ← hashtableNodeProtobufDecode lib.pb buffer
  pure { node with hash := some hash }

def cidDecodeHashFromBase58 (lib : Library) (incoming : Bytes) : Outcome Cid :=
  if incoming.length < 2 then .failed
  else if incoming.length = 46 ∧ incoming.take 2 = [0x51, 0x6d] then do
    let hash ← .ofOption (lib.crypto.base58Decode incoming)
    if hash.length < 2 then .fault .outOfBounds else pure (cidNew 0 (hash.drop 2) cidDagProtobuf)
  else .failed

/-- `fwrite` to the output. -/
def emit (bytes : Bytes) : Act Bytes Unit := fun output => (.returned (), output ++ bytes)

def exporterWriteNode (pb : Protobuf) (node : HashtableNode) : Act Bytes Unit := do
  let unixFs ← .lift (unixfsProtobufDecoded pb node.data)
  emit unixFs.bytes

def exporterWriteLinks (repo : FsRepo lib) : List NodeLink → Act Bytes Unit
  | [] => pure ()
  | link :: links => do
      let linkNode ← .lift (exporterGetNode repo link.hash)
      exporterWriteNode lib.pb linkNode
      exporterWriteLinks repo links

def exporterToFilestream (repo : FsRepo lib) (hash : Bytes) : Act Bytes Unit := do
  let cid ← .lift (cidDecodeHashFromBase58 lib hash)
  let readNode ← .lift (exporterGetNode repo cid.hash)
  match readNode.links with
  | [] => exporterWriteNode lib.pb readNode
  | links => exporterWriteLinks repo links

mutual

/-- The recursion is as deep as the stack allows. -/
def exporterCatNode (repo : FsRepo lib) : Nat → HashtableNode → Act Bytes Unit
  | 0, _ => .lift (.fault .outOfBounds)
  | depth + 1, node => do
      let unixFs ← .lift (unixfsProtobufDecode lib.pb node.data)
      emit unixFs.bytes
      exporterCatLinks repo depth node.links
  termination_by depth _ => (depth, 0)

def exporterCatLinks (repo : FsRepo lib) : Nat → List NodeLink → Act Bytes Unit
  | _, [] => pure ()
  | depth, link :: links => do
      let childNode ← .lift (exporterGetNode repo link.hash)
      -- the return value of the child is not looked at
      let _ ← (exporterCatNode repo depth childNode).attempt
      exporterCatLinks repo depth links
  termination_by depth links => (depth, links.length + 1)

end

def exporterObjectCatToFile (repo : FsRepo lib) (depth : Nat) (hash : Bytes) : Act Bytes Unit := do
  let readNode ← .lift (exporterGetNode repo hash)
  exporterCatNode repo depth readNode

end Ipfs
