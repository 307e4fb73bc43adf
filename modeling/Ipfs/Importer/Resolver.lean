import Ipfs.Importer.Exporter

/-!
# Path resolution

Strings are given without their terminator.
-/

namespace Ipfs
variable {lib : Library}

def slash : UInt8 := 0x2f

def resolverNextPath (path : Bytes) : Option Bytes :=
  match path.dropWhile (· = slash) with
  | [] => none
  | first :: rest =>
      -- the last section is copied from the start of the path
      if slash ∈ rest then some (first :: rest.takeWhile (· ≠ slash)) else some path

def schemes : List Bytes := [[0x69, 0x70, 0x66, 0x73], [0x69, 0x70, 0x6e, 0x73]]

/-- The loop of `ipfs_resolver_remove_path_prefix`; `first` until the first character that is no slash. -/
def removePathPrefix (peerId : Bytes) (first : Bool) (path : Bytes) : Outcome Bytes :=
  match path with
  | [] => if peerId = [] then .fault .outOfBounds else .returned []
  | c :: rest =>
      if c = slash then removePathPrefix peerId first rest
      else if first ∧ ∃ scheme ∈ schemes, scheme <+: c :: rest then
        removePathPrefix peerId false (rest.drop 3)
      else if peerId <+: c :: rest then
        -- a path that ends with the id is read behind its terminator
        if rest.length < peerId.length then .fault .outOfBounds
        else removePathPrefix peerId false (rest.drop peerId.length)
      else .returned (c :: rest)
  termination_by path.length
  decreasing_by all_goals simp only [List.length_drop, List.length_cons]; omega

def resolverRemovePathPrefix (peerId path : Bytes) : Outcome Bytes := removePathPrefix peerId true path

def resolverIsRemote (peerId path : Bytes) : Bool :=
  let path := path.dropWhile (· = slash)
  if ∃ scheme ∈ schemes, scheme ++ [slash] <+: path then
    let path := path.drop 5
    path.take 2 = [0x51, 0x6d] ∧ ¬ peerId <+: path
  else false

def findLink (name : Bytes) : List NodeLink → Outcome NodeLink
  | [] => .failed
  | link :: links => do
      let linkName ← .access .nullPointer link.name
      if linkName.bytes = name then pure link else findLink name links

def directoryLink (pb : Protobuf) (node : HashtableNode) (name : Bytes) : Outcome NodeLink := do
  if ← hashtableNodeIsDirectory pb node then findLink name node.links else .failed

/-- `ipfs_resolver_get` on a node, up to the call of itself: the next node, and the path to go on with. -/
def resolverStep (repo : FsRepo lib) (path : Bytes) (node : HashtableNode) :
    Outcome (HashtableNode × Option Bytes) := do
  let pathSection ← .ofOption (resolverNextPath path)
  let link ← directoryLink lib.pb node pathSection
  let currentNode ← merkledagGet repo link.hash
  if pathSection.length = path.length then pure (currentNode, none)
  else
    -- `next_path_section` has no value when there is no next path
    let nextPathSection ← .access .unassigned (resolverNextPath (path.drop pathSection.length))
    pure (currentNode, some nextPathSection)

theorem resolverNextPath_length {path part : Bytes} (next : resolverNextPath path = some part) :
    0 < part.length ∧ part.length ≤ path.length := by
  have stripped := (List.dropWhile_sublist (l := path) (· = slash)).length_le
  rw [resolverNextPath] at next
  cases kept : path.dropWhile (· = slash) with
  | nil => simp [kept] at next
  | cons first rest =>
      have taken := (List.takeWhile_sublist (l := rest) (· ≠ slash)).length_le
      rw [kept, List.length_cons] at stripped
      simp only [kept] at next
      split at next
      · obtain rfl := Option.some.inj next
        simp only [List.length_cons]
        omega
      · obtain rfl := Option.some.inj next
        omega

theorem resolverStep_shorter {repo : FsRepo lib} {path rest : Bytes} {node currentNode : HashtableNode}
    (step : resolverStep repo path node = .returned (currentNode, some rest)) : rest.length < path.length := by
  simp only [resolverStep, Outcome.bind_eq_returned, Outcome.ofOption_eq_returned] at step
  obtain ⟨pathSection, next, link, _, current, _, step⟩ := step
  split at step
  · simp at step
  · obtain ⟨part, next', step⟩ := Outcome.bind_eq_returned.mp step
    obtain ⟨-, rfl⟩ : current = currentNode ∧ part = rest := by simpa using step
    have first := resolverNextPath_length next
    have second := resolverNextPath_length (Outcome.access_eq_returned.mp next')
    rw [List.length_drop] at second
    omega

def resolverGetFrom (repo : FsRepo lib) (path : Bytes) (node : HashtableNode) : Outcome HashtableNode :=
  match _step : resolverStep repo path node with
  | .returned (currentNode, none) => .returned currentNode
  | .returned (currentNode, some rest) => resolverGetFrom repo rest currentNode
  | .failed => .failed
  | .fault cause => .fault cause
  termination_by path.length
  decreasing_by exact resolverStep_shorter _step

theorem resolverGetFrom_eq (repo : FsRepo lib) (path : Bytes) (node : HashtableNode) :
    resolverGetFrom repo path node = resolverStep repo path node >>= fun step =>
      match step.2 with
      | none => .returned step.1
      | some rest => resolverGetFrom repo rest step.1 := by
  rw [resolverGetFrom]
  split <;> simp [*]

/-- `ipfs_resolver_get` without a node to start from. -/
def resolverGet (repo : FsRepo lib) (peerId : Bytes) (remoteGet : Bytes → Outcome HashtableNode)
    (path : Bytes) : Outcome HashtableNode :=
  if resolverIsRemote peerId path then remoteGet path
  else do
    let path ← resolverRemovePathPrefix peerId path
    let pathSection ← .ofOption (resolverNextPath path)
    if pathSection.take 2 = [0x51, 0x6d] then do
      let hash ← .ofOption (lib.crypto.base58Decode pathSection)
      let currentNode ← merkledagGetByMultihash repo hash
      if pathSection.length = path.length then pure currentNode
      else resolverGetFrom repo (path.drop (pathSection.length + 1)) currentNode
    else .failed

end Ipfs
