import Ipfs.Importer.TreeLayout

/-!
# The metadata of a file

What the root of an imported file says about the file and about its chunks.
-/

namespace Ipfs
variable {lib : Library}

/-! ## The import of a file within the import of a tree -/

theorem importPersist_report (node : HashtableNode) (bytesWritten : Nat) (repo : FsRepo lib) :
    importPersist node repo = (do
      let added ← merkledagAddReport node bytesWritten
      pure added.node) repo := by
  rcases merkledagAddReport_run node bytesWritten repo with
    ⟨cause, repo', run, report⟩ | ⟨written, repo', run, report⟩ | ⟨node', written, repo', run, report⟩ <;>
    simp only [importPersist, Act.bind_apply, Act.attempt, run, report, Act.pure_apply]

section
variable {chunk : Bytes} (short : chunk.length ≤ maxDataSize) (done : List Bytes) (repo : FsRepo lib)
include short

theorem importLinkedNode_report :
    (∃ cause repo', importLinkedNode (chunkNode chunk).data (parentNode lib done) chunk.length repo =
        (.fault cause, repo') ∧
      importLinkedNodeWith lib merkledagAddReport (chunkNode chunk).data (parentNode lib done) chunk.length repo =
        (.fault cause, repo')) ∨
    (∃ repo', importLinkedNode (chunkNode chunk).data (parentNode lib done) chunk.length repo = (.failed, repo') ∧
      importLinkedNodeWith lib merkledagAddReport (chunkNode chunk).data (parentNode lib done) chunk.length repo =
        (.returned none, repo')) ∨
    ∃ repo', importLinkedNode (chunkNode chunk).data (parentNode lib done) chunk.length repo =
        (.returned (linkedNode lib (done ++ [chunk])), repo') ∧
      importLinkedNodeWith lib merkledagAddReport (chunkNode chunk).data (parentNode lib done) chunk.length repo =
        (.returned (some (linkedNode lib (done ++ [chunk]), nodeFileLength lib (chunkNode chunk))), repo') := by
  rcases merkledagAddReport_run (chunkNode chunk) 0 repo with
    ⟨cause, repo', run, report⟩ | ⟨written, repo', run, report⟩ | ⟨node', written, repo', run, report⟩
  · exact .inl ⟨cause, repo', Act.bind_fault run _, Act.bind_fault report _⟩
  · exact .inr (.inl ⟨repo', Act.bind_failed run _, Act.bind_returned report _⟩)
  · obtain ⟨rfl, rfl⟩ := merkledagAdd_value rfl (chunkNode_addable short) run
    refine .inr (.inr ⟨repo', (Act.bind_returned run _).trans ?_, (Act.bind_returned report _).trans ?_⟩)
    · exact congrArg (·, repo') (importerAddFilesizeToDataSection_parentNode done chunk)
    · rw [linkNewNode_added]
      rfl

theorem importChunk_report :
    (∃ cause repo', importChunk chunk (parentNode lib done) repo = (.fault cause, repo') ∧
      importChunkWith lib merkledagAddReport chunk (parentNode lib done) repo = (.fault cause, repo')) ∨
    ∃ part repo', importChunkWith lib merkledagAddReport chunk (parentNode lib done) repo = (.returned part, repo') ∧
      (part.bytesRead = maxDataSize → part.parentNode = parentNode lib (done ++ [chunk])) ∧
      (importChunk chunk (parentNode lib done) repo = (.failed, repo') ∧ part.bytesRead = 0 ∧
          part.parentNode = parentNode lib done ∨
        importChunk chunk (parentNode lib done) repo = (.returned part.parentNode, repo') ∧
          part.bytesRead = chunk.length) := by
  have unread : 0 ≠ maxDataSize := by decide
  rw [importChunk_eq short, importChunkWith_eq short, importProtobufWith]
  by_cases full : chunk.length = maxDataSize
  · rw [if_pos full, if_pos full]
    rcases importLinkedNode_report short done repo with
      ⟨cause, repo', run, report⟩ | ⟨repo', run, report⟩ | ⟨repo', run, report⟩
    · exact .inl ⟨cause, repo', run, by rw [Act.bind_apply, report]⟩
    · exact .inr ⟨_, repo', Act.bind_returned report _, fun read => absurd read unread, .inl ⟨run, rfl, rfl⟩⟩
    · exact .inr ⟨_, repo', Act.bind_returned report _, fun _ => by simp [parentNode], .inr ⟨run, rfl⟩⟩
  · rw [if_neg full, if_neg full]
    split
    · rw [importPersist_report _ (chunkNode chunk).data.length]
      rcases merkledagAddReport_run { parentNode lib done with data := (chunkNode chunk).data }
        (chunkNode chunk).data.length repo with
        ⟨cause, repo', _, report⟩ | ⟨written, repo', _, report⟩ | ⟨node', written, repo', _, report⟩
      · exact .inl ⟨cause, repo', Act.bind_fault report _, Act.bind_fault report _⟩
      · exact .inr ⟨_, repo', Act.bind_returned report _, fun read => absurd read full, .inr ⟨Act.bind_returned report _, rfl⟩⟩
      · exact .inr ⟨_, repo', Act.bind_returned report _, fun read => absurd read full, .inr ⟨Act.bind_returned report _, rfl⟩⟩
    · rcases importLinkedNode_report short done repo with
        ⟨cause, repo', run, report⟩ | ⟨repo', run, report⟩ | ⟨repo', run, report⟩
      · exact .inl ⟨cause, repo', Act.bind_fault run _, Act.bind_fault report _⟩
      · exact .inr ⟨_, repo', Act.bind_returned report _, fun read => absurd read unread,
          .inl ⟨Act.bind_failed run _, rfl, rfl⟩⟩
      · rw [Act.bind_returned run, importPersist_report _ (chunkNode chunk).data.length]
        rcases merkledagAddReport_run (linkedNode lib (done ++ [chunk])) (chunkNode chunk).data.length repo' with
          ⟨cause, repo₂, _, root⟩ | ⟨written, repo₂, _, root⟩ | ⟨node', written, repo₂, _, root⟩
        · exact .inl ⟨cause, repo₂, Act.bind_fault root _, (Act.bind_returned report _).trans (Act.bind_fault root _)⟩
        · exact .inr ⟨_, repo₂, (Act.bind_returned report _).trans (Act.bind_returned root _),
            fun read => absurd read full, .inr ⟨Act.bind_returned root _, rfl⟩⟩
        · exact .inr ⟨_, repo₂, (Act.bind_returned report _).trans (Act.bind_returned root _),
            fun read => absurd read full, .inr ⟨Act.bind_returned root _, rfl⟩⟩

end

theorem importChunks_report (fuel : Nat) (file : Bytes) (done : List Bytes) (bytesWritten : Nat) (repo : FsRepo lib) :
    (∃ cause repo', importChunks fuel file (parentNode lib done) repo = (.fault cause, repo') ∧
      importChunksWith lib merkledagAddReport fuel file (parentNode lib done) bytesWritten repo = (.fault cause, repo')) ∨
    ∃ imported repo', importChunks fuel file (parentNode lib done) repo = (.returned imported.1, repo') ∧
      importChunksWith lib merkledagAddReport fuel file (parentNode lib done) bytesWritten repo =
        (.returned imported, repo') := by
  induction fuel generalizing file done bytesWritten repo with
  | zero => exact .inr ⟨(parentNode lib done, bytesWritten), repo, rfl, rfl⟩
  | succ fuel ih =>
      have short : (file.take maxDataSize).length ≤ maxDataSize := List.length_take_le _ _
      have unread : 0 ≠ maxDataSize := by decide
      rw [importChunks, importChunksWith]
      rcases importChunk_report short done repo with
        ⟨cause, repo', run, report⟩ | ⟨part, repo', report, next, ⟨run, read, parent⟩ | ⟨run, read⟩⟩
      · have attempt : (importChunk (file.take maxDataSize) (parentNode lib done)).attempt repo = (.fault cause, repo') := by
          rw [Act.attempt, run]
        exact .inl ⟨cause, repo', Act.bind_fault attempt _, Act.bind_fault report _⟩
      · have attempt : (importChunk (file.take maxDataSize) (parentNode lib done)).attempt repo = (.returned none, repo') := by
          rw [Act.attempt, run]
        rw [Act.bind_returned attempt, Act.bind_returned report, if_neg (by rw [read]; exact unread), parent]
        exact .inr ⟨_, repo', rfl, rfl⟩
      · rw [Act.attempt_bind_returned run, Act.bind_returned report]
        by_cases full : (file.take maxDataSize).length = maxDataSize
        · rw [if_pos (read.trans full), next (read.trans full)]
          simp only [if_pos full]
          exact ih _ _ _ _
        · rw [if_neg (read.trans_ne full)]
          simp only [if_neg full]
          exact .inr ⟨_, repo', rfl, rfl⟩

theorem importTree_file (content : Bytes) (bytesWritten : Nat) (repo : FsRepo lib) :
    importFile content repo = (do
      let imported ← importTree lib (.file (some content)) bytesWritten
      pure imported.1) repo := by
  have start : parentNode lib [] = {} := if_pos rfl
  have same := importChunks_report (content.length / maxDataSize + 1) content [] bytesWritten repo
  rw [start] at same
  rw [importFile, importTree, importTreeWith]
  rcases same with ⟨cause, repo', run, report⟩ | ⟨imported, repo', run, report⟩
  · exact run.trans (Act.bind_fault report fun imported => pure imported.1).symm
  · exact run.trans (Act.bind_returned report fun imported => pure imported.1).symm

/-! ## What the root says -/

/-- The UnixFS object of the root of a file, given the adds that were made. -/
structure Describes (lib : Library) (content : Bytes) (calls : List AddCall) (root : HashtableNode) (unixFs : UnixFS) :
    Prop where
  type : unixFs.dataType = .file
  size : unixFs.fileSize.toNat = content.length
  small : content.length < maxDataSize → root.links = [] ∧ unixFs.bytes = content
  large : maxDataSize ≤ content.length → unixFs.bytes = [] ∧
    root.links.length = content.length / maxDataSize + 1 ∧ unixFs.blockSizes.length = root.links.length
  linked : maxDataSize ≤ content.length → ∀ (i : Nat) (link : NodeLink) (blockSize : UInt64), root.links[i]? = some link →
    unixFs.blockSizes[i]? = some blockSize → ∃ call chunk, calls[i]? = some call ∧ link.hash = nodeHash lib call.node ∧
      unixfsProtobufDecode lib.pb call.node.data = .returned chunk ∧ blockSize.toNat = chunk.bytes.length
  total : maxDataSize ≤ content.length → (unixFs.blockSizes.map UInt64.toNat).sum = unixFs.fileSize.toNat

theorem fileNodes_data {chunks : List Bytes} {i : Nat} {chunk : Bytes} (mem : chunks[i]? = some chunk) :
    ((fileNodes lib chunks).map (addCall lib))[i]? = some (addCall lib (chunkNode chunk)) := by
  obtain ⟨bound, rfl⟩ := List.getElem?_eq_some_iff.mp mem
  rw [fileNodes, List.map_append, List.getElem?_append_left (by simpa using bound), List.map_map]
  simp [bound]

theorem linkedNode_describes {content : Bytes} (sized : content.length < 2 ^ 63) (large : maxDataSize ≤ content.length)
    (hash : Option Bytes) :
    Describes lib content ((fileNodes lib (chunksOf content)).map (addCall lib))
      { linkedNode lib (chunksOf content) with hash } (linkedUnixFS (chunksOf content)) where
  type := rfl
  size := by
    rw [linkedUnixFS, chunksOf_flatten, UInt64.toNat_ofNat_of_lt' (lt_trans sized (by decide))]
  small small := absurd large (Nat.not_le.mpr small)
  large _ := ⟨rfl, (List.length_map _).trans (chunksOf_length content), by simp [linkedUnixFS, linkedNode]⟩
  linked _ i link blockSize linked size := by
    simp only [linkedNode, linkedUnixFS, List.getElem?_map, Option.map_eq_some_iff] at linked size
    obtain ⟨chunk, mem, rfl⟩ := linked
    obtain ⟨chunk', mem', rfl⟩ := size
    obtain rfl := Option.some.inj (mem.symm.trans mem')
    have short := chunksOf_length_le content chunk (List.mem_of_getElem? mem)
    have decoded := unixfsProtobufDecode_unixfsBytes lib.pb (chunkUnixFS chunk) trivial
    refine ⟨_, _, fileNodes_data mem, rfl, decoded, ?_⟩
    rw [UInt64.toNat_ofNat_of_lt' (lt_of_le_of_lt short (by decide))]
    rfl
  total _ := by
    have sizes : (linkedUnixFS (chunksOf content)).blockSizes.map UInt64.toNat = (chunksOf content).map List.length := by
      rw [linkedUnixFS, List.map_map]
      refine List.map_congr_left fun chunk mem => ?_
      exact UInt64.toNat_ofNat_of_lt' (lt_of_le_of_lt (chunksOf_length_le content chunk mem) (by decide))
    rw [sizes, ← List.length_flatten, linkedUnixFS, chunksOf_flatten, UInt64.toNat_ofNat_of_lt' (lt_trans sized (by decide))]

theorem chunkNode_describes {content : Bytes} (small : content.length < maxDataSize) (calls : List AddCall)
    (hash : Option Bytes) : Describes lib content calls { chunkNode content with hash } (chunkUnixFS content) where
  type := rfl
  size := UInt64.toNat_ofNat_of_lt' (lt_trans small (by decide))
  small _ := ⟨rfl, rfl⟩
  large large := absurd small (Nat.not_lt.mpr large)
  linked large := absurd small (Nat.not_lt.mpr large)
  total large := absurd small (Nat.not_lt.mpr large)

theorem chunksOf_small {content : Bytes} (small : content.length < maxDataSize) : chunksOf content = [content] := by
  have single : (chunksOf content).length = 1 := by rw [chunksOf_length, Nat.div_eq_of_lt small]
  obtain ⟨chunk, chunks⟩ := List.length_eq_one_iff.mp single
  have whole := chunksOf_flatten content
  rw [chunks, List.flatten_singleton] at whole
  rw [chunks, whole]

theorem importFile_describes (lib : Library) (repo repo' : FsRepo lib) (file : RegularFile)
    (result : Outcome (HashtableNode × Nat)) (calls : List AddCall)
    (ran : importLogged lib (.file (some file.content)) 0 (repo, []) = (result, repo', calls))
    (succeed : ∀ call ∈ calls, call.Succeeds) :
    ∃ root written unixFs, result = .returned (root, written) ∧
      unixfsProtobufDecode lib.pb root.data = .returned unixFs ∧ Describes lib file.content calls root unixFs := by
  obtain ⟨rfl, rfl⟩ := importFile_stores file.sized 0 repo [] result repo' calls ran
    (by rw [LocalFile.opens_content]; trivial) succeed
  by_cases small : file.content.length < maxDataSize
  · rw [chunksOf_small small]
    exact ⟨_, _, _, rfl, unixfsProtobufDecode_unixfsBytes lib.pb (chunkUnixFS file.content) trivial,
      chunkNode_describes small _ _⟩
  · have large : maxDataSize ≤ file.content.length := Nat.not_lt.mp small
    have many : (chunksOf file.content).length ≠ 1 := by
      have count := Nat.div_pos large (by decide)
      rw [chunksOf_length]
      omega
    rw [fileNode_of_ne many]
    exact ⟨_, _, _, rfl, unixfsProtobufDecode_unixfsBytes lib.pb (linkedUnixFS (chunksOf file.content)) trivial,
      linkedNode_describes file.sized large _⟩

def hiRoot : HashtableNode := { chunkNode hiFile.content with hash := some fileDigest.sha256 }

theorem importFile_describes_hi :
    ∃ root written unixFs, (.returned (hiRoot, 52) : Outcome (HashtableNode × Nat)) = .returned (root, written) ∧
      unixfsProtobufDecode (Library.known hiTable).pb root.data = .returned unixFs ∧
      Describes (.known hiTable) hiFile.content [⟨chunkNode hiFile.content, .returned 52⟩] root unixFs :=
  importFile_describes _ (.new hiTable) _ hiFile _ _ rfl (by simp [AddCall.Succeeds])

end Ipfs
