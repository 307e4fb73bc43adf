import Ipfs.Lib.Json
import Ipfs.Path.Split

/-!
# The names of flat files

A key is kept in a file of its own name, in a directory that is named by the first 16 characters of it. All names
are made in buffers of one length. `os_utils_filepath_join`, and which directories can be created, are given.
-/

namespace Ipfs.Flatfs
open Conversion Ipfs.Path

variable (join : Bytes → Bytes → Nat → Option Bytes)

/-- A string and its terminator in a buffer. -/
def fill (room : Nat) (text : Bytes) : Outcome Bytes :=
  if text.length < room then .returned text else .fault .outOfBounds

/-- The loop that counts the slashes, in an `int`. -/
def skipSlashes (pos : Int) : Bytes → Outcome Int
  | [] => .returned pos
  | c :: text =>
      if c = slash then do
        let pos ← intAdd pos 1
        skipSlashes pos text
      else .returned pos

def removePreceedingSlash (text : Bytes) (maxSize : Nat) : Outcome Bytes :=
  if maxSize < text.length + 1 then .failed
  else do
    let pos ← skipSlashes 0 text
    fill maxSize (text.drop pos.toNat)

def underscore : UInt8 := 0x5f

def getDirectory (datastorePath proposedFilename : Bytes) (maxDerivedPathLength : Nat) : Outcome Bytes :=
  if maxDerivedPathLength < datastorePath.length + 17 then .failed
  else do
    let buffer ← removePreceedingSlash proposedFilename maxDerivedPathLength
    -- make it 16 characters
    let buffer ←
      if buffer.length < 16 then
        fill maxDerivedPathLength (buffer ++ List.replicate (16 - buffer.length) underscore)
      else .returned buffer
    -- it may be too long, cut it
    let buffer := if 16 < buffer.length then buffer.take 16 else buffer
    Outcome.ofOption (join datastorePath buffer maxDerivedPathLength)

def getFilename (proposedFilename : Bytes) (maxDerivedFilenameLength : Nat) : Outcome Bytes := do
  let buffer ← removePreceedingSlash proposedFilename maxDerivedFilenameLength
  if maxDerivedFilenameLength < buffer.length + 6 then .failed
  else do
    let buffer ← fill maxDerivedFilenameLength (buffer ++ ascii ".data")
    fill maxDerivedFilenameLength buffer

def getFullFilename (datastorePath proposedFilename : Bytes) (maxDerivedFilenameLength : Nat) : Outcome Bytes := do
  let _ ← removePreceedingSlash proposedFilename maxDerivedFilenameLength
  let directory ← getDirectory join datastorePath proposedFilename maxDerivedFilenameLength
  let actualFilename ← getFilename proposedFilename maxDerivedFilenameLength
  Outcome.ofOption (join directory actualFilename maxDerivedFilenameLength)

/-- What `ipfs_flatfs_put` allows for: the subdirectory is 16, 2 slashes, .data suffix, terminating null. -/
def putLength (datastorePath key : Bytes) : Nat := datastorePath.length + key.length + 24

/-- `ipfs_flatfs_put` on the files by their names. It reports success when one byte was written, or none. -/
def put (makes : Bytes → Bool) (datastorePath key bytes : Bytes) (files : Bytes → Option Bytes) :
    Outcome (Bool × (Bytes → Option Bytes)) := do
  let directory ← getDirectory join datastorePath key (putLength datastorePath key)
  if !makes directory then .failed
  else do
    let fullFilename ← getFullFilename join datastorePath key (putLength datastorePath key)
    let tempFilename ← fill (putLength datastorePath key + 5) (fullFilename ++ ascii ".tmp")
    let files := Function.update files tempFilename (some bytes)
    -- rename temp file to real name
    let files := Function.update (Function.update files tempFilename none) fullFilename (some bytes)
    -- `fwrite` counts items, and there is one of all bytes
    return (min bytes.length 1 = bytes.length, files)

/-! ## What is promised -/

/-- It joins with one slash, and fails only when the result does not fit. -/
def JoinsWithSlash : Prop :=
  ∀ root extension : Bytes, ∀ room, root.getLast? ≠ some slash → extension.head? ≠ some slash →
    root.length + extension.length + 1 < room → join root extension room = some (root ++ slash :: extension)

/-- A key without its leading slashes. -/
def stripped (key : Bytes) : Bytes := key.dropWhile (· = slash)

def leadingSlashes (key : Bytes) : Nat := (key.takeWhile (· = slash)).length

def directoryName (name : Bytes) : Bytes := (name ++ List.replicate 16 underscore).take 16

def fullName (datastorePath key : Bytes) : Bytes :=
  datastorePath ++ slash :: (directoryName (stripped key) ++ slash :: (stripped key ++ ascii ".data"))

/-- At least one character after the leading slashes, and no other slash. -/
structure FlatKey (key : Bytes) : Prop where
  nonempty : stripped key ≠ []
  flat : slash ∉ stripped key

def NamesFile (datastorePath key : Bytes) : Prop :=
  getFullFilename join datastorePath key (putLength datastorePath key) = .returned (fullName datastorePath key)

/-! ## The helpers -/

variable {join}

theorem fill_of_lt {room : Nat} {text : Bytes} (fits : text.length < room) : fill room text = .returned text := if_pos fits

theorem skipSlashes_eq {pos : Nat} (below : pos < 2 ^ 31) (text : Bytes) : skipSlashes pos text =
    if pos + leadingSlashes text < 2 ^ 31 then .returned ((pos + leadingSlashes text : Nat) : Int) else .fault .overflow := by
  induction text generalizing pos with
  | nil =>
      rw [skipSlashes, leadingSlashes, List.takeWhile_nil, List.length_nil, Nat.add_zero, if_pos below]
  | cons c text ih =>
      rw [skipSlashes]
      by_cases same : c = slash
      · have count : leadingSlashes (c :: text) = leadingSlashes text + 1 := by
          rw [leadingSlashes, List.takeWhile_cons_of_pos (by simpa using same), List.length_cons, leadingSlashes]
        rw [if_pos same, intAdd_one, count]
        by_cases next : pos + 1 < 2 ^ 31
        · rw [if_pos next, Outcome.returned_bind, ih next, Nat.add_right_comm, Nat.add_assoc]
        · rw [if_neg next, if_neg (by omega)]
          rfl
      · have count : leadingSlashes (c :: text) = 0 := by
          rw [leadingSlashes, List.takeWhile_cons_of_neg (by simpa using same), List.length_nil]
        rw [if_neg same, count, Nat.add_zero, if_pos below]

theorem drop_leadingSlashes (text : Bytes) : text.drop (leadingSlashes text) = stripped text :=
  calc text.drop (leadingSlashes text)
      = (text.takeWhile (· = slash) ++ stripped text).drop (leadingSlashes text) := by
        rw [stripped, List.takeWhile_append_dropWhile]
    _ = stripped text := List.drop_left

theorem length_stripped_le (text : Bytes) : (stripped text).length ≤ text.length :=
  (List.dropWhile_suffix _).length_le

theorem removePreceedingSlash_eq {text : Bytes} {maxSize : Nat} (enough : text.length < maxSize) :
    removePreceedingSlash text maxSize =
      if leadingSlashes text < 2 ^ 31 then .returned (stripped text) else .fault .overflow := by
  have counted := skipSlashes_eq (show 0 < 2 ^ 31 by omega) text
  have length := length_stripped_le text
  rw [removePreceedingSlash, if_neg (by omega)]
  rw [Nat.cast_zero, Nat.zero_add] at counted
  rw [counted]
  by_cases few : leadingSlashes text < 2 ^ 31
  · rw [if_pos few, if_pos few, Outcome.returned_bind, Int.toNat_natCast, drop_leadingSlashes, fill_of_lt (by omega)]
  · rw [if_neg few, if_neg few]
    rfl

theorem length_directoryName (name : Bytes) : (directoryName name).length = 16 := by
  rw [directoryName, List.length_take, List.length_append, List.length_replicate]
  omega

/-- Padding a short name and cutting a long one come to the same. -/
theorem directoryName_of_short {name : Bytes} (short : name.length ≤ 16) :
    directoryName name = name ++ List.replicate (16 - name.length) underscore := by
  rw [directoryName, List.take_append, List.take_of_length_le short, List.take_replicate, min_eq_left (by omega)]

theorem directoryName_of_long {name : Bytes} (long : 16 ≤ name.length) : directoryName name = name.take 16 := by
  rw [directoryName, List.take_append_of_le_length long]

theorem stripped_head (key : Bytes) : (stripped key).head? ≠ some slash := by
  have first := List.head?_dropWhile_not (fun c : UInt8 => decide (c = slash)) key
  intro same
  rw [stripped] at same
  rw [same] at first
  simp at first

theorem head_append {name : Bytes} (nonempty : name ≠ []) (rest : Bytes) : (name ++ rest).head? = name.head? := by
  cases name with
  | nil => exact absurd rfl nonempty
  | cons c name => rfl

theorem directoryName_head {key : Bytes} (nonempty : stripped key ≠ []) :
    (directoryName (stripped key)).head? ≠ some slash := by
  rw [directoryName, List.head?_take, if_neg (by omega), head_append nonempty]
  exact stripped_head key

theorem underscore_ne_slash : underscore ≠ slash := by decide

theorem directoryName_last {key : Bytes} (flat : slash ∉ stripped key) (datastorePath : Bytes) :
    (datastorePath ++ slash :: directoryName (stripped key)).getLast? ≠ some slash := by
  intro last
  have length := length_directoryName (stripped key)
  have nonempty : directoryName (stripped key) ≠ [] := by
    intro none
    rw [none] at length
    cases length
  rw [List.getLast?_append_of_ne_nil _ (List.cons_ne_nil _ _), List.getLast?_cons] at last
  have mem : slash ∈ directoryName (stripped key) := by
    rw [List.getLast?_eq_some_getLast nonempty, Option.getD_some, Option.some.injEq] at last
    exact last ▸ List.getLast_mem nonempty
  rcases List.mem_append.mp (List.mem_of_mem_take mem) with inside | padded
  · exact flat inside
  · exact underscore_ne_slash (List.eq_of_mem_replicate padded).symm

/-! ## Names -/

section
variable {datastorePath key : Bytes}

theorem getDirectory_eq (joins : JoinsWithSlash join) (bare : datastorePath.getLast? ≠ some slash) (flat : FlatKey key) :
    getDirectory join datastorePath key (putLength datastorePath key) =
      if leadingSlashes key < 2 ^ 31 then .returned (datastorePath ++ slash :: directoryName (stripped key))
      else .fault .overflow := by
  have length := length_stripped_le key
  have sixteen := length_directoryName (stripped key)
  have joined := joins datastorePath (directoryName (stripped key)) (putLength datastorePath key) bare
    (directoryName_head flat.nonempty) (by unfold putLength; omega)
  unfold putLength at *
  rw [getDirectory, if_neg (by omega), removePreceedingSlash_eq (by omega)]
  by_cases few : leadingSlashes key < 2 ^ 31
  · rw [if_pos few, if_pos few, Outcome.returned_bind]
    by_cases short : (stripped key).length < 16
    · rw [if_pos short, ← directoryName_of_short short.le, fill_of_lt (by omega), Outcome.returned_bind]
      simp only [sixteen, lt_irrefl, if_false]
      rw [joined]
      rfl
    · rw [if_neg short, Outcome.returned_bind]
      have named : (if 16 < (stripped key).length then (stripped key).take 16 else stripped key) =
          directoryName (stripped key) := by
        rw [directoryName_of_long (by omega)]
        split
        · rfl
        · rw [List.take_of_length_le (by omega)]
      simp only [named]
      rw [joined]
      rfl
  · rw [if_neg few, if_neg few]
    rfl

theorem getFilename_eq (few : leadingSlashes key < 2 ^ 31) {room : Nat} (enough : key.length + 6 ≤ room) :
    getFilename key room = .returned (stripped key ++ ascii ".data") := by
  have length := length_stripped_le key
  have suffix : (stripped key ++ ascii ".data").length = (stripped key).length + 5 := List.length_append
  rw [getFilename, removePreceedingSlash_eq (by omega), if_pos few, Outcome.returned_bind, if_neg (by omega),
    fill_of_lt (by omega), Outcome.returned_bind, fill_of_lt (by omega)]

theorem getFullFilename_eq (joins : JoinsWithSlash join) (bare : datastorePath.getLast? ≠ some slash) (flat : FlatKey key) :
    getFullFilename join datastorePath key (putLength datastorePath key) =
      if leadingSlashes key < 2 ^ 31 then .returned (fullName datastorePath key) else .fault .overflow := by
  have enough : key.length < putLength datastorePath key := by
    unfold putLength
    omega
  rw [getFullFilename, removePreceedingSlash_eq enough]
  by_cases few : leadingSlashes key < 2 ^ 31
  · have length := length_stripped_le key
    have sixteen := length_directoryName (stripped key)
    have suffix : (stripped key ++ ascii ".data").length = (stripped key).length + 5 := List.length_append
    have joined := joins (datastorePath ++ slash :: directoryName (stripped key)) (stripped key ++ ascii ".data")
      (putLength datastorePath key) (directoryName_last flat.flat datastorePath)
      (by rw [head_append flat.nonempty]; exact stripped_head key)
      (by rw [suffix, List.length_append, List.length_cons, sixteen]; unfold putLength; omega)
    rw [if_pos few, if_pos few, Outcome.returned_bind, getDirectory_eq joins bare flat, if_pos few, Outcome.returned_bind,
      getFilename_eq few (by unfold putLength; omega), Outcome.returned_bind, joined, fullName]
    simp only [List.append_assoc, List.cons_append, Outcome.ofOption_some]
  · rw [if_neg few, if_neg few]
    rfl

/-- The directory names are of one length, so that the file names do not run into them. -/
theorem fullName_injective {key' : Bytes} (same : fullName datastorePath key = fullName datastorePath key') :
    stripped key = stripped key' := by
  have behind := List.append_cancel_left same
  rw [List.cons.injEq] at behind
  have lengths : (directoryName (stripped key)).length = (directoryName (stripped key')).length := by
    rw [length_directoryName, length_directoryName]
  obtain ⟨-, names⟩ := List.append_inj behind.2 lengths
  rw [List.cons.injEq] at names
  exact List.append_cancel_right names.2

theorem temp_ne_fullName (text : Bytes) (key' : Bytes) : text ++ ascii ".tmp" ≠ fullName datastorePath key' := by
  intro same
  have last := congrArg List.getLast? same
  have suffix : fullName datastorePath key' = (datastorePath ++ slash :: (directoryName (stripped key') ++
      slash :: stripped key')) ++ ascii ".data" := by
    simp only [fullName, List.append_assoc, List.cons_append]
  rw [suffix, List.getLast?_append_of_ne_nil _ (by decide), List.getLast?_append_of_ne_nil _ (by decide)] at last
  revert last
  decide

/-- What is put under a key is in its file, and the files of other keys are left alone. -/
theorem put_files (joins : JoinsWithSlash join) (bare : datastorePath.getLast? ≠ some slash) (flat : FlatKey key)
    {makes : Bytes → Bool} {bytes : Bytes} {files files' : Bytes → Option Bytes} {reported : Bool}
    (stored : put join makes datastorePath key bytes files = .returned (reported, files')) :
    files' (fullName datastorePath key) = some bytes ∧ ∀ key', stripped key ≠ stripped key' →
      files' (fullName datastorePath key') = files (fullName datastorePath key') := by
  unfold put at stored
  obtain ⟨directory, -, stored⟩ := Outcome.bind_eq_returned.mp stored
  split at stored
  · cases stored
  · obtain ⟨full, named, stored⟩ := Outcome.bind_eq_returned.mp stored
    rw [getFullFilename_eq joins bare flat] at named
    split at named
    · obtain rfl := Outcome.returned.inj named
      obtain ⟨temp, filled, stored⟩ := Outcome.bind_eq_returned.mp stored
      unfold fill at filled
      split at filled
      · obtain rfl := Outcome.returned.inj filled
        obtain ⟨-, rfl⟩ := Prod.mk.inj (Outcome.returned.inj stored)
        refine ⟨Function.update_self .., ?_⟩
        intro key' other
        have apart : fullName datastorePath key' ≠ fullName datastorePath key := fun same =>
          other (fullName_injective same.symm)
        have notTemp : fullName datastorePath key ++ ascii ".tmp" ≠ fullName datastorePath key' :=
          temp_ne_fullName (fullName datastorePath key) key'
        rw [Function.update_of_ne apart, Function.update_of_ne notTemp.symm, Function.update_of_ne notTemp.symm]
      · cases filled
    · cases named

/-- The names of flat files are right as long as an `int` counts the leading slashes, and different for different
keys. -/
theorem flatFile_naming_iff (joins : JoinsWithSlash join) (bare : datastorePath.getLast? ≠ some slash) :
    (∀ key, FlatKey key → (NamesFile join datastorePath key ↔ leadingSlashes key < 2 ^ 31)) ∧
      ∀ key key', FlatKey key → FlatKey key' → stripped key ≠ stripped key' →
        ∀ name, getFullFilename join datastorePath key (putLength datastorePath key) = .returned name →
          getFullFilename join datastorePath key' (putLength datastorePath key') ≠ .returned name := by
  constructor
  · intro key flat
    unfold NamesFile
    rw [getFullFilename_eq joins bare flat]
    by_cases few : leadingSlashes key < 2 ^ 31
    · exact iff_of_true (if_pos few) few
    · rw [if_neg few]
      exact iff_of_false nofun few
  · intro key key' flat flat' other name named named'
    rw [getFullFilename_eq joins bare flat] at named
    rw [getFullFilename_eq joins bare flat'] at named'
    split at named
    · split at named'
      · exact other (fullName_injective (Outcome.returned.inj (named.trans named'.symm)))
      · cases named'
    · cases named

end

/-- A join as it is assumed. -/
def joinWithSlash (root extension : Bytes) (room : Nat) : Option Bytes :=
  if root.length + extension.length + 1 < room then some (root ++ slash :: extension) else none

theorem joinsWithSlash : JoinsWithSlash joinWithSlash := fun _ _ _ _ _ fits => if_pos fits

theorem flatFile_naming_abc : NamesFile joinWithSlash (ascii "/tmp") (ascii "/ABC123XYZ") := by
  have flat : FlatKey (ascii "/ABC123XYZ") := ⟨by decide, by decide⟩
  exact ((flatFile_naming_iff joinsWithSlash (by decide)).1 _ flat).mpr (by decide)

example : fullName (ascii "/tmp") (ascii "/ABC123XYZ") = ascii "/tmp/ABC123XYZ_______/ABC123XYZ.data" := by decide

def manySlashes : Bytes := List.replicate (2 ^ 31) slash ++ ascii "a"

theorem stripped_manySlashes : stripped manySlashes = ascii "a" := by
  rw [stripped, manySlashes, List.dropWhile_append_of_pos]
  · rfl
  · intro c mem
    rw [List.eq_of_mem_replicate mem]
    exact decide_eq_true rfl

theorem leadingSlashes_manySlashes : leadingSlashes manySlashes = 2 ^ 31 := by
  rw [leadingSlashes, manySlashes, List.takeWhile_append_of_pos, List.length_append, List.length_replicate]
  · rfl
  · intro c mem
    rw [List.eq_of_mem_replicate mem]
    exact decide_eq_true rfl

theorem not_namesFile_manySlashes : FlatKey manySlashes ∧ ¬ NamesFile joinWithSlash (ascii "/tmp") manySlashes := by
  have flat : FlatKey manySlashes := by
    constructor
    · rw [stripped_manySlashes]
      decide
    · rw [stripped_manySlashes]
      decide
  refine ⟨flat, ?_⟩
  unfold NamesFile
  rw [getFullFilename_eq joinsWithSlash (by decide) flat, leadingSlashes_manySlashes, if_neg (lt_irrefl _)]
  exact nofun

end Ipfs.Flatfs
