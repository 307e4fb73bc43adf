import Ipfs.Importer.Resolver

/-!
# The prefix of a path

`ipfs_resolver_remove_path_prefix` compares a fixed number of bytes and steps over them. What it is for is stated
over whole components.
-/

namespace Ipfs

/-- The loop of `removePathPrefix` with its position, which is an `int`. -/
def removePathPrefixAt (peerId : Bytes) (pos : Nat) (first : Bool) (path : Bytes) : Outcome Bytes :=
  if 2 ^ 31 ≤ pos then .fault .overflow
  else match path with
  | [] => if peerId = [] then .fault .outOfBounds else .returned []
  | c :: rest =>
      if c = slash then removePathPrefixAt peerId (pos + 1) first rest
      else if first ∧ ∃ scheme ∈ schemes, scheme <+: c :: rest then
        removePathPrefixAt peerId (pos + 4) false (rest.drop 3)
      else if peerId <+: c :: rest then
        if rest.length < peerId.length then .fault .outOfBounds
        else removePathPrefixAt peerId (pos + (peerId.length + 1)) false (rest.drop peerId.length)
      else .returned (c :: rest)
  termination_by path.length
  decreasing_by all_goals simp only [List.length_drop, List.length_cons]; omega

def skipSlashes (path : Bytes) : Bytes := path.dropWhile (· = slash)

def firstComponent (path : Bytes) : Bytes := path.takeWhile (· ≠ slash)

/-- Without its first component, if that has one of the names, and the slashes behind it. -/
def withoutComponent (names : List Bytes) (path : Bytes) : Bytes :=
  if names.contains (firstComponent path) then skipSlashes (path.drop (firstComponent path).length) else path

def pathWithoutPrefix (peerId path : Bytes) : Bytes :=
  withoutComponent [peerId] (withoutComponent schemes (skipSlashes path))

def StartsComponent (path kept : Bytes) : Prop :=
  ∃ before, path = before ++ kept ∧ (before = [] ∨ before.getLast? = some slash ∨ kept = [])

def RemovesPrefix (peerId path : CString) : Prop :=
  ∃ kept, removePathPrefixAt peerId.bytes 0 true path.bytes = .returned kept ∧
    kept = pathWithoutPrefix peerId.bytes path.bytes ∧ StartsComponent path.bytes kept

/-- What is compared are whole components. -/
structure WholeComponents (peerId path : Bytes) : Prop where
  scheme : ∀ scheme ∈ schemes, scheme <+: skipSlashes path → firstComponent (skipSlashes path) = scheme
  peer : peerId <+: withoutComponent schemes (skipSlashes path) →
    firstComponent (withoutComponent schemes (skipSlashes path)) = peerId ∧
      withoutComponent schemes (skipSlashes path) ≠ peerId
  once : ¬ peerId <+: pathWithoutPrefix peerId path

/-! ## Components -/

theorem skipSlashes_suffix (path : Bytes) : skipSlashes path <:+ path := List.dropWhile_suffix _

theorem skipSlashes_head {path rest : Bytes} {c : UInt8} (skipped : skipSlashes path = c :: rest) : c ≠ slash := by
  have head := List.head?_dropWhile_not (fun b => decide (b = slash)) path
  unfold skipSlashes at skipped
  rw [skipped] at head
  simpa using head

@[simp] theorem skipSlashes_slash (path : Bytes) : skipSlashes (slash :: path) = skipSlashes path := by
  simp [skipSlashes]

theorem skipSlashes_cons {c : UInt8} (ne : c ≠ slash) (path : Bytes) : skipSlashes (c :: path) = c :: path := by
  simp [skipSlashes, ne]

@[simp] theorem skipSlashes_skipSlashes (path : Bytes) : skipSlashes (skipSlashes path) = skipSlashes path := by
  cases skipped : skipSlashes path with
  | nil => rfl
  | cons c rest => exact skipSlashes_cons (skipSlashes_head skipped) rest

theorem firstComponent_isPrefix (path : Bytes) : firstComponent path <+: path := List.takeWhile_prefix _

theorem slash_not_mem_firstComponent (path : Bytes) : slash ∉ firstComponent path := by
  intro mem
  simpa using List.mem_takeWhile_imp mem

theorem firstComponent_of_slash {name : Bytes} (absent : slash ∉ name) (rest : Bytes) :
    firstComponent (name ++ slash :: rest) = name := by
  unfold firstComponent
  rw [List.takeWhile_append_of_pos (by simpa using fun b mem => ne_of_mem_of_not_mem mem absent)]
  simp

theorem firstComponent_append_left {name : Bytes} (absent : slash ∉ name) (rest : Bytes) :
    firstComponent (name ++ rest) = name ++ firstComponent rest :=
  List.takeWhile_append_of_pos (by simpa using fun b mem => ne_of_mem_of_not_mem mem absent)

theorem firstComponent_eq_iff {name path : Bytes} (absent : slash ∉ name) :
    firstComponent path = name ↔ path = name ∨ ∃ more, path = name ++ slash :: more := by
  constructor
  · intro named
    obtain ⟨behind, eq⟩ := firstComponent_isPrefix path
    cases behind with
    | nil => exact .inl (by rw [← eq, named, List.append_nil])
    | cons c more =>
        by_cases same : c = slash
        · exact .inr ⟨more, by rw [← same, ← named, eq]⟩
        · have longer := firstComponent_append_left (slash_not_mem_firstComponent path) (c :: more)
          rw [eq] at longer
          simp [firstComponent, same] at longer
  · rintro (rfl | ⟨more, rfl⟩)
    · simpa [firstComponent] using firstComponent_append_left absent []
    · exact firstComponent_of_slash absent more

theorem withoutComponent_eq (names : List Bytes) (path : Bytes) : withoutComponent names path =
    if firstComponent path ∈ names then skipSlashes (path.drop (firstComponent path).length) else path := by
  unfold withoutComponent
  simp only [List.contains_iff_mem]

@[simp] theorem skipSlashes_withoutComponent (names : List Bytes) {path : Bytes} (skipped : skipSlashes path = path) :
    skipSlashes (withoutComponent names path) = withoutComponent names path := by
  rw [withoutComponent_eq]
  split
  · exact skipSlashes_skipSlashes _
  · exact skipped

/-- What is behind slashes, if there are any, starts a component. -/
theorem startsComponent_skipSlashes {path behind before : Bytes} (eq : path = before ++ behind)
    (start : before = [] ∨ before.getLast? = some slash ∨ behind = [] ∨ behind.head? = some slash) :
    StartsComponent path (skipSlashes behind) := by
  induction behind generalizing before with
  | nil => exact ⟨before, eq, .inr (.inr rfl)⟩
  | cons c rest ih =>
      by_cases same : c = slash
      · rw [same, skipSlashes_slash]
        have eq' : path = (before ++ [slash]) ++ rest := by simp [eq, same]
        exact ih eq' (.inr (.inl (by simp)))
      · rw [skipSlashes_cons same]
        apply Exists.intro before
        simpa [eq, same] using start

theorem StartsComponent.trans {path rest kept : Bytes} (first : StartsComponent path rest)
    (second : StartsComponent rest kept) : StartsComponent path kept := by
  obtain ⟨before, rfl, start⟩ := first
  obtain ⟨between, rfl, start'⟩ := second
  refine ⟨before ++ between, (List.append_assoc _ _ _).symm, ?_⟩
  rcases List.eq_nil_or_concat between with rfl | ⟨between, c, rfl⟩
  · simpa using start
  · simpa using start'

theorem startsComponent_withoutComponent (names : List Bytes) (path : Bytes) :
    StartsComponent path (withoutComponent names path) := by
  rw [withoutComponent_eq]
  split
  · have cut := (firstComponent_eq_iff (slash_not_mem_firstComponent path)).mp rfl
    rcases cut with whole | ⟨more, eq⟩
    · rw [← whole, List.drop_length]
      exact ⟨path, by simp [skipSlashes], by simp [skipSlashes]⟩
    · generalize firstComponent path = name at eq
      subst eq
      rw [List.drop_left]
      exact startsComponent_skipSlashes rfl (by simp)
  · exact ⟨[], rfl, .inl rfl⟩

theorem startsComponent_pathWithoutPrefix (peerId path : Bytes) :
    StartsComponent path (pathWithoutPrefix peerId path) :=
  (startsComponent_skipSlashes (List.nil_append path).symm (.inl rfl)).trans
    ((startsComponent_withoutComponent _ _).trans (startsComponent_withoutComponent _ _))

/-! ## The loop -/

theorem length_of_schemes {name : Bytes} (known : name ∈ schemes) : name.length = 4 := by
  simp only [schemes, List.mem_cons, List.not_mem_nil, or_false] at known
  rcases known with rfl | rfl <;> rfl

theorem removePathPrefix_suffix {peerId path kept : Bytes} {first : Bool}
    (returned : removePathPrefix peerId first path = .returned kept) : kept <:+ path := by
  fun_induction removePathPrefix peerId first path with
  | case1 => cases returned
  | case2 =>
      obtain rfl := Outcome.returned.inj returned
      exact List.suffix_rfl
  | case3 first rest ih => exact (ih returned).trans (List.suffix_cons _ _)
  | case4 first c rest ne scheme ih =>
      exact ((ih returned).trans (List.drop_suffix _ _)).trans (List.suffix_cons _ _)
  | case5 => cases returned
  | case6 first c rest ne noScheme peer room ih =>
      exact ((ih returned).trans (List.drop_suffix _ _)).trans (List.suffix_cons _ _)
  | case7 =>
      obtain rfl := Outcome.returned.inj returned
      exact List.suffix_rfl

theorem removePathPrefixAt_far {peerId path kept : Bytes} {first : Bool} {pos : Nat} (far : 2 ^ 31 ≤ pos) :
    removePathPrefixAt peerId pos first path = .returned kept ↔
      removePathPrefix peerId first path = .returned kept ∧ pos + path.length < 2 ^ 31 + kept.length := by
  rw [removePathPrefixAt.eq_def, if_pos far]
  simp only [reduceCtorEq, false_iff, not_and, not_lt]
  intro returned
  have shorter := (removePathPrefix_suffix returned).length_le
  omega

/-- The position is the number of bytes that are removed. -/
theorem removePathPrefixAt_eq_returned {peerId path kept : Bytes} {first : Bool} {pos : Nat} :
    removePathPrefixAt peerId pos first path = .returned kept ↔
      removePathPrefix peerId first path = .returned kept ∧ pos + path.length < 2 ^ 31 + kept.length := by
  induction first, path using removePathPrefix.induct peerId generalizing pos
  all_goals
    rcases Nat.lt_or_ge pos (2 ^ 31) with small | far
    rw [removePathPrefixAt.eq_def, if_neg (not_le.mpr small)]
    on_goal 2 => exact removePathPrefixAt_far far
  case case1 empty => simp [removePathPrefix, empty]
  case case2 nonempty =>
    simp only [removePathPrefix, if_neg nonempty, Outcome.returned.injEq]
    constructor
    · rintro rfl
      exact ⟨rfl, by omega⟩
    · exact And.left
  case case3 first rest ih =>
    simp only [removePathPrefix, if_true, ih, List.length_cons]
    rw [Nat.add_right_comm, Nat.add_assoc]
  case case4 first c rest ne scheme ih =>
    obtain ⟨name, known, found⟩ := scheme.2
    have longer := found.length_le
    rw [length_of_schemes known, List.length_cons] at longer
    simp only [removePathPrefix, if_neg ne, if_pos scheme, ih, List.length_cons, List.length_drop]
    rw [show pos + 4 + (rest.length - 3) = pos + (rest.length + 1) by omega]
  case case5 first c rest ne noScheme peer past =>
    simp [removePathPrefix, ne, noScheme, peer, past]
  case case6 first c rest ne noScheme peer room ih =>
    simp only [removePathPrefix, if_neg ne, if_neg noScheme, if_pos peer, if_neg room, ih, List.length_cons,
      List.length_drop]
    rw [show pos + (peerId.length + 1) + (rest.length - peerId.length) = pos + (rest.length + 1) by omega]
  case case7 first c rest ne noScheme noPeer =>
    simp only [removePathPrefix, if_neg ne, if_neg noScheme, if_neg noPeer, Outcome.returned.injEq]
    constructor
    · rintro rfl
      exact ⟨rfl, by omega⟩
    · exact And.left

theorem removePathPrefix_skipSlashes (peerId path : Bytes) (first : Bool) :
    removePathPrefix peerId first path = removePathPrefix peerId first (skipSlashes path) := by
  induction path with
  | nil => rfl
  | cons c rest ih =>
      by_cases same : c = slash
      · rw [same, skipSlashes_slash, ← ih, removePathPrefix, if_pos rfl]
      · rw [skipSlashes_cons same]

/-- Behind the scheme, at the start of a component. -/
theorem removePathPrefix_behind {peerId path : Bytes} (nonempty : peerId ≠ []) (skipped : skipSlashes path = path) :
    removePathPrefix peerId false path =
      if peerId <+: path then
        if path.length = peerId.length then .fault .outOfBounds
        else removePathPrefix peerId false (path.drop (peerId.length + 1))
      else .returned path := by
  cases path with
  | nil => simp [removePathPrefix, nonempty]
  | cons c rest =>
      rw [removePathPrefix, if_neg (skipSlashes_head skipped), if_neg (by simp), List.drop_succ_cons]
      by_cases peer : peerId <+: c :: rest
      · have longer := peer.length_le
        rw [List.length_cons] at longer
        simp only [if_pos peer, List.length_cons]
        congr 1
        simp only [eq_iff_iff]
        omega
      · rw [if_neg peer, if_neg peer]

theorem removePathPrefix_start {peerId path : Bytes} (skipped : skipSlashes path = path) :
    removePathPrefix peerId true path =
      if ∃ scheme ∈ schemes, scheme <+: path then removePathPrefix peerId false (path.drop 4)
      else removePathPrefix peerId false path := by
  cases path with
  | nil => simp [removePathPrefix, schemes]
  | cons c rest =>
      rw [removePathPrefix, if_neg (skipSlashes_head skipped)]
      by_cases scheme : ∃ scheme ∈ schemes, scheme <+: c :: rest
      · rw [if_pos ⟨rfl, scheme⟩, if_pos scheme, List.drop_succ_cons]
      · conv_rhs => rw [if_neg scheme, removePathPrefix, if_neg (skipSlashes_head skipped), if_neg (by simp)]
        rw [if_neg fun both => scheme both.2]

/-! ## Whole components -/

theorem length_removePathPrefix_le {peerId path kept : Bytes} {first : Bool}
    (returned : removePathPrefix peerId first path = .returned kept) : kept.length ≤ path.length :=
  (removePathPrefix_suffix returned).length_le

theorem removePathPrefix_peer_ne {peerId path : Bytes} (nonempty : peerId ≠ []) (skipped : skipSlashes path = path)
    (peer : peerId <+: path) : removePathPrefix peerId false path ≠ .returned path := by
  rw [removePathPrefix_behind nonempty skipped, if_pos peer]
  split
  · simp
  · intro returned
    have positive := List.length_pos_iff.mpr nonempty
    have shorter := length_removePathPrefix_le returned
    have longer := peer.length_le
    rw [List.length_drop] at shorter
    omega

theorem removePathPrefix_component {peerId more : Bytes} (nonempty : peerId ≠ [])
    (skipped : skipSlashes (peerId ++ slash :: more) = peerId ++ slash :: more) :
    removePathPrefix peerId false (peerId ++ slash :: more) = removePathPrefix peerId false (skipSlashes more) := by
  rw [removePathPrefix_behind nonempty skipped, if_pos (List.prefix_append _ _), if_neg (by simp), ← List.drop_drop,
    List.drop_left, List.drop_succ_cons, List.drop_zero, removePathPrefix_skipSlashes]

/-- Only a whole component is the peer's, and what is behind it is not compared again. -/
theorem removePathPrefix_peer_iff {peerId path : Bytes} (nonempty : peerId ≠ []) (skipped : skipSlashes path = path) :
    removePathPrefix peerId false path = .returned (withoutComponent [peerId] path) ↔
      (peerId <+: path → firstComponent path = peerId ∧ path ≠ peerId) ∧ ¬ peerId <+: withoutComponent [peerId] path := by
  simp only [withoutComponent_eq, List.mem_singleton]
  by_cases whole : firstComponent path = peerId
  · have absent : slash ∉ peerId := by
      rw [← whole]
      exact slash_not_mem_firstComponent path
    rcases (firstComponent_eq_iff absent).mp whole with rfl | ⟨more, rfl⟩
    · rw [removePathPrefix_behind nonempty skipped]
      simp
    · rw [removePathPrefix_component nonempty skipped, if_pos whole, whole, List.drop_left, skipSlashes_slash]
      by_cases again : peerId <+: skipSlashes more
      · have compared := removePathPrefix_peer_ne nonempty (skipSlashes_skipSlashes more) again
        simp [again, compared]
      · rw [removePathPrefix_behind nonempty (skipSlashes_skipSlashes more)]
        simp [again]
  · rw [if_neg whole]
    by_cases peer : peerId <+: path
    · have compared := removePathPrefix_peer_ne nonempty skipped peer
      simp [peer, compared]
    · rw [removePathPrefix_behind nonempty skipped]
      simp [peer]

theorem slash_not_mem_schemes {name : Bytes} (known : name ∈ schemes) : slash ∉ name := by
  simp only [schemes, List.mem_cons, List.not_mem_nil, or_false] at known
  rcases known with rfl | rfl <;> decide

theorem skipSlashes_of_component {path : Bytes} (nonempty : firstComponent path ≠ []) : skipSlashes path = path := by
  cases path with
  | nil => rfl
  | cons c rest =>
      apply skipSlashes_cons
      rintro rfl
      exact nonempty (by simp [firstComponent])

theorem not_isPrefix_of_shorter {peerId path : Bytes} (absent : slash ∉ peerId)
    (shorter : (firstComponent path).length < peerId.length) : ¬ peerId <+: path := by
  rintro ⟨behind, rfl⟩
  rw [firstComponent_append_left absent, List.length_append] at shorter
  omega

/-- A component that only begins like a scheme loses its first bytes. -/
theorem removePathPrefix_partial_ne {peerId name tail : Bytes} (nonempty : peerId ≠ []) (known : name ∈ schemes)
    (more : firstComponent (name ++ tail) ≠ name) :
    removePathPrefix peerId false tail ≠
      .returned (withoutComponent [peerId] (withoutComponent schemes (name ++ tail))) := by
  have component := firstComponent_append_left (slash_not_mem_schemes known) tail
  have sizes := congrArg List.length component
  have size := length_of_schemes known
  rw [List.length_append] at sizes
  have begins : firstComponent tail ≠ [] := by
    intro none
    rw [component, none, List.append_nil] at more
    exact more rfl
  have positive := List.length_pos_iff.mpr begins
  have kept : withoutComponent schemes (name ++ tail) = name ++ tail := by
    rw [withoutComponent_eq, if_neg]
    intro other
    have size' := length_of_schemes other
    omega
  rw [kept, withoutComponent_eq]
  intro returned
  have shorter := length_removePathPrefix_le returned
  by_cases peer : firstComponent (name ++ tail) ∈ [peerId]
  · have same := List.mem_singleton.mp peer
    rw [same] at sizes
    have foreign : ¬ peerId <+: tail :=
      not_isPrefix_of_shorter (same ▸ slash_not_mem_firstComponent _) (by omega)
    rw [removePathPrefix_behind nonempty (skipSlashes_of_component begins), if_neg foreign, if_pos peer, same,
      Outcome.returned.injEq] at returned
    have lengths := congrArg List.length returned
    have behind := (skipSlashes_suffix ((name ++ tail).drop peerId.length)).length_le
    have taken := (firstComponent_isPrefix (name ++ tail)).length_le
    rw [List.length_drop] at behind
    rw [same] at taken
    rw [List.length_append] at behind taken
    omega
  · rw [if_neg peer, List.length_append] at shorter
    omega

theorem resolverRemovePathPrefix_iff {peerId path : Bytes} (nonempty : peerId ≠ []) :
    resolverRemovePathPrefix peerId path = .returned (pathWithoutPrefix peerId path) ↔ WholeComponents peerId path := by
  have skipped := skipSlashes_skipSlashes path
  have behind := removePathPrefix_peer_iff nonempty (skipSlashes_withoutComponent schemes skipped)
  unfold resolverRemovePathPrefix pathWithoutPrefix
  rw [removePathPrefix_skipSlashes, removePathPrefix_start skipped]
  by_cases found : ∃ scheme ∈ schemes, scheme <+: skipSlashes path
  · rw [if_pos found]
    obtain ⟨name, known, tail, eq⟩ := found
    by_cases whole : firstComponent (skipSlashes path) = name
    · have stripped : removePathPrefix peerId false ((skipSlashes path).drop 4) =
          removePathPrefix peerId false (withoutComponent schemes (skipSlashes path)) := by
        rw [withoutComponent_eq, if_pos (by rwa [whole]), whole, length_of_schemes known]
        exact removePathPrefix_skipSlashes ..
      rw [stripped, behind]
      constructor
      · rintro ⟨peer, once⟩
        refine ⟨?_, peer, once⟩
        intro other known' found'
        have sizes := (length_of_schemes known).trans (length_of_schemes known').symm
        rw [whole]
        exact (List.prefix_of_prefix_length_le ⟨tail, eq⟩ found' sizes.le).eq_of_length sizes
      · intro components
        exact ⟨components.peer, components.once⟩
    · constructor
      · intro returned
        rw [← eq] at returned whole
        rw [← length_of_schemes known, List.drop_left] at returned
        exact absurd returned (removePathPrefix_partial_ne nonempty known whole)
      · intro components
        exact absurd (components.scheme name known ⟨tail, eq⟩) whole
  · have kept : withoutComponent schemes (skipSlashes path) = skipSlashes path := by
      rw [withoutComponent_eq, if_neg]
      intro known
      exact found ⟨_, known, firstComponent_isPrefix _⟩
    rw [if_neg found]
    conv_lhs => lhs; rw [← kept]
    rw [behind]
    constructor
    · rintro ⟨peer, once⟩
      exact ⟨fun name known start => absurd ⟨name, known, start⟩ found, peer, once⟩
    · intro components
      exact ⟨components.peer, components.once⟩

/-- Whole components are removed exactly where the prefixes compared are whole components, and not too long. -/
theorem removesPrefix_iff {peerId path : CString} (nonempty : peerId.bytes ≠ []) :
    RemovesPrefix peerId path ↔ WholeComponents peerId.bytes path.bytes ∧
      path.strlen < 2 ^ 31 + (pathWithoutPrefix peerId.bytes path.bytes).length := by
  rw [← resolverRemovePathPrefix_iff nonempty]
  unfold RemovesPrefix resolverRemovePathPrefix
  constructor
  · rintro ⟨kept, returned, rfl, -⟩
    simpa [CString.strlen] using removePathPrefixAt_eq_returned.mp returned
  · rintro ⟨returned, short⟩
    refine ⟨_, removePathPrefixAt_eq_returned.mpr ⟨returned, ?_⟩, rfl, startsComponent_pathWithoutPrefix _ _⟩
    simpa [CString.strlen] using short

/-- "/ipfs/QmA", the peer "QmB" -/
theorem removesPrefix_ipfs : RemovesPrefix ⟨[0x51, 0x6d, 0x42], by decide⟩
    ⟨[0x2f, 0x69, 0x70, 0x66, 0x73, 0x2f, 0x51, 0x6d, 0x41], by decide⟩ := by
  refine (removesPrefix_iff (by decide)).mpr ⟨⟨?_, ?_, ?_⟩, by decide⟩ <;> decide

/-- "/ipfsa" -/
theorem not_removesPrefix_ipfsa :
    ¬ ∀ peerId path : CString, peerId.bytes ≠ [] → RemovesPrefix peerId path := by
  intro removes
  obtain ⟨kept, returned, eq, -⟩ :=
    removes ⟨[0x51], by decide⟩ ⟨[0x2f, 0x69, 0x70, 0x66, 0x73, 0x61], by decide⟩ (by decide)
  have shorter : removePathPrefix [0x51] true [0x2f, 0x69, 0x70, 0x66, 0x73, 0x61] = .returned kept :=
    (removePathPrefixAt_eq_returned.mp returned).1
  rw [eq] at shorter
  simp [removePathPrefix, slash, schemes] at shorter
  revert shorter
  decide

end Ipfs
