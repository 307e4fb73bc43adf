import Ipfs.Codec.CidText

/-!
# Retrieving a value from the providers of its key

Providers that are near are asked first. The others are connected to and asked in a second pass.
-/

namespace Ipfs
variable {lib : Library}

/-- `*buffer` and `*buffer_size` of the caller. -/
structure ValueBuffer where
  buffer : Option Bytes := none
  size : Nat := 0
  deriving DecidableEq

/-- A fetch: whether it returns 1, and what it leaves to the caller. -/
structure Attempt where
  succeeds : Bool
  leaves : ValueBuffer → ValueBuffer

/-! ## Local fetches -/

/-- The node that is asked for a block, and in `MODE_API_AVAILABLE` the answer of the API to "dht get". -/
structure LocalNode (lib : Library) where
  repo : FsRepo lib
  api : Option (Bytes → Option Bytes) := none

def storedAttempt (value : Bytes) : Attempt where
  succeeds := true
  leaves _ := { buffer := some value, size := value.length }

/-- What comes of the answer to "dht get". -/
def apiAttempt (argument : Outcome Bytes) (post : Bytes → Option Bytes) : Outcome Attempt :=
  match argument with
  | .fault cause => .fault cause
  | .failed => .returned ⟨false, id⟩
  | .returned argument =>
      match post argument with
      | none => .returned ⟨false, id⟩
      | some response =>
          if response.length > 0 then .returned (storedAttempt response)
          else .returned ⟨false, fun out => { out with size := 0 }⟩

/-- What comes of the node that was read; `written` is what an encoder that fails says it has written. -/
def repoAttempt (value : Outcome Bytes) (written : Nat → Nat) : Outcome Attempt :=
  match value with
  | .fault cause => .fault cause
  | .failed => .returned ⟨false, fun out => { buffer := none, size := written out.size }⟩
  | .returned value => .returned (storedAttempt value)

/-- `ipfs_routing_generic_get_value`. -/
def routingGenericAttempt (base58 : Base58Encoder lib.crypto) (node : LocalNode lib) (written : Nat → Nat)
    (key : Bytes) : Outcome Attempt :=
  match node.api with
  | some post => apiAttempt (cidHashToBase58 base58 key 256) post
  | none => repoAttempt (routingGenericGetValue node.repo key) written

theorem apiAttempt_leaves {argument : Outcome Bytes} {post : Bytes → Option Bytes} {fetch : Attempt}
    (made : apiAttempt argument post = .returned fetch) (succeeds : fetch.succeeds = true) :
    ∃ value, fetch = storedAttempt value := by
  cases argument with
  | fault cause => cases made
  | failed =>
      obtain rfl := Outcome.returned.inj made
      cases succeeds
  | returned argument =>
      simp only [apiAttempt] at made
      cases answer : post argument with
      | none =>
          rw [answer] at made
          obtain rfl := Outcome.returned.inj made
          cases succeeds
      | some response =>
          simp only [answer] at made
          split at made
          · exact ⟨response, (Outcome.returned.inj made).symm⟩
          · obtain rfl := Outcome.returned.inj made
            cases succeeds

theorem repoAttempt_leaves {value : Outcome Bytes} {written : Nat → Nat} {fetch : Attempt}
    (made : repoAttempt value written = .returned fetch) (succeeds : fetch.succeeds = true) :
    ∃ value, fetch = storedAttempt value := by
  cases value with
  | fault cause => cases made
  | failed =>
      obtain rfl := Outcome.returned.inj made
      cases succeeds
  | returned value => exact ⟨value, (Outcome.returned.inj made).symm⟩

/-- A local fetch that succeeds leaves a value and its size. -/
theorem routingGenericAttempt_leaves {base58 : Base58Encoder lib.crypto} {node : LocalNode lib} {written : Nat → Nat}
    {key : Bytes} {fetch : Attempt} (made : routingGenericAttempt base58 node written key = .returned fetch)
    (succeeds : fetch.succeeds = true) : ∃ value, fetch = storedAttempt value := by
  rw [routingGenericAttempt] at made
  split at made
  · exact apiAttempt_leaves made succeeds
  · exact repoAttempt_leaves made succeeds

/-! ## Two passes -/

/-- A provider, with the outcome of everything that is done about it. -/
structure Provider where
  -- the peer of the peerstore, looked at in the first pass
  storedLocal : Bool
  storedConnected : Bool
  localFetch : Attempt
  peerFetch : Attempt
  -- the peer of the vector, looked at in the second pass
  isLocal : Bool
  connected : Bool
  connects : Bool
  connectedFetch : Attempt

/-- The attempt made in the first pass: a local fetch, or one from a peer that is already connected. -/
def Provider.firstAttempt (provider : Provider) : Option Attempt :=
  if provider.storedLocal then some provider.localFetch
  else if provider.storedConnected then some provider.peerFetch
  else none

def Provider.secondAttempt (provider : Provider) : Option Attempt :=
  -- we tried this once, it didn't work
  if provider.isLocal then none
  else if provider.connected then none
  else if provider.connects then some provider.connectedFetch
  else none

/-- The return value and the buffer of the caller; beside them what each attempt returned and left. -/
structure Retrieval where
  retVal : Bool
  out : ValueBuffer
  attempts : List (Bool × ValueBuffer)

def onlinePass (attempt : Provider → Option Attempt) : List Provider → ValueBuffer → Retrieval
  | [], out => ⟨false, out, []⟩
  | provider :: providers, out =>
      match attempt provider with
      | none => onlinePass attempt providers out
      | some fetch =>
          if fetch.succeeds then ⟨true, fetch.leaves out, [(true, fetch.leaves out)]⟩
          else
            let rest := onlinePass attempt providers (fetch.leaves out)
            { rest with attempts := (false, fetch.leaves out) :: rest.attempts }

/-- `ipfs_routing_online_get_value`; without providers `FindProviders` leaves a NULL list. -/
def onlineGetValue (peers : Option (List Provider)) (out : ValueBuffer) : Retrieval :=
  let out := { out with size := 0 }
  match peers with
  | none => ⟨false, out, []⟩
  | some peers =>
      let first := onlinePass Provider.firstAttempt peers out
      if first.retVal then first
      else
        let second := onlinePass Provider.secondAttempt peers first.out
        -- `buffer_size == 0` is asked of the pointer
        { second with retVal := true, attempts := first.attempts ++ second.attempts }

/-- 1 is returned exactly when an attempt succeeded, and the value is that of the attempt. -/
def Retrieval.Faithful (retrieval : Retrieval) : Prop :=
  (retrieval.retVal = true ↔ ∃ attempt ∈ retrieval.attempts, attempt.1 = true) ∧
    ∀ attempt ∈ retrieval.attempts, attempt.1 = true → retrieval.out = attempt.2

def Provider.Gives (provider : Provider) : Prop :=
  (∃ fetch, provider.firstAttempt = some fetch ∧ fetch.succeeds = true) ∨
    ∃ fetch, provider.secondAttempt = some fetch ∧ fetch.succeeds = true

section
variable {attempt : Provider → Option Attempt} {peers : List Provider} {out : ValueBuffer}

theorem onlinePass_retVal_iff :
    (onlinePass attempt peers out).retVal = true ↔
      ∃ provider ∈ peers, ∃ fetch, attempt provider = some fetch ∧ fetch.succeeds = true := by
  induction peers generalizing out with
  | nil => simp [onlinePass]
  | cons provider peers ih =>
      rw [onlinePass, List.exists_mem_cons_iff]
      cases made : attempt provider with
      | none => simp [ih]
      | some fetch =>
          cases succeeds : fetch.succeeds with
          | true => simp [succeeds]
          | false => simp [succeeds, ih]

theorem onlinePass_faithful : (onlinePass attempt peers out).Faithful := by
  induction peers generalizing out with
  | nil => simp [onlinePass, Retrieval.Faithful]
  | cons provider peers ih =>
      rw [onlinePass]
      cases made : attempt provider with
      | none => exact ih
      | some fetch =>
          cases succeeds : fetch.succeeds with
          | true => simp [Retrieval.Faithful, succeeds]
          | false =>
              obtain ⟨some, value⟩ := @ih (fetch.leaves out)
              simp only [Retrieval.Faithful, succeeds, Bool.false_eq_true, if_false, List.mem_cons]
              refine ⟨some.trans ⟨?_, ?_⟩, ?_⟩
              · rintro ⟨made, mem, success⟩
                exact ⟨made, .inr mem, success⟩
              · rintro ⟨made, rfl | mem, success⟩
                · cases success
                · exact ⟨made, mem, success⟩
              · rintro made (rfl | mem) success
                · cases success
                · exact value made mem success

/-- The first pass, and the second one only when nothing came of it. -/
theorem onlineGetValue_some (peers : List Provider) (out : ValueBuffer) :
    ∃ first second : Retrieval, first.Faithful ∧ second.Faithful ∧
      ((first.retVal = true ∨ second.retVal = true) ↔ ∃ provider ∈ peers, provider.Gives) ∧
      onlineGetValue (some peers) out = if first.retVal then first
        else { second with retVal := true, attempts := first.attempts ++ second.attempts } := by
  refine ⟨_, _, onlinePass_faithful, onlinePass_faithful, ?_, rfl⟩
  rw [onlinePass_retVal_iff, onlinePass_retVal_iff]
  simp only [Provider.Gives, and_or_left, exists_or]

/-- An exhausted list of providers counts as a value. -/
theorem onlineGetValue_faithful_iff (peers : Option (List Provider)) (out : ValueBuffer) :
    (onlineGetValue peers out).Faithful ↔ ∀ list, peers = some list → ∃ provider ∈ list, provider.Gives := by
  cases peers with
  | none => simp [onlineGetValue, Retrieval.Faithful]
  | some peers =>
      obtain ⟨first, second, faithful, faithful', gives, result⟩ := onlineGetValue_some peers out
      rw [result]
      simp only [Option.some.injEq, forall_eq', ← gives]
      by_cases near : first.retVal = true
      · rw [if_pos near]
        exact iff_of_true faithful (.inl near)
      · rw [if_neg near, or_iff_right near]
        have none : ∀ attempt ∈ first.attempts, ¬ attempt.1 = true := fun attempt mem success =>
          near (faithful.1.mpr ⟨attempt, mem, success⟩)
        constructor
        · rintro ⟨some, -⟩
          obtain ⟨attempt, mem, success⟩ := some.mp rfl
          rcases List.mem_append.mp mem with mem | mem
          · exact absurd success (none attempt mem)
          · exact faithful'.1.mpr ⟨attempt, mem, success⟩
        · intro far
          obtain ⟨attempt, mem, success⟩ := faithful'.1.mp far
          refine ⟨iff_of_true rfl ⟨attempt, List.mem_append_right _ mem, success⟩, fun made mem' success' => ?_⟩
          rcases List.mem_append.mp mem' with mem' | mem'
          · exact absurd success' (none made mem')
          · exact faithful'.2 made mem' success'

end

def missingProvider (left : Attempt) : Provider where
  storedLocal := true
  storedConnected := false
  localFetch := left
  peerFetch := left
  isLocal := true
  connected := false
  connects := false
  connectedFetch := left

def emptyNode : LocalNode .base58 where
  repo := { blockstore := fun _ => none, datastore := [], disk := [] }

/-- The only attempt fails, and 1 is returned with nothing in the buffer. -/
theorem not_onlineGetValue_faithful :
    ∃ fetch, routingGenericAttempt Base58Encoder.standard emptyNode id fileDigest.sha256 = .returned fetch ∧
      ¬ (onlineGetValue (some [missingProvider fetch]) {}).Faithful ∧
      (onlineGetValue (some [missingProvider fetch]) {}).retVal = true ∧
      (onlineGetValue (some [missingProvider fetch]) {}).attempts = [(false, {})] := by
  refine ⟨⟨false, fun out => { buffer := none, size := out.size }⟩, rfl, ?_, rfl, rfl⟩
  rintro ⟨some, -⟩
  obtain ⟨attempt, mem, success⟩ := some.mp rfl
  rw [List.mem_singleton.mp mem] at success
  cases success

end Ipfs
