import Ipfs.Core.Request
import Ipfs.Lib.Conversion
import Ipfs.Lib.Json

/-!
# Formatted strings

The buffers of `sprintf` at the sizes that `malloc` is asked for, some of which have been an `int`.
-/

namespace Ipfs
open Http Conversion

/-- Which sizes `malloc` has memory for. -/
structure Allocator where
  gives : Nat → Bool

namespace Allocator
variable (heap : Allocator)

/-- No object is larger than `PTRDIFF_MAX`, and a size below 0 is a `size_t` above it. -/
def malloc (size : Int) : Option Nat :=
  if 0 ≤ size ∧ size < 2 ^ 63 ∧ heap.gives size.toNat then some size.toNat else none

end Allocator

/-! ## `ipfs_core_http_process_name` -/

structure HttpResponse where
  contentType : Bytes
  bytes : Bytes
  deriving DecidableEq

def json (bytes : Bytes) : HttpResponse where
  contentType := ascii "application/json"
  bytes := bytes

def resolvedText (result : Bytes) : Bytes :=
  ascii "\x7b \"Path\": \"" ++ (result ++ ascii "\" \x7d")

def publishedText (id path : Bytes) : Bytes :=
  ascii "\x7b \"Name\": \"" ++ (id ++ (ascii "\"\n \"Value\": \"" ++ (path ++ ascii "\" \x7d")))

/-- `resolve` and `publish` are what the resolver and the publisher return. -/
def httpProcessName (heap : Allocator) (resolve : CString → Option CString) (publish : CString → Bool) (id : CString)
    (request : HttpRequest) : Outcome HttpResponse :=
  match request.arguments with
  | [] => .failed
  | path :: _ => do
      let subCommand ← Outcome.access .nullPointer request.subCommand
      if subCommand.bytes = ascii "resolve" then
        let result ← Outcome.ofOption (resolve path)
        let size ← Outcome.ofOption (heap.malloc (id.strlen + path.strlen + 30))
        let bytes ← sprintf size (resolvedText result.bytes)
        pure (json bytes)
      else if subCommand.bytes = ascii "publish" ∧ publish path then
        let size ← Outcome.ofOption (heap.malloc (id.strlen + path.strlen + 30))
        let bytes ← sprintf size (publishedText id.bytes path.bytes)
        pure (json bytes)
      else .failed

/-! ## The url -/

namespace Allocator
variable (heap : Allocator)

/-- `ipfs_core_http_request_add_commands`. The second `malloc` is not checked, and NULL has room for nothing. -/
def httpRequestAddCommands (request : HttpRequest) (url : Bytes) : Outcome Bytes := do
  let size ← Outcome.ofOption (heap.malloc (url.length + sizeToInt (request.command.strlen + 2)))
  let url ← sprintf size (url ++ slash :: request.command.bytes)
  match request.subCommand with
  | none => pure url
  | some subCommand =>
      let size := (heap.malloc (url.length + sizeToInt (subCommand.strlen + 2))).getD 0
      sprintf size (url ++ slash :: subCommand.bytes)

def addParam (url : Bytes) (param : HttpParam) : Outcome Bytes := do
  let size ← Outcome.ofOption (heap.malloc (url.length + sizeToInt (param.name.strlen + param.value.strlen + 2)))
  sprintf size (url ++ slash :: param.name.bytes ++ equals :: param.value.bytes)

def addArgument (isFirst : Bool) (url : Bytes) (argument : CString) : Outcome Bytes := do
  let size ← Outcome.ofOption (heap.malloc (sizeToInt (argument.strlen + url.length + 6)))
  sprintf size (url ++ (if isFirst then question else ampersand) :: arg ++ equals :: argument.bytes)

/-- `ipfs_core_http_request_add_parameters`. -/
def httpRequestAddParameters (request : HttpRequest) (url : Bytes) : Outcome Bytes := do
  let url ← request.params.foldlM heap.addParam url
  request.arguments.foldlM (heap.addArgument true) url

end Allocator

/-! ## Room -/

/-- No `sprintf` has written behind what was allocated for it. -/
def Fits {α : Type} (outcome : Outcome α) : Prop := outcome ≠ .fault .outOfBounds

section Room
variable {α β : Type} {heap : Allocator}

theorem fits_ofOption_bind {x : Option α} {f : α → Outcome β} :
    Fits (Outcome.ofOption x >>= f) ↔ ∀ a, x = some a → Fits (f a) := by
  cases x with
  | none => simp [Fits]
  | some a => simp

theorem fits_sprintf_bind {size : Nat} {text : Bytes} {f : Bytes → Outcome β} :
    Fits (sprintf size text >>= f) ↔ text.length < size ∧ Fits (f text) := by
  unfold sprintf
  split
  · rename_i room
    exact (and_iff_right room).symm
  · rename_i full
    simp [Fits, full]

theorem fits_sprintf {size : Nat} {text : Bytes} : Fits (sprintf size text) ↔ text.length < size := by
  unfold Fits sprintf
  split
  · rename_i room
    simpa using room
  · rename_i full
    simpa using full

theorem fits_pure (a : α) : Fits (pure a : Outcome α) := by
  unfold Fits
  simp

theorem malloc_eq_some {size : Int} {given : Nat} (eq : heap.malloc size = some given) : (given : Int) = size := by
  unfold Allocator.malloc at eq
  split at eq
  · rename_i positive
    have same := Option.some.inj eq
    omega
  · cases eq

/-- The sum is what was meant unless the `int` is less. -/
theorem malloc_room {base size given : Nat} (eq : heap.malloc (base + sizeToInt size) = some given) :
    base + size ≤ given ↔ size < 2 ^ 31 := by
  have same := malloc_eq_some eq
  by_cases small : size < 2 ^ 31
  · rw [sizeToInt_of_lt small] at same
    omega
  · have less := sizeToInt_lt size
    omega

theorem malloc_le {base size given : Nat} (eq : heap.malloc (base + sizeToInt size) = some given) :
    given ≤ base + size := by
  have same := malloc_eq_some eq
  by_cases small : size < 2 ^ 31
  · rw [sizeToInt_of_lt small] at same
    omega
  · have less := sizeToInt_lt size
    omega

end Room

/-! ## What fits -/

section Conditions
variable (heap : Allocator)

/-- The resolved value is not much longer than the path it was resolved from. -/
def ResultFits (resolve : CString → Option CString) (id : CString) (request : HttpRequest) : Prop :=
  ∀ path subCommand result, request.arguments.head? = some path → request.subCommand = some subCommand →
    subCommand.bytes = ascii "resolve" → resolve path = some result →
    heap.malloc (id.strlen + path.strlen + 30) ≠ none → result.strlen ≤ id.strlen + path.strlen + 15

/-- The lengths are no more than an `int` holds, and there is memory for the url with the sub-command. -/
def CommandsFit (request : HttpRequest) (url : Nat) : Prop :=
  heap.malloc (url + sizeToInt (request.command.strlen + 2)) ≠ none → request.command.strlen + 2 < 2 ^ 31 ∧
    ∀ subCommand, request.subCommand = some subCommand → subCommand.strlen + 2 < 2 ^ 31 ∧
      heap.malloc ((url + request.command.strlen + 1 : Nat) + sizeToInt (subCommand.strlen + 2)) ≠ none

def ArgumentsFit : Nat → List CString → Prop
  | _, [] => True
  | url, argument :: arguments =>
      heap.malloc (sizeToInt (argument.strlen + url + 6)) ≠ none →
        argument.strlen + url + 6 < 2 ^ 31 ∧ ArgumentsFit (url + argument.strlen + 5) arguments

/-- There is no memory for the first parameter, or there is none of these and the url with the arguments is no longer
than an `int` holds. -/
def ParametersFit (request : HttpRequest) (url : Nat) : Prop :=
  match request.params with
  | [] => ArgumentsFit heap url request.arguments
  | param :: _ => heap.malloc (url + sizeToInt (param.name.strlen + param.value.strlen + 2)) = none

end Conditions

section Functions
variable {heap : Allocator}

theorem length_resolvedText (result : Bytes) : (resolvedText result).length = result.length + 14 := by
  unfold resolvedText
  rw [List.length_append, List.length_append, show (ascii "\x7b \"Path\": \"").length = 11 by decide,
    show (ascii "\" \x7d").length = 3 by decide]
  omega

theorem length_publishedText (id path : Bytes) : (publishedText id path).length = id.length + path.length + 27 := by
  unfold publishedText
  rw [List.length_append, List.length_append, List.length_append, List.length_append,
    show (ascii "\x7b \"Name\": \"").length = 11 by decide, show (ascii "\"\n \"Value\": \"").length = 13 by decide,
    show (ascii "\" \x7d").length = 3 by decide]
  omega

theorem httpProcessName_fits {resolve : CString → Option CString} {publish : CString → Bool} {id : CString}
    {request : HttpRequest} :
    Fits (httpProcessName heap resolve publish id request) ↔ ResultFits heap resolve id request := by
  unfold httpProcessName ResultFits
  cases arguments : request.arguments with
  | nil => simp [Fits]
  | cons path rest =>
      cases subCommand : request.subCommand with
      | none => simp [Fits]
      | some name =>
          simp only [Outcome.access_some, Outcome.returned_bind, List.head?_cons, Option.some.injEq]
          split
          · rename_i isResolve
            simp only [fits_ofOption_bind, fits_sprintf_bind, length_resolvedText, fits_pure, and_true]
            constructor
            · rintro fits _ _ result rfl rfl - resolved given
              obtain ⟨size, given⟩ := Option.ne_none_iff_exists'.mp given
              have room := fits result resolved size given
              have same := malloc_eq_some given
              rw [← CString.strlen] at room
              omega
            · intro fits result resolved size given
              have short := fits path name result rfl rfl isResolve resolved (by rw [given]; exact Option.some_ne_none _)
              have same := malloc_eq_some given
              rw [← CString.strlen]
              omega
          · rename_i notResolve
            refine iff_of_true ?_ fun _ _ _ _ same isResolve => absurd (same ▸ isResolve) notResolve
            split
            · simp only [fits_ofOption_bind, fits_sprintf_bind, length_publishedText, fits_pure, and_true]
              intro size given
              have same := malloc_eq_some given
              rw [← CString.strlen, ← CString.strlen]
              omega
            · simp [Fits]

theorem length_append_slash (url : Bytes) (text : CString) :
    (url ++ slash :: text.bytes).length = url.length + text.strlen + 1 := by
  unfold CString.strlen
  simp only [List.length_append, List.length_cons]
  omega

theorem unchecked_fits {base size : Nat} {text : Bytes} (length : text.length + 1 = base + size) :
    Fits (sprintf ((heap.malloc (base + sizeToInt size)).getD 0) text) ↔
      size < 2 ^ 31 ∧ heap.malloc (base + sizeToInt size) ≠ none := by
  rw [fits_sprintf]
  cases given : heap.malloc (base + sizeToInt size) with
  | none => simp
  | some room =>
      rw [← malloc_room given, ← length]
      simp

theorem httpRequestAddCommands_fits {request : HttpRequest} {url : Bytes} :
    Fits (heap.httpRequestAddCommands request url) ↔ CommandsFit heap request url.length := by
  have behind : Fits (match request.subCommand with
      | none => pure (url ++ slash :: request.command.bytes)
      | some subCommand =>
          sprintf ((heap.malloc ((url ++ slash :: request.command.bytes).length +
              sizeToInt (subCommand.strlen + 2))).getD 0)
            (url ++ slash :: request.command.bytes ++ slash :: subCommand.bytes)) ↔
      ∀ subCommand, request.subCommand = some subCommand → subCommand.strlen + 2 < 2 ^ 31 ∧
        heap.malloc ((url.length + request.command.strlen + 1 : Nat) + sizeToInt (subCommand.strlen + 2)) ≠ none := by
    cases request.subCommand with
    | none => simp [Fits]
    | some subCommand =>
        dsimp only
        rw [unchecked_fits (by rw [length_append_slash, Nat.add_assoc, Nat.add_assoc]), length_append_slash]
        simp
  unfold Allocator.httpRequestAddCommands CommandsFit
  rw [fits_ofOption_bind]
  simp only [fits_sprintf_bind, length_append_slash] at behind ⊢
  rw [behind]
  constructor
  · intro fits given
    obtain ⟨size, given⟩ := Option.ne_none_iff_exists'.mp given
    have room := malloc_room given
    exact ⟨room.mp (fits size given).1, (fits size given).2⟩
  · intro fits size given
    have room := malloc_room given
    obtain ⟨short, rest⟩ := fits (by rw [given]; exact Option.some_ne_none _)
    exact ⟨room.mpr short, rest⟩

/-- A parameter is written behind its buffer whenever there is one. -/
theorem addParam_eq_of_malloc (heap : Allocator) (url : Bytes) (param : HttpParam) : heap.addParam url param =
    if heap.malloc (url.length + sizeToInt (param.name.strlen + param.value.strlen + 2)) = none then .failed
    else .fault .outOfBounds := by
  unfold Allocator.addParam
  cases given : heap.malloc (url.length + sizeToInt (param.name.strlen + param.value.strlen + 2)) with
  | none => rfl
  | some size =>
      have least := malloc_le given
      rw [if_neg (Option.some_ne_none size), Outcome.ofOption_some, Outcome.returned_bind, sprintf, if_neg]
      simp only [List.length_append, List.length_cons, CString.strlen] at least ⊢
      omega

theorem addArguments_fits {arguments : List CString} {url : Bytes} :
    Fits (arguments.foldlM (heap.addArgument true) url) ↔ ArgumentsFit heap url.length arguments := by
  induction arguments generalizing url with
  | nil =>
      rw [List.foldlM_nil, ArgumentsFit]
      exact iff_true_intro (fits_pure url)
  | cons argument arguments ih =>
      have length : (url ++ (if true then question else ampersand) :: arg ++ equals :: argument.bytes).length =
          url.length + argument.strlen + 5 := by
        simp [CString.strlen, arg]
        omega
      rw [List.foldlM_cons, ArgumentsFit]
      unfold Allocator.addArgument
      rw [bind_assoc, fits_ofOption_bind]
      have each (size : Nat) (given : heap.malloc (sizeToInt (argument.strlen + url.length + 6)) = some size) :
          url.length + argument.strlen + 5 < size ↔ argument.strlen + url.length + 6 < 2 ^ 31 := by
        have given' : heap.malloc ((0 : Nat) + sizeToInt (argument.strlen + url.length + 6)) = some size := by
          rwa [Nat.cast_zero, zero_add]
        have room := malloc_room given'
        omega
      constructor
      · intro fits given
        obtain ⟨size, given⟩ := Option.ne_none_iff_exists'.mp given
        have fitting := fits size given
        rw [fits_sprintf_bind, length, each size given] at fitting
        refine ⟨fitting.1, ?_⟩
        rw [← length]
        exact ih.mp fitting.2
      · intro fits size given
        obtain ⟨short, rest⟩ := fits (by rw [given]; exact Option.some_ne_none _)
        rw [fits_sprintf_bind, length, each size given]
        refine ⟨short, ih.mpr ?_⟩
        rw [length]
        exact rest

theorem httpRequestAddParameters_fits {request : HttpRequest} {url : Bytes} :
    Fits (heap.httpRequestAddParameters request url) ↔ ParametersFit heap request url.length := by
  unfold Allocator.httpRequestAddParameters ParametersFit
  cases request.params with
  | nil => exact addArguments_fits
  | cons param params =>
      rw [List.foldlM_cons, addParam_eq_of_malloc]
      dsimp only
      split
      · rename_i none
        exact iff_of_true (by simp [Fits]) none
      · rename_i given
        exact iff_of_false (by simp [Fits]) given

end Functions

/-- Each `sprintf` writes at most what was allocated for it exactly when the resolved value is short, the command and the
sub-command have lengths that an `int` holds, and there is no parameter and no long list of arguments. -/
theorem formattedStrings_iff (heap : Allocator) (resolve : CString → Option CString) (publish : CString → Bool)
    (id url : CString) (request : HttpRequest) :
    (Fits (httpProcessName heap resolve publish id request) ↔ ResultFits heap resolve id request) ∧
      (Fits (heap.httpRequestAddCommands request url.bytes) ↔ CommandsFit heap request url.strlen) ∧
      (Fits (heap.httpRequestAddParameters request url.bytes) ↔ ParametersFit heap request url.strlen) :=
  ⟨httpProcessName_fits, httpRequestAddCommands_fits, httpRequestAddParameters_fits⟩

def letters (count : Nat) : CString where
  bytes := List.replicate count 0x61
  nulFree := by simp

/-- `name/resolve` of a name of 46 letters, with a parameter. -/
def resolveRequest : HttpRequest where
  command := ⟨ascii "name", by decide⟩
  subCommand := some ⟨ascii "resolve", by decide⟩
  params := [⟨letters 1, letters 1⟩]
  arguments := [letters 46]

theorem not_formattedStrings_fit :
    ¬ Fits (httpProcessName ⟨fun _ => true⟩ (fun _ => some (letters 108)) (fun _ => true) (letters 46) resolveRequest) ∧
      ¬ Fits (Allocator.httpRequestAddParameters ⟨fun _ => true⟩ resolveRequest (letters 20).bytes) := by
  constructor
  · rw [httpProcessName_fits]
    intro fits
    have short := fits (letters 46) _ (letters 108) rfl rfl rfl rfl (by decide)
    exact absurd short (by decide)
  · rw [httpRequestAddParameters_fits]
    exact (by decide : Allocator.malloc ⟨fun _ => true⟩ ((20 : Nat) + sizeToInt 4) ≠ none)

/-! ## Sizes that an `int` holds -/

section Plain
variable {heap : Allocator} (gives : ∀ size, heap.gives size)
include gives

theorem malloc_of_small {base size : Nat} (small : base + size < 2 ^ 31) :
    heap.malloc (base + sizeToInt size) = some (base + size) := by
  unfold Allocator.malloc
  rw [sizeToInt_of_lt (by omega), if_pos ⟨by omega, by omega, gives _⟩, ← Nat.cast_add, Int.toNat_natCast]

theorem httpRequestAddCommands_plain {request : HttpRequest} {url : Bytes}
    (small : (url ++ slash :: request.path).length < 2 ^ 31 - 2) :
    heap.httpRequestAddCommands request url = httpRequestAddCommands request url := by
  unfold HttpRequest.path at small
  simp only [List.length_append, List.length_cons] at small
  have first : url.length + (request.command.strlen + 2) < 2 ^ 31 := by
    rw [CString.strlen]
    omega
  unfold Allocator.httpRequestAddCommands Ipfs.httpRequestAddCommands
  rw [malloc_of_small gives first, Outcome.ofOption_some, Outcome.returned_bind,
    sprintf_of_lt (by rw [length_append_slash]; omega), Outcome.returned_bind, Outcome.returned_bind]
  cases sub : request.subCommand with
  | none => rfl
  | some subCommand =>
      simp only [sub, Option.map_some, Option.getD_some, List.length_cons] at small
      have second : (url ++ slash :: request.command.bytes).length + (subCommand.strlen + 2) < 2 ^ 31 := by
        rw [length_append_slash, CString.strlen, CString.strlen]
        omega
      dsimp only
      rw [malloc_of_small gives second, Option.getD_some]

theorem httpRequestAddArguments_plain {arguments : List CString} {url : Bytes}
    (small : (url ++ queryBytes arguments).length < 2 ^ 31 - 1) :
    arguments.foldlM (heap.addArgument true) url = arguments.foldlM (addArgument true) url := by
  induction arguments generalizing url with
  | nil => rw [List.foldlM_nil, List.foldlM_nil]
  | cons argument arguments ih =>
      have next : url ++ queryBytes (argument :: arguments) =
          (url ++ (if true then question else ampersand) :: arg ++ equals :: argument.bytes) ++ queryBytes arguments := by
        simp [queryBytes]
      have length : (url ++ (if true then question else ampersand) :: arg ++ equals :: argument.bytes).length + 1 =
          argument.strlen + url.length + 6 := by
        simp [CString.strlen, arg]
        omega
      rw [next] at small
      have fits : 0 + (argument.strlen + url.length + 6) < 2 ^ 31 := by
        rw [List.length_append] at small
        omega
      have given := malloc_of_small gives fits
      rw [Nat.cast_zero, zero_add, zero_add] at given
      rw [List.foldlM_cons, List.foldlM_cons]
      unfold Allocator.addArgument Ipfs.addArgument
      rw [given, Outcome.ofOption_some, Outcome.returned_bind, sprintf_of_lt (by omega), Outcome.returned_bind,
        Outcome.returned_bind]
      exact ih small

/-- The target that the client writes. -/
theorem httpRequestTarget_plain {request : HttpRequest} (none : request.params = [])
    (small : (apiV0Start ++ request.path ++ queryBytes request.arguments).length < 2 ^ 31 - 2) :
    (heap.httpRequestAddCommands request apiV0Start.dropLast >>= heap.httpRequestAddParameters request) =
      httpRequestTarget request := by
  have start (rest : Bytes) : apiV0Start.dropLast ++ slash :: rest = apiV0Start ++ rest := by
    simp [apiV0Start, slash]
  have commands : (apiV0Start.dropLast ++ slash :: request.path).length < 2 ^ 31 - 2 := by
    rw [start]
    rw [List.length_append] at small
    omega
  rw [httpRequestAddCommands_plain gives commands]
  unfold httpRequestTarget
  rw [httpRequestAddCommands_eq, Outcome.returned_bind, Outcome.returned_bind, start]
  unfold Allocator.httpRequestAddParameters Ipfs.httpRequestAddParameters
  rw [none, List.foldlM_nil, List.foldlM_nil, Outcome.pure_def, Outcome.returned_bind, Outcome.returned_bind]
  exact httpRequestAddArguments_plain gives (by omega)

end Plain

end Ipfs
