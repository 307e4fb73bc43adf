import Ipfs.Lib.Outcome
import Ipfs.Lib.Text
import Ipfs.Lib.Wire
import Mathlib.Data.Bool.AllAny

/-!
# Requests to the API

The client writes a request into the target of a HTTP request, with its arguments as the query. The server
splits the head that it has read in place, decodes the query and splits that.
-/

namespace Ipfs

namespace Http

def lf : UInt8 := 0x0a
def cr : UInt8 := 0x0d
def space : UInt8 := 0x20
def percent : UInt8 := 0x25
def ampersand : UInt8 := 0x26
def plus : UInt8 := 0x2b
def slash : UInt8 := 0x2f
def equals : UInt8 := 0x3d
def question : UInt8 := 0x3f

/-- `arg` -/
def arg : Bytes := [0x61, 0x72, 0x67]

/-- `API_V0_START`, with the slash at its end. -/
def apiV0Start : Bytes := [0x2f, 0x61, 0x70, 0x69, 0x2f, 0x76, 0x30, 0x2f]

/-- The end of the head. -/
def emptyLine : Bytes := [cr, lf, cr, lf]

def maxRead : Nat := 32 * 1024

end Http

open Http

structure HttpParam where
  name : CString
  value : CString
  deriving DecidableEq

structure HttpRequest where
  command : CString
  subCommand : Option CString := none
  params : List HttpParam := []
  arguments : List CString := []
  deriving DecidableEq

/-! ## The client -/

/-- Into a buffer of a size, with the NUL at the end. -/
def sprintf (size : Nat) (text : Bytes) : Outcome Bytes :=
  if text.length < size then .returned text else .fault .outOfBounds

/-- `ipfs_core_http_request_add_commands`. -/
def httpRequestAddCommands (request : HttpRequest) (url : Bytes) : Outcome Bytes := do
  let url ← sprintf (url.length + (request.command.strlen + 2)) (url ++ slash :: request.command.bytes)
  match request.subCommand with
  | none => pure url
  | some subCommand => sprintf (url.length + (subCommand.strlen + 2)) (url ++ slash :: subCommand.bytes)

def addParam (url : Bytes) (param : HttpParam) : Outcome Bytes :=
  sprintf (url.length + (param.name.strlen + param.value.strlen + 2))
    (url ++ slash :: param.name.bytes ++ equals :: param.value.bytes)

def addArgument (isFirst : Bool) (url : Bytes) (argument : CString) : Outcome Bytes :=
  sprintf (argument.strlen + url.length + 6)
    (url ++ (if isFirst then question else ampersand) :: arg ++ equals :: argument.bytes)

/-- `ipfs_core_http_request_add_parameters`, which does not clear `isFirst`. -/
def httpRequestAddParameters (request : HttpRequest) (url : Bytes) : Outcome Bytes := do
  let url ← request.params.foldlM addParam url
  request.arguments.foldlM (addArgument true) url

/-- From the path of the url start on, `/api/v0`. -/
def httpRequestTarget (request : HttpRequest) : Outcome Bytes := do
  let url ← httpRequestAddCommands request apiV0Start.dropLast
  httpRequestAddParameters request url

/-- What libcurl puts around the target: the header lines are those between the request line and the empty line. -/
structure HttpHead where
  method : Bytes
  version : Bytes
  headers : List Bytes
  method_clean : ∀ b ∈ method, b ≠ 0 ∧ b ≠ cr ∧ b ≠ space
  version_clean : ∀ b ∈ version, b ≠ 0 ∧ b ≠ cr
  headers_clean : ∀ header ∈ headers, header ≠ [] ∧ ∀ b ∈ header, b ≠ 0 ∧ b ≠ cr
  -- HTTP/1.1 has `Host`
  headers_nonempty : headers ≠ []

/-- What follows the target, up to the empty line. -/
def HttpHead.rest (head : HttpHead) : Bytes :=
  head.version ++ head.headers.flatMap fun header => cr :: lf :: header

/-- The head with the target, and of the body what comes with it. -/
def HttpHead.sent (head : HttpHead) (target body : Bytes) : Bytes :=
  head.method ++ space :: (target ++ space :: head.rest) ++ emptyLine ++ body

/-! ## URLs -/

/-- The bytes that may stand in a URL behind the authority, a fragment apart. -/
def UrlByte (b : UInt8) : Prop :=
  0x20 < b ∧ b < 0x7f ∧ b ∉ [0x22, 0x23, 0x3c, 0x3e, 0x5b, 0x5c, 0x5d, 0x5e, 0x60, 0x7b, 0x7c, 0x7d]

instance (b : UInt8) : Decidable (UrlByte b) := inferInstanceAs (Decidable (_ ∧ _))

def hexValue (b : UInt8) : Option Nat :=
  if 0x30 ≤ b ∧ b ≤ 0x39 then some (b.toNat - 0x30)
  else if 0x41 ≤ b ∧ b ≤ 0x46 then some (b.toNat - 0x37)
  else if 0x61 ≤ b ∧ b ≤ 0x66 then some (b.toNat - 0x57)
  else none

/-- Any byte may be escaped, and one that has no place in a URL has to be. -/
inductive PercentEncodes : Bytes → Bytes → Prop
  | nil : PercentEncodes [] []
  | literal {b : UInt8} {raw encoded : Bytes} (legal : UrlByte b) (plain : b ≠ percent ∧ b ≠ plus)
      (rest : PercentEncodes raw encoded) : PercentEncodes (b :: raw) (b :: encoded)
  | escape {high low : UInt8} {h l : Nat} {raw encoded : Bytes} (first : hexValue high = some h)
      (second : hexValue low = some l) (rest : PercentEncodes raw encoded) :
      PercentEncodes ((16 * h + l).toUInt8 :: raw) (percent :: high :: low :: encoded)

/-- `libp2p_utils_url_decode`. -/
structure UrlLib where
  decode : Bytes → CString
  decode_encoded : ∀ (raw : CString) encoded, PercentEncodes raw.bytes encoded → decode encoded = raw

/-- The request as the client writes it, its parameters and arguments encoded. -/
structure HttpRequest.Encodes (request asked : HttpRequest) : Prop where
  command : request.command = asked.command
  subCommand : request.subCommand = asked.subCommand
  params : List.Forall₂ (fun param raw => PercentEncodes raw.name.bytes param.name.bytes ∧
    PercentEncodes raw.value.bytes param.value.bytes) request.params asked.params
  arguments : List.Forall₂ (fun argument raw => PercentEncodes raw.bytes argument.bytes) request.arguments asked.arguments
  command_legal : ∀ b ∈ asked.command.bytes, UrlByte b ∧ b ≠ question ∧ b ≠ slash
  subCommand_legal : ∀ subCommand ∈ asked.subCommand, ∀ b ∈ subCommand.bytes, UrlByte b ∧ b ≠ question

/-! ## The server -/

/-- The strings that the fields of `struct s_request` lead to. -/
structure SRequest where
  method : Bytes
  path : Bytes
  query : Option Bytes
  httpVer : Bytes
  header : Bytes
  deriving DecidableEq

/-- How `api_connection_thread` splits the head. A question mark is looked for as far as the head goes. -/
def splitHead (head : Bytes) : Outcome SRequest := do
  let (method, p) ← Outcome.ofOption (Text.cut space head)
  let (path, query, p) ← match Text.cut question p with
    | some (path, p) => do
        let (query, p) ← Outcome.ofOption (Text.cut space p)
        pure (path, some query, p)
    | none => do
        let (path, p) ← Outcome.ofOption (Text.cut space p)
        pure (path, none, p)
  let (httpVer, p) ← Outcome.ofOption (Text.cut cr p)
  pure { method, path, query, httpVer, header := p.dropWhile fun b => b = cr || b = lf }

/-- What one `read` into `buf` leaves there, as `api_connection_thread` goes on with it. -/
def readHead (available : Bytes) : Outcome SRequest := do
  let buf := available.take (maxRead + 1)
  if buf = [] then .failed
  -- `buf[r] = '\0'`
  else if maxRead < buf.length then .fault .outOfBounds
  else do
    let (head, _) ← Outcome.ofOption (Text.search emptyLine (buf.takeWhile (· ≠ 0)))
    splitHead head

/-- A parameter without value is copied from NULL. -/
def addSegment (request : HttpRequest) (segment : Bytes) : Outcome HttpRequest :=
  match Text.cut equals segment with
  | none => .fault .nullPointer
  | some (name, value) =>
      if name = arg then pure { request with arguments := request.arguments ++ [CString.ofBytes value] }
      else pure { request with params := request.params ++ [⟨CString.ofBytes name, CString.ofBytes value⟩] }

def splitCommand (path : Bytes) : HttpRequest :=
  match Text.cut slash path with
  | some (command, subCommand) => { command := CString.ofBytes command, subCommand := some (CString.ofBytes subCommand) }
  | none => { command := CString.ofBytes path }

/-- `api_build_http_request`, with the path behind `API_V0_START`. -/
def apiBuildHttpRequest (url : UrlLib) (path : Bytes) (query : Option Bytes) : Outcome HttpRequest :=
  let request := splitCommand path
  match query with
  | some query => ((url.decode query).bytes.splitOn ampersand).foldlM addSegment request
  | none => pure request

def apiReceive (url : UrlLib) (available : Bytes) : Outcome HttpRequest := do
  let request ← readHead available
  if apiV0Start <+: request.path then apiBuildHttpRequest url (request.path.drop apiV0Start.length) request.query
  else .failed

/-! ## What is read back -/

def RequestReadsBack (url : UrlLib) (request asked : HttpRequest) (head : HttpHead) (body : Bytes) : Prop :=
  ∃ target, httpRequestTarget request = .returned target ∧ apiReceive url (head.sent target body) = .returned asked

/-- The length of a target without parameters. -/
def HttpRequest.targetLength (request : HttpRequest) : Nat :=
  apiV0Start.length + request.command.strlen +
    (request.subCommand.map fun subCommand => subCommand.strlen + 1).getD 0 +
    (request.arguments.map fun argument => argument.strlen + 5).sum

/-- No parameters; an argument without ampersand, or none and no question mark behind the target; and the buffer
is not filled. -/
def Readable (request asked : HttpRequest) (head : HttpHead) (body : Bytes) : Prop :=
  asked.params = [] ∧
    (asked.arguments = [] ∧ question ∉ head.rest ∨
      ∃ argument, asked.arguments = [argument] ∧ ampersand ∉ argument.bytes) ∧
    head.method.length + request.targetLength + head.rest.length + 6 + body.length ≤ maxRead

/-! ## Encoded text -/

theorem hexValue_lt {b : UInt8} {value : Nat} (digit : hexValue b = some value) : value < 16 := by
  simp only [hexValue, UInt8.le_iff_toNat_le] at digit
  split at digit
  · simp at *
    omega
  · split at digit
    · simp at *
      omega
    · split at digit
      · simp at *
        omega
      · cases digit

theorem hexValue_range {b : UInt8} {value : Nat} (digit : hexValue b = some value) :
    (48 ≤ b.toNat ∧ b.toNat ≤ 57) ∨ (65 ≤ b.toNat ∧ b.toNat ≤ 70) ∨ (97 ≤ b.toNat ∧ b.toNat ≤ 102) := by
  rw [hexValue] at digit
  split at digit
  · exact .inl ‹_›
  · split at digit
    · exact .inr (.inl ‹_›)
    · split at digit
      · exact .inr (.inr ‹_›)
      · cases digit

theorem urlByte_hex {b : UInt8} {value : Nat} (digit : hexValue b = some value) : UrlByte b := by
  have range := hexValue_range digit
  simp only [UrlByte, List.mem_cons, List.not_mem_nil, or_false, UInt8.lt_iff_toNat_lt, ← UInt8.toNat_inj]
  refine ⟨?_, ?_, ?_⟩ <;> (simp; omega)

namespace PercentEncodes
variable {raw raw' encoded encoded' : Bytes}

theorem append (first : PercentEncodes raw encoded) (second : PercentEncodes raw' encoded') :
    PercentEncodes (raw ++ raw') (encoded ++ encoded') := by
  induction first with
  | nil => exact second
  | literal legal plain _ ih => exact .literal legal plain ih
  | escape high low _ ih => exact .escape high low ih

theorem self {text : Bytes} (legal : ∀ b ∈ text, UrlByte b ∧ b ≠ percent ∧ b ≠ plus) : PercentEncodes text text := by
  induction text with
  | nil => exact .nil
  | cons b text ih =>
      obtain ⟨url, plain⟩ := legal b (by simp)
      exact .literal url plain (ih fun b mem => legal b (by simp [mem]))

theorem urlByte (encodes : PercentEncodes raw encoded) : ∀ b ∈ encoded, UrlByte b := by
  induction encodes with
  | nil => simp
  | literal legal _ _ ih =>
      intro b mem
      rcases List.mem_cons.mp mem with rfl | mem
      · exact legal
      · exact ih b mem
  | escape high low _ ih =>
      intro b mem
      simp only [List.mem_cons] at mem
      rcases mem with rfl | rfl | rfl | mem
      · decide
      · exact urlByte_hex high
      · exact urlByte_hex low
      · exact ih b mem

end PercentEncodes

/-! ## The target -/

def HttpRequest.path (request : HttpRequest) : Bytes :=
  request.command.bytes ++ (request.subCommand.map fun subCommand => slash :: subCommand.bytes).getD []

/-- The arguments as the client writes them, each behind a question mark. -/
def queryBytes (arguments : List CString) : Bytes :=
  arguments.flatMap fun argument => question :: arg ++ equals :: argument.bytes

theorem sprintf_of_lt {size : Nat} {text : Bytes} (fits : text.length < size) : sprintf size text = .returned text := by
  rw [sprintf, if_pos fits]

theorem httpRequestAddCommands_eq (request : HttpRequest) (url : Bytes) :
    httpRequestAddCommands request url = .returned (url ++ slash :: request.path) := by
  have first : (url ++ slash :: request.command.bytes).length < url.length + (request.command.strlen + 2) := by
    simp [CString.strlen]
  rw [httpRequestAddCommands, sprintf_of_lt first, Outcome.returned_bind, HttpRequest.path]
  cases request.subCommand with
  | none => simp
  | some subCommand =>
      simp only
      rw [sprintf_of_lt (by simp [CString.strlen]; omega)]
      simp

theorem addArguments_eq (arguments : List CString) (url : Bytes) :
    arguments.foldlM (addArgument true) url = .returned (url ++ queryBytes arguments) := by
  induction arguments generalizing url with
  | nil => simp [queryBytes]
  | cons argument arguments ih =>
      have fits : (url ++ (if true then question else ampersand) :: arg ++ equals :: argument.bytes).length <
          argument.strlen + url.length + 6 := by
        simp [CString.strlen, arg]
        omega
      rw [List.foldlM_cons, addArgument, sprintf_of_lt fits, Outcome.returned_bind, ih]
      simp [queryBytes]

/-- The buffer for a parameter has no room for the NUL. -/
theorem addParam_eq (url : Bytes) (param : HttpParam) : addParam url param = .fault .outOfBounds := by
  rw [addParam, sprintf, if_neg]
  simp [CString.strlen]

theorem httpRequestTarget_eq {request : HttpRequest} (none : request.params = []) :
    httpRequestTarget request = .returned (apiV0Start ++ request.path ++ queryBytes request.arguments) := by
  rw [httpRequestTarget, httpRequestAddCommands_eq, Outcome.returned_bind, httpRequestAddParameters, none,
    List.foldlM_nil, Outcome.pure_def, Outcome.returned_bind, addArguments_eq]
  simp [apiV0Start, slash]

theorem httpRequestTarget_param {request : HttpRequest} (some : request.params ≠ []) :
    httpRequestTarget request = .fault .outOfBounds := by
  obtain ⟨param, params, eq⟩ := List.exists_cons_of_ne_nil some
  rw [httpRequestTarget, httpRequestAddCommands_eq, Outcome.returned_bind, httpRequestAddParameters, eq,
    List.foldlM_cons, addParam_eq]
  rfl

theorem targetLength_eq (request : HttpRequest) :
    (apiV0Start ++ request.path ++ queryBytes request.arguments).length = request.targetLength := by
  have query : (queryBytes request.arguments).length =
      (request.arguments.map fun argument => argument.strlen + 5).sum := by
    simp [queryBytes, List.length_flatMap, arg, CString.strlen, add_comm, add_left_comm]
  rw [List.length_append, List.length_append, query, HttpRequest.targetLength, HttpRequest.path]
  cases request.subCommand with
  | none => simp [CString.strlen]
  | some subCommand =>
      simp [CString.strlen]
      omega

/-! ## The head -/

theorem search_headers {headers : List Bytes}
    (clean : ∀ header ∈ headers, header ≠ [] ∧ ∀ b ∈ header, b ≠ 0 ∧ b ≠ cr) (body : Bytes) :
    Text.search emptyLine ((headers.flatMap fun header => cr :: lf :: header) ++ (emptyLine ++ body)) =
      some (headers.flatMap fun header => cr :: lf :: header, body) := by
  induction headers with
  | nil => exact Text.search_prefix (by simp [emptyLine]) body
  | cons header headers ih =>
      obtain ⟨nonempty, noCr⟩ := clean header (by simp)
      obtain ⟨first, line, rfl⟩ := List.exists_cons_of_ne_nil nonempty
      have absent : cr ∉ lf :: first :: line := by
        rw [List.mem_cons, not_or]
        exact ⟨by decide, fun mem => (noCr cr mem).2 rfl⟩
      have other : ¬ cr = first := fun same => absent (by simp [same])
      have found := @Text.search_append_left UInt8 _ cr [lf, cr, lf] _ absent
        ((headers.flatMap fun header => cr :: lf :: header) ++ (emptyLine ++ body))
      rw [← emptyLine, ih fun header mem => clean header (by simp [mem])] at found
      have notHere : ¬ emptyLine <+: cr :: lf :: first :: (line ++
          ((headers.flatMap fun header => cr :: lf :: header) ++ (emptyLine ++ body))) := by
        simp [emptyLine, List.cons_prefix_cons, other]
      simp only [List.flatMap_cons, List.cons_append, List.append_assoc] at found ⊢
      rw [Text.search, if_neg notHere, found]
      simp

theorem HttpHead.rest_eq (head : HttpHead) : ∃ behind, head.rest = head.version ++ cr :: behind := by
  obtain ⟨header, headers, eq⟩ := List.exists_cons_of_ne_nil head.headers_nonempty
  exact ⟨lf :: header ++ headers.flatMap fun header => cr :: lf :: header, by simp [HttpHead.rest, eq]⟩

theorem search_sent (head : HttpHead) {target : Bytes} (clean : cr ∉ target) (body : Bytes) :
    Text.search emptyLine (head.sent target body) =
      some (head.method ++ space :: (target ++ space :: head.rest), body) := by
  have absent : cr ∉ head.method ++ space :: (target ++ space :: head.version) := by
    simp only [List.mem_append, List.mem_cons, not_or]
    exact ⟨fun mem => (head.method_clean cr mem).2.1 rfl, by decide, clean, by decide,
      fun mem => (head.version_clean cr mem).2 rfl⟩
  have found := @Text.search_append_left UInt8 _ cr [lf, cr, lf] _ absent
    ((head.headers.flatMap fun header => cr :: lf :: header) ++ (emptyLine ++ body))
  rw [← emptyLine, search_headers head.headers_clean body] at found
  simpa [HttpHead.sent, HttpHead.rest] using found

theorem HttpHead.rest_clean (head : HttpHead) : (0 : UInt8) ∉ head.rest := by
  simp only [HttpHead.rest, List.mem_append, List.mem_flatMap, List.mem_cons, not_or, not_exists, not_and]
  exact ⟨fun mem => (head.version_clean 0 mem).1 rfl, fun header mem => ⟨by decide, by decide,
    fun zero => ((head.headers_clean header mem).2 0 zero).1 rfl⟩⟩

theorem readHead_sent (head : HttpHead) {target body : Bytes} (clean : ∀ b ∈ target, b ≠ 0 ∧ b ≠ cr)
    (short : (head.sent target body).length ≤ maxRead) :
    readHead (head.sent target body) = splitHead (head.method ++ space :: (target ++ space :: head.rest)) := by
  have whole : (head.sent target body).take (maxRead + 1) = head.sent target body :=
    List.take_of_length_le (by omega)
  have noZero : ∀ b ∈ head.method ++ space :: (target ++ space :: head.rest) ++ emptyLine, b ≠ 0 := by
    rintro b mem rfl
    simp only [List.mem_append, List.mem_cons] at mem
    rcases mem with (mem | mem | mem | mem | mem) | mem
    · exact (head.method_clean 0 mem).1 rfl
    · exact absurd mem (by decide)
    · exact (clean 0 mem).1 rfl
    · exact absurd mem (by decide)
    · exact head.rest_clean mem
    · exact absurd mem (by decide)
  have text : (head.sent target body).takeWhile (· ≠ 0) = head.sent target (body.takeWhile (· ≠ 0)) := by
    rw [HttpHead.sent, List.takeWhile_append_of_pos fun b mem => by simpa using noZero b mem]
    rfl
  have nonempty : head.sent target body ≠ [] := by simp [HttpHead.sent]
  rw [readHead, whole]
  simp only [nonempty, if_false, not_lt.mpr short, text,
    search_sent head (fun mem => (clean cr mem).2 rfl), Outcome.ofOption_some, Outcome.returned_bind]

theorem readHead_long {available : Bytes} (long : maxRead < available.length) :
    readHead available = .fault .outOfBounds := by
  have full : (available.take (maxRead + 1)).length = maxRead + 1 := by
    rw [List.length_take]
    omega
  have nonempty : available.take (maxRead + 1) ≠ [] := List.ne_nil_of_length_pos (by omega)
  rw [readHead]
  simp only [nonempty, if_false, full, Nat.lt_succ_self, if_true]

section
variable {method target path query behind : Bytes}

theorem splitHead_query_eq (named : space ∉ method) (plain : question ∉ path) (whole : space ∉ query) :
    splitHead (method ++ space :: ((path ++ question :: query) ++ space :: behind)) =
      Outcome.ofOption (Text.cut cr behind) >>= fun parts => pure
        { method, path, query := some query, httpVer := parts.1, header := parts.2.dropWhile fun b => b = cr || b = lf } := by
  rw [splitHead, Text.cut_append named]
  simp only [Outcome.ofOption_some, Outcome.returned_bind, List.append_assoc, List.cons_append, Text.cut_append plain,
    Text.cut_append whole]
  rfl

theorem splitHead_plain_eq (named : space ∉ method) (plain : question ∉ target) (whole : space ∉ target)
    (late : question ∉ behind) :
    splitHead (method ++ space :: (target ++ space :: behind)) =
      Outcome.ofOption (Text.cut cr behind) >>= fun parts => pure
        { method, path := target, query := none, httpVer := parts.1,
          header := parts.2.dropWhile fun b => b = cr || b = lf } := by
  have none : Text.cut question (target ++ space :: behind) = none := by
    rw [Text.cut_eq_none, List.mem_append, List.mem_cons, not_or, not_or]
    exact ⟨plain, by decide, late⟩
  rw [splitHead, Text.cut_append named]
  simp only [Outcome.ofOption_some, Outcome.returned_bind, none, Text.cut_append whole]
  rfl

/-- A question mark behind the target: the path goes on up to it. -/
theorem splitHead_late_eq (named : space ∉ method) (plain : question ∉ target) (late : question ∈ behind)
    {request : SRequest} (split : splitHead (method ++ space :: (target ++ space :: behind)) = .returned request) :
    ∃ more, request.path = target ++ space :: more := by
  obtain ⟨more, later, found⟩ : ∃ more later, Text.cut question (space :: behind) = some (space :: more, later) := by
    cases cut : Text.cut question behind with
    | none => exact absurd late (Text.cut_eq_none.mp cut)
    | some parts => exact ⟨parts.1, parts.2, by simp [Text.cut, cut, show space ≠ question by decide]⟩
  have cut := Text.cut_append_left plain (space :: behind)
  rw [found, Option.map_some] at cut
  rw [splitHead, Text.cut_append named] at split
  simp only [Outcome.ofOption_some, Outcome.returned_bind, cut] at split
  obtain ⟨query, -, split⟩ := Outcome.bind_eq_returned.mp split
  simp only [Outcome.pure_def, Outcome.returned_bind] at split
  obtain ⟨version, -, split⟩ := Outcome.bind_eq_returned.mp split
  exact ⟨more, congrArg SRequest.path (Outcome.returned.inj split).symm⟩

end

section
variable (head : HttpHead) {target path query : Bytes}

theorem HttpHead.space_not_mem_method : space ∉ head.method := fun mem => (head.method_clean space mem).2.2 rfl

/-- The version ends before the first header. -/
theorem HttpHead.cut_rest : ∃ header, Text.cut cr head.rest = some (head.version, header) := by
  obtain ⟨behind, rest⟩ := head.rest_eq
  rw [rest]
  exact ⟨_, Text.cut_append (fun mem => (head.version_clean cr mem).2 rfl) _⟩

theorem splitHead_query (plain : question ∉ path) (whole : space ∉ query) :
    ∃ request, splitHead (head.method ++ space :: ((path ++ question :: query) ++ space :: head.rest)) = .returned request ∧
      request.path = path ∧ request.query = some query := by
  obtain ⟨header, version⟩ := head.cut_rest
  rw [splitHead_query_eq head.space_not_mem_method plain whole, version]
  exact ⟨_, rfl, rfl, rfl⟩

theorem splitHead_plain (plain : question ∉ target) (whole : space ∉ target) (behind : question ∉ head.rest) :
    ∃ request, splitHead (head.method ++ space :: (target ++ space :: head.rest)) = .returned request ∧
      request.path = target ∧ request.query = none := by
  obtain ⟨header, version⟩ := head.cut_rest
  rw [splitHead_plain_eq head.space_not_mem_method plain whole behind, version]
  exact ⟨_, rfl, rfl, rfl⟩

end

/-! ## The command -/

theorem ofBytes_append_ne (text : CString) {b : UInt8} (nonzero : b ≠ 0) (more : Bytes) :
    CString.ofBytes (text.bytes ++ b :: more) ≠ text := by
  intro same
  have length := congrArg CString.strlen same
  have all : ∀ c ∈ text.bytes, decide (c ≠ 0) = true := fun c mem => by
    simpa using fun zero : c = 0 => text.nulFree (zero ▸ mem)
  simp only [CString.strlen, CString.ofBytes, List.takeWhile_append_of_pos all, List.length_append] at length
  simp [nonzero] at length

section
variable {asked : HttpRequest} (legal : ∀ b ∈ asked.command.bytes, UrlByte b ∧ b ≠ question ∧ b ≠ slash)
include legal

theorem splitCommand_path :
    splitCommand asked.path = { command := asked.command, subCommand := asked.subCommand } := by
  have absent : slash ∉ asked.command.bytes := fun mem => (legal slash mem).2.2 rfl
  rw [splitCommand, HttpRequest.path]
  cases subCommand : asked.subCommand with
  | none => simp [Text.cut_eq_none.mpr absent]
  | some subCommand => simp [Text.cut_append absent]

/-- What follows the target in the path shows in the command, or in the sub command. -/
theorem splitCommand_more (more : Bytes) :
    (splitCommand (asked.path ++ space :: more)).command ≠ asked.command ∨
      (splitCommand (asked.path ++ space :: more)).subCommand ≠ asked.subCommand := by
  have absent : slash ∉ asked.command.bytes := fun mem => (legal slash mem).2.2 rfl
  have later (text : CString) (behind : Bytes) : CString.ofBytes (text.bytes ++ space :: behind) ≠ text :=
    ofBytes_append_ne text (by decide) behind
  rw [splitCommand, HttpRequest.path]
  cases subCommand : asked.subCommand with
  | none =>
      left
      rw [Option.map_none, Option.getD_none, List.append_nil, Text.cut_append_left absent]
      cases cut : Text.cut slash more with
      | none => simpa [Text.cut, cut, show space ≠ slash by decide] using later asked.command more
      | some parts => simpa [Text.cut, cut, show space ≠ slash by decide] using later asked.command parts.1
  | some text =>
      right
      simpa [Text.cut_append absent] using later text more

end

/-! ## The query -/

theorem addSegment_grows {request request' : HttpRequest} {segment : Bytes}
    (added : addSegment request segment = .returned request') :
    request'.command = request.command ∧ request'.subCommand = request.subCommand ∧
      ((∃ value, segment = arg ++ equals :: value ∧ request'.params = request.params ∧
          request'.arguments = request.arguments ++ [CString.ofBytes value]) ∨
        request.params.length < request'.params.length) := by
  rw [addSegment] at added
  cases cut : Text.cut equals segment with
  | none => simp [cut] at added
  | some parts =>
      obtain ⟨name, value⟩ := parts
      simp only [cut] at added
      by_cases isArg : name = arg
      · rw [if_pos isArg, Outcome.pure_def, Outcome.returned.injEq] at added
        subst added
        exact ⟨rfl, rfl, .inl ⟨value, isArg ▸ (Text.cut_eq_some cut).1, rfl, rfl⟩⟩
      · rw [if_neg isArg, Outcome.pure_def, Outcome.returned.injEq] at added
        subst added
        exact ⟨rfl, rfl, .inr (by simp)⟩

theorem addSegments_grow {segments : List Bytes} {request request' : HttpRequest}
    (added : segments.foldlM addSegment request = .returned request') :
    request'.command = request.command ∧ request'.subCommand = request.subCommand ∧
      request.params.length ≤ request'.params.length := by
  induction segments generalizing request with
  | nil =>
      simp only [List.foldlM_nil, Outcome.pure_def, Outcome.returned.injEq] at added
      simp [added]
  | cons segment segments ih =>
      rw [List.foldlM_cons] at added
      obtain ⟨next, first, rest⟩ := Outcome.bind_eq_returned.mp added
      obtain ⟨command, subCommand, grows⟩ := addSegment_grows first
      obtain ⟨command', subCommand', params⟩ := ih rest
      refine ⟨command'.trans command, subCommand'.trans subCommand, ?_⟩
      rcases grows with ⟨_, _, same, _⟩ | more
      · exact same ▸ params
      · omega

/-- Without a new parameter every segment is an argument. -/
theorem addSegments_arguments {segments : List Bytes} {request request' : HttpRequest}
    (added : segments.foldlM addSegment request = .returned request') (none : request'.params.length ≤ request.params.length) :
    ∃ values : List Bytes, segments = values.map (fun value => arg ++ equals :: value) ∧
      request'.arguments = request.arguments ++ values.map CString.ofBytes := by
  induction segments generalizing request with
  | nil =>
      simp only [List.foldlM_nil, Outcome.pure_def, Outcome.returned.injEq] at added
      exact ⟨[], rfl, by simp [added]⟩
  | cons segment segments ih =>
      rw [List.foldlM_cons] at added
      obtain ⟨next, first, rest⟩ := Outcome.bind_eq_returned.mp added
      have grown := (addSegments_grow rest).2.2
      rcases (addSegment_grows first).2.2 with ⟨value, rfl, same, arguments⟩ | more
      · obtain ⟨values, rfl, all⟩ := ih rest (same ▸ none)
        exact ⟨value :: values, rfl, by simp [all, arguments]⟩
      · omega

/-- The query behind its question mark, when there is an argument. -/
def queryOf (argument : CString) (arguments : List CString) : CString where
  bytes := arg ++ equals :: argument.bytes ++ queryBytes arguments
  nulFree := by
    simp only [queryBytes, List.mem_append, List.mem_cons, List.mem_flatMap, not_or, not_exists, not_and]
    exact ⟨⟨by decide, by decide, argument.nulFree⟩, fun other _ =>
      ⟨⟨by decide, by decide⟩, by decide, other.nulFree⟩⟩

theorem queryOf_bytes (argument : CString) (arguments : List CString) :
    (queryOf argument arguments).bytes = arg ++ equals :: argument.bytes ++ queryBytes arguments := rfl

theorem queryBytes_cons (argument : CString) (arguments : List CString) :
    queryBytes (argument :: arguments) = question :: (queryOf argument arguments).bytes := by
  simp [queryBytes, queryOf]

theorem argument_encodes {argument raw : CString} (encodes : PercentEncodes raw.bytes argument.bytes) :
    PercentEncodes (arg ++ equals :: raw.bytes) (arg ++ equals :: argument.bytes) :=
  (PercentEncodes.self (List.all_iff_forall_prop.mp (by decide))).append (.literal (by decide) (by decide) encodes)

theorem queryBytes_encodes {arguments asked : List CString}
    (encodes : List.Forall₂ (fun argument raw => PercentEncodes raw.bytes argument.bytes) arguments asked) :
    PercentEncodes (queryBytes asked) (queryBytes arguments) := by
  induction encodes with
  | nil => exact .nil
  | cons first _ ih =>
      simp only [queryBytes, List.flatMap_cons] at ih ⊢
      exact .append (.literal (by decide) (by decide) (argument_encodes first)) ih

theorem queryOf_decode (url : UrlLib) {argument raw : CString} {arguments asked : List CString}
    (first : PercentEncodes raw.bytes argument.bytes)
    (encodes : List.Forall₂ (fun argument raw => PercentEncodes raw.bytes argument.bytes) arguments asked) :
    url.decode (queryOf argument arguments).bytes = queryOf raw asked :=
  url.decode_encoded _ _ ((argument_encodes first).append (queryBytes_encodes encodes))

theorem CString.ofBytes_of_nulFree {bytes : Bytes} (nulFree : 0 ∉ bytes) : (CString.ofBytes bytes).bytes = bytes :=
  congrArg CString.bytes (CString.ofBytes_bytes ⟨bytes, nulFree⟩)

/-- The segments of the decoded query are the arguments only if there is one, without ampersand. -/
theorem segments_single {raw : CString} {asked : List CString} {values : List Bytes}
    (segments : (queryOf raw asked).bytes.splitOn ampersand = values.map (fun value => arg ++ equals :: value))
    (arguments : raw :: asked = values.map CString.ofBytes) : asked = [] ∧ ampersand ∉ raw.bytes := by
  have segment : ∀ value ∈ values, arg ++ equals :: value ∈ (queryOf raw asked).bytes.splitOn ampersand :=
    fun value mem => segments ▸ List.mem_map.mpr ⟨value, mem, rfl⟩
  have same : ∀ value ∈ values, (CString.ofBytes value).bytes = value := fun value mem =>
    CString.ofBytes_of_nulFree fun zero =>
      (queryOf raw asked).nulFree ((Text.mem_splitOn (segment value mem)).2 0 (by simp [zero]))
  cases values with
  | nil => simp at arguments
  | cons first values =>
      rw [List.map_cons, List.cons.injEq] at arguments
      obtain ⟨isRaw, others⟩ := arguments
      have bytes : raw.bytes = first := by rw [isRaw, same first (by simp)]
      have joined : [ampersand].intercalate ((queryOf raw asked).bytes.splitOn ampersand) = (queryOf raw asked).bytes :=
        List.intercalate_splitOn ampersand
      rw [segments, queryOf_bytes, List.map_cons, ← bytes] at joined
      cases asked with
      | nil =>
          refine ⟨rfl, fun mem => (Text.mem_splitOn (segment first (by simp))).1 ?_⟩
          simp [← bytes, mem]
      | cons second asked =>
          -- a question mark against an ampersand behind the first argument
          cases values with
          | nil => simp at others
          | cons next values =>
              rw [List.map_cons, List.intercalate_cons_cons, queryBytes_cons, List.append_assoc,
                List.append_cancel_left_eq, List.singleton_append, List.cons.injEq] at joined
              exact absurd joined.1 (by decide)

/-! ## Requests -/

theorem UrlByte.clean {b : UInt8} (legal : UrlByte b) : b ≠ 0 ∧ b ≠ cr ∧ b ≠ space := by
  refine ⟨?_, ?_, ?_⟩ <;>
    · rintro rfl
      exact absurd legal (by decide)

theorem apiReceive_split (url : UrlLib) {available path : Bytes} {request : SRequest}
    (read : readHead available = .returned request) (isPath : request.path = apiV0Start ++ path) :
    apiReceive url available = apiBuildHttpRequest url path request.query := by
  rw [apiReceive, read, Outcome.returned_bind, isPath, if_pos (List.prefix_append _ _), List.drop_left]

section
variable {request asked : HttpRequest} (encodes : request.Encodes asked)
include encodes

theorem HttpRequest.Encodes.path : request.path = asked.path := by
  rw [HttpRequest.path, HttpRequest.path, encodes.command, encodes.subCommand]

theorem HttpRequest.Encodes.path_byte {b : UInt8} (mem : b ∈ asked.path) : UrlByte b ∧ b ≠ question := by
  rw [HttpRequest.path, List.mem_append] at mem
  rcases mem with mem | mem
  · obtain ⟨legal, plain, -⟩ := encodes.command_legal b mem
    exact ⟨legal, plain⟩
  · cases subCommand : asked.subCommand with
    | none => simp [subCommand] at mem
    | some text =>
        simp only [subCommand, Option.map_some, Option.getD_some, List.mem_cons] at mem
        rcases mem with rfl | mem
        · decide
        · exact encodes.subCommand_legal text subCommand b mem

theorem HttpRequest.Encodes.params_nil : request.params = [] ↔ asked.params = [] := by
  have length := encodes.params.length_eq
  rw [← List.length_eq_zero_iff, ← List.length_eq_zero_iff, length]

theorem HttpRequest.Encodes.target_clean {b : UInt8} (mem : b ∈ apiV0Start ++ asked.path ++ queryBytes request.arguments) :
    UrlByte b := by
  rw [List.mem_append, List.mem_append] at mem
  rcases mem with (mem | mem) | mem
  · have all : ∀ b ∈ apiV0Start, UrlByte b := List.all_iff_forall_prop.mp (by decide)
    exact all b mem
  · exact (encodes.path_byte mem).1
  · exact (queryBytes_encodes encodes.arguments).urlByte b mem

theorem HttpRequest.Encodes.readHead (head : HttpHead) {body : Bytes}
    (short : (head.sent (apiV0Start ++ asked.path ++ queryBytes request.arguments) body).length ≤ maxRead) :
    readHead (head.sent (apiV0Start ++ asked.path ++ queryBytes request.arguments) body) =
      splitHead (head.method ++ space :: ((apiV0Start ++ asked.path ++ queryBytes request.arguments) ++ space :: head.rest)) :=
  readHead_sent head (fun _ mem => ⟨(encodes.target_clean mem).clean.1, (encodes.target_clean mem).clean.2.1⟩) short

theorem HttpRequest.Encodes.path_plain : question ∉ apiV0Start ++ asked.path := by
  rw [List.mem_append, not_or]
  exact ⟨by decide, fun mem => (encodes.path_byte mem).2 rfl⟩

/-- Without argument the request is read back if nothing behind the target looks like a query. -/
theorem HttpRequest.Encodes.receive_plain (url : UrlLib) (head : HttpHead) {body : Bytes} (none : asked.params = [])
    (plain : asked.arguments = [])
    (short : (head.sent (apiV0Start ++ asked.path ++ queryBytes request.arguments) body).length ≤ maxRead) :
    apiReceive url (head.sent (apiV0Start ++ asked.path ++ queryBytes request.arguments) body) = .returned asked ↔
      question ∉ head.rest := by
  have read := encodes.readHead head short
  have noArguments : request.arguments = [] := by
    have length := encodes.arguments.length_eq
    rwa [plain, List.length_nil, List.length_eq_zero_iff] at length
  have target : apiV0Start ++ asked.path ++ queryBytes request.arguments = apiV0Start ++ asked.path := by
    simp [noArguments, queryBytes]
  rw [target] at read ⊢
  constructor
  · intro received behind
    rw [apiReceive] at received
    obtain ⟨split, isSplit, received⟩ := Outcome.bind_eq_returned.mp received
    obtain ⟨more, path⟩ := splitHead_late_eq head.space_not_mem_method encodes.path_plain behind (read ▸ isSplit)
    rw [path, List.append_assoc, if_pos (List.prefix_append _ _), List.drop_left] at received
    have kept : asked.command = (splitCommand (asked.path ++ space :: more)).command ∧
        asked.subCommand = (splitCommand (asked.path ++ space :: more)).subCommand := by
      cases query : split.query with
      | none =>
          simp only [query, apiBuildHttpRequest, Outcome.pure_def, Outcome.returned.injEq] at received
          simp [received]
      | some text =>
          simp only [query, apiBuildHttpRequest] at received
          obtain ⟨command, subCommand, -⟩ := addSegments_grow received
          exact ⟨command, subCommand⟩
    rcases splitCommand_more encodes.command_legal more with other | other
    · exact other kept.1.symm
    · exact other kept.2.symm
  · intro behind
    have whole : space ∉ apiV0Start ++ asked.path := fun mem => by
      rw [← target] at mem
      exact (encodes.target_clean mem).clean.2.2 rfl
    obtain ⟨split, isSplit, path, query⟩ := splitHead_plain head encodes.path_plain whole behind
    rw [apiReceive_split url (read.trans isSplit) path, query]
    simp only [apiBuildHttpRequest, splitCommand_path encodes.command_legal, Outcome.pure_def, ← none, ← plain]

theorem HttpRequest.Encodes.receive_query (url : UrlLib) (head : HttpHead) {body : Bytes} (none : asked.params = [])
    {first : CString} {others : List CString} (arguments : asked.arguments = first :: others)
    (short : (head.sent (apiV0Start ++ asked.path ++ queryBytes request.arguments) body).length ≤ maxRead) :
    apiReceive url (head.sent (apiV0Start ++ asked.path ++ queryBytes request.arguments) body) = .returned asked ↔
      others = [] ∧ ampersand ∉ first.bytes := by
  have read := encodes.readHead head short
  have clean : ∀ b ∈ apiV0Start ++ asked.path ++ queryBytes request.arguments, UrlByte b :=
    fun b mem => encodes.target_clean mem
  obtain ⟨written, more, isFirst, rest, eq⟩ : ∃ written more, PercentEncodes first.bytes written.bytes ∧
      List.Forall₂ (fun argument raw => PercentEncodes raw.bytes argument.bytes) more others ∧
      request.arguments = written :: more := by
    have all := encodes.arguments
    rw [arguments] at all
    cases requested : request.arguments with
    | nil => simp [requested] at all
    | cons written more =>
        rw [requested, List.forall₂_cons] at all
        exact ⟨written, more, all.1, all.2, rfl⟩
  rw [eq, queryBytes_cons] at read clean ⊢
  have whole : space ∉ (queryOf written more).bytes := fun mem =>
    (clean space (by simp [mem])).clean.2.2 rfl
  obtain ⟨split, isSplit, path, query⟩ := splitHead_query head encodes.path_plain whole
  rw [apiReceive_split url (read.trans isSplit) path, query]
  simp only [apiBuildHttpRequest, splitCommand_path encodes.command_legal, queryOf_decode url isFirst rest]
  constructor
  · intro received
    obtain ⟨values, segments, all⟩ := addSegments_arguments received (by simp [none])
    rw [arguments, List.nil_append] at all
    exact segments_single segments all
  · rintro ⟨rfl, plain⟩
    have single : ampersand ∉ (queryOf first []).bytes := by
      simp only [queryOf_bytes, queryBytes, List.flatMap_nil, List.append_nil, List.mem_append, List.mem_cons, not_or]
      exact ⟨by decide, by decide, plain⟩
    have split : Text.cut equals (queryOf first []).bytes = some (arg, first.bytes) := by
      rw [queryOf_bytes, queryBytes, List.flatMap_nil, List.append_nil]
      exact Text.cut_append (by decide) _
    rw [List.splitOn_eq_singleton single, List.foldlM_cons, addSegment, split]
    simp only [if_true, CString.ofBytes_bytes, List.nil_append, Outcome.pure_def, Outcome.returned_bind, List.foldlM_nil,
      ← none, ← arguments]

end

theorem sent_length (head : HttpHead) (target body : Bytes) :
    (head.sent target body).length = head.method.length + target.length + head.rest.length + 6 + body.length := by
  simp [HttpHead.sent, emptyLine]
  omega

/-- Client and server agree on requests without parameters and with one argument at most. -/
theorem requestReadsBack_iff (url : UrlLib) {request asked : HttpRequest} (encodes : request.Encodes asked) (head : HttpHead)
    (body : Bytes) : RequestReadsBack url request asked head body ↔ Readable request asked head body := by
  by_cases none : asked.params = []
  · have target := httpRequestTarget_eq (encodes.params_nil.mpr none)
    have same : request.targetLength = (apiV0Start ++ asked.path ++ queryBytes request.arguments).length := by
      rw [← targetLength_eq, encodes.path]
    rw [encodes.path] at target
    simp only [RequestReadsBack, target, Outcome.returned.injEq, exists_eq_left', Readable, none, true_and, same]
    rw [← sent_length]
    by_cases short : (head.sent (apiV0Start ++ asked.path ++ queryBytes request.arguments) body).length ≤ maxRead
    · simp only [short, and_true]
      cases arguments : asked.arguments with
      | nil =>
          rw [encodes.receive_plain url head none arguments short]
          simp
      | cons first others =>
          rw [encodes.receive_query url head none arguments short]
          simp
    · have faults := readHead_long (not_le.mp short)
      simp only [apiReceive, faults, Outcome.fault_bind, short, and_false, reduceCtorEq]
  · have faults := httpRequestTarget_param (mt encodes.params_nil.mp none)
    simp only [RequestReadsBack, faults, Readable, none, reduceCtorEq, false_and, exists_const]

/-! ## Examples of requests -/

/-- An escape that is cut off is dropped. -/
def percentDecode : Bytes → Bytes
  | [] => []
  | b :: high :: low :: text =>
      if b = percent then (16 * (hexValue high).getD 0 + (hexValue low).getD 0).toUInt8 :: percentDecode text
      else (if b = plus then space else b) :: percentDecode (high :: low :: text)
  | b :: text => if b = percent then percentDecode text else (if b = plus then space else b) :: percentDecode text

theorem percentDecode_cons {b : UInt8} (plain : b ≠ percent ∧ b ≠ plus) (text : Bytes) :
    percentDecode (b :: text) = b :: percentDecode text := by
  rcases text with _ | ⟨high, _ | ⟨low, text⟩⟩ <;> simp [percentDecode, plain]

theorem percentDecode_encoded {raw encoded : Bytes} (encodes : PercentEncodes raw encoded) :
    percentDecode encoded = raw := by
  induction encodes with
  | nil => rfl
  | literal _ plain _ ih => rw [percentDecode_cons plain, ih]
  | escape first second _ ih => rw [percentDecode, if_pos rfl, first, second, ih]; rfl

def UrlLib.standard : UrlLib where
  decode encoded := CString.ofBytes (percentDecode encoded)
  decode_encoded raw encoded encodes := by rw [percentDecode_encoded encodes, CString.ofBytes_bytes]

/-- `GET` with the header `Host: a`. -/
def getHead : HttpHead where
  method := [0x47, 0x45, 0x54]
  version := [0x48, 0x54, 0x54, 0x50, 0x2f, 0x31, 0x2e, 0x31]
  headers := [[0x48, 0x6f, 0x73, 0x74, 0x3a, 0x20, 0x61]]
  method_clean := by simp [cr, space]
  version_clean := by simp [cr]
  headers_clean := by simp [cr]
  headers_nonempty := by simp

/-- `dht/put` with the arguments `a` and `b`. -/
def putRequest : HttpRequest where
  command := ⟨[0x64, 0x68, 0x74], by decide⟩
  subCommand := some ⟨[0x70, 0x75, 0x74], by decide⟩
  arguments := [⟨[0x61], by decide⟩, ⟨[0x62], by decide⟩]

/-- The same with the first argument only. -/
def getRequest : HttpRequest := { putRequest with arguments := putRequest.arguments.take 1 }

theorem putRequest_encodes : putRequest.Encodes putRequest where
  command := rfl
  subCommand := rfl
  params := .nil
  arguments := .cons (.self (List.all_iff_forall_prop.mp (by decide)))
    (.cons (.self (List.all_iff_forall_prop.mp (by decide))) .nil)
  command_legal := List.all_iff_forall_prop.mp (by decide)
  subCommand_legal subCommand isSome := by
    cases Option.some.inj isSome
    exact List.all_iff_forall_prop.mp (by decide)

/-- The second argument is read as part of the first. -/
theorem not_requestReadsBack_put :
    putRequest.Encodes putRequest ∧ ¬ RequestReadsBack .standard putRequest putRequest getHead [] := by
  refine ⟨putRequest_encodes, ?_⟩
  rintro ⟨target, built, received⟩
  have isTarget : httpRequestTarget putRequest =
      .returned (apiV0Start ++ putRequest.path ++ queryBytes putRequest.arguments) := by decide
  rw [isTarget, Outcome.returned.injEq] at built
  subst built
  revert received
  decide

theorem requestReadsBack_get : RequestReadsBack .standard getRequest getRequest getHead [] := by
  have encodes : getRequest.Encodes getRequest :=
    { putRequest_encodes with arguments := .cons (.self (List.all_iff_forall_prop.mp (by decide))) .nil }
  refine (requestReadsBack_iff .standard encodes getHead []).mpr ⟨rfl, .inr ⟨_, rfl, by decide⟩, by decide⟩

end Ipfs
