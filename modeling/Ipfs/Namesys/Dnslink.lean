import Ipfs.Path.Clean

/-!
# DNS links

`ipfs_dnslink_resolve_n` and the parsers under it. Strings are without their terminating NUL; the arrays
on the stack are not assigned at first.
-/

namespace Ipfs

/-- The error codes of `errs.h` that are returned here. -/
inductive DnslinkErr
  | resolveFailed
  | invalidDomain
  | invalidDNSLink
  | invalidParam
  | resolveLimit
  deriving DecidableEq

/-! ## Paths -/

/-- `ipfs_path_split_n` at a delimiter of one byte; a positive `n` gives up to `n + 1` pieces, of which the last ends
at the next delimiter. -/
def pathSplitN (p : Bytes) (delim : UInt8) (n : Int) : Option (List Bytes) :=
  if n = 0 then none
  else if n < 0 then some (p.splitOn delim)
  else some ((p.splitOn delim).take (n.toNat + 1))

theorem pathSplitN_all (p : CString) {delim : UInt8} (nul : 0 ∉ [delim]) {parts : List Bytes} :
    Path.splitN p ⟨[delim], nul⟩ (-1) = .returned parts ↔
      pathSplitN p.bytes delim (-1) = some parts ∧ parts.length ≤ 2 ^ 31 - 2 := by
  have split : pathSplitN p.bytes delim (-1) = some (p.bytes.splitOn delim) := rfl
  have short : CString.strlen ⟨[delim], nul⟩ < 2 ^ 31 := by simp [CString.strlen]
  rw [Path.splitN_eq_pieces_iff (by simp) short, Text.pieces_singleton, split, Option.some.injEq, eq_comm]
  exact and_congr_right fun same => by rw [same]

/-! ## Domains -/

/-- `TLDs` and `ExtendedTLDs`; the shortest entries have two letters. -/
structure TldTable where
  condition : Bytes → Bool
  long : ∀ tld, condition tld → 2 ≤ tld.length

def toUpper (c : UInt8) : UInt8 := if 0x61 ≤ c ∧ c ≤ 0x7a then c - 0x20 else c

def isLetter (c : UInt8) : Bool := 0x41 ≤ c ∧ c ≤ 0x5a

def isdomainMatchString (d : Bytes) : Bool :=
  let str := d.map toUpper
  str.head? ≠ some 0x2e && (str.drop (str.length - 2)).all isLetter &&
    str.all fun c => isLetter c || decide (0x30 ≤ c ∧ c ≤ 0x39 ∨ c = 0x2e ∨ c = 0x2d)

def isdomainIsDomain (tlds : TldTable) (s : Bytes) : Outcome Bool :=
  -- the suffix is looked for in front of an empty string
  if s = [] then .fault .outOfBounds
  else
    let s := if s.getLast? = some 0x2e then s.dropLast else s
    if 0x2e ∉ s then .returned false
    else
      let tld := (s.reverse.takeWhile (· ≠ 0x2e)).reverse
      if tlds.condition (tld.map toUpper) then .returned (isdomainMatchString s) else .returned false

/-! ## Records -/

def dnslinkKey : Bytes := [0x64, 0x6e, 0x73, 0x6c, 0x69, 0x6e, 0x6b]

def dnsPrefix : Bytes := [0x2f, 0x64, 0x6e, 0x73, 0x2f]

/-- `ipfs_dnslink_parse_txt`; `path` is where the result goes, if anywhere. -/
def dnslinkParseTxt (path : Option Unit) (txt : Bytes) : Except DnslinkErr Bytes :=
  match path with
  | none => .error .invalidParam
  | some () =>
      match pathSplitN txt 0x3d 2 with
      | some [key, value] =>
          if key = dnslinkKey ∧ value.head? = some 0x2f then .ok (pathCleanPath value) else .error .invalidDNSLink
      | _ => .error .invalidDNSLink

/-- `ipfs_dnslink_parse_link_domain`: the domain, and the rest if there is one. -/
def dnslinkParseLinkDomain (tlds : TldTable) (txt : Bytes) : Outcome (Except DnslinkErr (Bytes × Option Bytes)) :=
  match pathSplitN txt 0x2f 4 with
  | some (first :: second :: domain :: more) =>
      if first ≠ [] ∨ second ≠ [0x64, 0x6e, 0x73] then .returned (.error .invalidDNSLink)
      else do
        if ← isdomainIsDomain tlds domain then pure (.ok (domain, more.head?)) else pure (.error .invalidDomain)
  | _ => .returned (.error .invalidDNSLink)

/-- The loop over the records of a domain: the first that parses. -/
def dnslinkFirst (path : Option Unit) : List Bytes → DnslinkErr → Except DnslinkErr Bytes
  | [], err => .error err
  | txt :: later, _ =>
      match dnslinkParseTxt path txt with
      | .ok link => .ok link
      | .error err => dnslinkFirst path later err

variable (tlds : TldTable) (lookupTxt : Bytes → List Bytes)

/-- `ipfs_dnslink_resolve_once` with the records that `ipfs_dnslink_lookup_txt` finds. -/
def dnslinkResolveOnce (domain : Bytes) : Outcome (Except DnslinkErr Bytes) := do
  -- `*p = NULL`, and `*p` is handed to the parser as the place for its result
  let path : Option Unit := none
  if ← isdomainIsDomain tlds domain then pure (dnslinkFirst path (lookupTxt domain) .resolveFailed)
  else pure (.error .invalidDomain)

/-! ## The chain -/

/-- The string in an array; the search for its NUL may leave the array. -/
def stringOf (array : Bytes) : Outcome Bytes :=
  if 0 ∈ array then .returned (array.takeWhile (· ≠ 0)) else .fault .outOfBounds

def strncpy (array text : Bytes) (n : Nat) : Bytes :=
  text.take n ++ List.replicate (n - text.length) 0 ++ array.drop n

def strncat (array text : Bytes) (n : Nat) : Outcome Bytes := do
  let front ← stringOf array
  let copied := text.take n ++ [0]
  if front.length + copied.length ≤ array.length then
    pure (front ++ copied ++ array.drop (front.length + copied.length))
  else .fault .outOfBounds

/-- The loop of `ipfs_dnslink_resolve_n`. -/
def dnslinkResolveLoop : Nat → Bytes → Bytes → Outcome (Except DnslinkErr Bytes)
  -- the domain and the tail are put together for the caller, but in a local array
  | 0, _, _ => .returned (.error .resolveLimit)
  | depth + 1, domain, tail => do
      match ← dnslinkResolveOnce tlds lookupTxt domain with
      | .error err => pure (.error err)
      | .ok link =>
          if link.take 5 ≠ dnsPrefix then do
            let text ← stringOf tail
            -- the terminator is written to where `p[l]` points, and `p` points to one pointer
            if link.length + text.length = 0 then pure (.ok []) else .fault .outOfBounds
          else do
            match ← dnslinkParseLinkDomain tlds link with
            | .error err => pure (.error err)
            | .ok (domain, rest) => do
                let rest ← .access .nullPointer rest
                let buf := tail.takeWhile (· ≠ 0)
                let tail := strncpy tail rest 499
                let text ← stringOf tail
                let tail ← strncat tail buf (499 - text.length)
                dnslinkResolveLoop depth (domain.take 499) tail

/-- `ipfs_dnslink_resolve_n`, with what is on the stack in the place of `tail`. -/
def dnslinkResolveN (stack : Bytes) (d : Bytes) (depth : Int) : Outcome (Except DnslinkErr Bytes) :=
  dnslinkResolveLoop tlds lookupTxt depth.toNat (d.take 499) stack

/-! ## What the package comment says -/

/-- The path of a record `dnslink=<path>`. -/
def dnslinkPath (txt : Bytes) : Option Bytes :=
  let value := txt.drop (dnslinkKey.length + 1)
  if txt.take (dnslinkKey.length + 1) = dnslinkKey ++ [0x3d] ∧ value.head? = some 0x2f then some (pathCleanPath value)
  else none

/-- The path at the end of the chain and the rests behind it, when the chain ends within this many lookups. -/
def followChain : Nat → Bytes → Bytes → Option Bytes
  | 0, _, _ => none
  | depth + 1, domain, tail =>
      if isdomainIsDomain tlds domain = .returned true then do
        let link ← (lookupTxt domain).findSome? dnslinkPath
        if link.take 5 ≠ dnsPrefix then some (link ++ tail)
        else
          let path := link.drop 5
          followChain depth (path.takeWhile (· ≠ 0x2f)) (path.dropWhile (· ≠ 0x2f) ++ tail)
      else none

def FollowsChain (stack d : Bytes) (depth : Int) : Prop :=
  dnslinkResolveN tlds lookupTxt stack d depth =
    match followChain tlds lookupTxt depth.toNat d [] with
    | some path => .returned (.ok path)
    | none => .returned (.error .resolveLimit)

/-! ## No record is accepted -/

theorem dnslinkFirst_null (records : List Bytes) (err : DnslinkErr) :
    dnslinkFirst none records err = .error (if records = [] then err else .invalidParam) := by
  induction records generalizing err with
  | nil => rfl
  | cons txt later ih =>
      rw [dnslinkFirst, dnslinkParseTxt]
      simp only [ih, reduceCtorEq, if_false]
      split <;> rfl

theorem dnslinkResolveOnce_fails (domain : Bytes) :
    (∀ link, dnslinkResolveOnce tlds lookupTxt domain ≠ .returned (.ok link)) ∧
      dnslinkResolveOnce tlds lookupTxt domain ≠ .returned (.error .resolveLimit) := by
  rw [dnslinkResolveOnce]
  cases valid : isdomainIsDomain tlds domain with
  | fault cause => exact ⟨nofun, nofun⟩
  | failed => exact ⟨nofun, nofun⟩
  | returned isDomain =>
      cases isDomain with
      | false => exact ⟨nofun, nofun⟩
      | true =>
          rw [Outcome.returned_bind, if_pos rfl, dnslinkFirst_null]
          refine ⟨nofun, fun same => ?_⟩
          split at same <;> cases same

theorem dnslinkResolveLoop_fails (depth : Nat) (domain tail : Bytes) :
    (∀ link, dnslinkResolveLoop tlds lookupTxt (depth + 1) domain tail ≠ .returned (.ok link)) ∧
      dnslinkResolveLoop tlds lookupTxt (depth + 1) domain tail ≠ .returned (.error .resolveLimit) := by
  obtain ⟨noLink, noLimit⟩ := dnslinkResolveOnce_fails tlds lookupTxt domain
  rw [dnslinkResolveLoop]
  cases once : dnslinkResolveOnce tlds lookupTxt domain with
  | fault cause => exact ⟨nofun, nofun⟩
  | failed => exact ⟨nofun, nofun⟩
  | returned result =>
      cases result with
      | ok link => exact absurd once (noLink link)
      | error err =>
          rw [once] at noLimit
          exact ⟨nofun, noLimit⟩

theorem dnslinkResolveN_followsChain_iff (tlds : TldTable) (lookupTxt : Bytes → List Bytes) (stack d : Bytes) (depth : Int) :
    FollowsChain tlds lookupTxt stack d depth ↔ depth ≤ 0 := by
  rw [FollowsChain, dnslinkResolveN]
  constructor
  · intro follows
    by_contra positive
    obtain ⟨n, more⟩ : ∃ n, depth.toNat = n + 1 := Nat.exists_eq_succ_of_ne_zero (by omega)
    obtain ⟨noLink, noLimit⟩ := dnslinkResolveLoop_fails tlds lookupTxt n (d.take 499) stack
    rw [more] at follows
    cases chain : followChain tlds lookupTxt (n + 1) d [] with
    | some path =>
        rw [chain] at follows
        exact noLink path follows
    | none =>
        rw [chain] at follows
        exact noLimit follows
  · intro shallow
    rw [Int.toNat_of_nonpos shallow]
    rfl

/-! ## The example of the package comment -/

def comTable : TldTable where
  condition tld := tld = [0x43, 0x4f, 0x4d] ∨ tld = [0x49, 0x54]
  long tld known := by
    rcases of_decide_eq_true known with rfl | rfl <;> decide

/-- "foo.com", "bar.com" and "long.test.baz.it". -/
def fooCom : Bytes := [0x66, 0x6f, 0x6f, 0x2e, 0x63, 0x6f, 0x6d]

def barCom : Bytes := [0x62, 0x61, 0x72, 0x2e, 0x63, 0x6f, 0x6d]

def longTestBazIt : Bytes :=
  [0x6c, 0x6f, 0x6e, 0x67, 0x2e, 0x74, 0x65, 0x73, 0x74, 0x2e, 0x62, 0x61, 0x7a, 0x2e, 0x69, 0x74]

def commentLookup (domain : Bytes) : List Bytes :=
  if domain = fooCom then [dnslinkKey ++ [0x3d] ++ dnsPrefix ++ barCom ++ [0x2f, 0x66, 0x2f, 0x6f, 0x2f, 0x6f]]
  else if domain = barCom then [dnslinkKey ++ [0x3d] ++ dnsPrefix ++ longTestBazIt ++ [0x2f, 0x62, 0x2f, 0x61, 0x2f, 0x72]]
  else if domain = longTestBazIt then [dnslinkKey ++ [0x3d, 0x2f, 0x62, 0x2f, 0x61, 0x2f, 0x7a]]
  else []

-- "/b/a/z/b/a/r/f/o/o"
example : followChain comTable commentLookup 3 fooCom [] = some
    [0x2f, 0x62, 0x2f, 0x61, 0x2f, 0x7a, 0x2f, 0x62, 0x2f, 0x61, 0x2f, 0x72, 0x2f, 0x66, 0x2f, 0x6f, 0x2f, 0x6f] := by
  decide

theorem not_dnslinkResolveN_followsChain_comment :
    ¬ ∀ (tlds : TldTable) (lookupTxt : Bytes → List Bytes) (stack d : Bytes) (depth : Int),
      FollowsChain tlds lookupTxt stack d depth := by
  intro claim
  have follows := claim comTable commentLookup (List.replicate 500 0) longTestBazIt 16
  have fails : dnslinkResolveN comTable commentLookup (List.replicate 500 0) longTestBazIt 16 =
      .returned (.error .invalidParam) := by decide
  have chain : followChain comTable commentLookup 16 longTestBazIt [] =
      some [0x2f, 0x62, 0x2f, 0x61, 0x2f, 0x7a] := by decide
  have limit : (16 : Int).toNat = 16 := rfl
  rw [FollowsChain, fails, limit, chain] at follows
  cases follows

end Ipfs
