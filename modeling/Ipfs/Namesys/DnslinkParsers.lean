import Ipfs.Namesys.Dnslink
import Ipfs.Path.BoundedSplit

/-!
# The parsers of DNS links

A record and a link path are split into as many parts as they should have, so that what is behind the last delimiter
they know of is split off.
-/

namespace Ipfs
open Conversion

def equalsText : CString := ⟨[0x3d], by decide⟩

/-- `ipfs_dnslink_parse_txt` with the `int`s of the functions that it calls. -/
def dnslinkParseRecord (txt : CString) : Outcome (Except DnslinkErr Bytes) := do
  match ← Path.splitN txt equalsText 2 with
  | [key, value] =>
      if key = dnslinkKey ∧ value.head? = some 0x2f then do
        let path ← Path.cleanPath (CString.ofBytes value)
        pure (.ok path)
      else pure (.error .invalidDNSLink)
  | _ => pure (.error .invalidDNSLink)

/-- "dnslink=" in front of a path. -/
def dnslinkRecord (path : CString) : CString where
  bytes := dnslinkKey ++ 0x3d :: path.bytes
  nulFree := by
    simp only [List.mem_append, List.mem_cons, not_or]
    exact ⟨by decide, by decide, path.nulFree⟩

def RecordAccepted (path : CString) : Prop := ∃ link, dnslinkParseRecord (dnslinkRecord path) = .returned (.ok link)

def LinkParsed (tlds : TldTable) (domain rest : Bytes) : Prop :=
  dnslinkParseLinkDomain tlds (dnsPrefix ++ domain ++ 0x2f :: rest) = .returned (.ok (domain, some rest))

/-! ## Records -/

theorem pathSplitN_bounded (p : CString) {delim : UInt8} (nul : 0 ∉ [delim]) {n : Int} (positive : 1 ≤ n)
    {parts : List Bytes} :
    Path.splitN p ⟨[delim], nul⟩ n = .returned parts ↔
      n ≤ 2 ^ 31 - 3 ∧ pathSplitN p.bytes delim n = some parts := by
  have split : pathSplitN p.bytes delim n = some ((p.bytes.splitOn delim).take (n.toNat + 1)) := by
    rw [pathSplitN, if_neg (by omega), if_neg (by omega)]
  have cut : Path.Cut [delim] 1 p.bytes (p.bytes.splitOn delim) :=
    Text.pieces_singleton delim p.bytes ▸ Path.cut_pieces (by simp) p.bytes
  have step : sizeToInt (CString.strlen ⟨[delim], nul⟩) = (1 : Nat) := sizeToInt_of_lt (by simp [CString.strlen])
  rw [Path.splitN_eq_take positive step Nat.one_pos cut, split, Option.some.injEq, eq_comm (a := parts)]

theorem splitOn_eq_singleton_iff {c : UInt8} {text piece : Bytes} : text.splitOn c = [piece] ↔ piece = text ∧ c ∉ text := by
  constructor
  · intro single
    have joined : [c].intercalate (text.splitOn c) = text := List.intercalate_splitOn c
    rw [single, List.intercalate_singleton] at joined
    have clean := (Text.mem_splitOn (single ▸ List.mem_singleton_self piece)).1
    exact ⟨joined, joined ▸ clean⟩
  · rintro ⟨rfl, absent⟩
    exact List.splitOn_eq_singleton absent

theorem splitN_record {path : CString} {parts : List Bytes} :
    Path.splitN (dnslinkRecord path) equalsText 2 = .returned parts ↔
      parts = dnslinkKey :: (path.bytes.splitOn 0x3d).take 2 := by
  have split : (dnslinkRecord path).bytes.splitOn 0x3d = dnslinkKey :: path.bytes.splitOn 0x3d :=
    List.splitOn_append_cons_self_of_not_mem (by decide) path.bytes
  have pieces : pathSplitN (dnslinkRecord path).bytes 0x3d 2 = some (dnslinkKey :: (path.bytes.splitOn 0x3d).take 2) := by
    rw [pathSplitN, if_neg (by decide), if_neg (by decide), split]
    rfl
  unfold equalsText
  rw [pathSplitN_bounded _ _ (by decide), pieces, Option.some.injEq, eq_comm (a := parts)]
  exact and_iff_right (by decide)

/-- The path of a record must not have an equals sign, and has to be cleaned. -/
theorem recordAccepted_iff {path : CString} (start : path.bytes.head? = some 0x2f) :
    RecordAccepted path ↔ 0x3d ∉ path.bytes ∧ 0 < sizeToInt (path.strlen + 3) ∧
      (path.bytes.splitOn Path.slash).length ≤ 2 ^ 31 - 2 := by
  unfold RecordAccepted dnslinkParseRecord
  rw [splitN_record.mpr rfl, ← Path.cleanPath_returns_iff]
  simp only [Outcome.returned_bind]
  rcases pieces : path.bytes.splitOn 0x3d with _ | ⟨value, _ | ⟨second, more⟩⟩
  · exact absurd pieces (List.splitOn_ne_nil _ _)
  · obtain ⟨rfl, absent⟩ := splitOn_eq_singleton_iff.mp pieces
    simp only [List.take_succ_cons, List.take_nil, start, and_self, if_true, CString.ofBytes_bytes, Outcome.bind_eq_returned,
      Outcome.pure_def, Outcome.returned.injEq, Except.ok.injEq, absent, not_false_eq_true, true_and, exists_eq_right]
  · have present : 0x3d ∈ path.bytes := by
      by_contra absent
      rw [List.splitOn_eq_singleton absent] at pieces
      cases pieces
    simp [present]

theorem dnslinkParseRecord_of_short {txt : CString} (short : txt.strlen ≤ 2 ^ 31 - 4) :
    dnslinkParseRecord txt = .returned (dnslinkParseTxt (some ()) txt.bytes) := by
  have pieces : pathSplitN txt.bytes 0x3d 2 = some ((txt.bytes.splitOn 0x3d).take 3) := by
    rw [pathSplitN, if_neg (by decide), if_neg (by decide)]
    rfl
  have split : Path.splitN txt equalsText 2 = .returned ((txt.bytes.splitOn 0x3d).take 3) :=
    (pathSplitN_bounded txt (by decide) (by decide)).mpr ⟨by decide, pieces⟩
  unfold dnslinkParseRecord dnslinkParseTxt
  rw [split, Outcome.returned_bind, pieces]
  rcases cut : txt.bytes.splitOn 0x3d with _ | ⟨key, _ | ⟨value, _ | ⟨third, more⟩⟩⟩
  · exact absurd cut (List.splitOn_ne_nil _ _)
  · rfl
  · have clean : 0 ∉ value := fun zero => txt.nulFree ((Text.mem_splitOn (show value ∈ txt.bytes.splitOn 0x3d by simp [cut])).2 0 zero)
    have text : (CString.ofBytes value).bytes = value := cString_of_clean clean
    have joined : [0x3d].intercalate (txt.bytes.splitOn 0x3d) = txt.bytes := List.intercalate_splitOn 0x3d
    rw [cut, List.intercalate_cons_cons, List.intercalate_singleton] at joined
    have bound : (CString.ofBytes value).strlen ≤ 2 ^ 31 - 4 := by
      have length := congrArg List.length joined
      rw [List.length_append, ← CString.strlen] at length
      rw [CString.strlen, text]
      omega
    simp only [List.take_succ_cons, List.take_nil]
    split
    · rw [Path.cleanPath_of_short bound, text]
      rfl
    · rfl
  · rfl

/-! ## Links -/

theorem slash_not_mem_domain {tlds : TldTable} {domain : Bytes} (valid : isdomainIsDomain tlds domain = .returned true) :
    0x2f ∉ domain := by
  intro mem
  unfold isdomainIsDomain at valid
  split at valid
  · cases valid
  · have kept : 0x2f ∈ (if domain.getLast? = some 0x2e then domain.dropLast else domain) := by
      split
      · rename_i ends
        rw [List.getLast?_eq_some_iff] at ends
        obtain ⟨front, rfl⟩ := ends
        rw [List.dropLast_concat]
        rcases List.mem_append.mp mem with mem | mem
        · exact mem
        · exact absurd (List.mem_singleton.mp mem) (by decide)
      · exact mem
    generalize (if domain.getLast? = some 0x2e then domain.dropLast else domain) = text at valid kept
    simp only at valid
    split at valid
    · cases valid
    · split at valid
      · have all := Outcome.returned.inj valid
        unfold isdomainMatchString at all
        simp only [Bool.and_eq_true, List.all_eq_true] at all
        have check := all.2 0x2f (List.mem_map.mpr ⟨0x2f, kept, by decide⟩)
        revert check
        decide
      · cases valid

theorem linkParsed_iff {tlds : TldTable} {domain rest : Bytes} (valid : isdomainIsDomain tlds domain = .returned true) :
    LinkParsed tlds domain rest ↔ 0x2f ∉ rest := by
  have whole : dnsPrefix ++ domain ++ 0x2f :: rest = [] ++ 0x2f :: ([0x64, 0x6e, 0x73] ++ 0x2f :: (domain ++ 0x2f :: rest)) := by
    simp [dnsPrefix]
  have split : (dnsPrefix ++ domain ++ 0x2f :: rest).splitOn 0x2f = [] :: [0x64, 0x6e, 0x73] :: domain :: rest.splitOn 0x2f := by
    rw [whole, List.splitOn_append_cons_self_of_not_mem (by decide), List.splitOn_append_cons_self_of_not_mem (by decide),
      List.splitOn_append_cons_self_of_not_mem (slash_not_mem_domain valid)]
  have pieces : pathSplitN (dnsPrefix ++ domain ++ 0x2f :: rest) 0x2f 4 =
      some ([] :: [0x64, 0x6e, 0x73] :: domain :: (rest.splitOn 0x2f).take 2) := by
    rw [pathSplitN, if_neg (by decide), if_neg (by decide), split]
    rfl
  unfold LinkParsed dnslinkParseLinkDomain
  rw [pieces]
  simp only [valid, ne_eq, not_true, or_self, if_false, Outcome.returned_bind, if_true, Outcome.pure_def,
    Outcome.returned.injEq, Except.ok.injEq, Prod.mk.injEq, true_and]
  rcases cut : rest.splitOn 0x2f with _ | ⟨first, more⟩
  · exact absurd cut (List.splitOn_ne_nil _ _)
  · rw [List.take_succ_cons, List.head?_cons, Option.some.injEq]
    constructor
    · rintro rfl
      exact (Text.mem_splitOn (show first ∈ first.splitOn 0x2f by simp [cut])).1
    · intro absent
      rw [List.splitOn_eq_singleton absent] at cut
      exact (List.cons.inj cut).1.symm

/-! ## Both parsers -/

/-- A bounded split keeps what is behind the last part when there is nothing, and its callers accept just that. -/
theorem boundedSplit_callers_iff (tlds : TldTable) :
    (∀ (p delim : CString) (n : Int), 1 ≤ n → delim.bytes ≠ [] →
        (Path.SplitsBounded p delim n ↔ Path.FitsBounded p delim n)) ∧
      (∀ path : CString, path.bytes.head? = some 0x2f →
        (RecordAccepted path ↔ 0x3d ∉ path.bytes ∧ 0 < sizeToInt (path.strlen + 3) ∧
          (path.bytes.splitOn Path.slash).length ≤ 2 ^ 31 - 2)) ∧
      (∀ domain rest, isdomainIsDomain tlds domain = .returned true → (LinkParsed tlds domain rest ↔ 0x2f ∉ rest)) :=
  ⟨fun _ _ _ positive nonempty => Path.splitsBounded_iff positive nonempty, fun _ start => recordAccepted_iff start,
    fun _ _ valid => linkParsed_iff valid⟩

/-- "/dns/bar.com/f/o" -/
theorem not_boundedSplit_callers_link :
    ¬ ((∀ (p delim : CString) (n : Int), 1 ≤ n → delim.bytes ≠ [] → Path.SplitsBounded p delim n) ∧
      (∀ path : CString, path.bytes.head? = some 0x2f → RecordAccepted path) ∧
      (∀ tlds domain rest, isdomainIsDomain tlds domain = .returned true → LinkParsed tlds domain rest)) := by
  rintro ⟨-, -, links⟩
  have parsed := links comTable barCom [0x66, 0x2f, 0x6f] (by decide)
  have cut : dnslinkParseLinkDomain comTable (dnsPrefix ++ barCom ++ 0x2f :: [0x66, 0x2f, 0x6f]) =
      .returned (.ok (barCom, some [0x66])) := by decide
  rw [LinkParsed, cut] at parsed
  revert parsed
  decide

/-- "/dns/bar.com/f", and "a=b" in two parts. -/
theorem boundedSplit_callers_short :
    LinkParsed comTable barCom [0x66] ∧ Path.SplitsBounded ⟨[0x61, 0x3d, 0x62], by decide⟩ equalsText 2 := by
  obtain ⟨splits, -, links⟩ := boundedSplit_callers_iff comTable
  refine ⟨(links barCom [0x66] (by decide)).mpr (by decide), (splits _ _ 2 (by decide) (by decide)).mpr ⟨by decide, .inl ⟨?_, ?_⟩⟩⟩
  · exact fun _ => by decide
  · rw [equalsText, Text.pieces_singleton]
    decide

end Ipfs
