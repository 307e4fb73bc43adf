import Ipfs.Lib.Json
import Ipfs.Namesys.Dnslink

/-!
# Domain names

A name is looked up in two tables by what is behind its last dot, and its characters are looked at one by one.
`toupper` is the one of the C locale, and memory for a copy of the name can be allocated.
-/

namespace Ipfs.Isdomain

structure Tld where
  str : Bytes
  condition : Int

def enabled (name : String) : Tld := ⟨ascii name, 1⟩

/-- The names of TLDs, according to ICANN in 2014; the condition of each is 1. -/
def icannNames : List String := [
    "AC", "ACADEMY", "ACCOUNTANTS", "ACTIVE", "ACTOR", "AD", "AE", "AERO", "AF", "AG", "AGENCY", "AI", "AIRFORCE",
    "AL", "ALLFINANZ", "AM", "AN", "AO", "AQ", "AR", "ARCHI", "ARMY", "ARPA", "AS", "ASIA", "ASSOCIATES", "AT",
    "ATTORNEY", "AU", "AUCTION", "AUDIO", "AUTOS", "AW", "AX", "AXA", "AZ", "BA", "BAR", "BARGAINS", "BAYERN", "BB",
    "BD", "BE", "BEER", "BERLIN", "BEST", "BF", "BG", "BH", "BI", "BID", "BIKE", "BIO", "BIZ", "BJ", "BLACK",
    "BLACKFRIDAY", "BLUE", "BM", "BMW", "BN", "BNPPARIBAS", "BO", "BOO", "BOUTIQUE", "BR", "BRUSSELS", "BS", "BT",
    "BUDAPEST", "BUILD", "BUILDERS", "BUSINESS", "BUZZ", "BV", "BW", "BY", "BZ", "BZH", "CA", "CAB", "CAL",
    "CAMERA", "CAMP", "CANCERRESEARCH", "CAPETOWN", "CAPITAL", "CARAVAN", "CARDS", "CARE", "CAREER", "CAREERS",
    "CASA", "CASH", "CAT", "CATERING", "CC", "CD", "CENTER", "CEO", "CERN", "CF", "CG", "CH", "CHANNEL", "CHEAP",
    "CHRISTMAS", "CHROME", "CHURCH", "CI", "CITIC", "CITY", "CK", "CL", "CLAIMS", "CLEANING", "CLICK", "CLINIC",
    "CLOTHING", "CLUB", "CM", "CN", "CO", "CODES", "COFFEE", "COLLEGE", "COLOGNE", "COM", "COMMUNITY", "COMPANY",
    "COMPUTER", "CONDOS", "CONSTRUCTION", "CONSULTING", "CONTRACTORS", "COOKING", "COOL", "COOP", "COUNTRY", "CR",
    "CREDIT", "CREDITCARD", "CRUISES", "CU", "CUISINELLA", "CV", "CW", "CX", "CY", "CYMRU", "CZ", "DAD", "DANCE",
    "DATING", "DAY", "DE", "DEALS", "DEGREE", "DEMOCRAT", "DENTAL", "DENTIST", "DESI", "DIAMONDS", "DIET",
    "DIGITAL", "DIRECT", "DIRECTORY", "DISCOUNT", "DJ", "DK", "DM", "DNP", "DO", "DOMAINS", "DURBAN", "DVAG", "DZ",
    "EAT", "EC", "EDU", "EDUCATION", "EE", "EG", "EMAIL", "ENGINEER", "ENGINEERING", "ENTERPRISES", "EQUIPMENT",
    "ER", "ES", "ESQ", "ESTATE", "ET", "EU", "EUS", "EVENTS", "EXCHANGE", "EXPERT", "EXPOSED", "FAIL", "FARM",
    "FEEDBACK", "FI", "FINANCE", "FINANCIAL", "FISH", "FISHING", "FITNESS", "FJ", "FK", "FLIGHTS", "FLORIST", "FLY",
    "FM", "FO", "FOO", "FORSALE", "FOUNDATION", "FR", "FRL", "FROGANS", "FUND", "FURNITURE", "FUTBOL", "GA", "GAL",
    "GALLERY", "GB", "GBIZ", "GD", "GE", "GENT", "GF", "GG", "GH", "GI", "GIFT", "GIFTS", "GIVES", "GL", "GLASS",
    "GLE", "GLOBAL", "GLOBO", "GM", "GMAIL", "GMO", "GMX", "GN", "GOOGLE", "GOP", "GOV", "GP", "GQ", "GR",
    "GRAPHICS", "GRATIS", "GREEN", "GRIPE", "GS", "GT", "GU", "GUIDE", "GUITARS", "GURU", "GW", "GY", "HAMBURG",
    "HAUS", "HEALTHCARE", "HELP", "HERE", "HIPHOP", "HIV", "HK", "HM", "HN", "HOLDINGS", "HOLIDAY", "HOMES",
    "HORSE", "HOST", "HOSTING", "HOUSE", "HOW", "HR", "HT", "HU", "IBM", "ID", "IE", "IL", "IM", "IMMO",
    "IMMOBILIEN", "IN", "INDUSTRIES", "INFO", "ING", "INK", "INSTITUTE", "INSURE", "INT", "INTERNATIONAL",
    "INVESTMENTS", "IO", "IQ", "IR", "IS", "IT", "JE", "JETZT", "JM", "JO", "JOBS", "JOBURG", "JP", "JUEGOS",
    "KAUFEN", "KE", "KG", "KH", "KI", "KIM", "KITCHEN", "KIWI", "KM", "KN", "KOELN", "KP", "KR", "KRD", "KRED",
    "KW", "KY", "KZ", "LA", "LACAIXA", "LAND", "LAWYER", "LB", "LC", "LEASE", "LGBT", "LI", "LIFE", "LIGHTING",
    "LIMITED", "LIMO", "LINK", "LK", "LOANS", "LONDON", "LOTTO", "LR", "LS", "LT", "LTDA", "LU", "LUXE", "LUXURY",
    "LV", "LY", "MA", "MAISON", "MANAGEMENT", "MANGO", "MARKET", "MARKETING", "MC", "MD", "ME", "MEDIA", "MEET",
    "MELBOURNE", "MEME", "MENU", "MG", "MH", "MIAMI", "MIL", "MINI", "MK", "ML", "MM", "MN", "MO", "MOBI", "MODA",
    "MOE", "MONASH", "MORTGAGE", "MOSCOW", "MOTORCYCLES", "MOV", "MP", "MQ", "MR", "MS", "MT", "MU", "MUSEUM", "MV",
    "MW", "MX", "MY", "MZ", "NA", "NAGOYA", "NAME", "NAVY", "NC", "NE", "NET", "NETWORK", "NEUSTAR", "NEW", "NEXUS",
    "NF", "NG", "NGO", "NHK", "NI", "NINJA", "NL", "NO", "NP", "NR", "NRA", "NRW", "NU", "NYC", "NZ", "OKINAWA",
    "OM", "ONG", "ONL", "OOO", "ORG", "ORGANIC", "OTSUKA", "OVH", "PA", "PARIS", "PARTNERS", "PARTS", "PE", "PF",
    "PG", "PH", "PHARMACY", "PHOTO", "PHOTOGRAPHY", "PHOTOS", "PHYSIO", "PICS", "PICTURES", "PINK", "PIZZA", "PK",
    "PL", "PLACE", "PLUMBING", "PM", "PN", "POHL", "POST", "PR", "PRAXI", "PRESS", "PRO", "PROD", "PRODUCTIONS",
    "PROF", "PROPERTIES", "PROPERTY", "PS", "PT", "PUB", "PW", "PY", "QA", "QPON", "QUEBEC", "RE", "REALTOR",
    "RECIPES", "RED", "REHAB", "REISE", "REISEN", "REN", "RENTALS", "REPAIR", "REPORT", "REPUBLICAN", "REST",
    "RESTAURANT", "REVIEWS", "RICH", "RIO", "RO", "ROCKS", "RODEO", "RS", "RSVP", "RU", "RUHR", "RW", "RYUKYU",
    "SA", "SAARLAND", "SARL", "SB", "SC", "SCA", "SCB", "SCHMIDT", "SCHULE", "SCOT", "SD", "SE", "SERVICES", "SEXY",
    "SG", "SH", "SHIKSHA", "SHOES", "SI", "SINGLES", "SJ", "SK", "SL", "SM", "SN", "SO", "SOCIAL", "SOFTWARE",
    "SOHU", "SOLAR", "SOLUTIONS", "SOY", "SPACE", "SPIEGEL", "SR", "ST", "SU", "SUPPLIES", "SUPPLY", "SUPPORT",
    "SURF", "SURGERY", "SUZUKI", "SV", "SX", "SY", "SYSTEMS", "SZ", "TATAR", "TATTOO", "TAX", "TC", "TD",
    "TECHNOLOGY", "TEL", "TF", "TG", "TH", "TIENDA", "TIPS", "TIROL", "TJ", "TK", "TL", "TM", "TN", "TO", "TODAY",
    "TOKYO", "TOOLS", "TOP", "TOWN", "TOYS", "TP", "TR", "TRADE", "TRAINING", "TRAVEL", "TT", "TUI", "TV", "TW",
    "TZ", "UA", "UG", "UK", "UNIVERSITY", "UNO", "UOL", "US", "UY", "UZ", "VA", "VACATIONS", "VC", "VE", "VEGAS",
    "VENTURES", "VERSICHERUNG", "VET", "VG", "VI", "VIAJES", "VILLAS", "VISION", "VLAANDEREN", "VN", "VODKA",
    "VOTE", "VOTING", "VOTO", "VOYAGE", "VU", "WALES", "WANG", "WATCH", "WEBCAM", "WEBSITE", "WED", "WF", "WHOSWHO",
    "WIEN", "WIKI", "WILLIAMHILL", "WME", "WORK", "WORKS", "WORLD", "WS", "WTC", "WTF", "XN--1QQW23A",
    "XN--3BST00M", "XN--3DS443G", "XN--3E0B707E", "XN--45BRJ9C", "XN--4GBRIM", "XN--55QW42G", "XN--55QX5D",
    "XN--6FRZ82G", "XN--6QQ986B3XL", "XN--80ADXHKS", "XN--80AO21A", "XN--80ASEHDB", "XN--80ASWG", "XN--90A3AC",
    "XN--C1AVG", "XN--CG4BKI", "XN--CLCHC0EA0B2G2A9GCD", "XN--CZR694B", "XN--CZRU2D", "XN--D1ACJ3B",
    "XN--FIQ228C5HS", "XN--FIQ64B", "XN--FIQS8S", "XN--FIQZ9S", "XN--FPCRJ9C3D", "XN--FZC2C9E2C", "XN--GECRJ9C",
    "XN--H2BRJ9C", "XN--I1B6B1A6A2E", "XN--IO0A7I", "XN--J1AMH", "XN--J6W193G", "XN--KPRW13D", "XN--KPRY57D",
    "XN--KPUT3I", "XN--L1ACC", "XN--LGBBAT1AD8J", "XN--MGB9AWBF", "XN--MGBA3A4F16A", "XN--MGBAAM7A8H",
    "XN--MGBAB2BD", "XN--MGBAYH7GPA", "XN--MGBBH1A71E", "XN--MGBC0A9AZCG", "XN--MGBERP4A5D4AR", "XN--MGBX4CD0AB",
    "XN--NGBC5AZD", "XN--NQV7F", "XN--NQV7FS00EMA", "XN--O3CW4H", "XN--OGBPF8FL", "XN--P1ACF", "XN--P1AI",
    "XN--PGBS0DH", "XN--Q9JYB4C", "XN--RHQV96G", "XN--S9BRJ9C", "XN--SES554G", "XN--UNUP4Y",
    "XN--VERMGENSBERATER-CTB", "XN--VERMGENSBERATUNG-PWB", "XN--VHQUV", "XN--WGBH1C", "XN--WGBL6A", "XN--XHQ521B",
    "XN--XKC2AL3HYE2A", "XN--XKC2DL3A5EE0H", "XN--YFRO4I67O", "XN--YGBI2AMMX", "XN--ZFR164B", "XXX", "XYZ",
    "YACHTS", "YANDEX", "YE", "YOKOHAMA", "YOUTUBE", "YT", "ZA", "ZIP", "ZM", "ZONE", "ZW"]

def extendedNames : List String := ["BIT", "ONION"]

def TLDs : List Tld := icannNames.map enabled

def ExtendedTLDs : List Tld := extendedNames.map enabled

def dot : UInt8 := 0x2e

def dash : UInt8 := 0x2d

/-! ## The functions of the source -/

def upper (c : UInt8) : UInt8 := if 0x61 ≤ c ∧ c ≤ 0x7a then c - 0x20 else c

def toUpper (src : Bytes) : Bytes := src.map upper

def hasSuffix (s suf : Bytes) : Outcome Bool :=
  if s.length < suf.length then .fault .outOfBounds
  else .returned (s.drop (s.length - suf.length) = suf)

def isAtArray (a : List Tld) (s : Bytes) : Int :=
  match a.find? fun entry => entry.str = toUpper s with
  | some entry => entry.condition
  | none => 0

def isUpper (c : UInt8) : Bool := 0x41 ≤ c ∧ c ≤ 0x5a

def isDigit (c : UInt8) : Bool := 0x30 ≤ c ∧ c ≤ 0x39

def matchString (d : Bytes) : Outcome Bool :=
  let str := toUpper d
  if str.head? = some dot then .returned false
  -- the last two chars are looked at, whether there are two or not
  else match str.reverse with
    | last :: l :: _ =>
        if isUpper l && isUpper last then
          .returned (str.all fun c => isUpper c || isDigit c || c = dot || c = dash)
        else .returned false
    | _ => .fault .outOfBounds

def isIcannTld (s : Bytes) : Int := isAtArray TLDs s

def isExtendedTld (s : Bytes) : Int := isAtArray ExtendedTLDs s

def isTld (s : Bytes) : Bool := isIcannTld s ≠ 0 || isExtendedTld s ≠ 0

/-- What is behind the last dot. -/
def lastPart (s : Bytes) : Bytes := (s.reverse.takeWhile (· ≠ dot)).reverse

def isDomain (s : Bytes) : Outcome Bool := do
  let suffix ← hasSuffix s [dot]
  let s := if suffix then s.dropLast else s
  if dot ∉ s then return false
  else if !isTld (lastPart s) then return false
  else matchString s

/-! ## What a domain name is -/

def isLetter (c : UInt8) : Bool := isUpper c || (0x61 ≤ c && c ≤ 0x7a)

def SameIgnoringCase (a b : Bytes) : Prop := toUpper a = toUpper b

def withoutTrailingDot (s : Bytes) : Bytes := if s.getLast? = some dot then s.dropLast else s

/-- A domain name, by its characters and what is behind its last dot. -/
structure DomainName (s : Bytes) : Prop where
  dotted : dot ∈ s
  first : s.head? ≠ some dot
  characters : ∀ c ∈ s, isLetter c ∨ isDigit c ∨ c = dash ∨ c = dot
  tld : ∃ entry ∈ TLDs ++ ExtendedTLDs, entry.condition ≠ 0 ∧ SameIgnoringCase (lastPart s) entry.str

/-- The last two characters are letters. -/
def LettersLast (s : Bytes) : Prop :=
  match s.reverse with
  | last :: l :: _ => isLetter l ∧ isLetter last
  | _ => False

def RecognisesDomain (s : Bytes) : Prop :=
  ∃ accepted, isDomain s = .returned accepted ∧ (accepted = true ↔ DomainName (withoutTrailingDot s))

/-! ## Characters -/

theorem upper_toNat (c : UInt8) :
    (upper c).toNat = if 0x61 ≤ c.toNat ∧ c.toNat ≤ 0x7a then c.toNat - 0x20 else c.toNat := by
  rw [upper]
  by_cases lower : 0x61 ≤ c ∧ c ≤ 0x7a
  · have lower' : 0x61 ≤ c.toNat ∧ c.toNat ≤ 0x7a := lower
    rw [if_pos lower, if_pos lower']
    exact UInt8.toNat_sub_of_le _ _ (UInt8.le_iff_toNat_le.mpr (le_trans (by decide) lower'.1))
  · have lower' : ¬ (0x61 ≤ c.toNat ∧ c.toNat ≤ 0x7a) := lower
    rw [if_neg lower, if_neg lower']

theorem isUpper_iff (c : UInt8) : isUpper c = true ↔ 0x41 ≤ c.toNat ∧ c.toNat ≤ 0x5a := decide_eq_true_iff

theorem isDigit_iff (c : UInt8) : isDigit c = true ↔ 0x30 ≤ c.toNat ∧ c.toNat ≤ 0x39 := decide_eq_true_iff

theorem isLetter_iff (c : UInt8) : isLetter c = true ↔ isUpper c = true ∨ 0x61 ≤ c.toNat ∧ c.toNat ≤ 0x7a := by
  rw [isLetter, Bool.or_eq_true, Bool.and_eq_true, decide_eq_true_iff, decide_eq_true_iff]
  rfl

theorem isUpper_upper (c : UInt8) : isUpper (upper c) = isLetter c := by
  rw [Bool.eq_iff_iff, isLetter_iff, isUpper_iff, isUpper_iff, upper_toNat]
  split <;> omega

theorem isDigit_upper (c : UInt8) : isDigit (upper c) = isDigit c := by
  rw [Bool.eq_iff_iff, isDigit_iff, isDigit_iff, upper_toNat]
  split <;> omega

theorem upper_eq_iff {c d : UInt8} (low : d.toNat < 0x41) : upper c = d ↔ c = d := by
  rw [← UInt8.toNat_inj, ← UInt8.toNat_inj, upper_toNat]
  split <;> omega

/-! ## The tables -/

theorem isAtArray_ne_zero {a : List Tld} (enabled : ∀ entry ∈ a, entry.condition ≠ 0)
    (capitals : ∀ entry ∈ a, toUpper entry.str = entry.str) (s : Bytes) :
    isAtArray a s ≠ 0 ↔ ∃ entry ∈ a, entry.condition ≠ 0 ∧ SameIgnoringCase s entry.str := by
  rw [isAtArray]
  cases found : a.find? fun entry => entry.str = toUpper s with
  | none =>
      refine iff_of_false (not_not.mpr rfl) ?_
      rintro ⟨entry, mem, -, same⟩
      have missed := List.find?_eq_none.mp found entry mem
      exact missed (decide_eq_true (same.trans (capitals entry mem)).symm)
  | some entry =>
      have mem := List.mem_of_find?_eq_some found
      have same : entry.str = toUpper s := by simpa using List.find?_some found
      exact iff_of_true (enabled entry mem) ⟨entry, mem, enabled entry mem, same.symm.trans (capitals entry mem).symm⟩

/-- Every name is in capitals, and has two characters at least. -/
theorem names_capitals : (icannNames ++ extendedNames).all
    (fun name => toUpper (ascii name) = ascii name && (2 ≤ (ascii name).length)) = true := by decide +kernel

theorem table_capitals {entry : Tld} (mem : entry ∈ TLDs ++ ExtendedTLDs) :
    entry.condition ≠ 0 ∧ toUpper entry.str = entry.str ∧ 2 ≤ entry.str.length := by
  rw [TLDs, ExtendedTLDs, ← List.map_append] at mem
  obtain ⟨name, listed, rfl⟩ := List.mem_map.mp mem
  have capitals := List.all_eq_true.mp names_capitals name listed
  rw [Bool.and_eq_true, decide_eq_true_iff, decide_eq_true_iff] at capitals
  exact ⟨one_ne_zero, capitals⟩

theorem isTld_iff (s : Bytes) : isTld s = true ↔
    ∃ entry ∈ TLDs ++ ExtendedTLDs, entry.condition ≠ 0 ∧ SameIgnoringCase s entry.str := by
  have icann := isAtArray_ne_zero (a := TLDs) (fun entry mem => (table_capitals (List.mem_append_left _ mem)).1)
    (fun entry mem => (table_capitals (List.mem_append_left _ mem)).2.1) s
  have extended := isAtArray_ne_zero (a := ExtendedTLDs) (fun entry mem => (table_capitals (List.mem_append_right _ mem)).1)
    (fun entry mem => (table_capitals (List.mem_append_right _ mem)).2.1) s
  rw [isTld, Bool.or_eq_true, decide_eq_true_iff, decide_eq_true_iff, isIcannTld, isExtendedTld, icann, extended]
  simp only [List.mem_append, or_and_right, exists_or]

theorem length_lastPart_le (s : Bytes) : (lastPart s).length ≤ s.length := by
  rw [lastPart, List.length_reverse]
  exact (List.takeWhile_prefix _).length_le.trans_eq List.length_reverse

theorem two_le_of_isTld {tld : Bytes} (listed : isTld tld = true) : 2 ≤ tld.length := by
  obtain ⟨entry, mem, -, same⟩ := (isTld_iff tld).mp listed
  have capitals := table_capitals mem
  have lengths := congrArg List.length (same.trans capitals.2.1)
  rw [toUpper, List.length_map] at lengths
  omega

/-! ## The functions -/

theorem exists_lastTwo {d : Bytes} (length : 2 ≤ d.length) : ∃ last l rest, d.reverse = last :: l :: rest := by
  rw [← List.length_reverse] at length
  match d.reverse, length with
  | last :: l :: rest, _ => exact ⟨last, l, rest, rfl⟩

theorem matchString_eq {d : Bytes} (length : 2 ≤ d.length) : ∃ matched, matchString d = .returned matched ∧
    (matched = true ↔ d.head? ≠ some dot ∧ LettersLast d ∧ ∀ c ∈ d, isLetter c ∨ isDigit c ∨ c = dash ∨ c = dot) := by
  have dotted : upper dot = dot := by decide
  have first : (toUpper d).head? = some dot ↔ d.head? = some dot := by
    cases d with
    | nil => simp at length
    | cons c d =>
        rw [toUpper, List.map_cons, List.head?_cons, List.head?_cons, Option.some.injEq, Option.some.injEq,
          upper_eq_iff (by decide)]
  unfold matchString LettersLast
  by_cases begins : d.head? = some dot
  · refine ⟨false, if_pos (first.mpr begins), ?_⟩
    exact iff_of_false Bool.false_ne_true fun all => all.1 begins
  · obtain ⟨last, l, rest, reversed⟩ := exists_lastTwo length
    have upperReversed : (toUpper d).reverse = upper last :: upper l :: rest.map upper := by
      rw [toUpper, ← List.map_reverse, reversed, List.map_cons, List.map_cons]
    dsimp only
    rw [if_neg (mt first.mp begins), upperReversed, reversed]
    dsimp only
    rw [isUpper_upper, isUpper_upper]
    have characters : ((toUpper d).all fun c => isUpper c || isDigit c || c = dot || c = dash) = true ↔
        ∀ c ∈ d, isLetter c ∨ isDigit c ∨ c = dash ∨ c = dot := by
      rw [toUpper, List.all_map, List.all_eq_true]
      refine forall₂_congr fun c _ => ?_
      simp only [Function.comp_apply, isUpper_upper, isDigit_upper, Bool.or_eq_true, decide_eq_true_eq,
        upper_eq_iff (d := dot) (by decide), upper_eq_iff (d := dash) (by decide), or_assoc, or_comm (a := c = dot)]
    by_cases letters : (isLetter l && isLetter last) = true
    · refine ⟨_, if_pos letters, ?_⟩
      rw [characters]
      rw [Bool.and_eq_true] at letters
      exact ⟨fun all => ⟨begins, letters, all⟩, fun all => all.2.2⟩
    · refine ⟨false, if_neg letters, ?_⟩
      rw [Bool.and_eq_true] at letters
      exact iff_of_false Bool.false_ne_true fun all => letters all.2.1

theorem hasSuffix_dot {s : Bytes} (nonempty : s ≠ []) :
    hasSuffix s [dot] = .returned (decide (s.getLast? = some dot)) := by
  have positive := List.length_pos_of_ne_nil nonempty
  obtain ⟨init, c, rfl⟩ := List.eq_nil_or_concat s |>.resolve_left nonempty
  rw [List.concat_eq_append, hasSuffix, if_neg (by simp), List.length_append, List.length_singleton, List.length_singleton,
    Nat.add_sub_cancel, List.drop_left, List.getLast?_concat]
  simp only [List.cons.injEq, and_true, Option.some.injEq]

/-- A name is accepted when it is a domain name and its last two characters are letters. -/
theorem isDomain_eq {s : Bytes} (nonempty : s ≠ []) : ∃ accepted, isDomain s = .returned accepted ∧
    (accepted = true ↔ DomainName (withoutTrailingDot s) ∧ LettersLast (withoutTrailingDot s)) := by
  have copy : (if decide (s.getLast? = some dot) = true then s.dropLast else s) = withoutTrailingDot s := by
    simp only [decide_eq_true_eq, withoutTrailingDot]
  rw [isDomain, hasSuffix_dot nonempty, Outcome.returned_bind]
  dsimp only
  rw [copy]
  by_cases dotted : dot ∈ withoutTrailingDot s
  · rw [if_neg (not_not.mpr dotted)]
    by_cases tld : isTld (lastPart (withoutTrailingDot s)) = true
    · obtain ⟨matched, result, holds⟩ := matchString_eq ((two_le_of_isTld tld).trans (length_lastPart_le _))
      rw [if_neg (by simpa using tld), result]
      refine ⟨matched, rfl, holds.trans ?_⟩
      constructor
      · rintro ⟨first, letters, characters⟩
        exact ⟨⟨dotted, first, characters, (isTld_iff _).mp tld⟩, letters⟩
      · rintro ⟨name, letters⟩
        exact ⟨name.first, letters, name.characters⟩
    · rw [if_pos (by simpa using tld)]
      exact ⟨false, rfl, iff_of_false Bool.false_ne_true fun both => tld ((isTld_iff _).mpr both.1.tld)⟩
  · rw [if_pos dotted]
    exact ⟨false, rfl, iff_of_false Bool.false_ne_true fun both => dotted both.1.dotted⟩

theorem recognisesDomain_empty : ¬ RecognisesDomain [] := by
  rintro ⟨accepted, result, -⟩
  cases result

/-- Domains whose TLD has a digit among its last two characters are turned away, and the empty string is read
outside of. -/
theorem recognisesDomain_iff (s : Bytes) : RecognisesDomain s ↔
    s ≠ [] ∧ ¬ (DomainName (withoutTrailingDot s) ∧ ¬ LettersLast (withoutTrailingDot s)) := by
  by_cases nonempty : s = []
  · subst nonempty
    exact iff_of_false recognisesDomain_empty fun both => both.1 rfl
  · obtain ⟨accepted, result, holds⟩ := isDomain_eq nonempty
    rw [and_iff_right nonempty]
    constructor
    · rintro ⟨accepted', result', recognised⟩ ⟨name, digits⟩
      obtain rfl := Outcome.returned.inj (result.symm.trans result')
      exact digits (holds.mp (recognised.mpr name)).2
    · intro letters
      refine ⟨accepted, result, holds.trans ?_⟩
      constructor
      · exact fun both => both.1
      · intro name
        exact ⟨name, by_contra fun digits => letters ⟨name, digits⟩⟩

example : isDomain (ascii "foo.bar.baz.com.") = .returned true := by decide +kernel

theorem nqv7f_listed : "XN--NQV7F" ∈ icannNames := by decide +kernel

/-- Under a TLD of the table that ends with a digit and a letter. -/
theorem not_recognisesDomain_nqv7f : ¬ RecognisesDomain (ascii "example.xn--nqv7f") ∧ ¬ RecognisesDomain [] := by
  refine ⟨?_, recognisesDomain_empty⟩
  have plain : withoutTrailingDot (ascii "example.xn--nqv7f") = ascii "example.xn--nqv7f" := by decide
  have name : DomainName (ascii "example.xn--nqv7f") := by
    refine ⟨by decide, by decide, by simp [ascii, isLetter, isUpper, isDigit, dash, dot], ?_⟩
    have capitals : SameIgnoringCase (lastPart (ascii "example.xn--nqv7f")) (ascii "XN--NQV7F") := by
      unfold SameIgnoringCase
      decide
    exact ⟨enabled "XN--NQV7F", List.mem_append_left _ (List.mem_map_of_mem nqv7f_listed), one_ne_zero, capitals⟩
  obtain ⟨accepted, result, holds⟩ := isDomain_eq (s := ascii "example.xn--nqv7f") (by decide)
  rw [plain] at holds
  rintro ⟨accepted', result', recognised⟩
  obtain rfl := Outcome.returned.inj (result.symm.trans result')
  rw [plain] at recognised
  have ends : isLetter 0x37 = true ∧ isLetter 0x66 = true := (holds.mp (recognised.mpr name)).2
  exact absurd ends.1 (by decide)

/-! ## In the resolver of DNS links -/

theorem upper_upper (c : UInt8) : upper (upper c) = upper c := by
  rw [← UInt8.toNat_inj, upper_toNat (upper c), upper_toNat]
  split_ifs <;> omega

theorem toUpper_toUpper (s : Bytes) : toUpper (toUpper s) = toUpper s := by
  unfold toUpper
  rw [List.map_map]
  exact List.map_congr_left fun c _ => upper_upper c

theorem isTld_toUpper (s : Bytes) : isTld (toUpper s) = isTld s := by
  unfold isTld isIcannTld isExtendedTld isAtArray
  rw [toUpper_toUpper]

/-- The two tables, as the resolver takes them. -/
def tldTable : TldTable where
  condition := isTld
  long _ := two_le_of_isTld

theorem isdomainMatchString_eq {d : Bytes} (length : 2 ≤ d.length) :
    matchString d = .returned (isdomainMatchString d) := by
  have long : 2 ≤ (toUpper d).length := by rwa [toUpper, List.length_map]
  have same : d.map Ipfs.toUpper = toUpper d := rfl
  have test : (fun c => isUpper c || isDigit c || decide (c = dot) || decide (c = dash)) =
      fun c => Ipfs.isLetter c || decide (0x30 ≤ c ∧ c ≤ 0x39 ∨ c = 0x2e ∨ c = 0x2d) := by
    funext c
    rw [Bool.decide_or, Bool.decide_or, ← Bool.or_assoc, ← Bool.or_assoc]
    rfl
  unfold matchString isdomainMatchString
  dsimp only
  rw [same, test]
  obtain ⟨last, l, rest, reversed⟩ := exists_lastTwo long
  have ends : (toUpper d).drop ((toUpper d).length - 2) = [l, last] := by
    rw [← List.reverse_reverse (toUpper d), reversed, List.reverse_cons, List.reverse_cons, List.append_assoc,
      List.length_append, List.length_append]
    exact List.drop_left' (by simp)
  rw [reversed, ends]
  by_cases first : (toUpper d).head? = some dot
  · rw [if_pos first, first]
    rfl
  · have begins : decide ((toUpper d).head? ≠ some 0x2e) = true := decide_eq_true first
    have both : [l, last].all Ipfs.isLetter = (isUpper l && isUpper last) := by
      rw [List.all_cons, List.all_cons, List.all_nil, Bool.and_true]
      rfl
    rw [if_neg first, begins, both, Bool.true_and]
    dsimp only
    cases isUpper l && isUpper last <;> rfl

/-- What the resolver asks is what is answered here. -/
theorem isdomainIsDomain_eq (s : Bytes) : isdomainIsDomain tldTable s = isDomain s := by
  by_cases empty : s = []
  · subst empty
    rfl
  · have copy : (if decide (s.getLast? = some dot) = true then s.dropLast else s) = withoutTrailingDot s := by
      simp only [decide_eq_true_eq, withoutTrailingDot]
    have copy' : (if s.getLast? = some 0x2e then s.dropLast else s) = withoutTrailingDot s := rfl
    have listed : tldTable.condition ((lastPart (withoutTrailingDot s)).map Ipfs.toUpper) =
        isTld (lastPart (withoutTrailingDot s)) := isTld_toUpper _
    rw [isDomain, hasSuffix_dot empty, Outcome.returned_bind, isdomainIsDomain, if_neg empty]
    dsimp only
    rw [copy, copy']
    by_cases dotted : dot ∈ withoutTrailingDot s
    · rw [if_neg (not_not.mpr dotted)]
      refine (if_neg (not_not.mpr dotted)).trans ?_
      by_cases tld : isTld (lastPart (withoutTrailingDot s)) = true
      · have long := (two_le_of_isTld tld).trans (length_lastPart_le _)
        have known : (!isTld (lastPart (withoutTrailingDot s))) = false := by rw [tld, Bool.not_true]
        rw [known, if_neg Bool.false_ne_true, isdomainMatchString_eq long]
        exact if_pos (listed.trans tld)
      · have unknown : (!isTld (lastPart (withoutTrailingDot s))) = true := by rw [Bool.eq_false_iff.mpr tld, Bool.not_false]
        rw [unknown, if_pos rfl]
        exact if_neg fun found => tld (listed.symm.trans found)
    · rw [if_pos dotted]
      exact if_pos dotted

end Ipfs.Isdomain
