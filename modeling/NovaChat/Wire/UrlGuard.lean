import NovaChat.Wire.Address
import NovaChat.Wire.Limits

/-!
# The guard on URLs

A reference is accepted if it is a plain `https` URL with a public host.  Hosts are compared with
blocked names, and those that spell an address with the rules for addresses.  How URLs are parsed
is a parameter; how addresses are read from text is modelled here.
-/

namespace NovaChat

/-! ## Reading addresses -/

/-- A reader takes what it reads off the text, or fails. -/
abbrev Reader (α : Type) := List Char → Option (α × List Char)

def toDigit (radix : ℕ) (c : Char) : Option ℕ :=
  let digit :=
    if '0' ≤ c && c ≤ '9' then some (c.toNat - '0'.toNat)
    else if 'a' ≤ c && c ≤ 'z' then some (c.toNat - 'a'.toNat + 10)
    else if 'A' ≤ c && c ≤ 'Z' then some (c.toNat - 'A'.toNat + 10)
    else none
  digit.filter (· < radix)

def readGivenChar (target : Char) : Reader Unit
  | c :: rest => if c = target then some ((), rest) else none
  | [] => none

def readSeparator {α : Type} (sep : Char) (index : ℕ) (inner : Reader α) : Reader α := fun text ↦
  if index > 0 then
    match readGivenChar sep text with
    | some ((), rest) => inner rest
    | none => none
  else inner text

/-- The loop of `read_number`: the value of the digits read, and how many they are. -/
def readDigits (radix maxDigits : ℕ) : ℕ → ℕ → Reader (ℕ × ℕ)
  | result, digitCount, c :: rest =>
    match toDigit radix c with
    | none => some ((result, digitCount), c :: rest)
    | some digit =>
      if digitCount + 1 > maxDigits then none
      else readDigits radix maxDigits (result * radix + digit) (digitCount + 1) rest
  | result, digitCount, [] => some ((result, digitCount), [])

/-- A number of so many bits. -/
def readNumber (radix maxDigits : ℕ) (allowZeroPrefix : Bool) (bits : ℕ) : Reader (BitVec bits) :=
  fun text ↦
    match readDigits radix maxDigits 0 0 text with
    | none => none
    | some ((result, digitCount), rest) =>
      if digitCount = 0 then none
      else if !allowZeroPrefix && text.head? = some '0' && digitCount > 1 then none
      else if result < 2 ^ bits then some (BitVec.ofNat bits result, rest)
      else none

/-- Octets are decimal, without leading zeros. -/
def readOctet (index : ℕ) : Reader (BitVec 8) := readSeparator '.' index (readNumber 10 3 false 8)

def readIpv4Addr : Reader Ipv4Addr := fun text ↦ do
  let (a, text) ← readOctet 0 text
  let (b, text) ← readOctet 1 text
  let (c, text) ← readOctet 2 text
  let (d, text) ← readOctet 3 text
  return (a ++ b ++ c ++ d, text)

/-- The groups of a part of an address, whether the last two spell an IPv4 address, and the text
that is left. -/
def readGroups : ℕ → ℕ → List Char → List (BitVec 16) × Bool × List Char
  | 0, _, text => ([], false, text)
  | remaining + 1, index, text =>
    match (if 0 < remaining then readSeparator ':' index readIpv4Addr text else none) with
    | some (ipv4, rest) => ([ipv4.extractLsb' 16 16, ipv4.extractLsb' 0 16], true, rest)
    | none =>
      match readSeparator ':' index (readNumber 16 4 true 16) text with
      | none => ([], false, text)
      | some (group, rest) =>
        let (groups, ipv4, rest) := readGroups remaining (index + 1) rest
        (group :: groups, ipv4, rest)

def readIpv6Addr : Reader Ipv6Addr := fun text ↦
  let (head, headIpv4, rest) := readGroups 8 0 text
  if head.length = 8 then some (.new head, rest)
  else if headIpv4 then none
  else do
    let ((), rest) ← readGivenChar ':' rest
    let ((), rest) ← readGivenChar ':' rest
    let (tail, _, rest) := readGroups (8 - (head.length + 1)) 0 rest
    return (.new (head ++ List.replicate (8 - head.length - tail.length) 0 ++ tail), rest)

def readIpAddr : Reader IpAddr := fun text ↦
  match readIpv4Addr text with
  | some (ip, rest) => some (.v4 ip, rest)
  | none => (readIpv6Addr text).map fun (ip, rest) ↦ (.v6 ip, rest)

/-- The whole text has to be read. -/
def parseIpAddr (text : String) : Option IpAddr :=
  match readIpAddr text.toList with
  | some (ip, []) => some ip
  | _ => none

example : parseIpAddr "127.0.0.1" = some (.v4 (Ipv4Addr.new 127 0 0 1)) := by decide +kernel

example : parseIpAddr "::ffff:10.0.0.1" =
    some (.v6 (.new [0, 0, 0, 0, 0, 0xffff, 0x0a00, 0x0001])) := by decide +kernel

/-! ## What readers take -/

/-- Addresses are written with hexadecimal digits, dots and colons. -/
def AddressChar (c : Char) : Prop := (toDigit 16 c).isSome ∨ c = '.' ∨ c = ':'

instance (c : Char) : Decidable (AddressChar c) := inferInstanceAs (Decidable (_ ∨ _ ∨ _))

def Took (text rest : List Char) : Prop :=
  ∃ taken, text = taken ++ rest ∧ ∀ c ∈ taken, AddressChar c

namespace Took

theorem refl (text : List Char) : Took text text := ⟨[], rfl, by simp⟩

theorem single {c : Char} {rest : List Char} (hc : AddressChar c) : Took (c :: rest) rest :=
  ⟨[c], rfl, by simpa using hc⟩

theorem trans {text middle rest : List Char} (h : Took text middle) (h' : Took middle rest) :
    Took text rest := by
  obtain ⟨taken, rfl, htaken⟩ := h
  obtain ⟨taken', rfl, htaken'⟩ := h'
  refine ⟨taken ++ taken', (List.append_assoc ..).symm, fun c hc ↦ ?_⟩
  exact (List.mem_append.mp hc).elim (htaken c) (htaken' c)

end Took

/-- What a reader takes belongs to an address. -/
def Takes {α : Type} (reader : Reader α) : Prop :=
  ∀ text x rest, reader text = some (x, rest) → Took text rest

theorem toDigit_sixteen {c : Char} {digit radix : ℕ} (hradix : radix ≤ 16)
    (h : toDigit radix c = some digit) : AddressChar c := by
  simp only [toDigit, Option.filter_eq_some_iff, decide_eq_true_eq] at h
  refine .inl ?_
  rw [toDigit, h.1]
  simp [Option.filter, h.2.trans_le hradix]

theorem readGivenChar_takes {target : Char} (htarget : AddressChar target) :
    Takes (readGivenChar target) := by
  intro text x rest h
  match text with
  | [] => cases h
  | c :: text =>
    simp only [readGivenChar] at h
    split at h
    · rename_i hc
      cases h
      exact .single (hc ▸ htarget)
    · cases h

theorem readSeparator_takes {α : Type} {sep : Char} (hsep : AddressChar sep) (index : ℕ)
    {inner : Reader α} (hinner : Takes inner) : Takes (readSeparator sep index inner) := by
  intro text x rest h
  simp only [readSeparator] at h
  split_ifs at h with hindex
  · split at h
    · rename_i middle hmiddle
      exact (readGivenChar_takes hsep _ _ _ hmiddle).trans (hinner _ _ _ h)
    · cases h
  · exact hinner _ _ _ h

theorem readDigits_takes {radix : ℕ} (hradix : radix ≤ 16) (maxDigits result digitCount : ℕ) :
    Takes (readDigits radix maxDigits result digitCount) := by
  intro text x rest h
  induction text generalizing result digitCount with
  | nil =>
      cases h
      exact .refl _
  | cons c text ih =>
      simp only [readDigits] at h
      split at h
      · cases h
        exact .refl _
      · rename_i digit hdigit
        split_ifs at h
        exact (Took.single (toDigit_sixteen hradix hdigit)).trans (ih _ _ h)

theorem readNumber_takes {radix : ℕ} (hradix : radix ≤ 16) (maxDigits : ℕ) (allowZeroPrefix : Bool)
    (bits : ℕ) : Takes (readNumber radix maxDigits allowZeroPrefix bits) := by
  intro text x rest h
  simp only [readNumber] at h
  split at h
  · cases h
  · rename_i result digitCount rest' hdigits
    split_ifs at h
    cases h
    exact readDigits_takes hradix _ _ _ _ _ _ hdigits

theorem readOctet_takes (index : ℕ) : Takes (readOctet index) :=
  readSeparator_takes (by decide) index (readNumber_takes (by decide) _ _ _)

theorem readIpv4Addr_takes : Takes readIpv4Addr := by
  intro text x rest h
  simp only [readIpv4Addr, Option.bind_eq_bind, Option.bind_eq_some_iff] at h
  obtain ⟨⟨a, text₁⟩, h₁, ⟨b, text₂⟩, h₂, ⟨c, text₃⟩, h₃, ⟨d, text₄⟩, h₄, hpure⟩ := h
  cases hpure
  exact (readOctet_takes 0 _ _ _ h₁).trans <| (readOctet_takes 1 _ _ _ h₂).trans <|
    (readOctet_takes 2 _ _ _ h₃).trans (readOctet_takes 3 _ _ _ h₄)

theorem readGroups_took (remaining index : ℕ) (text : List Char) :
    Took text (readGroups remaining index text).2.2 := by
  induction remaining generalizing index text with
  | zero => exact .refl _
  | succ remaining ih =>
      rw [readGroups]
      split
      · rename_i ipv4 rest hipv4
        split_ifs at hipv4
        exact readSeparator_takes (by decide) index readIpv4Addr_takes _ _ _ hipv4
      · split
        · exact .refl _
        · rename_i group rest hgroup
          have hnumber := readSeparator_takes (by decide) index
            (readNumber_takes (by decide) 4 true 16) _ _ _ hgroup
          exact hnumber.trans (ih (index + 1) rest)

theorem readIpv6Addr_takes : Takes readIpv6Addr := by
  intro text x rest h
  simp only [readIpv6Addr, Option.bind_eq_bind] at h
  have hhead := readGroups_took 8 0 text
  split_ifs at h
  · cases h
    exact hhead
  · simp only [Option.bind_eq_some_iff] at h
    obtain ⟨⟨_, rest₁⟩, h₁, ⟨_, rest₂⟩, h₂, hpure⟩ := h
    cases hpure
    have hcolon : AddressChar ':' := by decide
    exact hhead.trans <| (readGivenChar_takes hcolon _ _ _ h₁).trans <|
      (readGivenChar_takes hcolon _ _ _ h₂).trans (readGroups_took _ _ _)

theorem readIpAddr_takes : Takes readIpAddr := by
  intro text x rest h
  simp only [readIpAddr] at h
  split at h
  · rename_i ip rest' hip
    cases h
    exact readIpv4Addr_takes _ _ _ hip
  · obtain ⟨⟨ip, rest'⟩, hip, hx⟩ := Option.map_eq_some_iff.mp h
    cases hx
    exact readIpv6Addr_takes _ _ _ hip

theorem parseIpAddr_eq_none {text : String} {c : Char} (hc : c ∈ text.toList)
    (haddress : ¬ AddressChar c) : parseIpAddr text = none := by
  unfold parseIpAddr
  split
  · rename_i ip hip
    obtain ⟨taken, htext, htaken⟩ := readIpAddr_takes _ _ _ hip
    rw [htext, List.append_nil] at hc
    exact absurd (htaken c hc) haddress
  · rfl

/-! ## The guard -/

inductive Host
  | domain (name : String)
  | ipv4 (ip : Ipv4Addr)
  | ipv6 (ip : Ipv6Addr)

/-- What the parser finds in a URL. -/
structure Url where
  scheme : String
  username : String := ""
  password : Option String := none
  host : Option Host

/-- Hostnames that must never be fetched even before resolution. -/
def blockedHostSuffixes : List String :=
  ["localhost", ".localhost", ".local", ".internal", ".intranet", ".corp", ".home", ".lan"]

def toAsciiLowercase (s : String) : String := s.map Char.toLower

def endsWith (s suffix : String) : Bool := suffix.toList.isSuffixOf s.toList

def ensurePublicDomain (name : String) : Except UrlRejection Unit :=
  let lowered := toAsciiLowercase name
  if blockedHostSuffixes.any fun s ↦ lowered = s || endsWith lowered s then .error .privateAddress
  else
    -- A bare literal that the parser classified as a domain.
    match parseIpAddr lowered with
    | some ip => if isBlockedIp ip then .error .privateAddress else .ok ()
    | none => .ok ()

/-- Reject anything that is not a plain public `https` URL. -/
def ensurePublicHttps (parse : String → Option Url) : UrlGuard := fun raw maxBytes ↦
  if raw.utf8ByteSize > maxBytes then .error (.tooLong maxBytes)
  else
    match parse raw with
    | none => .error .malformed
    | some url =>
      if url.scheme ≠ "https" then .error (.schemeNotAllowed url.scheme)
      else if !url.username.isEmpty || url.password.isSome then .error .embeddedCredentials
      else
        match url.host with
        | none => .error .missingHost
        | some (.ipv4 v4) => if isBlockedV4 v4 then .error .privateAddress else .ok ()
        | some (.ipv6 v6) => if isBlockedV6 v6 then .error .privateAddress else .ok ()
        | some (.domain name) => ensurePublicDomain name

def Url.hasCredentials (url : Url) : Bool := !url.username.isEmpty || url.password.isSome

/-! ## Blocked names -/

/-- The domains that are blocked with everything under them. -/
def blockedDomains : List String :=
  [".localhost", ".local", ".internal", ".intranet", ".corp", ".home", ".lan"]

def BlockedName (name : String) : Prop :=
  name = "localhost" ∨ ∃ label domain, label ≠ "" ∧ domain ∈ blockedDomains ∧ name = label ++ domain

/-- A spelling of a name differs from it in the case of letters and in the root dot. -/
def Spells (spelling name : String) : Prop :=
  toAsciiLowercase spelling = name ∨ toAsciiLowercase spelling = name ++ "."

theorem BlockedName.endsWith {name : String} (h : BlockedName name) :
    ∃ s ∈ blockedHostSuffixes, endsWith name s = true := by
  obtain rfl | ⟨label, domain, -, hdomain, rfl⟩ := h
  · exact ⟨"localhost", by decide, by decide⟩
  · refine ⟨domain, List.mem_cons_of_mem _ hdomain, ?_⟩
    simp [NovaChat.endsWith]

/-- A blocked name has a letter that no address has. -/
theorem BlockedName.exists_letter {name : String} (h : BlockedName name) :
    ∃ c ∈ name.toList, ¬ AddressChar c := by
  obtain rfl | ⟨label, domain, -, hdomain, rfl⟩ := h
  · exact ⟨'l', by decide, by decide⟩
  · have hletter : ∃ c ∈ domain.toList, ¬ AddressChar c := by
      simp only [blockedDomains, List.mem_cons, List.not_mem_nil, or_false] at hdomain
      rcases hdomain with rfl | rfl | rfl | rfl | rfl | rfl | rfl
      · exact ⟨'l', by decide, by decide⟩
      · exact ⟨'l', by decide, by decide⟩
      · exact ⟨'l', by decide, by decide⟩
      · exact ⟨'n', by decide, by decide⟩
      · exact ⟨'o', by decide, by decide⟩
      · exact ⟨'h', by decide, by decide⟩
      · exact ⟨'l', by decide, by decide⟩
    obtain ⟨c, hc, haddress⟩ := hletter
    exact ⟨c, by simp [hc], haddress⟩

theorem known_suffix_last {s : String} (hs : s ∈ blockedHostSuffixes) :
    s.toList.getLast?.isSome = true ∧ s.toList.getLast? ≠ some '.' := by
  revert s
  decide

theorem not_known_of_dot (name : String) {s : String} (hs : s ∈ blockedHostSuffixes) :
    ¬ (name ++ "." = s ∨ endsWith (name ++ ".") s = true) := by
  obtain ⟨hsome, hdot⟩ := known_suffix_last hs
  rintro (heq | hends)
  · exact hdot (by simp [← heq])
  · obtain ⟨front, hfront⟩ := List.isSuffixOf_iff_suffix.mp hends
    have hlast := congrArg List.getLast? hfront
    rw [List.getLast?_append, Option.or_of_isSome hsome, String.toList_append] at hlast
    exact hdot (hlast.trans (by simp))

theorem ensurePublicDomain_blocked {spelling name : String} (hname : BlockedName name)
    (h : toAsciiLowercase spelling = name) :
    ensurePublicDomain spelling = .error .privateAddress := by
  obtain ⟨s, hs, hends⟩ := hname.endsWith
  rw [ensurePublicDomain, if_pos]
  refine List.any_eq_true.mpr ⟨s, hs, ?_⟩
  simp [h, hends]

theorem ensurePublicDomain_dotted {spelling name : String} (hname : BlockedName name)
    (h : toAsciiLowercase spelling = name ++ ".") : ensurePublicDomain spelling = .ok () := by
  obtain ⟨c, hc, haddress⟩ := hname.exists_letter
  have hparse : parseIpAddr (toAsciiLowercase spelling) = none :=
    parseIpAddr_eq_none (by simp [h, hc]) haddress
  rw [ensurePublicDomain, if_neg]
  · rw [hparse]
  · intro hany
    obtain ⟨s, hs, hknown⟩ := List.any_eq_true.mp hany
    refine not_known_of_dot name hs ?_
    simpa [h] using hknown

theorem endsWith_dot_iff (s : String) :
    endsWith s "." = true ↔ s.toList.getLast? = some '.' := by
  rw [endsWith, List.isSuffixOf_iff_suffix]
  exact List.singleton_suffix_iff_getLast?_eq_some

theorem toLower_eq_dot_iff (c : Char) : c.toLower = '.' ↔ c = '.' := by
  unfold Char.toLower
  split
  · rename_i hupper
    refine ⟨fun h ↦ ?_, fun h ↦ absurd hupper (by rw [h]; decide)⟩
    have hval := congrArg (·.val.toNat) h
    have hlow := UInt32.le_iff_toNat_le.mp hupper.1
    have hhigh := UInt32.le_iff_toNat_le.mp hupper.2
    simp at hval hlow hhigh
    omega
  · rfl

theorem endsWith_dot_toAsciiLowercase (s : String) :
    endsWith (toAsciiLowercase s) "." = endsWith s "." := by
  rw [Bool.eq_iff_iff, endsWith_dot_iff, endsWith_dot_iff, toAsciiLowercase, String.toList_map,
    List.getLast?_map, Option.map_eq_some_iff]
  simp only [toLower_eq_dot_iff, exists_eq_right]

theorem BlockedName.endsWith_dot {name : String} (h : BlockedName name) :
    NovaChat.endsWith name "." = false := by
  rw [← Bool.not_eq_true, endsWith_dot_iff]
  obtain ⟨s, hs, hends⟩ := h.endsWith
  obtain ⟨front, hfront⟩ := List.isSuffixOf_iff_suffix.mp hends
  obtain ⟨hsome, hdot⟩ := known_suffix_last hs
  rwa [← hfront, List.getLast?_append, Option.or_of_isSome hsome]

/-- A URL on a blocked host is rejected for its length, for its credentials or because its host is
spelled without the root dot. -/
theorem respelled_rejected_iff {parse : String → Option Url} {raw spelling name : String}
    {url : Url} (maxBytes : ℕ) (hparse : parse raw = some url) (hscheme : url.scheme = "https")
    (hhost : url.host = some (.domain spelling)) (hname : BlockedName name)
    (hspells : Spells spelling name) :
    (∃ rejection, ensurePublicHttps parse raw maxBytes = .error rejection) ↔
      raw.utf8ByteSize > maxBytes ∨ url.hasCredentials = true ∨ endsWith spelling "." = false := by
  have hdomain : (∃ rejection, ensurePublicDomain spelling = .error rejection) ↔
      endsWith spelling "." = false := by
    rw [← endsWith_dot_toAsciiLowercase]
    obtain hplain | hdotted := hspells
    · rw [ensurePublicDomain_blocked hname hplain, hplain, hname.endsWith_dot]
      simp
    · rw [ensurePublicDomain_dotted hname hdotted, hdotted]
      have hdot : endsWith (name ++ ".") "." = true := by simp [endsWith_dot_iff]
      simp [hdot]
  unfold ensurePublicHttps
  rw [hparse, ← hdomain, Url.hasCredentials]
  simp only [hscheme, hhost, ne_eq, not_true_eq_false, if_false]
  split_ifs <;> simp_all

namespace Sample

/-- A parser that knows one URL. -/
def parseRooted (raw : String) : Option Url :=
  if raw = "https://localhost./a" then
    some { scheme := "https", host := some (.domain "localhost.") }
  else if raw = "https://PRINTER.local/a" then
    some { scheme := "https", host := some (.domain "printer.local") }
  else none

end Sample

/-- Without the root dot a blocked suffix is found, whatever comes before it. -/
theorem respelled_rejected_iff_suffix :
    ∃ rejection, ensurePublicHttps Sample.parseRooted "https://PRINTER.local/a" 2048 =
      .error rejection := by
  have hname : BlockedName "printer.local" :=
    .inr ⟨"printer", ".local", by decide, by decide, by decide⟩
  have hspells : Spells "printer.local" "printer.local" := .inl (by decide +kernel)
  exact (respelled_rejected_iff 2048 rfl rfl rfl hname hspells).mpr
    (.inr (.inr (by decide +kernel)))

/-- The root dot gets `localhost` past the guard. -/
theorem rooted_accepted : ¬ ∀ (parse : String → Option Url) (raw spelling name : String) (url : Url)
    (maxBytes : ℕ), parse raw = some url → url.scheme = "https" →
      url.host = some (.domain spelling) → BlockedName name → Spells spelling name →
        ∃ rejection, ensurePublicHttps parse raw maxBytes = .error rejection := by
  intro hclaim
  obtain ⟨rejection, hrejected⟩ := hclaim Sample.parseRooted "https://localhost./a" "localhost."
    "localhost" { scheme := "https", host := some (.domain "localhost.") } 2048 rfl rfl rfl
    (.inl rfl) (.inr (by decide +kernel))
  have haccepted : ensurePublicHttps Sample.parseRooted "https://localhost./a" 2048 = .ok () := by
    decide +kernel
  rw [haccepted] at hrejected
  cases hrejected

end NovaChat
