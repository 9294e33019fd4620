import ManifestLens.Text.Quoting
import ManifestLens.Text.Trim

/-!
# URLs of package indexes

Joining paths to the URL of an index, and bringing such a URL into its normal form: no slash at its
end, and always the secure scheme. What is no absolute web URL is replaced by that of the public index.
A URL whose authority cannot be taken apart is neither valid nor invalid; it is a fault.
-/

/-!
## Internet addresses

The textual forms of numeric host addresses, as they may stand between brackets in a URL.
-/

namespace ManifestLens

namespace Address

def isHexDigit (c : Char) : Bool :=
  Text.isAsciiDigit c || ('a' ≤ c && c ≤ 'f') || ('A' ≤ c && c ≤ 'F')

/-- A number from 0 to 255 without leading zeros. -/
def isOctet (text : List Char) : Bool :=
  !text.isEmpty && text.all Text.isAsciiDigit && text.length ≤ 3 &&
    (text.head? != some '0' || text.length == 1) &&
    text.foldl (fun n c => n * 10 + (c.toNat - '0'.toNat)) 0 ≤ 255

/-- Four octets between points. -/
def isVersion4 (text : List Char) : Bool :=
  let octets := Text.splitOn '.' text
  octets.length == 4 && octets.all isOctet

/-- A group of one to four hexadecimal digits. -/
def isGroup (text : List Char) : Bool :=
  !text.isEmpty && text.length ≤ 4 && text.all isHexDigit

/-- The groups of an address between colons, where one empty group inside stands for as many zeros as
are missing from eight. It may reach an end of the address only together with the empty group there. -/
def areGroups (groups : List (List Char)) : Bool :=
  let inner := groups.drop 1 |>.dropLast
  if 9 < groups.length then false
  else
    match inner.findIdx? List.isEmpty with
    | none => groups.length == 8 && groups.all isGroup
    | some i =>
        let before := groups.take (i + 1)
        let after := groups.drop (i + 2)
        let before := if before == [[]] then [] else before
        let after := if after == [[]] then [] else after
        before.all isGroup && after.all isGroup && before.length + after.length < 8

/-- The last group, which may be written as four octets, replaced by two groups of digits. -/
def expandSuffix? (groups : List (List Char)) : Option (List (List Char)) :=
  match groups.getLast? with
  | none => none
  | some last =>
      if last.contains '.' then
        if isVersion4 last then some (groups.dropLast ++ [['0'], ['0']]) else none
      else some groups

/-- Groups between colons, with a zone after a percent sign if there is one. -/
def isVersion6 (text : List Char) : Bool :=
  let body := text.takeWhile (· != '%')
  let zone := text.drop body.length
  let zoneOk := match zone with
    | [] => true
    | _ :: name => !name.isEmpty && !name.contains '%'
  let groups := Text.splitOn ':' body
  !text.contains '/' && zoneOk && 3 ≤ groups.length && (expandSuffix? groups).any areGroups

/-- An address of a future version: a `v`, its number in hexadecimal digits, a point, and more. -/
def isFuture (text : List Char) : Bool :=
  match text with
  | 'v' :: rest =>
      let number := rest.takeWhile isHexDigit
      match rest.drop number.length with
      | '.' :: more => !number.isEmpty && !more.isEmpty && !more.contains '\n'
      | _ => false
  | _ => false

end Address

end ManifestLens

/-! ## URLs -/

namespace ManifestLens

/-- Why the authority of a URL cannot be taken apart. -/
inductive UrlFault where
  | unbalancedBrackets
  | malformedFutureAddress
  | notAnAddress (host : List Char)
  | version4InBrackets
  /-- The authority holds a character that stands for a delimiter. -/
  | disguisedDelimiter (authority : List Char)
deriving DecidableEq, Repr

namespace UrlFault

def message : UrlFault → String
  | .unbalancedBrackets => "Invalid IPv6 URL"
  | .malformedFutureAddress => "IPvFuture address is invalid"
  | .notAnAddress host =>
      String.ofList (Text.quoted host) ++ " does not appear to be an IPv4 or IPv6 address"
  | .version4InBrackets => "An IPv4 address cannot be in brackets"
  | .disguisedDelimiter authority =>
      "netloc '" ++ String.ofList authority ++
        "' contains invalid characters under NFKC normalization"

end UrlFault

/-- What a URL starts with. Either part may be empty. -/
structure UrlHead where
  scheme : List Char
  authority : List Char
deriving DecidableEq, Repr

namespace UrlHead

/-- A character of a scheme. -/
def isSchemeChar (c : Char) : Bool := Text.isAsciiAlnum c || c == '+' || c == '-' || c == '.'

/-- A character that ends the authority. -/
def endsAuthority (c : Char) : Bool := c == '/' || c == '?' || c == '#'

/-- Characters with a compatibility form that holds one of the delimiters of a URL. -/
def disguisedDelimiters : List Nat :=
  [0x2047, 0x2048, 0x2049, 0x2100, 0x2101, 0x2105, 0x2106, 0x2A74, 0xFE13, 0xFE16, 0xFE55, 0xFE56,
    0xFE5F, 0xFE6B, 0xFF03, 0xFF0F, 0xFF1A, 0xFF1F, 0xFF20]

/-- The URL without controls and blanks at its start, and without tabs and line ends anywhere. -/
def cleaned (url : List Char) : List Char :=
  (url.dropWhile fun c => c.toNat ≤ 0x20).filter fun c => c != '\t' && c != '\r' && c != '\n'

/-- The scheme in lower case, empty if the URL has none, and the rest. -/
def splitScheme (url : List Char) : List Char × List Char :=
  let scheme := url.takeWhile (· != ':')
  match url.drop scheme.length with
  | _ :: rest =>
      if scheme.head?.any Text.isAsciiLetter && scheme.all isSchemeChar then
        (Text.asciiLower scheme, rest)
      else ([], url)
  | [] => ([], url)

/-- The authority after two slashes. -/
def authorityOf (rest : List Char) : List Char :=
  match rest with
  | '/' :: '/' :: body => body.takeWhile fun c => !endsAuthority c
  | _ => []

/-- A host between brackets is an address of the sixth or a future version. -/
def checkBracketed (host : List Char) : Except UrlFault Unit :=
  if host.head? = some 'v' then
    if Address.isFuture host then .ok () else .error .malformedFutureAddress
  else if Address.isVersion4 host then .error .version4InBrackets
  else if Address.isVersion6 host then .ok ()
  else .error (.notAnAddress host)

def check (authority : List Char) : Except UrlFault Unit := do
  if authority.contains '[' != authority.contains ']' then throw .unbalancedBrackets
  if authority.contains '[' then
    checkBracketed ((authority.dropWhile (· != '[')).drop 1 |>.takeWhile (· != ']'))
  if authority.any fun c => disguisedDelimiters.contains c.toNat then
    throw (.disguisedDelimiter authority)

def read (url : List Char) : Except UrlFault UrlHead := do
  let (scheme, rest) := splitScheme (cleaned url)
  let authority := authorityOf rest
  check authority
  return ⟨scheme, authority⟩

end UrlHead

namespace IndexUrl

def publicIndex : List Char := "https://pypi.org/pypi".toList

/-- The text without slashes at its end. -/
def dropSlashes (text : List Char) : List Char := Text.dropTrailing (· == '/') text

/-- Joins path segments to a base with one slash at each boundary. Blanks and slashes around a
segment do not count, and empty segments are left out. -/
def join (base : List Char) (parts : List (List Char)) : List Char :=
  parts.foldl (fun url part =>
    let segment := Text.dropAround (· == '/') (Text.trim part)
    if segment.isEmpty then url else url ++ '/' :: segment) (dropSlashes (Text.trim base))

/-- The URL is an absolute web URL without blanks inside. -/
def isValid (url : List Char) : Except UrlFault Bool := do
  let head ← UrlHead.read (Text.trim url)
  return (head.scheme = "http".toList || head.scheme = "https".toList) &&
    !head.authority.isEmpty && !(Text.trim url).contains ' '

/-- The normal form of the URL of an index. -/
def normalize (url : List Char) : Except UrlFault (List Char) := do
  let candidate := dropSlashes (Text.trim url)
  if ← isValid candidate then
    let head ← UrlHead.read candidate
    if head.scheme = "http".toList then return "https".toList ++ candidate.drop 4
    else return candidate
  else return publicIndex

end IndexUrl

end ManifestLens
