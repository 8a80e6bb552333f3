/-
URLs (`tdutils/td/utils/HttpUrl.cpp`): `parse_url` takes a URL apart and
`HttpUrl::get_url` puts it together. The parser of IPv6 addresses the system
has, `inet_pton`, is a parameter.
-/
import Mathlib.Data.List.DropRight
import Tdlib.Lib.Outcome
import Tdlib.Text.Misc

namespace Tdlib.Url

open Text

inductive Protocol
  | http
  | https
  deriving DecidableEq

structure HttpUrl where
  protocol : Protocol
  userinfo : Bytes
  host : Bytes
  isIpv6 : Bool
  specifiedPort : Int
  port : Int
  query : Bytes
  deriving DecidableEq

/-- What a URL of the protocol begins with. -/
def scheme : Protocol → Bytes
  | .http => ascii "http://"
  | .https => ascii "https://"

def HttpUrl.getUrl (url : HttpUrl) : Outcome Bytes := do
  let result := scheme url.protocol
  let result := if url.userinfo ≠ [] then result ++ url.userinfo ++ ascii "@" else result
  let result := result ++ url.host
  let result := if url.specifiedPort > 0 then result ++ ascii ":" ++ decimal url.specifiedPort else result
  .check (url.query ≠ [] ∧ url.query.head? = some (chr '/'))
  pure (result ++ url.query)

/-- `ConstParser::read_till_nofail`: what stands before the first of the
characters of `str`, and what is left. -/
def readTillNofail (str data : Bytes) : Bytes × Bytes :=
  (data.takeWhile fun c => !str.contains c, data.dropWhile fun c => !str.contains c)

/-- `ConstParser::try_skip`. -/
def trySkip (start data : Bytes) : Option Bytes := if beginsWith data start then some (data.drop start.length) else none

/-- The characters the loop for the port stops at. -/
def StopsPort (c : UInt8) : Prop := c = chr ':' ∨ c = chr ']' ∨ c = chr '@'

instance : DecidablePred StopsPort := fun _ => inferInstanceAs (Decidable (_ ∨ _))

/-- The loop that looks for the colon before a port, from position `pos` down. -/
def colonLoop (data : Bytes) : Nat → Nat
  | 0 => 0
  | pos + 1 => if StopsPort (data.getD (pos + 1) 0) then pos + 1 else colonLoop data pos

/-- The zeros a port may begin with. -/
def skipZeros : Bytes → Bytes
  | c :: d :: port => if c = chr '0' then skipZeros (d :: port) else c :: d :: port
  | port => port

/-- The port that a slice stands for, or -1. -/
def portOf (portSlice : Bytes) : Int :=
  match toIntegerSafe 32 (skipZeros portSlice) with
  | none => -1
  | some port => if port = 0 then -1 else port

/-- `IPAddress::init_ipv6_port` with a good port: whether it succeeds. -/
def initIpv6Port (inetPton : Bytes → Bool) (ipv6 : Bytes) : Bool :=
  let ipv6 :=
    if ipv6.length > 2 ∧ ipv6.head? = some (chr '[') ∧ ipv6.getLast? = some (chr ']') then ipv6.tail.dropLast else ipv6
  -- the address is passed on as a C string
  inetPton (ipv6.takeWhile (· ≠ 0))

/-- The characters `check_url_part` lists. -/
def isUrlCharacter (c : UInt8) : Bool := isAlnum c || (ascii ".-_!$,~*'();&+=").contains c

/-- The lambda `check_url_part`. After the part there is a zero byte or an `@`,
which are no hexadecimal digits. -/
def checkUrlPart (name : String) (allowColon : Bool) : Bytes → Outcome Unit
  | [] => .ok ()
  | c :: part =>
    if isUrlCharacter c ∨ allowColon ∧ c = chr ':' then checkUrlPart name allowColon part
    else if c = chr '%' then
      match part with
      | c₁ :: c₂ :: part =>
        if isHexDigit c₁ ∧ isHexDigit c₂ then checkUrlPart name allowColon part
        else .error ("Wrong percent-encoded symbol in URL " ++ name)
      | _ => .error ("Wrong percent-encoded symbol in URL " ++ name)
    else if c.toNat ≥ 128 then checkUrlPart name allowColon part
    else .error ("Disallowed character in URL " ++ name)

def upperHexDigits : Bytes := ascii "0123456789ABCDEF"

/-- The bytes of the query as they are kept: no byte up to the space. -/
def escapeByte (c : UInt8) : Bytes :=
  if c.toNat ≤ 0x20 then
    [chr '%', upperHexDigits.getD (c.toNat / 16) 0, upperHexDigits.getD (c.toNat % 16) 0]
  else [c]

/-- The query of a URL that has `data` after its host. -/
def normalizeQuery (data : Bytes) : Bytes :=
  let query := data.rdropWhile isSpace
  let query := if query = [] then ascii "/" else query
  let queryStr := if query.head? ≠ some (chr '/') then ascii "/" else []
  queryStr ++ query.flatMap escapeByte

/-- The protocol, and what follows it. -/
def readProtocol (url : Bytes) (defaultProtocol : Protocol) : Outcome (Protocol × Bytes) :=
  let (protocolStr, data) := readTillNofail (ascii ":/?#@[]") url
  match trySkip (ascii "://") data with
  | some data =>
    if toLower protocolStr = ascii "http" then .ok (.http, data)
    else if toLower protocolStr = ascii "https" then .ok (.https, data)
    else .error "Unsupported URL protocol"
  | none => .ok (defaultProtocol, url)

/-- The port, zero if there is none, and what stands before it. -/
def readPort (userinfoHostPort : Bytes) : Int × Bytes :=
  let colon := colonLoop userinfoHostPort (userinfoHostPort.length - 1)
  if colon > 0 ∧ userinfoHostPort.getD colon 0 = chr ':' then
    (portOf (userinfoHostPort.drop (colon + 1)), userinfoHostPort.take colon)
  else (0, userinfoHostPort)

/-- What stands before and after the last `@`. -/
def splitUserinfo (userinfoHost : Bytes) : Bytes × Bytes :=
  let host := (userinfoHost.reverse.takeWhile (· ≠ chr '@')).reverse
  (userinfoHost.take (userinfoHost.length - host.length - 1), host)

/-- A host in brackets. -/
def Bracketed (host : Bytes) : Prop := host ≠ [] ∧ host.head? = some (chr '[') ∧ host.getLast? = some (chr ']')

instance (host : Bytes) : Decidable (Bracketed host) := inferInstanceAs (Decidable (_ ∧ _))

/-- The checks of the host and of the user information, which is not checked
before an IPv6 address. -/
def checkParts (isIpv6 : Bool) (hostStr userinfo : Bytes) : Outcome Unit :=
  if isIpv6 then
    .ensure (hostStr.tail.dropLast.all fun c =>
      c == chr ':' || isDigit c || chr 'a' ≤ c && c ≤ chr 'f' || c == chr '.') "Wrong IPv6 URL host"
  else do
    checkUrlPart "host" false hostStr
    checkUrlPart "userinfo" true userinfo

def defaultPort : Protocol → Int
  | .http => 80
  | .https => 443

def parseUrl (inetPton : Bytes → Bool) (url : Bytes) (defaultProtocol : Protocol) : Outcome HttpUrl := do
  let (protocol, data) ← readProtocol url defaultProtocol
  let (userinfoHostPort, data) := readTillNofail (ascii "/?#") data
  let (port, userinfoHost) := readPort userinfoHostPort
  .ensure (0 ≤ port ∧ port ≤ 65535) "Wrong port number specified in the URL"
  let (userinfo, host) := splitUserinfo userinfoHost
  .ensure (Bracketed host → initIpv6Port inetPton host = true) "Wrong IPv6 address specified in the URL"
  .ensure (host ≠ []) "URL host is empty"
  .ensure (host ≠ ascii ".") "Host is invalid"
  checkParts (decide (Bracketed host)) (toLower host) userinfo
  pure {
    protocol, userinfo, host := toLower host, isIpv6 := decide (Bracketed host), specifiedPort := port
    port := if port = 0 then defaultPort protocol else port, query := normalizeQuery data }

end Tdlib.Url
