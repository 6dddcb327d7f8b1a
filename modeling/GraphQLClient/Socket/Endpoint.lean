import GraphQLClient.Http.Exchange
import GraphQLClient.Socket.Message

/-!
# WebSocket endpoints

Where to connect, and the request that opens the socket.
-/
namespace GraphQLClient.Socket

/-!
## Addresses

An address is a scheme, an authority and a target, the path with its query. `isWellFormed` tells the
addresses at which a connection may be tried.
-/

structure Address where
  scheme : Option (List Char)
  authority : List Char
  target : List Char
  deriving DecidableEq, Repr

namespace Address

def isSchemeChar (c : Char) : Bool := c.isAlphanum || "+-.~".toList.contains c

def endsAuthority (c : Char) : Bool := c == '/' || c == '?' || c == '#'

def endsPath (c : Char) : Bool := c == '?' || c == '#'

/-- The parts of an address. Only letters, digits and a few signs may stand before `://`. -/
def ofList (cs : List Char) : Address :=
  let name := cs.takeWhile isSchemeChar
  let (scheme, rest) :=
    match Http.afterStart? "://".toList (cs.drop name.length) with
    | some rest => (some name, rest)
    | none => (none, cs)
  ⟨scheme, rest.takeWhile (!endsAuthority ·), rest.dropWhile (!endsAuthority ·)⟩

def isAuthorityChar (c : Char) : Bool := c.isAlphanum || "!$&'()*+,-.;=_~".toList.contains c

/-- What the part of an authority that was read brings along. `colons` and `percent` tell of the
characters behind the last `@` and the last closing bracket. -/
structure AuthorityScan where
  colons : Nat
  percent : Bool
  opened : Bool
  closed : Bool
  deriving DecidableEq, Repr

namespace AuthorityScan

def start : AuthorityScan := ⟨0, false, false, false⟩

def colonLimit : Nat := 8

/-- One pair of brackets may stand in an authority. Before `@` and in brackets colons are free. -/
def step? (scan : AuthorityScan) (c : Char) : Option AuthorityScan :=
  match c with
  | ':' => if scan.colons < colonLimit then some { scan with colons := scan.colons + 1 } else none
  | '[' => if scan.percent || scan.opened then none else some { scan with opened := true }
  | ']' => if scan.opened && !scan.closed then some ⟨0, false, true, true⟩ else none
  | '@' => some { scan with colons := 0, percent := false }
  | '%' => some { scan with percent := true }
  | _ => if isAuthorityChar c then some scan else none

/-- At most a port follows the host, and no host has a percent sign. -/
def isComplete (scan : AuthorityScan) : Bool :=
  scan.opened == scan.closed && scan.colons ≤ 1 && !scan.percent

end AuthorityScan

def isAuthority (cs : List Char) : Bool :=
  !cs.isEmpty && cs.getLast? != some '@' &&
    (cs.foldlM AuthorityScan.step? AuthorityScan.start).any AuthorityScan.isComplete

def isVisible (c : Char) : Bool := 0x21 ≤ c.toNat && c.toNat != 0x7F

def isPathChar (c : Char) : Bool := isVisible c && !"<>`".toList.contains c

def isQueryChar (c : Char) : Bool := isVisible c && !"\"<>".toList.contains c

def isTarget (cs : List Char) : Bool :=
  (cs.takeWhile (!endsPath ·)).all isPathChar &&
    match cs.dropWhile (!endsPath ·) with
    | '?' :: query => (query.takeWhile (· != '#')).all isQueryChar
    | _ => true

def schemeLimit : Nat := 64

/-- Without a scheme an address is an authority alone. A lone star is no authority. -/
def isWellFormed (a : Address) : Bool :=
  isAuthority a.authority &&
    match a.scheme with
    | none => a.target.isEmpty && a.authority != ['*']
    | some name => name.length ≤ schemeLimit && isTarget a.target

/-- The path with its query, as a request names it. What follows `#` does not travel. -/
def path (a : Address) : String :=
  String.ofList (match a.target.takeWhile (· != '#') with
    | '/' :: rest => '/' :: rest
    | target => '/' :: target)

end Address

/-!
## Upgrades

Trouble with the address comes before trouble
with headers, and both before a connection is tried.
-/

/-- `params` goes with the first message, even when it is null. A header is set once. -/
structure Endpoint where
  url : String
  params : Option Json
  headers : OrderedMap String

structure Upgrade where
  path : String
  protocol : String
  headers : List (String × String)
  deriving DecidableEq, Repr

namespace Endpoint

def urlLimit : Nat := 65534

def address? (endpoint : Endpoint) : Option Address :=
  let address := Address.ofList endpoint.url.toList
  if endpoint.url.utf8ByteSize ≤ urlLimit && address.isWellFormed then some address else none

def nameLimit : Nat := 65535

def isHeaderName (name : String) : Bool :=
  !name.isEmpty && name.utf8ByteSize ≤ nameLimit &&
    name.toList.all fun c => c.isAlphanum || "!#$%&'*+-.^_`|~".toList.contains c

/-- A tab is the only control character that may stand in the value of a header. -/
def isHeaderValue (value : String) : Bool :=
  value.toList.all fun c => c == '\t' || (0x20 ≤ c.toNat && c.toNat != 0x7F)

def lowerName (header : String × String) : String × String :=
  (String.ofList (header.1.toList.map Char.toLower), header.2)

/-- A header of the caller may name another protocol. The libraries tell the reason of a failure. -/
def upgrade (endpoint : Endpoint) (reason : String) : ClientResult Upgrade :=
  let headers := endpoint.headers.entries
  match endpoint.address? with
  | none => .error (.new .invalidUrl reason)
  | some address =>
    if !headers.all fun header => isHeaderName header.1 && isHeaderValue header.2 then
      .error (.new .invalidInput reason)
    else
      let headers := headers.map lowerName
      let protocol := (Entries.get? "sec-websocket-protocol" headers).getD protocolName
      .ok ⟨address.path, protocol, headers⟩

def refusal (endpoint : Endpoint) (reason : String) : ClientError :=
  match endpoint.upgrade reason with
  | .error error => error
  | .ok _ => .new .connectionRefused reason

end Endpoint

end GraphQLClient.Socket
