import GraphQLClient.Client.Error
import GraphQLClient.Http.Message
import GraphQLClient.Http.Retry
import GraphQLClient.Json.Printer
import GraphQLClient.Text.Basic

/-!
# HTTP requests

Where requests go, what they say, and what comes of them.
-/
namespace GraphQLClient.Http

/-!
## URLs

Host, port and path of a plain HTTP address. The scheme may be missing, the port is 80 unless one is
given, and the path begins at the first slash.
-/

structure Url where
  host : List Char
  port : Nat
  path : List Char
  deriving DecidableEq, Repr

inductive UrlFault where
  | encrypted
  | missingHost
  | badPort (text : List Char)
  deriving DecidableEq, Repr

def UrlFault.error : UrlFault → ClientError
  | .encrypted => .new .httpsNotSupported
    "HTTPS is not supported by the built-in HTTP client; plug in an HttpTransport"
  | .missingHost => .new .invalidUrl "Missing host"
  | .badPort text => .new .invalidUrl s!"Invalid port: {String.ofList text}"

def afterStart? (start cs : List Char) : Option (List Char) :=
  if start.isPrefixOf cs then some (cs.drop start.length) else none

def splitLast? (c : Char) (cs : List Char) : Option (List Char × List Char) :=
  if c ∈ cs then
    some ((cs.reverse.dropWhile (· != c)).tail.reverse, (cs.reverse.takeWhile (· != c)).reverse)
  else none

def portLimit : Nat := 65535

/-- The port stands behind the last colon. -/
def readAuthority (authority path : List Char) : Except UrlFault Url :=
  match splitLast? ':' authority with
  | none => .ok ⟨authority, 80, path⟩
  | some (host, text) =>
    match Text.numeral? 10 portLimit text with
    | some port => .ok ⟨host, port, path⟩
    | none => .error (.badPort text)

def parseUrlList (cs : List Char) : Except UrlFault Url :=
  let url := Text.trim cs
  if (afterStart? "https://".toList url).isSome then .error .encrypted
  else
    let rest := (afterStart? "http://".toList url).getD url
    if rest.isEmpty then .error .missingHost
    else
      let authority := rest.takeWhile (· != '/')
      match rest.dropWhile (· != '/') with
      | [] => readAuthority authority ['/']
      | path => readAuthority authority path

def parseUrl (url : String) : ClientResult Url :=
  (parseUrlList url.toList).mapError UrlFault.error

/-!
## Exchanges

The settings of a client, the text of its requests, and an exchange with a server that is known by
what it does on each connection.
-/

structure Config where
  url : String
  timeout : Duration
  retry : RetryPolicy
  headers : List (String × String)

namespace Config

def ofUrl (url : String) : Config := ⟨url, .ofMillis 30000, .standard, []⟩

/-- Replaces an earlier header of that name, whatever its case, and goes to the end. -/
def setHeader (config : Config) (name value : String) : Config :=
  { config with
    headers := config.headers.filter (fun header =>
      !sameIgnoringCase header.1.toList name.toList) ++ [(name, value)] }

def setHeaders (config : Config) (headers : List (String × String)) : Config :=
  headers.foldl (fun config header => config.setHeader header.1 header.2) config

end Config

def headerLine (header : String × String) : String := s!"{header.1}: {header.2}\r\n"

/-- The length counts bytes. The host stands without its port. -/
def requestText (url : Url) (headers : List (String × String)) (payload : String) : String :=
  s!"POST {String.ofList url.path} HTTP/1.1\r\n" ++
    s!"Host: {String.ofList url.host}\r\n" ++
    "Content-Type: application/json\r\n" ++
    "Accept: application/json\r\n" ++
    s!"Content-Length: {payload.utf8ByteSize}\r\n" ++
    "Connection: close\r\n" ++
    String.join (headers.map headerLine) ++ "\r\n" ++ payload

inductive Stage where
  | connecting
  | writing
  | reading
  deriving DecidableEq, Repr

def Stage.failure (reason : String) : Stage → ClientError
  | .connecting => .new .connectionRefused s!"Connection failed: {reason}"
  | .writing => .new .networkError s!"Write failed: {reason}"
  | .reading => .new .networkError s!"Read failed: {reason}"

/-- How a server lets an attempt end: in the failure of a stage, in a stage that takes too long, or
with all bytes of an answer. -/
inductive Connection where
  | failed (stage : Stage) (reason : String)
  | late (stage : Stage)
  | answered (bytes : List UInt8)

def Connection.result : Connection → ClientResult String
  | .failed stage reason => .error (stage.failure reason)
  | .late _ => .error (.new .timeout "Request timed out")
  | .answered bytes => parseResponse bytes

def Connection.isAsked : Connection → Bool
  | .failed stage _ => stage == .reading
  | .late stage => stage == .reading
  | .answered _ => true

structure Exchange where
  requests : List String
  outcome : ClientResult Response

/-- Posts a body to a server, with retries. A bad address fails before any connection. -/
def exchange (explain : String → String) (config : Config) (server : Nat → Connection)
    (body : RequestBody) : Exchange :=
  match parseUrl config.url with
  | .error error => ⟨[], .error error⟩
  | .ok url =>
    let attempts := requestWith explain config.retry fun n => (server n).result
    let asked := (List.range attempts.count).filter fun n => (server n).isAsked
    ⟨asked.map fun _ => requestText url config.headers body.toJson.text, attempts.outcome⟩

end GraphQLClient.Http
