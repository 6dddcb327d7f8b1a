import GraphQLClient.Client.Error
import GraphQLClient.Text.Basic
import GraphQLClient.Text.Utf8

/-!
# HTTP responses

The body of a response as text. Framing is undone on bytes, and only the complete body is read as
UTF-8. A head ends at the first empty line; lines end with a line feed, perhaps behind a carriage
return.
-/
namespace GraphQLClient.Http

def invalidResponse (message : String) : ClientError := .new .invalidResponse message

def splitAtFirst? (needle : List UInt8) : List UInt8 → Option (List UInt8 × List UInt8)
  | [] => if needle.isEmpty then some ([], []) else none
  | b :: rest =>
    if needle.isPrefixOf (b :: rest) then some ([], (b :: rest).drop needle.length)
    else (splitAtFirst? needle rest).map fun (before, behind) => (b :: before, behind)

theorem length_lt_of_splitAtFirst? {needle bytes before behind : List UInt8} (hn : needle ≠ [])
    (h : splitAtFirst? needle bytes = some (before, behind)) : behind.length < bytes.length := by
  induction bytes generalizing before behind with
  | nil => simp [splitAtFirst?, hn] at h
  | cons b rest ih =>
    have hpos := List.length_pos_iff.2 hn
    simp only [splitAtFirst?] at h
    split at h
    · simp only [Option.some.injEq, Prod.mk.injEq] at h
      simp only [← h.2, List.length_drop, List.length_cons]
      omega
    · cases hs : splitAtFirst? needle rest with
      | none => simp [hs] at h
      | some pair =>
        simp only [hs, Option.map_some, Option.some.injEq, Prod.mk.injEq] at h
        have := ih hs
        simp only [← h.2, List.length_cons]
        omega

/-- Carriage returns and line feeds are looked for in the whole response first. -/
def splitHead? (bytes : List UInt8) : Option (List UInt8 × List UInt8) :=
  (splitAtFirst? [13, 10, 13, 10] bytes).or (splitAtFirst? [10, 10] bytes)

def dropReturn (line : List Char) : List Char :=
  if line.getLast? = some '\r' then line.dropLast else line

/-- The lines of a text; a line feed at the very end starts no further line. `line` is what was read
of the first line, last character first. -/
def linesFrom (line : List Char) : List Char → List (List Char)
  | [] => if line.isEmpty then [] else [line.reverse]
  | c :: rest =>
    if c = '\n' then dropReturn line.reverse :: linesFrom [] rest else linesFrom (c :: line) rest

def lines (cs : List Char) : List (List Char) := linesFrom [] cs

def statusLimit : Nat := 65535

/-- The second word of a status line. -/
def status? (line : List Char) : Option Nat :=
  ((Text.words line)[1]?).bind (Text.numeral? 10 statusLimit)

def sameIgnoringCase (a b : List Char) : Bool := a.map Char.toLower == b.map Char.toLower

def header? (line : List Char) : Option (List Char × List Char) :=
  match line.dropWhile (· != ':') with
  | [] => none
  | _ :: value => some (Text.trim (line.takeWhile (· != ':')), Text.trim value)

def isChunkedHeader (line : List Char) : Bool :=
  match header? line with
  | some (name, value) =>
    sameIgnoringCase name "transfer-encoding".toList && sameIgnoringCase value "chunked".toList
  | none => false

inductive ChunkFault where
  | badSize (text : List Char)
  | truncated
  deriving DecidableEq, Repr

def ChunkFault.error : ChunkFault → ClientError
  | .badSize text => invalidResponse s!"Invalid chunk size: {String.ofList text}"
  | .truncated => invalidResponse "Truncated chunk"

def sizeLimit : Nat := Text.unsignedLimit - 1

/-- The size that a line gives, up to an extension. -/
def chunkSize (line : List UInt8) : Except ChunkFault Nat :=
  let text := (Text.trim (Text.Utf8.decodeLenient line)).takeWhile (· != ';')
  match Text.numeral? 16 sizeLimit text with
  | some size => .ok size
  | none => .error (.badSize text)

def dropByte (b : UInt8) : List UInt8 → List UInt8
  | [] => []
  | c :: rest => if c = b then rest else c :: rest

theorem length_dropByte_le (b : UInt8) (l : List UInt8) : (dropByte b l).length ≤ l.length := by
  cases l with
  | nil => simp [dropByte]
  | cons c rest => simp only [dropByte]; split <;> simp

/-- The data of chunks up to one of size zero, or up to the end of a rest without line feed. -/
def readChunks (bytes : List UInt8) : Except ChunkFault (List UInt8) :=
  match _split : splitAtFirst? [10] bytes with
  | none => .ok []
  | some (line, rest) =>
    match chunkSize line with
    | .error fault => .error fault
    | .ok 0 => .ok []
    | .ok (size + 1) =>
      if rest.length < size + 1 then .error .truncated
      else
        match readChunks (dropByte 10 (dropByte 13 (rest.drop (size + 1)))) with
        | .error fault => .error fault
        | .ok data => .ok (rest.take (size + 1) ++ data)
  termination_by bytes.length
  decreasing_by
    have h1 := length_dropByte_le 10 (dropByte 13 (rest.drop (size + 1)))
    have h2 := length_dropByte_le 13 (rest.drop (size + 1))
    have h3 := length_lt_of_splitAtFirst? (by decide) _split
    simp only [List.length_drop] at h2
    omega

def readBody (chunked : Bool) (bytes : List UInt8) : ClientResult String := do
  let data ← if chunked then (readChunks bytes).mapError ChunkFault.error else .ok bytes
  match Text.Utf8.decode data with
  | .ok cs => return String.ofList cs
  | .error fault =>
    throw (invalidResponse s!"Response body is not valid UTF-8: {fault.message}")

def readStatus (line : List Char) : ClientResult Unit :=
  let text := String.ofList line
  match status? line with
  | none => .error (invalidResponse s!"Malformed status line: {text}")
  | some status =>
    if 200 ≤ status ∧ status < 300 then .ok ()
    else .error ((ClientError.new .httpError s!"HTTP error: {text}").withExtension "status"
      (.number (.int status)))

def parseResponse (bytes : List UInt8) : ClientResult String :=
  match splitHead? bytes with
  | none => .error (invalidResponse "Could not find response body")
  | some (head, body) =>
    match Text.Utf8.decode head with
    | .error _ => .error (invalidResponse "Response headers are not valid UTF-8")
    | .ok head =>
      match lines head with
      | [] => .error (invalidResponse "Empty response")
      | [] :: _ => .error (invalidResponse "Empty response")
      | statusLine :: headers => do
        readStatus statusLine
        readBody ((statusLine :: headers).any isChunkedHeader) body

/-!
## Framed responses

A response as a server writes it: a head of lines, an empty line, and a body that stands as it is or
in chunks. Every chunk follows a line with its size, and one of size zero is the last.
-/

def lineEnd : List UInt8 := [13, 10]

def isHeadLine (line : List Char) : Bool :=
  !line.isEmpty && line.all fun c => c != '\r' && c != '\n'

def joinedLines (first : List Char) (others : List (List Char)) : List Char :=
  first ++ others.flatMap fun line => '\r' :: '\n' :: line

structure Head where
  statusLine : List Char
  headers : List (List Char)
  succeeds : ∃ status, status? statusLine = some status ∧ 200 ≤ status ∧ status < 300
  isLine : ∀ line ∈ statusLine :: headers, isHeadLine line = true

namespace Head

def text (head : Head) : List Char := joinedLines head.statusLine head.headers

def bytes (head : Head) : List UInt8 := Text.Utf8.encode head.text ++ (lineEnd ++ lineEnd)

def extend (head : Head) (line : List Char) (h : isHeadLine line = true) : Head where
  statusLine := head.statusLine
  headers := head.headers ++ [line]
  succeeds := head.succeeds
  isLine := by
    intro other hother
    rcases List.mem_append.mp (List.cons_append ▸ hother) with hold | hnew
    · exact head.isLine other hold
    · exact List.mem_singleton.mp hnew ▸ h

def chunked (head : Head) : Head := head.extend "Transfer-Encoding: chunked".toList (by decide)

end Head

/-- A numeral for `n` in hexadecimal digits of either case, with any number of zeros in front. -/
def WritesSize (digits : List Char) (n : Nat) : Prop :=
  ∃ zeros, digits.map Char.toLower = List.replicate zeros '0' ++ Text.digitsOf 16 n

/-- An extension begins with a semicolon and stays on its line. -/
def isExtension (extension : List UInt8) : Bool :=
  (extension.isEmpty || extension.head? == some 59) && !extension.contains 10

structure SizeLine (n : Nat) where
  digits : List Char
  extension : List UInt8
  writes : WritesSize digits n
  separate : isExtension extension = true

def SizeLine.plain {n : Nat} (digits : List Char) (h : WritesSize digits n) : SizeLine n :=
  ⟨digits, [], h, rfl⟩

def SizeLine.bytes {n : Nat} (line : SizeLine n) : List UInt8 :=
  Text.Utf8.encode line.digits ++ (line.extension ++ lineEnd)

structure Chunk where
  data : List UInt8
  line : SizeLine data.length
  nonempty : data ≠ []
  fits : data.length ≤ sizeLimit

def Chunk.bytes (chunk : Chunk) : List UInt8 := chunk.line.bytes ++ (chunk.data ++ lineEnd)

structure LastChunk where
  line : SizeLine 0
  trailer : List UInt8

def LastChunk.bytes (last : LastChunk) : List UInt8 := last.line.bytes ++ last.trailer

end GraphQLClient.Http
