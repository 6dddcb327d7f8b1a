/-!
# UTF-8

Bytes are cut into pieces: well-formed characters, and maximal parts that belong to none. Strict
reading stops at the first bad part, lenient reading puts U+FFFD for each.
-/
namespace GraphQLClient.Text.Utf8

def encode (cs : List Char) : List UInt8 := cs.flatMap String.utf8EncodeChar

/-- `bad` counts the bytes of a part that no further byte can complete, `cut` tells that the input
ends inside a character. -/
inductive Piece where
  | char (c : Char)
  | bad (width : Nat)
  | cut
  deriving DecidableEq, Repr

def isTail (b : UInt8) : Bool := 0x80 ≤ b && b ≤ 0xBF

/-- The bytes that may follow the first byte of a character of three or four bytes. -/
def isSecond (first second : UInt8) : Bool :=
  if first = 0xE0 then 0xA0 ≤ second && second ≤ 0xBF
  else if first = 0xED then 0x80 ≤ second && second ≤ 0x9F
  else if first = 0xF0 then 0x90 ≤ second && second ≤ 0xBF
  else if first = 0xF4 then 0x80 ≤ second && second ≤ 0x8F
  else isTail second

def assemble (lead : Nat) (tails : List UInt8) : Char :=
  Char.ofNat (tails.foldl (fun n b => n * 64 + b.toNat % 64) lead)

def pieces : List UInt8 → List Piece
  | [] => []
  | b :: rest =>
    if b < 0x80 then .char (Char.ofNat b.toNat) :: pieces rest
    else if 0xC2 ≤ b && b ≤ 0xDF then
      match rest with
      | [] => [.cut]
      | c :: rest' =>
        if isTail c then .char (assemble (b.toNat % 32) [c]) :: pieces rest'
        else .bad 1 :: pieces (c :: rest')
    else if 0xE0 ≤ b && b ≤ 0xEF then
      match rest with
      | [] => [.cut]
      | c :: rest' =>
        if isSecond b c then
          match rest' with
          | [] => [.cut]
          | d :: rest'' =>
            if isTail d then .char (assemble (b.toNat % 16) [c, d]) :: pieces rest''
            else .bad 2 :: pieces (d :: rest'')
        else .bad 1 :: pieces (c :: rest')
    else if 0xF0 ≤ b && b ≤ 0xF4 then
      match rest with
      | [] => [.cut]
      | c :: rest' =>
        if isSecond b c then
          match rest' with
          | [] => [.cut]
          | d :: rest'' =>
            if isTail d then
              match rest'' with
              | [] => [.cut]
              | e :: rest''' =>
                if isTail e then .char (assemble (b.toNat % 8) [c, d, e]) :: pieces rest'''
                else .bad 3 :: pieces (e :: rest''')
            else .bad 2 :: pieces (d :: rest'')
        else .bad 1 :: pieces (c :: rest')
    else .bad 1 :: pieces rest

/-- Where reading stops: `index` counts the well-formed bytes in front. -/
inductive Fault where
  | invalid (width index : Nat)
  | incomplete (index : Nat)
  deriving DecidableEq, Repr

def Fault.message : Fault → String
  | .invalid width index => s!"invalid utf-8 sequence of {width} bytes from index {index}"
  | .incomplete index => s!"incomplete utf-8 byte sequence from index {index}"

def charsOf (index : Nat) : List Piece → Except Fault (List Char)
  | [] => .ok []
  | .char c :: rest => do return c :: (← charsOf (index + c.utf8Size) rest)
  | .bad width :: _ => .error (.invalid width index)
  | .cut :: _ => .error (.incomplete index)

def decode (bytes : List UInt8) : Except Fault (List Char) := charsOf 0 (pieces bytes)

def decodeLenient (bytes : List UInt8) : List Char :=
  (pieces bytes).map fun
    | .char c => c
    | _ => Char.ofNat 0xFFFD

end GraphQLClient.Text.Utf8
