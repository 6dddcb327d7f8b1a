import GraphQLClient.Proofs.Outcomes
import GraphQLClient.Proofs.TruncatedResponses

/-!
# Heads with bare line feeds

A head may end its lines with bare line feeds. It is then read as one with carriage returns, unless
the body holds an empty line with carriage returns, which is looked for first: the head reaches up
to there.
-/
namespace GraphQLClient

open Outcome

namespace Text.Utf8

variable {index : Nat} {ps : List Piece} {bytes : List UInt8} {cs ds : List Char}

/-- Only characters are read as such, wherever the reading begins. -/
theorem charsOf_eq_ok_iff : charsOf index ps = .ok cs ↔ ps = cs.map .char := by
  constructor
  · intro h
    induction ps generalizing index cs with
    | nil =>
      cases h
      rfl
    | cons p rest ih =>
      cases p with
      | char c =>
        obtain ⟨others, hothers, h⟩ := bind_eq_ok.mp h
        cases h
        rw [ih hothers, List.map_cons]
      | bad width => cases h
      | cut => cases h
  · rintro rfl
    exact charsOf_chars index cs

theorem decode_append_iff : decode (encode cs ++ bytes) = .ok ds ↔
    ∃ more, decode bytes = .ok more ∧ ds = cs ++ more := by
  simp only [decode, charsOf_eq_ok_iff, pieces_encode]
  constructor
  · intro h
    obtain ⟨front, back, rfl, hfront, hback⟩ := List.map_eq_append_iff.mp h.symm
    have hsame : front = cs := (List.map_inj_right fun _ _ h => Piece.char.inj h).mp hfront
    exact ⟨back, hback.symm, congrArg (· ++ back) hsame⟩
  · rintro ⟨more, hmore, rfl⟩
    rw [hmore, List.map_append]

end Text.Utf8

namespace Http

section Splitting

variable {needle bytes front rest : List UInt8}

theorem splitAtFirst?_eq_some (hne : needle ≠ [])
    (h : splitAtFirst? needle bytes = some (front, rest)) :
    bytes = front ++ needle ++ rest := by
  induction bytes generalizing front rest with
  | nil =>
    rw [splitAtFirst?, if_neg (by simpa using hne)] at h
    cases h
  | cons b more ih =>
    by_cases hprefix : needle <+: b :: more
    · obtain ⟨behind, hbehind⟩ := hprefix
      rw [← hbehind, splitAtFirst?_here hne] at h
      cases h
      exact hbehind.symm
    · rw [splitAtFirst?_cons hprefix] at h
      obtain ⟨⟨first, last⟩, hsplit, heq⟩ := Option.map_eq_some_iff.mp h
      cases heq
      exact congrArg (b :: ·) (ih hsplit)

theorem splitAtFirst?_eq_none_iff (hne : needle ≠ []) :
    splitAtFirst? needle bytes = none ↔ ¬ needle <:+: bytes := by
  induction bytes with
  | nil =>
    rw [splitAtFirst?, if_neg (by simpa using hne), List.infix_nil]
    exact iff_of_true rfl hne
  | cons b more ih =>
    by_cases hprefix : needle <+: b :: more
    · obtain ⟨behind, hbehind⟩ := hprefix
      rw [← hbehind, splitAtFirst?_here hne]
      exact iff_of_false (Option.some_ne_none _) fun hnot =>
        hnot (List.prefix_append needle behind).isInfix
    · rw [splitAtFirst?_cons hprefix, Option.map_eq_none_iff, ih, List.infix_cons_iff,
        or_iff_right hprefix]

end Splitting

section Lines

@[simp] theorem dropReturn_self {line : List Char} (hr : '\r' ∉ line) : dropReturn line = line :=
  if_neg fun hlast => hr (List.mem_of_getLast? hlast)

def bareLines (first : List Char) (others : List (List Char)) : List Char :=
  first ++ others.flatMap fun line => '\n' :: line

@[simp] theorem bareLines_cons (first second : List Char) (others : List (List Char)) :
    bareLines first (second :: others) = first ++ '\n' :: bareLines second others := by
  simp [bareLines]

theorem return_not_mem_bareLines {first : List Char} {others : List (List Char)}
    (h : ∀ line ∈ first :: others, isHeadLine line = true) : '\r' ∉ bareLines first others := by
  intro hmem
  rcases List.mem_append.mp hmem with hfirst | hothers
  · exact (isHeadLine_iff.mp (h first List.mem_cons_self)).2.1 hfirst
  · obtain ⟨line, hline, hr⟩ := List.mem_flatMap.mp hothers
    have hinside := (List.mem_cons.mp hr).resolve_left (by decide)
    exact (isHeadLine_iff.mp (h line (List.mem_cons_of_mem _ hline))).2.1 hinside

theorem lines_bareLines (first : List Char) (others : List (List Char))
    (h : ∀ line ∈ first :: others, isHeadLine line = true) :
    lines (bareLines first others) = first :: others := by
  obtain ⟨hne, hr, hn⟩ := isHeadLine_iff.mp (h first List.mem_cons_self)
  induction others generalizing first with
  | nil => rw [bareLines, List.flatMap_nil, List.append_nil, lines_single hne hn]
  | cons second others ih =>
    have hothers := fun line hline => h line (List.mem_cons_of_mem first hline)
    obtain ⟨hne', hr', hn'⟩ := isHeadLine_iff.mp (hothers second List.mem_cons_self)
    rw [bareLines_cons, lines_cons hn, dropReturn_self hr, ih second hothers hne' hr' hn']

/-- Behind an empty line further lines are read on their own. -/
theorem lines_bareLines_append (first : List Char) (others : List (List Char))
    (h : ∀ line ∈ first :: others, isHeadLine line = true) (rest : List Char) :
    lines (bareLines first others ++ '\n' :: '\n' :: rest) =
      first :: others ++ [] :: lines rest := by
  have hempty : lines ('\n' :: rest) = [] :: lines rest := lines_cons List.not_mem_nil rest
  obtain ⟨-, hr, hn⟩ := isHeadLine_iff.mp (h first List.mem_cons_self)
  induction others generalizing first with
  | nil =>
    rw [bareLines, List.flatMap_nil, List.append_nil, lines_cons hn, dropReturn_self hr, hempty]
    rfl
  | cons second others ih =>
    have hothers := fun line hline => h line (List.mem_cons_of_mem first hline)
    obtain ⟨-, hr', hn'⟩ := isHeadLine_iff.mp (hothers second List.mem_cons_self)
    rw [bareLines_cons, List.append_assoc, List.cons_append, lines_cons hn, dropReturn_self hr,
      ih second hothers hr' hn']
    rfl

/-- The first two bare line feeds in a row are those behind the last line. -/
theorem splitAtFirst?_bareLines (first : List Char) (others : List (List Char))
    (h : ∀ line ∈ first :: others, isHeadLine line = true) (body : List UInt8) :
    splitAtFirst? [10, 10] (Text.Utf8.encode (bareLines first others) ++ 10 :: 10 :: body) =
      some (Text.Utf8.encode (bareLines first others), body) := by
  have hfeed : ∀ {line}, isHeadLine line = true → 10 ∉ Text.Utf8.encode line :=
    fun hline => feed_not_mem_encode (isHeadLine_iff.mp hline).2.2
  have hfirst := h first List.mem_cons_self
  induction others generalizing first with
  | nil =>
    have hhere : splitAtFirst? [10, 10] (10 :: 10 :: body) = some ([], body) :=
      splitAtFirst?_here (by decide) body
    rw [bareLines, List.flatMap_nil, List.append_nil, splitAtFirst?_append (hfeed hfirst), hhere]
    simp
  | cons second others ih =>
    have hothers := fun line hline => h line (List.mem_cons_of_mem first hline)
    have hsecond := hothers second List.mem_cons_self
    have hnext : ¬ [10, 10] <+:
        10 :: (Text.Utf8.encode (bareLines second others) ++ 10 :: 10 :: body) := by
      rintro ⟨more, hmore⟩
      have hhead := encode_head_ne (isHeadLine_iff.mp hsecond).1 (hfeed hsecond)
        (Text.Utf8.encode (others.flatMap fun line => '\n' :: line) ++ 10 :: 10 :: body)
      rw [← List.append_assoc, ← Text.Utf8.encode_append] at hhead
      exact hhead (congrArg List.head? (List.cons.inj hmore).2.symm)
    have hencode : Text.Utf8.encode ('\n' :: bareLines second others) =
        10 :: Text.Utf8.encode (bareLines second others) := rfl
    rw [bareLines_cons, Text.Utf8.encode_append, List.append_assoc,
      splitAtFirst?_append (hfeed hfirst), hencode, List.cons_append, splitAtFirst?_cons hnext,
      ih second hothers hsecond]
    rfl

end Lines

namespace Head

def bareText (head : Head) : List Char := bareLines head.statusLine head.headers

def bareBytes (head : Head) : List UInt8 := Text.Utf8.encode head.bareText ++ [10, 10]

theorem return_not_mem_bareBytes (head : Head) : 13 ∉ head.bareBytes := by
  intro hmem
  rcases List.mem_append.mp hmem with htext | hend
  · exact return_not_mem_encode (return_not_mem_bareLines head.isLine) htext
  · revert hend
    decide

end Head

variable {head : Head} {body front rest : List UInt8}

theorem splitAtFirst?_bareBytes (head : Head) (body : List UInt8) :
    splitAtFirst? (lineEnd ++ lineEnd) (head.bareBytes ++ body) =
      (splitAtFirst? (lineEnd ++ lineEnd) body).map (Prod.map (head.bareBytes ++ ·) id) :=
  splitAtFirst?_append head.return_not_mem_bareBytes body

/-- Without an empty line in the body the head ends where it was meant to. -/
theorem parseResponse_bare (head : Head) (hnone : splitAtFirst? (lineEnd ++ lineEnd) body = none) :
    parseResponse (head.bareBytes ++ body) = readBody (head.headers.any isChunkedHeader) body := by
  have hsplit : splitHead? (head.bareBytes ++ body) =
      some (Text.Utf8.encode head.bareText, body) := by
    have hbare := splitAtFirst?_bareLines head.statusLine head.headers head.isLine body
    have hreturns := splitAtFirst?_bareBytes head body
    rw [hnone, Option.map_none] at hreturns
    refine (congrArg (Option.or · _) hreturns).trans ?_
    rw [Option.none_or, Head.bareBytes, List.append_assoc]
    exact hbare
  exact parseResponse_split head hsplit (Text.Utf8.decode_encode _)
    (lines_bareLines _ _ head.isLine)

theorem splitHead?_bare (head : Head)
    (hsplit : splitAtFirst? (lineEnd ++ lineEnd) body = some (front, rest)) :
    splitHead? (head.bareBytes ++ body) = some (head.bareBytes ++ front, rest) := by
  have hreturns := splitAtFirst?_bareBytes head body
  rw [hsplit, Option.map_some] at hreturns
  exact congrArg (Option.or · _) hreturns

theorem bareBytes_eq (head : Head) :
    head.bareBytes = Text.Utf8.encode (head.bareText ++ ['\n', '\n']) := by
  rw [Head.bareBytes, Text.Utf8.encode_append]
  rfl

/-- The lines in front of the empty line in the body are taken for lines of the head. -/
theorem parseResponse_bare_lines (head : Head)
    (hsplit : splitAtFirst? (lineEnd ++ lineEnd) body = some (front, rest)) {cs : List Char}
    (hdecode : Text.Utf8.decode front = .ok cs) :
    parseResponse (head.bareBytes ++ body) =
      readBody (head.headers.any isChunkedHeader || (lines cs).any isChunkedHeader) rest := by
  have htext : Text.Utf8.decode (head.bareBytes ++ front) =
      .ok (head.bareText ++ ['\n', '\n'] ++ cs) := by
    rw [bareBytes_eq, Text.Utf8.decode_append_iff]
    exact ⟨cs, hdecode, rfl⟩
  have hlines : lines (head.bareText ++ ['\n', '\n'] ++ cs) =
      head.statusLine :: (head.headers ++ [] :: lines cs) := by
    rw [List.append_assoc]
    exact lines_bareLines_append _ _ head.isLine cs
  have hempty : isChunkedHeader [] = false := rfl
  rw [parseResponse_split head (splitHead?_bare head hsplit) htext hlines, List.any_append,
    List.any_cons, hempty, Bool.false_or]

theorem parseResponse_bare_fault (head : Head)
    (hsplit : splitAtFirst? (lineEnd ++ lineEnd) body = some (front, rest))
    {fault : Text.Utf8.Fault} (hfault : Text.Utf8.decode front = .error fault) :
    parseResponse (head.bareBytes ++ body) =
      .error (invalidResponse "Response headers are not valid UTF-8") := by
  cases htext : Text.Utf8.decode (head.bareBytes ++ front) with
  | error fault =>
    simp only [parseResponse, splitHead?_bare head hsplit, htext]
  | ok ds =>
    rw [bareBytes_eq, Text.Utf8.decode_append_iff] at htext
    obtain ⟨more, hmore, -⟩ := htext
    cases hfault.symm.trans hmore

/-- A response comes out alike whether its head is written with carriage returns or with bare line
feeds, as long as its body has no empty line with carriage returns. If it has one, a head with bare
line feeds reaches up to the first of them: what stands in front of it has to be text and may
announce chunks, and what stands behind it is the body. -/
theorem bare_head_read (head : Head) (body : List UInt8) :
    (¬ lineEnd ++ lineEnd <:+: body →
      parseResponse (head.bareBytes ++ body) = parseResponse (head.bytes ++ body)) ∧
    ∀ front rest, splitAtFirst? (lineEnd ++ lineEnd) body = some (front, rest) →
      body = front ++ (lineEnd ++ lineEnd) ++ rest ∧
      (∀ cs, Text.Utf8.decode front = .ok cs → parseResponse (head.bareBytes ++ body) =
        readBody (head.headers.any isChunkedHeader || (lines cs).any isChunkedHeader) rest) ∧
      ∀ fault, Text.Utf8.decode front = .error fault → parseResponse (head.bareBytes ++ body) =
        .error (invalidResponse "Response headers are not valid UTF-8") := by
  have hne : lineEnd ++ lineEnd ≠ [] := by decide
  constructor
  · intro hnot
    rw [parseResponse_bare head ((splitAtFirst?_eq_none_iff hne).mpr hnot), parseResponse_head]
  · intro front rest hsplit
    refine ⟨splitAtFirst?_eq_some hne hsplit, ?_, ?_⟩
    · intro cs hdecode
      exact parseResponse_bare_lines head hsplit hdecode
    · intro fault hfault
      exact parseResponse_bare_fault head hsplit hfault

def apartBody : List UInt8 := Text.Utf8.encode "a\r\n\r\nb".toList

/-- One letter is read behind either head. Of two the first is taken for a line of a head with bare
line feeds. -/
theorem letters_read :
    parseResponse (notedHead.bareBytes ++ [97]) = parseResponse (notedHead.bytes ++ [97]) ∧
      parseResponse (notedHead.bareBytes ++ apartBody) = .ok "b" := by
  have hsplit : splitAtFirst? (lineEnd ++ lineEnd) apartBody = some ([97], [98]) := by decide
  have hplain : (notedHead.headers.any isChunkedHeader || (lines ['a']).any isChunkedHeader) =
      false := by decide
  have hnone : ¬ lineEnd ++ lineEnd <:+: [97] := by decide
  constructor
  · exact (bare_head_read notedHead [97]).1 hnone
  · obtain ⟨-, hread, -⟩ := (bare_head_read notedHead apartBody).2 _ _ hsplit
    rw [hread ['a'] (by decide), hplain]
    exact readBody_encode "b"

/-- The bare head reaches up to the end of the last chunk, so nothing is left for the body. -/
theorem bare_chunks_lost :
    let body := [fiveBytes "hello".toList rfl].flatMap Chunk.bytes ++ lettersEnd.bytes
    parseResponse (announcedHead.bytes ++ body) = .ok "hello" ∧
      parseResponse (announcedHead.bareBytes ++ body) = .ok "" := by
  intro body
  have hchunked : announcedHead.headers.any isChunkedHeader = true := by decide
  have hsplit : splitAtFirst? (lineEnd ++ lineEnd) body =
      some (Text.Utf8.encode "5\r\nhello\r\n0".toList, []) := by
    decide
  constructor
  · have hdata : readChunks body = .ok (Text.Utf8.encode "hello".toList) :=
      readChunks_chunks _ lettersEnd
    rw [parseResponse_head, hchunked, readBody_chunked hdata, readBody_encode]
  · have hnothing : readChunks [] = .ok (Text.Utf8.encode "".toList) := readChunks_none rfl
    rw [parseResponse_bare_lines announcedHead hsplit (Text.Utf8.decode_encode _),
      hchunked, Bool.true_or, readBody_chunked hnothing, readBody_encode]

end Http

end GraphQLClient
