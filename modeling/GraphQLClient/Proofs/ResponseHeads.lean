import GraphQLClient.Http.Message
import GraphQLClient.Proofs.TextEncoding
import GraphQLClient.Proofs.WordsAndNumerals

/-!
# Heads of responses

A head ends where it was meant to, whatever the body holds, and its lines are those it was written
with. So the body of a response is all that stands behind its head.
-/
namespace GraphQLClient

namespace Http

section Lines

variable {line : List Char}

theorem isHeadLine_iff : isHeadLine line = true ↔ line ≠ [] ∧ '\r' ∉ line ∧ '\n' ∉ line := by
  simp only [isHeadLine, Bool.and_eq_true, Bool.not_eq_true', List.isEmpty_eq_false_iff,
    List.all_eq_true, bne_iff_ne]
  constructor
  · rintro ⟨hne, hall⟩
    exact ⟨hne, fun hr => (hall _ hr).1 rfl, fun hn => (hall _ hn).2 rfl⟩
  · rintro ⟨hne, hr, hn⟩
    exact ⟨hne, fun c hc => ⟨fun h => hr (h ▸ hc), fun h => hn (h ▸ hc)⟩⟩

theorem linesFrom_append (begun : List Char) (hn : '\n' ∉ line) (rest : List Char) :
    linesFrom begun (line ++ rest) = linesFrom (line.reverse ++ begun) rest := by
  induction line generalizing begun with
  | nil => rfl
  | cons c line ih =>
    simp only [List.mem_cons, not_or] at hn
    obtain ⟨hc, hn⟩ := hn
    rw [List.cons_append, linesFrom, if_neg (Ne.symm hc), ih (c :: begun) hn]
    simp

theorem lines_cons (hn : '\n' ∉ line) (rest : List Char) :
    lines (line ++ '\n' :: rest) = dropReturn line :: lines rest := by
  rw [lines, linesFrom_append [] hn, linesFrom, if_pos rfl, List.append_nil, List.reverse_reverse]
  rfl

theorem lines_single (hne : line ≠ []) (hn : '\n' ∉ line) : lines line = [line] := by
  have happend := linesFrom_append [] hn []
  rw [List.append_nil, List.append_nil] at happend
  rw [lines, happend, linesFrom, if_neg (by simpa using hne), List.reverse_reverse]

@[simp] theorem dropReturn_append (line : List Char) : dropReturn (line ++ ['\r']) = line := by
  simp [dropReturn]

@[simp] theorem joinedLines_cons (first second : List Char) (others : List (List Char)) :
    joinedLines first (second :: others) = first ++ '\r' :: '\n' :: joinedLines second others := by
  simp [joinedLines]

theorem lines_joinedLines (first : List Char) (others : List (List Char))
    (h : ∀ line ∈ first :: others, isHeadLine line = true) :
    lines (joinedLines first others) = first :: others := by
  have hfirst := h first List.mem_cons_self
  induction others generalizing first with
  | nil =>
    obtain ⟨hne, -, hn⟩ := isHeadLine_iff.mp hfirst
    rw [joinedLines, List.flatMap_nil, List.append_nil, lines_single hne hn]
  | cons second others ih =>
    have hothers := fun line hline => h line (List.mem_cons_of_mem first hline)
    have hreturn : '\n' ∉ first ++ ['\r'] := by simp [(isHeadLine_iff.mp hfirst).2.2]
    rw [joinedLines_cons, List.append_cons, lines_cons hreturn, dropReturn_append,
      ih second hothers (hothers second List.mem_cons_self)]

end Lines

section Splitting

variable {needle : List UInt8} {b : UInt8}

theorem splitAtFirst?_here (hne : needle ≠ []) (rest : List UInt8) :
    splitAtFirst? needle (needle ++ rest) = some ([], rest) := by
  cases needle with
  | nil => exact absurd rfl hne
  | cons b more =>
    have hfront : (b :: more).isPrefixOf (b :: (more ++ rest)) = true :=
      List.isPrefixOf_iff_prefix.mpr ⟨rest, rfl⟩
    rw [List.cons_append, splitAtFirst?, if_pos hfront]
    simp

theorem splitAtFirst?_cons {rest : List UInt8} (h : ¬ needle <+: b :: rest) :
    splitAtFirst? needle (b :: rest) =
      (splitAtFirst? needle rest).map (Prod.map (b :: ·) id) := by
  rw [splitAtFirst?, if_neg (mt List.isPrefixOf_iff_prefix.mp h)]
  rfl

/-- Bytes that do not begin what is looked for are passed. -/
theorem splitAtFirst?_append {first : UInt8} {more front : List UInt8} (hfirst : first ∉ front)
    (rest : List UInt8) :
    splitAtFirst? (first :: more) (front ++ rest) =
      (splitAtFirst? (first :: more) rest).map (Prod.map (front ++ ·) id) := by
  induction front with
  | nil => exact (congrFun Option.map_id _).symm
  | cons b front ih =>
    simp only [List.mem_cons, not_or] at hfirst
    obtain ⟨hb, hfront⟩ := hfirst
    have hnot : ¬ first :: more <+: b :: (front ++ rest) :=
      fun h => hb (List.cons_prefix_cons.mp h).1
    rw [List.cons_append, splitAtFirst?_cons hnot, ih hfront, Option.map_map]
    rfl

theorem return_not_mem_encode {line : List Char} (h : '\r' ∉ line) : 13 ∉ Text.Utf8.encode line :=
  fun hmem => h (Text.Utf8.mem_encode_of_lt hmem (by decide))

theorem feed_not_mem_encode {line : List Char} (h : '\n' ∉ line) : 10 ∉ Text.Utf8.encode line :=
  fun hmem => h (Text.Utf8.mem_encode_of_lt hmem (by decide))

theorem encode_head_ne {line : List Char} {b : UInt8} (hne : line ≠ [])
    (hb : b ∉ Text.Utf8.encode line) (rest : List UInt8) :
    (Text.Utf8.encode line ++ rest).head? ≠ some b := by
  cases hencode : Text.Utf8.encode line with
  | nil =>
    have hdecode := Text.Utf8.decode_encode line
    rw [hencode] at hdecode
    exact absurd (Except.ok.inj hdecode).symm hne
  | cons first more =>
    rw [hencode] at hb
    rintro ⟨⟩
    exact hb List.mem_cons_self

theorem encode_head_ne_return {line : List Char} (hline : isHeadLine line = true)
    (rest : List UInt8) :
    (Text.Utf8.encode line ++ rest).head? ≠ some 13 := by
  obtain ⟨hne, hr, -⟩ := isHeadLine_iff.mp hline
  exact encode_head_ne hne (return_not_mem_encode hr) rest

/-- A line end with another line behind it is not the end of the head. -/
theorem splitAtFirst?_lineEnd {rest : List UInt8} (hrest : rest.head? ≠ some 13) :
    splitAtFirst? (lineEnd ++ lineEnd) (lineEnd ++ rest) =
      (splitAtFirst? (lineEnd ++ lineEnd) rest).map (Prod.map (lineEnd ++ ·) id) := by
  have hfirst : ¬ lineEnd ++ lineEnd <+: 13 :: 10 :: rest := by
    rintro ⟨more, hmore⟩
    have hsplit : rest = 13 :: 10 :: more := (List.cons.inj (List.cons.inj hmore).2).2.symm
    exact hrest (congrArg List.head? hsplit)
  have hsecond : ¬ lineEnd ++ lineEnd <+: 10 :: rest := by
    rintro ⟨more, hmore⟩
    exact absurd (List.cons.inj hmore).1 (by decide)
  change splitAtFirst? (lineEnd ++ lineEnd) (13 :: 10 :: rest) = _
  rw [splitAtFirst?_cons hfirst, splitAtFirst?_cons hsecond, Option.map_map]
  rfl

theorem splitAtFirst?_joinedLines (first : List Char) (others : List (List Char))
    (h : ∀ line ∈ first :: others, isHeadLine line = true) (body : List UInt8) :
    splitAtFirst? (lineEnd ++ lineEnd)
        (Text.Utf8.encode (joinedLines first others) ++ (lineEnd ++ lineEnd ++ body)) =
      some (Text.Utf8.encode (joinedLines first others), body) := by
  have hskip : ∀ {line}, isHeadLine line = true → ∀ rest,
      splitAtFirst? (lineEnd ++ lineEnd) (Text.Utf8.encode line ++ rest) =
        (splitAtFirst? (lineEnd ++ lineEnd) rest).map (Prod.map (Text.Utf8.encode line ++ ·) id) :=
    fun hline => splitAtFirst?_append (return_not_mem_encode (isHeadLine_iff.mp hline).2.1)
  have hfirst := h first List.mem_cons_self
  induction others generalizing first with
  | nil =>
    rw [joinedLines, List.flatMap_nil, List.append_nil, hskip hfirst,
      splitAtFirst?_here (by decide)]
    simp
  | cons second others ih =>
    have hothers := fun line hline => h line (List.mem_cons_of_mem first hline)
    have hsecond := hothers second List.mem_cons_self
    have hnext : (Text.Utf8.encode (joinedLines second others) ++
        (lineEnd ++ lineEnd ++ body)).head? ≠ some 13 := by
      rw [joinedLines, Text.Utf8.encode_append, List.append_assoc]
      exact encode_head_ne_return hsecond _
    have hencode : Text.Utf8.encode ('\r' :: '\n' :: joinedLines second others) =
        lineEnd ++ Text.Utf8.encode (joinedLines second others) := rfl
    rw [joinedLines_cons, Text.Utf8.encode_append, List.append_assoc, hskip hfirst, hencode,
      List.append_assoc, splitAtFirst?_lineEnd hnext, ih second hothers hsecond]
    rfl

end Splitting

section Status

theorem header?_eq_some {line name value : List Char} (h : header? line = some (name, value)) :
    ∃ front back, line = front ++ ':' :: back ∧ name = Text.trim front ∧
    value = Text.trim back := by
  unfold header? at h
  split at h
  · cases h
  · rename_i c back hdrop
    cases h
    have hc : c = ':' := by
      have hhead := List.head?_dropWhile_not (· != ':') line
      rw [hdrop] at hhead
      simpa using hhead
    have hsplit : line.takeWhile (· != ':') ++ c :: back = line := by
      rw [← hdrop]
      exact List.takeWhile_append_dropWhile
    exact ⟨line.takeWhile (· != ':'), back, hc ▸ hsplit.symm, rfl, rfl⟩

theorem mem_of_sameIgnoringCase {a b : List Char} (h : sameIgnoringCase a b = true) {c : Char}
    (hc : c ∈ a) : c.toLower ∈ b.map Char.toLower := by
  rw [← eq_of_beq h]
  exact List.mem_map_of_mem hc

/-- Apart from blanks, a line that announces chunks holds two words and a colon. -/
theorem mem_chunkedHeader {line : List Char} (h : isChunkedHeader line = true) {c : Char}
    (hc : c ∈ line) (hblank : Text.isBlank c = false) :
    c.toLower ∈ "transfer-encoding:chunked".toList := by
  unfold isChunkedHeader at h
  split at h
  · rename_i name value hheader
    obtain ⟨front, back, rfl, rfl, rfl⟩ := header?_eq_some hheader
    obtain ⟨hname, hvalue⟩ := Bool.and_eq_true_iff.mp h
    rcases List.mem_append.mp hc with hfront | hback
    · exact List.mem_append_left ":chunked".toList
        (mem_of_sameIgnoringCase hname (Text.mem_trim hblank hfront))
    rcases List.mem_cons.mp hback with rfl | hback
    · decide
    · exact List.mem_append_right "transfer-encoding:".toList
        (mem_of_sameIgnoringCase hvalue (Text.mem_trim hblank hback))
  · cases h

/-- A line whose second word is a number is no line that announces chunks. -/
theorem not_isChunkedHeader_of_status? {line : List Char} {status : Nat}
    (h : status? line = some status) : isChunkedHeader line = false := by
  refine Bool.eq_false_iff.mpr fun hchunked => ?_
  obtain ⟨word, hword, hnumeral⟩ := Option.bind_eq_some_iff.mp h
  obtain ⟨hne, hmem⟩ := Text.mem_words (List.mem_of_getElem? hword)
  obtain ⟨c, more, rfl⟩ := List.exists_cons_of_ne_nil hne
  obtain ⟨hline, hblank⟩ := hmem c List.mem_cons_self
  have hletter := mem_chunkedHeader hchunked hline hblank
  have hplus : c ≠ '+' := by
    rintro rfl
    exact absurd hletter (by decide)
  have hdigits : ∀ d ∈ "transfer-encoding:chunked".toList, Text.digit? 10 d = none :=
    forall_mem_of_all (by decide)
  have hdigit : Text.digit? 10 c = none := by
    rw [← Text.digit?_toLower]
    exact hdigits _ hletter
  rw [Text.numeral?_none hplus hdigit] at hnumeral
  cases hnumeral

end Status

variable {head : Head}

/-- What is split off as the head is read by its lines, of which the first one is the status
line. -/
theorem parseResponse_split (head : Head) {bytes front body : List UInt8} {text : List Char}
    {others : List (List Char)} (hsplit : splitHead? bytes = some (front, body))
    (hdecode : Text.Utf8.decode front = .ok text)
    (hlines : lines text = head.statusLine :: others) :
    parseResponse bytes = readBody (others.any isChunkedHeader) body := by
  obtain ⟨status, hstatus, hlow, hhigh⟩ := head.succeeds
  obtain ⟨hne, -⟩ := isHeadLine_iff.mp (head.isLine head.statusLine List.mem_cons_self)
  obtain ⟨c, more, hcons⟩ := List.exists_cons_of_ne_nil hne
  have hread : readStatus head.statusLine = .ok () := by
    simp only [readStatus, hstatus, hlow, hhigh, and_self, if_true]
  have hany : (head.statusLine :: others).any isChunkedHeader = others.any isChunkedHeader := by
    rw [List.any_cons, not_isChunkedHeader_of_status? hstatus, Bool.false_or]
  rw [← hany]
  rw [hcons] at hlines hread ⊢
  simp only [parseResponse, hsplit, hdecode, hlines, hread]
  rfl

theorem parseResponse_head (head : Head) (body : List UInt8) :
    parseResponse (head.bytes ++ body) = readBody (head.headers.any isChunkedHeader) body := by
  have hsplit : splitHead? (head.bytes ++ body) = some (Text.Utf8.encode head.text, body) := by
    rw [splitHead?, Head.bytes, List.append_assoc]
    exact congrArg (Option.or · _) (splitAtFirst?_joinedLines _ _ head.isLine body)
  exact parseResponse_split head hsplit (Text.Utf8.decode_encode _)
    (lines_joinedLines _ _ head.isLine)

end Http

end GraphQLClient
