import GraphQLClient.Proofs.ResponseHeads

/-!
# Chunked bodies

Reading undoes the chunks a body is written in: the size line of a chunk gives the size of its data,
and behind the line end that follows the data the next chunk begins. So a body arrives whole,
wherever it was cut.
-/
namespace GraphQLClient

namespace Http

section SizeLines

variable {n : Nat} {digits : List Char}

theorem WritesSize.value (h : WritesSize digits n) : Text.digitsValue? 16 0 digits = some n := by
  obtain ⟨zeros, hzeros⟩ := h
  rw [← Text.digitsValue?_toLower, hzeros, Text.digitsValue?_zeros,
    Text.digitsValue?_digitsOf (by decide) (by decide)]

theorem WritesSize.isNameChar (h : WritesSize digits n) :
    ∀ c ∈ digits, Text.isNameChar c = true := by
  intro c hc
  obtain ⟨digit, hdigit⟩ := Text.digit?_of_digitsValue? h.value hc
  exact Text.isNameChar_of_digit? hdigit

theorem WritesSize.not_mem (h : WritesSize digits n) {c : Char} (hc : Text.isNameChar c = false) :
    c ∉ digits := by
  intro hmem
  rw [h.isNameChar c hmem] at hc
  cases hc

theorem WritesSize.ne_nil (h : WritesSize digits n) : digits ≠ [] := by
  rintro rfl
  obtain ⟨zeros, hzeros⟩ := h
  exact Nat.toDigits_ne_nil (List.append_eq_nil_iff.mp hzeros.symm).2

theorem WritesSize.numeral? (h : WritesSize digits n) (hlimit : n ≤ sizeLimit) :
    Text.numeral? 16 sizeLimit digits = some n :=
  Text.numeral?_eq_some h.ne_nil (h.not_mem (by decide)) h.value hlimit

/-- Behind the digits of a size line stands a blank to be trimmed, or the mark of an extension. -/
theorem takeWhile_extension {extension : List UInt8} (h : isExtension extension = true) :
    (Text.trimRight (Text.Utf8.decodeLenient (extension ++ [13]))).takeWhile (· != ';') = [] := by
  cases extension with
  | nil => rfl
  | cons b more =>
    obtain ⟨hmark, -⟩ := Bool.and_eq_true_iff.mp h
    obtain rfl : b = 59 := by simpa using hmark
    have hdecode : Text.Utf8.decodeLenient (59 :: (more ++ [13])) =
        ';' :: Text.Utf8.decodeLenient (more ++ [13]) :=
      Text.Utf8.decodeLenient_append [';'] _
    have htrim := Text.trimRight_append [] (c := ';') (by decide)
      (Text.Utf8.decodeLenient (more ++ [13]))
    rw [List.cons_append, hdecode, ← List.nil_append (';' :: _), htrim]
    rfl

theorem chunkSize_line (h : WritesSize digits n) (hlimit : n ≤ sizeLimit) {extension : List UInt8}
    (hextension : isExtension extension = true) :
    chunkSize (Text.Utf8.encode digits ++ extension ++ [13]) = .ok n := by
  have hblank : ∀ c ∈ digits, Text.isBlank c = false :=
    fun c hc => Text.not_isBlank_of_isNameChar (h.isNameChar c hc)
  have hmark : ∀ c ∈ digits, (c != ';') = true := by
    intro c hc
    exact bne_iff_ne.mpr fun heq => h.not_mem (c := ';') (by decide) (heq ▸ hc)
  have htext :
      (Text.trim (Text.Utf8.decodeLenient (Text.Utf8.encode digits ++ extension ++ [13]))).takeWhile
      (· != ';') = digits := by
    rw [List.append_assoc, Text.Utf8.decodeLenient_append, Text.trim_append h.ne_nil hblank,
      List.takeWhile_append_of_pos hmark, takeWhile_extension hextension, List.append_nil]
  simp only [chunkSize, htext, h.numeral? hlimit]

end SizeLines

section Reading

variable {bytes line rest data : List UInt8} {n : Nat}

theorem splitAtFirst?_feed (hline : 10 ∉ line) (rest : List UInt8) :
    splitAtFirst? [10] (line ++ 10 :: rest) = some (line, rest) := by
  have hhere : splitAtFirst? [10] (10 :: rest) = some ([], rest) :=
    splitAtFirst?_here (by decide) rest
  rw [splitAtFirst?_append hline, hhere]
  simp

theorem splitAtFirst?_none (h : 10 ∉ bytes) : splitAtFirst? [10] bytes = none := by
  have hskip : splitAtFirst? [10] (bytes ++ []) = _ := splitAtFirst?_append h []
  rwa [List.append_nil] at hskip

theorem readChunks_none (h : splitAtFirst? [10] bytes = none) : readChunks bytes = .ok [] := by
  rw [readChunks]
  split
  · rfl
  · rename_i heq
    rw [h] at heq
    cases heq

theorem readChunks_zero (h : splitAtFirst? [10] bytes = some (line, rest))
    (hsize : chunkSize line = .ok 0) : readChunks bytes = .ok [] := by
  rw [readChunks]
  split
  · rfl
  · rename_i heq
    cases h.symm.trans heq
    rw [hsize]

theorem readChunks_succ (h : splitAtFirst? [10] bytes = some (line, rest))
    (hsize : chunkSize line = .ok (n + 1)) :
    readChunks bytes = if rest.length < n + 1 then .error .truncated else
      (readChunks (dropByte 10 (dropByte 13 (rest.drop (n + 1))))).map
        (rest.take (n + 1) ++ ·) := by
  rw [readChunks]
  split
  · rename_i heq
    rw [h] at heq
    cases heq
  · rename_i heq
    cases h.symm.trans heq
    simp only [hsize]
    split_ifs
    · rfl
    · cases readChunks (dropByte 10 (dropByte 13 (rest.drop (n + 1)))) <;> rfl

def SizeLine.front (line : SizeLine n) : List UInt8 :=
  Text.Utf8.encode line.digits ++ line.extension ++ [13]

theorem SizeLine.bytes_eq (line : SizeLine n) : line.bytes = line.front ++ [10] := by
  simp [SizeLine.bytes, SizeLine.front, lineEnd]

@[simp] theorem SizeLine.feed_not_mem (line : SizeLine n) : 10 ∉ line.front := by
  have hdigits := feed_not_mem_encode (line.writes.not_mem (c := '\n') (by decide))
  have hextension : 10 ∉ line.extension := by
    simpa using (Bool.and_eq_true_iff.mp line.separate).2
  simp [SizeLine.front, hdigits, hextension]

theorem SizeLine.split (line : SizeLine n) (rest : List UInt8) :
    splitAtFirst? [10] (line.bytes ++ rest) = some (line.front, rest) := by
  rw [line.bytes_eq, List.append_assoc]
  exact splitAtFirst?_feed line.feed_not_mem rest

theorem SizeLine.size (line : SizeLine n) (hlimit : n ≤ sizeLimit) : chunkSize line.front = .ok n :=
  chunkSize_line line.writes hlimit line.separate

theorem readChunks_sizeLine (line : SizeLine n) (hpos : 0 < n) (hlimit : n ≤ sizeLimit)
    (rest : List UInt8) :
    readChunks (line.bytes ++ rest) = if rest.length < n then .error .truncated else
      (readChunks (dropByte 10 (dropByte 13 (rest.drop n)))).map (rest.take n ++ ·) := by
  have hsize := line.size hlimit
  obtain ⟨m, rfl⟩ := Nat.exists_eq_add_one.mpr hpos
  exact readChunks_succ (line.split rest) hsize

@[simp] theorem Chunk.length_pos (chunk : Chunk) : 0 < chunk.data.length :=
  List.length_pos_iff.mpr chunk.nonempty

/-- A chunk is taken off whole, whatever its data are, and reading goes on right behind it. -/
theorem readChunks_chunk (chunk : Chunk) (rest : List UInt8) :
    readChunks (chunk.bytes ++ rest) = (readChunks rest).map (chunk.data ++ ·) := by
  have hlong : ¬ (chunk.data ++ (lineEnd ++ rest)).length < chunk.data.length := by
    rw [List.length_append]
    omega
  rw [Chunk.bytes, List.append_assoc, List.append_assoc,
    readChunks_sizeLine chunk.line chunk.length_pos chunk.fits, if_neg hlong, List.take_left,
    List.drop_left]
  rfl

theorem readChunks_last (last : LastChunk) : readChunks last.bytes = .ok [] :=
  readChunks_zero (last.line.split last.trailer) (last.line.size (Nat.zero_le _))

theorem readChunks_chunks (chunks : List Chunk) (last : LastChunk) :
    readChunks (chunks.flatMap Chunk.bytes ++ last.bytes) = .ok (chunks.flatMap Chunk.data) := by
  induction chunks with
  | nil => exact readChunks_last last
  | cons chunk chunks ih =>
    rw [List.flatMap_cons, List.append_assoc, readChunks_chunk, ih]
    rfl

theorem readBody_ok {cs : List Char} (h : Text.Utf8.decode data = .ok cs) :
    readBody false data = .ok (String.ofList cs) := by
  simp only [readBody, Bool.false_eq_true, if_false, bind, Except.bind, h]
  rfl

theorem readBody_encode (text : String) :
    readBody false (Text.Utf8.encode text.toList) = .ok text := by
  rw [readBody_ok (Text.Utf8.decode_encode _), String.ofList_toList]

theorem readBody_chunked (hdata : readChunks bytes = .ok data) :
    readBody true bytes = readBody false data := by
  simp only [readBody, hdata]
  rfl

end Reading

theorem Head.chunked_isChunked (head : Head) : head.chunked.headers.any isChunkedHeader = true := by
  have hline : isChunkedHeader "Transfer-Encoding: chunked".toList = true := by decide
  exact List.any_eq_true.mpr ⟨_, List.mem_append_right _ List.mem_cons_self, hline⟩

/-- However a text is cut into chunks, it comes out as it does from a body that holds it whole. -/
theorem chunks_transparent (head : Head)
    (hhead : ∀ line ∈ head.headers, isChunkedHeader line = false) (text : String)
    (chunks : List Chunk) (last : LastChunk)
    (htext : chunks.flatMap Chunk.data = Text.Utf8.encode text.toList) :
    parseResponse (head.chunked.bytes ++ (chunks.flatMap Chunk.bytes ++ last.bytes)) = .ok text ∧
      parseResponse (head.bytes ++ Text.Utf8.encode text.toList) = .ok text := by
  have hplain : head.headers.any isChunkedHeader = false :=
    List.any_eq_false.mpr fun line hline => Bool.eq_false_iff.mp (hhead line hline)
  constructor
  · rw [parseResponse_head, head.chunked_isChunked,
      readBody_chunked (readChunks_chunks chunks last), htext, readBody_encode]
  · rw [parseResponse_head, hplain, readBody_encode]

theorem status?_succeeds :
    ∃ status, status? "HTTP/1.1 200 OK".toList = some status ∧ 200 ≤ status ∧ status < 300 :=
  ⟨200, by decide, by decide, by decide⟩

def notedHead : Head where
  statusLine := "HTTP/1.1 200 OK".toList
  headers := ["Content-Type: application/json".toList, "X-Note: café".toList]
  succeeds := status?_succeeds
  isLine := by decide

/-- Every cut falls inside a character, and the second chunk holds what would end the body. -/
def tornChunks : List Chunk :=
  [{ data := [0xC3], line := .plain "01".toList ⟨1, by decide⟩,
     nonempty := by decide, fits := by decide },
   { data := [0xA9, 13, 10, 48, 13, 10, 13, 10, 0xE2, 0x82],
     line := ⟨"0A".toList, Text.Utf8.encode ";last=no".toList, ⟨1, by decide⟩, by decide⟩,
     nonempty := by decide, fits := by decide },
   { data := [0xAC], line := ⟨"1".toList, [59, 0xFF], ⟨0, by decide⟩, by decide⟩,
     nonempty := by decide, fits := by decide }]

def tornEnd : LastChunk := ⟨.plain "00".toList ⟨1, by decide⟩, Text.Utf8.encode "5\r\nX".toList⟩

theorem torn_text_arrives :
    (∀ line ∈ notedHead.headers, isChunkedHeader line = false) ∧
    parseResponse (notedHead.chunked.bytes ++ (tornChunks.flatMap Chunk.bytes ++ tornEnd.bytes)) =
      .ok "é\r\n0\r\n\r\n€" ∧
    parseResponse (notedHead.bytes ++ Text.Utf8.encode "é\r\n0\r\n\r\n€".toList) =
      .ok "é\r\n0\r\n\r\n€" :=
  have hhead : ∀ line ∈ notedHead.headers, isChunkedHeader line = false := by decide
  ⟨hhead, chunks_transparent notedHead hhead _ tornChunks tornEnd (by decide)⟩

end Http

end GraphQLClient
