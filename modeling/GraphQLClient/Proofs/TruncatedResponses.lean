import GraphQLClient.Proofs.ChunkedBodies

/-!
# Truncated responses

A response in chunks may break off. Reading notices it among the data of a chunk, where the size
line has promised more, and nowhere else: bytes that stop in front of the data of a chunk read like
the end of the body.
-/
namespace GraphQLClient.Http

/-- The bytes of the chunks stop among the data of one of them, after the first `n`. -/
def stopsInData : List Chunk → Nat → Bool
  | [], _ => false
  | chunk :: chunks, n =>
    if n < chunk.line.bytes.length then false
    else if n < chunk.line.bytes.length + chunk.data.length then true
    else stopsInData chunks (n - chunk.bytes.length)

/-- The data of the chunks whose data are there after the first `n` bytes. -/
def dataWithin : List Chunk → Nat → List UInt8
  | [], _ => []
  | chunk :: chunks, n =>
    if n < chunk.line.bytes.length + chunk.data.length then []
    else chunk.data ++ dataWithin chunks (n - chunk.bytes.length)

section Cuts

variable {n : Nat}

theorem SizeLine.split_take {size : Nat} (line : SizeLine size) (hn : n < line.bytes.length)
    (rest : List UInt8) : splitAtFirst? [10] ((line.bytes ++ rest).take n) = none := by
  refine splitAtFirst?_none fun hmem => line.feed_not_mem ?_
  rw [line.bytes_eq, List.length_append, List.length_singleton] at hn
  rw [line.bytes_eq, List.append_assoc, List.take_append_of_le_length (by omega)] at hmem
  exact List.mem_of_mem_take hmem

/-- What is there of the line end behind the data goes with them. -/
theorem dropByte_lineEnd_take (n : Nat) (rest : List UInt8) :
    dropByte 10 (dropByte 13 ((lineEnd ++ rest).take n)) = rest.take (n - 2) := by
  match n with
  | 0 => rfl
  | 1 => rfl
  | n + 2 => rfl

@[simp] theorem Chunk.length_bytes (chunk : Chunk) :
    chunk.bytes.length = chunk.line.bytes.length + chunk.data.length + 2 := by
  simp [Chunk.bytes, lineEnd, Nat.add_assoc]

theorem readChunks_stop_line (chunk : Chunk) (hn : n < chunk.line.bytes.length)
    (rest : List UInt8) :
    readChunks ((chunk.bytes ++ rest).take n) = .ok [] := by
  rw [Chunk.bytes, List.append_assoc]
  exact readChunks_none (chunk.line.split_take hn _)

/-- The data of a chunk must be there. -/
theorem readChunks_stop_data (chunk : Chunk) (hline : chunk.line.bytes.length ≤ n)
    (hn : n < chunk.line.bytes.length + chunk.data.length) (rest : List UInt8) :
    readChunks ((chunk.bytes ++ rest).take n) = .error .truncated := by
  have hshort : ((chunk.data ++ (lineEnd ++ rest)).take (n - chunk.line.bytes.length)).length <
      chunk.data.length := by
    rw [List.length_take]
    omega
  rw [Chunk.bytes, List.append_assoc, List.append_assoc, List.take_append,
    List.take_of_length_le hline, readChunks_sizeLine chunk.line chunk.length_pos chunk.fits,
    if_pos hshort]

theorem readChunks_stop_behind (chunk : Chunk)
    (hn : chunk.line.bytes.length + chunk.data.length ≤ n) (rest : List UInt8) :
    readChunks ((chunk.bytes ++ rest).take n) =
      (readChunks (rest.take (n - chunk.bytes.length))).map (chunk.data ++ ·) := by
  obtain ⟨m, rfl⟩ := Nat.exists_eq_add_of_le hn
  have hleft : chunk.line.bytes.length + chunk.data.length + m - chunk.bytes.length = m - 2 := by
    rw [chunk.length_bytes]
    omega
  have htake : (chunk.bytes ++ rest).take (chunk.line.bytes.length + chunk.data.length + m) =
      chunk.line.bytes ++ (chunk.data ++ (lineEnd ++ rest).take m) := by
    rw [Chunk.bytes, List.append_assoc, List.append_assoc, Nat.add_assoc,
      List.take_length_add_append, List.take_length_add_append]
  have hlong : ¬ (chunk.data ++ (lineEnd ++ rest).take m).length < chunk.data.length := by
    rw [List.length_append]
    omega
  rw [htake, readChunks_sizeLine chunk.line chunk.length_pos chunk.fits, if_neg hlong,
    List.take_left, List.drop_left, dropByte_lineEnd_take, hleft]

theorem readChunks_stop_last (last : LastChunk) (n : Nat) :
    readChunks (last.bytes.take n) = .ok [] := by
  by_cases hline : n < last.line.bytes.length
  · exact readChunks_none (last.line.split_take hline _)
  · have htake : last.bytes.take n =
        LastChunk.bytes ⟨last.line, last.trailer.take (n - last.line.bytes.length)⟩ := by
      rw [LastChunk.bytes, LastChunk.bytes, List.take_append, List.take_of_length_le (by omega)]
    rw [htake]
    exact readChunks_last _

-- The cases are where the bytes stop: in the size line, among the data, or behind them.
theorem readChunks_take (chunks : List Chunk) (last : LastChunk) (n : Nat) :
    readChunks ((chunks.flatMap Chunk.bytes ++ last.bytes).take n) =
      if stopsInData chunks n then .error .truncated else .ok (dataWithin chunks n) := by
  induction chunks generalizing n with
  | nil => exact readChunks_stop_last last n
  | cons chunk chunks ih =>
    rw [List.flatMap_cons, List.append_assoc, stopsInData, dataWithin]
    by_cases hline : n < chunk.line.bytes.length
    · have hdata : n < chunk.line.bytes.length + chunk.data.length := by omega
      rw [if_pos hline, if_pos hdata, readChunks_stop_line chunk hline]
      rfl
    by_cases hdata : n < chunk.line.bytes.length + chunk.data.length
    · rw [if_neg hline, if_pos hdata, readChunks_stop_data chunk (by omega) hdata]
      rfl
    · rw [if_neg hline, if_neg hdata, if_neg hdata, readChunks_stop_behind chunk (by omega), ih]
      split_ifs <;> rfl

end Cuts

/-- A response that breaks off among the data of a chunk is refused. Any other is read as if it
ended there. -/
theorem parseResponse_take {head : Head} (hchunked : head.headers.any isChunkedHeader = true)
    (chunks : List Chunk) (last : LastChunk) (n : Nat) :
    parseResponse (head.bytes ++ (chunks.flatMap Chunk.bytes ++ last.bytes).take n) =
      if stopsInData chunks n then .error ChunkFault.truncated.error
      else readBody false (dataWithin chunks n) := by
  rw [parseResponse_head, hchunked]
  have hread := readChunks_take chunks last n
  split_ifs at hread ⊢
  · simp only [readBody, hread]
    rfl
  · exact readBody_chunked hread

theorem readBody_error {data : List UInt8} {fault : Text.Utf8.Fault}
    (h : Text.Utf8.decode data = .error fault) :
    readBody false data =
      .error (invalidResponse s!"Response body is not valid UTF-8: {fault.message}") := by
  simp only [readBody, Bool.false_eq_true, if_false, bind, Except.bind, h]
  rfl

/-- A response that breaks off is refused exactly when it does so among the data of a chunk, or when
the data that are there are no text. In all other cases it is taken for a complete one. -/
theorem truncated_refused_iff {head : Head} (hchunked : head.headers.any isChunkedHeader = true)
    (chunks : List Chunk) (last : LastChunk) (n : Nat) :
    ((∃ error, parseResponse (head.bytes ++ (chunks.flatMap Chunk.bytes ++ last.bytes).take n) =
          .error error ∧ error.code = .invalidResponse) ↔
      stopsInData chunks n = true ∨
        ∃ fault, Text.Utf8.decode (dataWithin chunks n) = .error fault) ∧
    ∀ text, parseResponse (head.bytes ++ (chunks.flatMap Chunk.bytes ++ last.bytes).take n) =
        .ok text ↔
      stopsInData chunks n = false ∧ Text.Utf8.decode (dataWithin chunks n) = .ok text.toList := by
  rw [parseResponse_take hchunked]
  by_cases hstops : stopsInData chunks n = true
  · simp [hstops, ChunkFault.error, invalidResponse, ClientError.new, ClientError.code]
  rw [if_neg hstops]
  cases hdecode : Text.Utf8.decode (dataWithin chunks n) with
  | error fault =>
    simp [readBody_error hdecode, hstops, invalidResponse, ClientError.new, ClientError.code]
  | ok cs =>
    have hsame : ∀ text : String, String.ofList cs = text ↔ cs = text.toList := fun text =>
      ⟨fun h => by rw [← h, String.toList_ofList], fun h => by rw [h, String.ofList_toList]⟩
    simp [readBody_ok hdecode, hstops, hsame]

def announcedHead : Head where
  statusLine := "HTTP/1.1 200 OK".toList
  headers := ["Transfer-Encoding: chunked".toList]
  succeeds := status?_succeeds
  isLine := by decide

def fiveBytes (text : List Char) (h : (Text.Utf8.encode text).length = 5) : Chunk where
  data := Text.Utf8.encode text
  line := .plain ['5'] ⟨0, by rw [h]; decide⟩
  nonempty := by
    intro hnil
    rw [hnil] at h
    cases h
  fits := by
    rw [h]
    decide

def letterChunks : List Chunk :=
  [fiveBytes "abcde".toList (by decide), fiveBytes "fghij".toList (by decide)]

def lettersEnd : LastChunk := ⟨.plain ['0'] ⟨0, by decide⟩, lineEnd⟩

theorem letters_cut_short :
    announcedHead.headers.any isChunkedHeader = true ∧
    (∃ error, parseResponse (announcedHead.bytes ++
        (letterChunks.flatMap Chunk.bytes ++ lettersEnd.bytes).take 14) = .error error ∧
      error.code = .invalidResponse) ∧
    parseResponse (announcedHead.bytes ++
        (letterChunks.flatMap Chunk.bytes ++ lettersEnd.bytes).take 12) = .ok "abcde" :=
  have hchunked : announcedHead.headers.any isChunkedHeader = true := by decide
  ⟨hchunked,
    (truncated_refused_iff hchunked letterChunks lettersEnd 14).1.mpr (Or.inl (by decide)),
    ((truncated_refused_iff hchunked letterChunks lettersEnd 12).2 "abcde").mpr
      ⟨by decide, by decide⟩⟩

/-- The response that stops behind its first chunk is taken for a complete one. -/
theorem truncated_not_refused :
    ¬ ∀ (head : Head) (chunks : List Chunk) (last : LastChunk) (n : Nat),
      head.headers.any isChunkedHeader = true → chunks ≠ [] →
      n ≤ (chunks.flatMap Chunk.bytes).length →
      ∃ error, parseResponse (head.bytes ++ (chunks.flatMap Chunk.bytes ++ last.bytes).take n) =
        .error error ∧ error.code = .invalidResponse := by
  intro hrefused
  obtain ⟨error, herror, -⟩ := hrefused announcedHead letterChunks lettersEnd 10 (by decide)
    (List.cons_ne_nil _ _) (by decide)
  have hstops : stopsInData letterChunks 10 = false := by decide
  have hdecode : Text.Utf8.decode (dataWithin letterChunks 10) = .ok "abcde".toList := by decide
  rw [parseResponse_take (by decide), hstops, if_neg Bool.false_ne_true,
    readBody_ok hdecode] at herror
  cases herror

end GraphQLClient.Http
