import MarketFeed.RestApi
import MarketFeed.Library.Lines

set_option autoImplicit false

/-! # What `on_read` makes of a response (`src/restapi.cpp`)

`on_write` reads until the end of a chunked body, or until the server closes the connection. The
handler does not parse HTTP: it goes through the response line by line and keeps the last line
before an empty one. A line keeps its carriage return, so the blank line after the header does not
count as empty, and neither does the one that ends a chunked body.

A body that runs to the end of the connection is found in this way
(`onRead_closeDelimited`); of a chunked one nothing is left (`onRead_chunked_ne_body`). -/

namespace MarketFeed

open Lines

/-- `'\n'` -/
def lf : UInt8 := 0x0A

/-- `'\r'` -/
def cr : UInt8 := 0x0D

/-- The end of a line in HTTP. -/
def crlf : Bytes := [cr, lf]

/-- The bytes of a text without special characters. -/
def ascii (text : String) : Bytes := text.toList.map fun c => UInt8.ofNat c.toNat

namespace RestApiHandler

/-- The delimiter given to `async_read_until`, `"\r\n0\r\n\r\n"`. -/
def responseDelimiter : Bytes := crlf ++ ascii "0" ++ crlf ++ crlf

/-- `while (std::getline(response_stream, line) && !line.empty()) data_str = line;` -/
def lineLoop (dataStr responseStream : Bytes) : Bytes :=
  match h : getline lf responseStream with
  | none => dataStr
  | some ([], _) => dataStr
  | some (c :: line, rest) =>
      have : rest.length < responseStream.length := length_lt_of_getline h
      lineLoop (c :: line) rest
termination_by responseStream.length

/-- The strings `on_read` posts to `on_data`. -/
def onReadData (error : ErrorCode) (response : Bytes) : List Bytes :=
  if error = .success ∨ error = .eof then [lineLoop [] response] else []

/-! ## The loop over complete lines -/

theorem lineLoop_nil (dataStr : Bytes) : lineLoop dataStr [] = dataStr := by
  rw [lineLoop]
  rfl

theorem lineLoop_of_getline {dataStr responseStream line rest : Bytes} (hne : line ≠ [])
    (h : getline lf responseStream = some (line, rest)) :
    lineLoop dataStr responseStream = lineLoop line rest := by
  obtain ⟨c, line, rfl⟩ := List.exists_cons_of_ne_nil hne
  rw [lineLoop]
  split
  · next hnone => exact absurd (hnone.symm.trans h) (by simp)
  · next hempty => exact absurd (hempty.symm.trans h) (by simp)
  · next hline =>
      obtain ⟨⟨rfl, rfl⟩, rfl⟩ : (_ ∧ _) ∧ _ := by simpa using hline.symm.trans h
      rfl

/-- Over nonempty lines the loop goes on, and the last of them replaces what it had. -/
theorem lineLoop_unlines {lines : List Bytes} (hlines : ∀ line ∈ lines, lf ∉ line ∧ line ≠ [])
    (dataStr rest : Bytes) :
    lineLoop dataStr (unlines lf lines ++ rest) = lineLoop (lines.getLastD dataStr) rest := by
  induction lines generalizing dataStr with
  | nil => rfl
  | cons line lines ih =>
      obtain ⟨hlf, hne⟩ := hlines line List.mem_cons_self
      rw [unlines_cons, List.append_assoc, List.cons_append,
        lineLoop_of_getline hne (getline_line hlf _),
        ih fun l hl => hlines l (List.mem_cons_of_mem _ hl), List.getLastD_cons]

end RestApiHandler

/-! ## Responses -/

/-- A status line and header lines, without their line ends. -/
structure ResponseHead where
  statusLine : Bytes
  headers : List Bytes
  header_ne : ∀ header ∈ headers, header ≠ []
  lf_notMem : ∀ line ∈ statusLine :: headers, lf ∉ line

namespace ResponseHead

/-- What the server sends: every line ended by CRLF, then the blank line. -/
def wire (head : ResponseHead) : Bytes :=
  (head.statusLine :: head.headers).flatMap (· ++ crlf) ++ crlf

/-- The same, as the handler sees it: lines that end with a carriage return. -/
def lines (head : ResponseHead) : List Bytes :=
  (head.statusLine :: head.headers).map (· ++ [cr]) ++ [[cr]]

/-- Every header has the form `name:value`. -/
def NameValue (head : ResponseHead) : Prop := ∀ header ∈ head.headers, 0x3A ∈ header

theorem unlines_map_cr (texts : List Bytes) :
    unlines lf (texts.map (· ++ [cr])) = texts.flatMap (· ++ crlf) := by
  unfold unlines
  rw [List.flatMap_map]
  refine congrArg (texts.flatMap ·) (funext fun text => ?_)
  rw [List.append_assoc]
  rfl

theorem wire_eq_unlines (head : ResponseHead) : head.wire = unlines lf head.lines := by
  rw [wire, lines, unlines_append, unlines_map_cr]
  rfl

theorem lf_notMem_append_cr {text : Bytes} (h : lf ∉ text) : lf ∉ text ++ [cr] := by
  rw [List.mem_append, List.mem_singleton]
  exact not_or.2 ⟨h, by decide⟩

/-- No line contains a line end, and none is empty: the blank one is a carriage return. -/
theorem mem_lines (head : ResponseHead) : ∀ line ∈ head.lines, lf ∉ line ∧ line ≠ [] := by
  intro line hline
  rcases List.mem_append.1 hline with hmap | hblank
  · obtain ⟨text, htext, rfl⟩ := List.mem_map.1 hmap
    exact ⟨lf_notMem_append_cr (head.lf_notMem text htext), by simp⟩
  · rw [List.mem_singleton.1 hblank]
    exact ⟨by decide, by decide⟩

end ResponseHead

/-- A response whose body runs to the end of the connection. -/
structure CloseDelimited where
  head : ResponseHead
  body : Bytes
  body_ne : body ≠ []
  lf_notMem : lf ∉ body

/-- What the server sends before it closes the connection. -/
def CloseDelimited.wire (r : CloseDelimited) : Bytes := r.head.wire ++ r.body

namespace RestApiHandler

/-- The loop reads the head and ends up with the body. -/
theorem lineLoop_closeDelimited (r : CloseDelimited) : lineLoop [] r.wire = r.body := by
  rw [CloseDelimited.wire, ResponseHead.wire_eq_unlines, lineLoop_unlines r.head.mem_lines,
    lineLoop_of_getline r.body_ne (getline_last r.body_ne r.lf_notMem), lineLoop_nil]

/-- The delimiter has a line of its own with nothing but a zero in it. -/
theorem zero_mem_tail_of_delimiter (r : CloseDelimited) (h : responseDelimiter <:+: r.wire) :
    ascii "0" ++ [cr] ∈ r.head.lines.tail := by
  refine mem_tail_of_infix (fun line hline => (r.head.mem_lines line hline).1) r.lf_notMem
    (by decide) ?_
  rw [← ResponseHead.wire_eq_unlines]
  exact List.IsInfix.trans ⟨[cr], crlf, rfl⟩ h

/-- **A body that runs to the end of the connection.** Whatever the status line and the headers,
    `on_read` posts exactly the body, once; and if every header is a `name:value` line, the
    delimiter that would end the read early does not occur in the response. -/
theorem onRead_closeDelimited (r : CloseDelimited) :
    onReadData .eof r.wire = [r.body] ∧
      (r.head.NameValue → ¬ responseDelimiter <:+: r.wire) := by
  refine ⟨?_, fun hnames h => ?_⟩
  · rw [onReadData, if_pos (Or.inr rfl), lineLoop_closeDelimited]
  · have hzero := zero_mem_tail_of_delimiter r h
    rcases List.mem_append.1 hzero with hheader | hblank
    · obtain ⟨header, hheader, heq⟩ := List.mem_map.1 hheader
      have hcolon := hnames header hheader
      rw [(List.append_left_inj _).1 heq] at hcolon
      exact absurd hcolon (by decide)
    · exact absurd hblank (by decide)

/-- A small response without chunks. -/
def closedResponse : CloseDelimited where
  head := {
    statusLine := ascii "HTTP/1.1 200 OK"
    headers := [ascii "Content-Type: application/json", ascii "Connection: close"]
    header_ne := by decide
    lf_notMem := by decide }
  body := ascii "{}"
  body_ne := by decide
  lf_notMem := by decide

theorem onRead_closedResponse :
    onReadData .eof closedResponse.wire = [ascii "{}"] ∧
      ¬ responseDelimiter <:+: closedResponse.wire :=
  ⟨(onRead_closeDelimited closedResponse).1,
    (onRead_closeDelimited closedResponse).2 (by unfold ResponseHead.NameValue; decide)⟩

end RestApiHandler

/-! ## Chunked bodies -/

/-- The value of a hexadecimal digit. -/
def hexDigit (b : UInt8) : Option ℕ :=
  if 0x30 ≤ b ∧ b ≤ 0x39 then some (b.toNat - 0x30)
  else if 0x41 ≤ b ∧ b ≤ 0x46 then some (b.toNat - 0x41 + 10)
  else if 0x61 ≤ b ∧ b ≤ 0x66 then some (b.toNat - 0x61 + 10)
  else none

/-- The number written in hexadecimal digits. -/
def hexNumber (digits : Bytes) : Option ℕ :=
  digits.foldlM (fun n b => (hexDigit b).map (n * 16 + ·)) 0

/-- One chunk of a body: its length in hexadecimal, perhaps an extension, and its data. -/
structure Chunk where
  digits : Bytes
  extension : Bytes
  data : Bytes
  length_eq : hexNumber digits = some data.length
  digits_ne : digits ≠ []
  extension_eq : extension = [] ∨ extension.head? = some 0x3B
  data_ne : data ≠ []
  lf_notMem : lf ∉ digits ++ extension ++ data

namespace Chunk

def wire (c : Chunk) : Bytes := c.digits ++ c.extension ++ crlf ++ c.data ++ crlf

/-- The same, as the handler sees it. -/
def lines (c : Chunk) : List Bytes := [c.digits ++ c.extension ++ [cr], c.data ++ [cr]]

theorem wire_eq_unlines (c : Chunk) : c.wire = unlines lf c.lines := by
  simp [wire, lines, unlines, crlf]

theorem mem_lines (c : Chunk) : ∀ line ∈ c.lines, lf ∉ line ∧ line ≠ [] := by
  have hlf := c.lf_notMem
  rw [List.mem_append, not_or] at hlf
  intro line hline
  rcases List.mem_pair.1 hline with rfl | rfl
  · exact ⟨ResponseHead.lf_notMem_append_cr hlf.1, by simp⟩
  · exact ⟨ResponseHead.lf_notMem_append_cr hlf.2, by simp⟩

end Chunk

/-- What JSON counts as white space. -/
def jsonSpace : Bytes := [0x20, 0x09, lf, cr]

/-- A response with `Transfer-Encoding: chunked` and a JSON text for a body, which is not all white
    space. -/
structure ChunkedResponse where
  head : ResponseHead
  chunks : List Chunk
  chunks_ne : chunks ≠ []
  body_json : ∃ b ∈ chunks.flatMap (·.data), b ∉ jsonSpace

namespace ChunkedResponse

/-- The decoded body. -/
def body (r : ChunkedResponse) : Bytes := r.chunks.flatMap (·.data)

/-- What the server sends: the head, the chunks, and a chunk of length zero. -/
def wire (r : ChunkedResponse) : Bytes :=
  r.head.wire ++ r.chunks.flatMap Chunk.wire ++ ascii "0" ++ crlf ++ crlf

/-- The same, as the handler sees it. -/
def lines (r : ChunkedResponse) : List Bytes :=
  r.head.lines ++ (r.chunks.flatMap Chunk.lines ++ [ascii "0" ++ [cr], [cr]])

theorem unlines_chunks (chunks : List Chunk) :
    unlines lf (chunks.flatMap Chunk.lines) = chunks.flatMap Chunk.wire := by
  induction chunks with
  | nil => rfl
  | cons c chunks ih =>
      rw [List.flatMap_cons, List.flatMap_cons, unlines_append, ih, c.wire_eq_unlines]

theorem wire_eq_unlines (r : ChunkedResponse) : r.wire = unlines lf r.lines := by
  rw [wire, lines, unlines_append, unlines_append, unlines_chunks, ← r.head.wire_eq_unlines]
  simp only [List.append_assoc]
  rfl

theorem mem_lines (r : ChunkedResponse) : ∀ line ∈ r.lines, lf ∉ line ∧ line ≠ [] := by
  intro line hline
  rcases List.mem_append.1 hline with hhead | htail
  · exact r.head.mem_lines line hhead
  · rcases List.mem_append.1 htail with hchunk | hend
    · obtain ⟨c, -, hc⟩ := List.mem_flatMap.1 hchunk
      exact c.mem_lines line hc
    · rcases List.mem_pair.1 hend with rfl | rfl
      · exact ⟨by decide, by decide⟩
      · exact ⟨by decide, by decide⟩

/-- The response ends with the delimiter `on_write` waits for. -/
theorem delimiter_suffix (r : ChunkedResponse) :
    RestApiHandler.responseDelimiter <:+ r.wire := by
  obtain ⟨chunks, c, hchunks⟩ := (List.eq_nil_or_concat r.chunks).resolve_left r.chunks_ne
  rw [List.concat_eq_append] at hchunks
  refine ⟨r.head.wire ++ chunks.flatMap Chunk.wire ++ (c.digits ++ c.extension ++ crlf ++ c.data),
    ?_⟩
  simp only [wire, hchunks, Chunk.wire, RestApiHandler.responseDelimiter, List.flatMap_append,
    List.flatMap_singleton, List.append_assoc]

end ChunkedResponse

namespace RestApiHandler

/-- The loop goes through all of a chunked response, to the carriage return at its end. -/
theorem lineLoop_chunked (r : ChunkedResponse) : lineLoop [] r.wire = [cr] := by
  rw [← List.append_nil r.wire, r.wire_eq_unlines, lineLoop_unlines r.mem_lines, lineLoop_nil,
    ChunkedResponse.lines]
  simp

/-- **Of a chunked body nothing is left.** Whatever the head, the chunks and the way the body is
    split into them, `on_read` posts a carriage return, and never the decoded body. -/
theorem onRead_chunked_ne_body (r : ChunkedResponse) :
    responseDelimiter <:+ r.wire ∧ onReadData .success r.wire = [[cr]] ∧
      onReadData .success r.wire ≠ [r.body] := by
  have hposted : onReadData .success r.wire = [[cr]] := by
    rw [onReadData, if_pos (Or.inl rfl), lineLoop_chunked]
  refine ⟨r.delimiter_suffix, hposted, fun hbody => ?_⟩
  have hcr : [cr] = r.body := List.singleton_injective (hposted.symm.trans hbody)
  obtain ⟨b, hb, hspace⟩ := r.body_json
  have hmem : b ∈ [cr] := by
    rw [hcr]
    exact hb
  exact hspace (List.mem_singleton.1 hmem ▸ (by decide : cr ∈ jsonSpace))

/-- The body `{}` in one chunk. -/
def chunkedResponse : ChunkedResponse where
  head := {
    statusLine := ascii "HTTP/1.1 200 OK"
    headers := [ascii "Transfer-Encoding: chunked"]
    header_ne := by decide
    lf_notMem := by decide }
  chunks := [{
    digits := ascii "2"
    extension := []
    data := ascii "{}"
    length_eq := by decide
    digits_ne := by decide
    extension_eq := Or.inl rfl
    data_ne := by decide
    lf_notMem := by decide }]
  chunks_ne := by decide
  body_json := ⟨0x7B, by decide, by decide⟩

/-- The handler posts a carriage return in place of `{}`. -/
theorem onRead_chunkedResponse :
    chunkedResponse.wire = ascii "HTTP/1.1 200 OK" ++ crlf ++ ascii "Transfer-Encoding: chunked" ++
        crlf ++ crlf ++ ascii "2" ++ crlf ++ ascii "{}" ++ crlf ++ ascii "0" ++ crlf ++ crlf ∧
      chunkedResponse.body = ascii "{}" ∧
      onReadData .success chunkedResponse.wire = [[cr]] ∧
      ¬ onReadData .success chunkedResponse.wire = [chunkedResponse.body] := by
  have hposted : onReadData .success chunkedResponse.wire = [[cr]] := by
    rw [onReadData, if_pos (Or.inl rfl), lineLoop_chunked]
  refine ⟨by decide, rfl, hposted, ?_⟩
  rw [hposted]
  decide

end RestApiHandler

end MarketFeed
