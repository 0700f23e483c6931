import Muduo.Base.Decimal
import Muduo.Http.HttpDecode
import Muduo.Http.HttpOutput

/-! # Framing of a response

What `appendToBuffer` writes is a status line, header lines, an empty line and the body. Where the
connection is to be kept, a `Content-Length` line says how many bytes come after the empty line: the
body that `appendToBuffer` writes, and the file that `sendFile` sends behind it.

The line is written through a buffer of 32 bytes, and its number is the size of the file if there is
one. `framed_iff` says for which responses that is right. -/

namespace Muduo

namespace Http

open Net

/-- `File(fileName)`, where `open` and `fstat` find the file with these bytes under this descriptor,
or `open` fails. -/
def openFile : Option (ℕ × Bytes) → File
  | some (fd, content) => ⟨fd, BitVec.ofNat 64 content.length, content⟩
  | none => ⟨-1, 0, []⟩

/-- A line of the header that the callback has added. -/
def headerLine (f : Bytes × Bytes) : Bytes := f.1 ++ COLON :: SP :: f.2

/-- Lines, each ended by `CRLF`. -/
def unlines (lines : List Bytes) : Bytes := lines.flatMap fun line => line ++ [CR, LF]

/-- The line gives a `Content-Length`. -/
def NamesLength (line : Bytes) : Prop :=
  (Delimiter.cut COLON line).map (fun f => normalize f.1) = some (ascii "content-length")

instance (line : Bytes) : Decidable (NamesLength line) := inferInstanceAs (Decidable (_ = _))

namespace HttpResponse

/-- A response that the callback of the server may leave. -/
structure Filled (r : HttpResponse) : Prop where
  status : r.statusCode ≠ .kUnkown
  statusString : OneLine r.statusString
  header : ∀ f ∈ r.header.toList, OneLine f.1 ∧ OneLine f.2
  noLength : ∀ f ∈ r.header.toList, ¬NamesLength (headerLine f)
  body : r.body.length < 2 ^ 63
  file : ∀ file ∈ r.file, ∃ found : Option (ℕ × Bytes),
    file = openFile found ∧ ∀ f ∈ found, f.2.length < 2 ^ 63

/-- The number of bytes that `onRequest` sends after the empty line. -/
def sentAfterHead (r : HttpResponse) : ℕ := (r.body ++ r.file.elim [] fileBytes).length

/-- The first line. -/
def statusLine (r : HttpResponse) : Bytes :=
  ascii "HTTP/1.1 " ++ ascii (toString r.statusCode.toNat) ++ SP :: r.statusString

/-- The line `Content-Length: n` without the number. -/
def lengthName : Bytes := ascii "Content-Length: "

/-- The response is framed: lines, an empty line and the body; and if the connection is kept,
exactly one line announces what comes after the empty line. -/
def Framed (r : HttpResponse) : Prop :=
  ∃ lines : List Bytes,
    (r.appendToBuffer .new).bytes = unlines (r.statusLine :: lines) ++ CR :: LF :: r.body ∧
    (∀ line ∈ r.statusLine :: lines, line ≠ [] ∧ OneLine line) ∧
    (∀ line ∈ lines, COLON ∈ line) ∧
    (r.closeConnection = false → ∃ number : Bytes,
      lines.filter (fun line => NamesLength line) = [lengthName ++ number] ∧
        (∀ c ∈ number, isdigit c = true) ∧ number ≠ [] ∧ decimal number = r.sentAfterHead)

/-- The length that is announced is that of all that is sent, and its line fits the buffer. -/
def Announceable (r : HttpResponse) : Prop :=
  match r.file with
  | some file => r.body = [] ∧ file.fileSize.toNat < 10 ^ 13
  | none => r.body.length < 10 ^ 13

end HttpResponse

/-! ## Lines -/

theorem unlines_cons (line : Bytes) (lines : List Bytes) (s : Bytes) :
    unlines (line :: lines) ++ s = line ++ CR :: LF :: (unlines lines ++ s) := by
  simp [unlines]

theorem unlines_append (lines lines' : List Bytes) :
    unlines (lines ++ lines') = unlines lines ++ unlines lines' := by
  rw [unlines, unlines, unlines, List.flatMap_append]

/-- **Lines up to an empty one are read in one way.** -/
theorem unlines_unique {lines lines' : List Bytes} {s s' : Bytes}
    (h : ∀ line ∈ lines, line ≠ [] ∧ OneLine line) (h' : ∀ line ∈ lines', line ≠ [] ∧ OneLine line)
    (heq : unlines lines ++ CR :: LF :: s = unlines lines' ++ CR :: LF :: s') : lines = lines' := by
  -- where the first line ends
  have hnil (s : Bytes) : Delimiter.findPair CR LF (unlines [] ++ CR :: LF :: s) = some 0 :=
    Delimiter.findPair_self s
  have hcons {line : Bytes} (hline : OneLine line) (lines : List Bytes) (s : Bytes) :
      Delimiter.findPair CR LF (unlines (line :: lines) ++ CR :: LF :: s) = some line.length := by
    rw [unlines_cons]
    exact ByteStream.findPair_of_oneLine hline _
  induction lines generalizing lines' with
  | nil =>
    cases lines' with
    | nil => rfl
    | cons line' lines' =>
      have hline' := h' line' List.mem_cons_self
      have := congrArg (Delimiter.findPair CR LF) heq
      rw [hnil, hcons hline'.2, Option.some_inj] at this
      exact absurd (List.length_eq_zero_iff.mp this.symm) hline'.1
  | cons line lines ih =>
    have hline := h line List.mem_cons_self
    cases lines' with
    | nil =>
      have := congrArg (Delimiter.findPair CR LF) heq
      rw [hnil, hcons hline.2, Option.some_inj] at this
      exact absurd (List.length_eq_zero_iff.mp this) hline.1
    | cons line' lines' =>
      have hline' := h' line' List.mem_cons_self
      have hlen := congrArg (Delimiter.findPair CR LF) heq
      rw [hcons hline.2, hcons hline'.2, Option.some_inj] at hlen
      rw [unlines_cons, unlines_cons] at heq
      obtain ⟨rfl, hrest⟩ := List.append_inj heq hlen
      have htail : unlines lines ++ CR :: LF :: s = unlines lines' ++ CR :: LF :: s' :=
        (List.append_cancel_left_eq [CR, LF] _ _).mp hrest
      rw [ih (fun l hl => h l (List.mem_cons_of_mem _ hl))
        (fun l hl => h' l (List.mem_cons_of_mem _ hl)) htail]

/-! ## What is written -/

namespace HttpResponse

/-- The status line fits its buffer. -/
theorem snprintf_status (code : HttpStatusCode) :
    snprintf 32 (ascii "HTTP/1.1 " ++ ascii (toString code.toNat) ++ [SP]) =
      ascii "HTTP/1.1 " ++ ascii (toString code.toNat) ++ [SP] := by
  cases code <;> decide +kernel

/-- The lines of the header are written one after another. -/
theorem bytes_foldl_appendHeader (b : ByteBuffer) (fields : List (Bytes × Bytes)) :
    (fields.foldl appendHeader b).bytes = b.bytes ++ unlines (fields.map headerLine) := by
  induction fields generalizing b with
  | nil => simp [unlines]
  | cons f fields ih =>
    rw [List.foldl_cons, ih]
    have hcolon : ascii ": " = [COLON, SP] := by decide
    simp [appendHeader, hcolon, unlines, headerLine]

/-- What is written between the status line and the lines of the header. -/
def connectionBytes (r : HttpResponse) : Bytes :=
  if r.closeConnection then ascii "Connection: close" ++ [CR, LF]
  else
    snprintf 32 (lengthName ++ ascii (toString r.size.toInt) ++ [CR, LF]) ++
      (ascii "Connection: Keep-Alive" ++ [CR, LF])

/-- **What `appendToBuffer` writes.** -/
theorem bytes_appendToBuffer (r : HttpResponse) :
    (r.appendToBuffer .new).bytes = r.statusLine ++ CR :: LF :: (r.connectionBytes ++
      (unlines (r.header.toList.map headerLine) ++ CR :: LF :: r.body)) := by
  rw [appendToBuffer]
  simp only [snprintf_status, ByteBuffer.bytes_append, bytes_foldl_appendHeader]
  rw [statusLine, connectionBytes]
  split_ifs with hclose
  · simp
  · simp [lengthName]

/-! ## The lines before the header -/

/-- What `snprintf` leaves of the length line if it does not fit: the number loses digits, and the
line its end. -/
def cutLength (number : Bytes) : Bytes :=
  lengthName ++ ((number ++ [CR]).take 15 ++ ascii "Connection: Keep-Alive")

/-- The lines between the status line and the lines of the header. -/
def connectionLines (r : HttpResponse) : List Bytes :=
  let number := ascii (toString r.size.toInt)
  if r.closeConnection then [ascii "Connection: close"]
  else if number.length ≤ 13 then [lengthName ++ number, ascii "Connection: Keep-Alive"]
  else [cutLength number]

theorem length_lengthName : lengthName.length = 16 := rfl

/-- **A number of fourteen digits does not fit.** -/
theorem snprintf_length (number : Bytes) :
    snprintf 32 (lengthName ++ number ++ [CR, LF]) =
      if number.length ≤ 13 then lengthName ++ number ++ [CR, LF]
      else lengthName ++ (number ++ [CR]).take 15 := by
  have hlen : lengthName.length = 16 := length_lengthName
  rw [snprintf, List.append_assoc, List.take_append, hlen,
    List.take_of_length_le (by rw [hlen]; omega)]
  split_ifs with hle
  · rw [List.take_of_length_le (by simp; omega)]
  · -- the last byte that fits is a digit or the `CR`
    have hsplit : number ++ [CR, LF] = (number ++ [CR]) ++ [LF] := by simp
    rw [hsplit, List.take_append_of_le_length (by simp; omega)]

theorem connectionBytes_eq (r : HttpResponse) : r.connectionBytes = unlines r.connectionLines := by
  rw [connectionBytes, connectionLines, snprintf_length]
  split_ifs <;> simp [unlines, cutLength]

theorem namesLength_lengthName (s : Bytes) : NamesLength (lengthName ++ s) := by
  have hname : normalize (ascii "Content-Length") = ascii "content-length" := by decide +kernel
  have hcolon : COLON ∉ ascii "Content-Length" := by decide
  have hsplit : lengthName = ascii "Content-Length" ++ [COLON, SP] := by decide
  rw [NamesLength, hsplit, List.append_assoc, List.cons_append, Delimiter.cut_append hcolon,
    Option.map_some, hname]

/-- A line without `LF` is one line. -/
theorem oneLine_of_notMem {s : Bytes} (h : LF ∉ s) : OneLine s := by
  rw [oneLine_iff]
  rintro ⟨p, t, rfl⟩
  exact h (by simp)

theorem lf_notMem_of_isdigit {s : Bytes} (h : ∀ c ∈ s, isdigit c = true) : LF ∉ s := fun hmem =>
  absurd (h LF hmem) (by decide)

theorem lf_notMem_cutLength {number : Bytes} (h : ∀ c ∈ number, isdigit c = true) :
    LF ∉ cutLength number := by
  have htake : LF ∉ (number ++ [CR]).take 15 := by
    intro hmem
    rcases List.mem_append.mp (List.mem_of_mem_take hmem) with hd | hcr
    · exact lf_notMem_of_isdigit h hd
    · exact absurd hcr (by decide)
  simp only [cutLength, List.mem_append, not_or]
  exact ⟨by decide, htake, by decide⟩

end HttpResponse

/-- A file has as many bytes as its size says. -/
theorem fileSize_openFile {found : Option (ℕ × Bytes)} (h : ∀ f ∈ found, f.2.length < 2 ^ 63) :
    (openFile found).fileSize.toNat = (fileBytes (openFile found)).length ∧
      (openFile found).fileSize.toNat < 2 ^ 63 := by
  cases found with
  | none => decide
  | some f =>
    have hlt : f.2.length < 2 ^ 63 := h f rfl
    have hsize : (openFile (some f)).fileSize.toNat = f.2.length := by
      rw [openFile, BitVec.toNat_ofNat, Nat.mod_eq_of_lt (by omega)]
    have hfd : ¬(openFile (some f)).fd < 0 := by simp [openFile]
    rw [fileBytes, if_neg hfd, File.content, hsize]
    exact ⟨by simp [openFile], hlt⟩

namespace HttpResponse

variable {r : HttpResponse}

/-- The size that is announced. -/
theorem Filled.size (h : r.Filled) :
    r.size.toNat = r.file.elim r.body.length (fun file => (fileBytes file).length) ∧
      r.size.toInt = r.size.toNat := by
  have hsize : r.size.toNat = r.file.elim r.body.length (fun file => (fileBytes file).length) ∧
      r.size.toNat < 2 ^ 63 := by
    rw [HttpResponse.size]
    cases hfile : r.file with
    | none =>
      have := h.body
      rw [Option.elim_none, BitVec.toNat_ofNat, Nat.mod_eq_of_lt (by omega)]
      exact ⟨rfl, this⟩
    | some file =>
      obtain ⟨found, rfl, hfound⟩ := h.file file hfile
      exact fileSize_openFile hfound
  exact ⟨hsize.1, BitVec.toInt_eq_toNat_of_lt (by omega)⟩

/-- The lines that are written. -/
def lines (r : HttpResponse) : List Bytes := r.connectionLines ++ r.header.toList.map headerLine

/-- **The output is lines, an empty line and the body**, whatever the length line looks like. -/
theorem bytes_eq_unlines (r : HttpResponse) :
    (r.appendToBuffer .new).bytes = unlines (r.statusLine :: r.lines) ++ CR :: LF :: r.body := by
  rw [bytes_appendToBuffer, connectionBytes_eq, unlines_cons, lines, unlines_append,
    List.append_assoc]

theorem Filled.oneLine (h : r.Filled) :
    ∀ line ∈ r.statusLine :: r.lines, line ≠ [] ∧ OneLine line := by
  have hdigits : ∀ c ∈ ascii (toString r.size.toInt), isdigit c = true := by
    rw [h.size.2]
    exact fun c hc => isdigit_of_mem_toString hc
  have hcode : ∀ code : HttpStatusCode,
      OneLine (ascii "HTTP/1.1 " ++ ascii (toString code.toNat)) := by
    intro code
    cases code <;> decide +kernel
  intro line hline
  rcases List.mem_cons.mp hline with rfl | hline
  · exact ⟨by simp [statusLine],
      Delimiter.findPair_append_cons (by decide) (by decide) (hcode _) h.statusString⟩
  rcases List.mem_append.mp hline with hline | hline
  · rw [connectionLines] at hline
    split_ifs at hline
    · rw [List.mem_singleton.mp hline]
      exact ⟨by decide, by decide⟩
    · rcases List.mem_cons.mp hline with rfl | hline
      · refine ⟨by simp [lengthName, ascii], oneLine_of_notMem ?_⟩
        rw [List.mem_append, not_or]
        exact ⟨by decide, lf_notMem_of_isdigit hdigits⟩
      · rw [List.mem_singleton.mp hline]
        exact ⟨by decide, by decide⟩
    · rw [List.mem_singleton.mp hline]
      exact ⟨by simp [cutLength, lengthName, ascii],
        oneLine_of_notMem (lf_notMem_cutLength hdigits)⟩
  · obtain ⟨f, hf, rfl⟩ := List.mem_map.mp hline
    obtain ⟨hk, hv⟩ := h.header f hf
    refine ⟨by simp [headerLine], Delimiter.findPair_append_cons (by decide) (by decide) hk ?_⟩
    exact Delimiter.findPair_append_cons (l := []) (by decide) (by decide) rfl hv

theorem colon_mem_lines (r : HttpResponse) : ∀ line ∈ r.lines, COLON ∈ line := by
  intro line hline
  have hlength (s : Bytes) : COLON ∈ lengthName ++ s := List.mem_append_left _ (by decide)
  rcases List.mem_append.mp hline with hline | hline
  · rw [connectionLines] at hline
    split_ifs at hline
    · rw [List.mem_singleton.mp hline]
      decide
    · rcases List.mem_cons.mp hline with rfl | hline
      · exact hlength _
      · rw [List.mem_singleton.mp hline]
        decide
    · rw [List.mem_singleton.mp hline]
      exact hlength _
  · obtain ⟨f, -, rfl⟩ := List.mem_map.mp hline
    simp [headerLine]

/-- **The lines that give a length**, where the connection is kept: one, whole or cut. -/
theorem Filled.filter_lines (h : r.Filled) (hclose : r.closeConnection = false) :
    r.lines.filter (fun line => NamesLength line) =
      [if r.size.toNat < 10 ^ 13 then lengthName ++ ascii (toString r.size.toInt)
        else cutLength (ascii (toString r.size.toInt))] := by
  have hheader : (r.header.toList.map headerLine).filter (fun line => NamesLength line) = [] := by
    rw [List.filter_eq_nil_iff]
    intro line hline
    obtain ⟨f, hf, rfl⟩ := List.mem_map.mp hline
    simpa using h.noLength f hf
  have hkeep : ¬NamesLength (ascii "Connection: Keep-Alive") := by decide +kernel
  have hfits : (ascii (toString r.size.toInt)).length ≤ 13 ↔ r.size.toNat < 10 ^ 13 := by
    rw [h.size.2]
    exact length_toString_le_iff (by omega)
  rw [lines, List.filter_append, hheader, List.append_nil, connectionLines]
  simp only [hclose, Bool.false_eq_true, if_false]
  by_cases hlt : r.size.toNat < 10 ^ 13
  · rw [if_pos (hfits.mpr hlt), if_pos hlt]
    simp [namesLength_lengthName, hkeep]
  · rw [if_neg fun hle => hlt (hfits.mp hle), if_neg hlt]
    simp [cutLength, namesLength_lengthName]

/-- The announced size is what is sent if there is no file, or no body in front of it. -/
theorem Filled.announceable_iff (h : r.Filled) :
    r.Announceable ↔ r.size.toNat < 10 ^ 13 ∧ r.size.toNat = r.sentAfterHead := by
  have hsize := h.size.1
  rw [Announceable, sentAfterHead]
  cases hfile : r.file with
  | none =>
    rw [hfile, Option.elim_none] at hsize
    simp [hsize]
  | some file =>
    rw [hfile, Option.elim_some] at hsize
    have hsize' : r.size = file.fileSize := by rw [HttpResponse.size, hfile]
    change r.body = [] ∧ file.fileSize.toNat < 10 ^ 13 ↔ _
    rw [← hsize', Option.elim_some, List.length_append, hsize, and_comm, and_congr_right_iff]
    intro _
    rw [← List.length_eq_zero_iff]
    omega

/-- A framed response whose connection is kept announces what is sent. -/
theorem Filled.announceable_of_framed (h : r.Filled) (hf : r.Framed)
    (hclose : r.closeConnection = false) : r.Announceable := by
  rw [h.announceable_iff]
  obtain ⟨lines, hbytes, hline, -, hlength⟩ := hf
  obtain ⟨number, hfilter, hdigits, -, hvalue⟩ := hlength hclose
  have heq := unlines_unique hline h.oneLine (hbytes.symm.trans r.bytes_eq_unlines)
  rw [(List.cons.inj heq).2, h.filter_lines hclose, List.singleton_inj] at hfilter
  by_cases hlt : r.size.toNat < 10 ^ 13
  · rw [if_pos hlt] at hfilter
    have hnumber := List.append_cancel_left hfilter
    rw [← hnumber, h.size.2, decimal_toString] at hvalue
    exact ⟨hlt, hvalue⟩
  · -- a line that was cut goes on with the next one
    rw [if_neg hlt, cutLength] at hfilter
    have hnumber := List.append_cancel_left hfilter
    have hmem : (67 : UInt8) ∈ number := by
      rw [← hnumber]
      exact List.mem_append_right _ (by decide)
    exact absurd (hdigits 67 hmem) (by decide)

/-- **When a response is framed.** Whatever status string, header, body and file: the output is
always lines, an empty line and the body; and the length is announced right if and only if the
connection is to be closed, or the response has no body beside a file and the size of the body or
file has at most thirteen digits. -/
theorem framed_iff (h : r.Filled) : r.Framed ↔ r.closeConnection = true ∨ r.Announceable := by
  constructor
  · intro hf
    by_cases hclose : r.closeConnection = true
    · exact .inl hclose
    · exact .inr (h.announceable_of_framed hf (Bool.eq_false_iff.mpr hclose))
  · intro hcase
    refine ⟨r.lines, r.bytes_eq_unlines, h.oneLine, r.colon_mem_lines, fun hclose => ?_⟩
    obtain ⟨hlt, hvalue⟩ := h.announceable_iff.mp (hcase.resolve_left (by simp [hclose]))
    refine ⟨ascii (toString r.size.toInt), ?_, ?_, ?_, ?_⟩
    · rw [h.filter_lines hclose, if_pos hlt]
    · rw [h.size.2]
      exact fun c hc => isdigit_of_mem_toString hc
    · rw [h.size.2]
      exact toString_ne_nil _
    · rw [h.size.2, decimal_toString, hvalue]

/-- `200 OK` with a body, and a file if `found` is one. -/
def okResponse (body : Bytes) (file : Option File) : HttpResponse :=
  { new false with statusCode := .k200Ok, statusString := ascii "OK", body := body, file := file }

theorem filled_okResponse {body : Bytes} {file : Option File} (hbody : body.length < 2 ^ 63)
    (hfile : ∀ f ∈ file, ∃ found : Option (ℕ × Bytes),
      f = openFile found ∧ ∀ o ∈ found, o.2.length < 2 ^ 63) : (okResponse body file).Filled := by
  have hempty : (okResponse body file).header.toList = [] := rfl
  refine ⟨nofun, (by decide : OneLine (ascii "OK")), ?_, ?_, hbody, hfile⟩
  · rw [hempty]
    nofun
  · rw [hempty]
    nofun

/-- The theorem at work. -/
theorem framed_iff_okResponse : (okResponse (ascii "hello") none).Framed :=
  (framed_iff (filled_okResponse (by decide) (by simp))).mpr
    (.inr (show (ascii "hello").length < 10 ^ 13 by decide))

/-- **A body in front of a file is not counted.** -/
theorem not_framed_body_file : ¬∀ r : HttpResponse, r.Filled → r.Framed := by
  intro hall
  have hfilled : (okResponse (ascii "x") (some (openFile (some (5, ascii "abc"))))).Filled :=
    filled_okResponse (by decide) fun f hf =>
      ⟨some (5, ascii "abc"), (Option.mem_some_iff.mp hf).symm, by simp; decide⟩
  have h := hfilled.announceable_of_framed (hall _ hfilled) rfl
  exact absurd h.1 (by decide)

end HttpResponse

end Http

end Muduo
