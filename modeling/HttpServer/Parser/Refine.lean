import HttpServer.Parser.Scan

set_option autoImplicit false

/-! # The state machine refines the scanner

`Agrees req₀ p req s` relates a parser `p` filling the request `req` to a scanner state `s`:
each buffer of the C structures holds the corresponding token below its cursor. The relation
is indexed by the request `req₀` the parser was initialised on, because `http_parser_init`
does not clear the request: the header rows and the query string of `req₀` stay where they
are until they are overwritten.

`feedByte_matches` is the step of the simulation and `feedLoop_matches` the run.
-/

namespace HttpServer

open CLib

/-! ## Buffers and cursors -/

section Buffers

variable {n : Nat}

/-- The cells of `buf` below the cursor `pos` hold `l`. -/
def Cursor (buf : CArray UInt8 n) (pos : Nat) (l : List UInt8) : Prop :=
  pos = l.length ∧ buf.elems.take l.length = l

theorem Cursor.nil (buf : CArray UInt8 n) : Cursor buf 0 [] := ⟨rfl, rfl⟩

/-- A write at a cursor inside the array extends what the buffer holds. -/
theorem Cursor.store {buf : CArray UInt8 n} {pos : Nat} {l : List UInt8} (h : Cursor buf pos l)
    (c : UInt8) (hlt : l.length < n) :
    ∃ buf', store buf pos c = .ok buf' ∧ buf'.elems.take (l.length + 1) = l ++ [c] := by
  obtain ⟨hpos, htake⟩ := h
  obtain ⟨buf', hw, he⟩ := buf.write_of_lt c hlt
  refine ⟨buf', ?_, ?_⟩
  · rw [hpos]; simp only [HttpServer.store, hw]
  · rw [he, buf.take_set_succ c hlt, htake]

theorem Cursor.push {buf : CArray UInt8 n} {pos : Nat} {l : List UInt8} (h : Cursor buf pos l)
    (c : UInt8) (hlt : l.length < n) :
    ∃ buf', HttpServer.store buf pos c = .ok buf' ∧ Cursor buf' (pos + 1) (l ++ [c]) := by
  obtain ⟨buf', hs, ht⟩ := h.store c hlt
  refine ⟨buf', hs, ?_, ?_⟩
  · rw [List.length_append, h.1]; rfl
  · rw [List.length_append]; exact ht

/-- A zero written at the cursor terminates the string. -/
theorem Cursor.terminate {buf : CArray UInt8 n} {pos : Nat} {l : List UInt8}
    (h : Cursor buf pos l) (hlt : l.length < n) :
    ∃ buf', HttpServer.store buf pos 0 = .ok buf' ∧ buf'.str = cstr l := by
  obtain ⟨buf', hs, ht⟩ := h.store 0 hlt
  exact ⟨buf', hs, buf'.str_of_terminated ht⟩

end Buffers

/-! ## The current header row -/

/-- The row of the header being read starts with `l`. -/
def RowHolds (req : HttpRequest) (l : List UInt8) : Prop :=
  ∃ row, req.headers.elems[req.numHeaders]? = some row ∧ row.elems.take l.length = l

theorem RowHolds.nil {req : HttpRequest} (h : req.numHeaders < maxHeaders) : RowHolds req [] := by
  have hlen : req.numHeaders < req.headers.elems.length := by rw [req.headers.size_eq]; exact h
  exact ⟨_, List.getElem?_eq_getElem hlen, rfl⟩

theorem RowHolds.lt {req : HttpRequest} {l : List UInt8} (h : RowHolds req l) :
    req.numHeaders < maxHeaders := by
  obtain ⟨row, hrow, -⟩ := h
  have := (List.getElem?_eq_some_iff.mp hrow).1
  rwa [req.headers.size_eq] at this

theorem RowHolds.row {req : HttpRequest} {l : List UInt8} (h : RowHolds req l) :
    ∃ row, req.row = .ok row ∧ row.elems.take l.length = l := by
  obtain ⟨row, hrow, htake⟩ := h
  exact ⟨row, by simp only [HttpRequest.row, hrow], htake⟩

/-- A write right after what the current row holds: it changes the header table only, and
of it only the current row. -/
theorem RowHolds.store {req : HttpRequest} {l : List UInt8} (h : RowHolds req l) (c : UInt8)
    (hlt : l.length < headerSize) :
    ∃ headers', req.storeHeader l.length c = .ok { req with headers := headers' } ∧
      RowHolds { req with headers := headers' } (l ++ [c]) ∧
      headers'.elems.take req.numHeaders = req.headers.elems.take req.numHeaders := by
  have hnum := h.lt
  obtain ⟨row, hrow, htake⟩ := h
  obtain ⟨row', hs, ht⟩ := Cursor.store ⟨rfl, htake⟩ c hlt
  obtain ⟨headers', hw, he⟩ := req.headers.write_of_lt row' hnum
  refine ⟨headers', ?_, ⟨row', ?_, ?_⟩, ?_⟩
  · simp only [HttpRequest.storeHeader, HttpRequest.row, hrow, hs, hw, Except.bind, bind]
  · show headers'.elems[req.numHeaders]? = some row'
    rw [he, List.getElem?_set_self]
    rw [req.headers.size_eq]; exact hnum
  · rw [List.length_append]; exact ht
  · rw [he]; exact req.headers.take_set_of_le row' (Nat.le_refl _)

theorem RowHolds.store_column {req : HttpRequest} {l : List UInt8} (h : RowHolds req l) (c : UInt8)
    (hge : headerSize ≤ l.length) : req.storeHeader l.length c = .error .column := by
  obtain ⟨row, hrow, -⟩ := h
  have hnone : row.write l.length c = none := (row.write_eq_none c).mpr hge
  simp only [HttpRequest.storeHeader, HttpRequest.row, hrow, HttpServer.store, hnone, Except.bind,
    bind]

theorem storeHeader_row {req : HttpRequest} (i : Nat) (c : UInt8) (h : maxHeaders ≤ req.numHeaders) :
    req.storeHeader i c = .error .row := by
  have hnone : req.headers.elems[req.numHeaders]? = none := by
    rw [List.getElem?_eq_none_iff, req.headers.size_eq]; exact h
  simp only [HttpRequest.storeHeader, HttpRequest.row, hnone, Except.bind, bind]

/-! ## The relation -/

/-- The header row the parser stores for a line: name, colon, space, value. -/
def HeaderLine.stored (h : HeaderLine) : List UInt8 := h.name ++ [COLON, SP] ++ h.value

theorem stored_length (nm v : List UInt8) :
    (nm ++ [COLON, SP] ++ v).length = nm.length + 2 + v.length := by
  simp only [List.length_append, List.length_cons, List.length_nil]

def isHostName (nm : List UInt8) : Bool := decide (nm.map lower = ascii "host")

def HeaderLine.isHost (h : HeaderLine) : Bool := isHostName h.name

/-- What the request line leaves in the request. A head without a query leaves the query
string of the request the parser was initialised on. -/
structure Started (req₀ req : HttpRequest) (st : Start) : Prop where
  method : req.method = methodFromToken (cstr st.method)
  path : req.path.str = cstr st.path
  query : req.queryString.str =
    match st.query with
    | none => req₀.queryString.str
    | some q => cstr q

/-- What a request line and some headers leave in the request. -/
structure Filling (req₀ req : HttpRequest) (l : RequestLine) (hs : List HeaderLine) : Prop where
  started : Started req₀ req l.start
  version : req.version.str = cstr l.version
  num : req.numHeaders = req₀.numHeaders + hs.length
  list : req.headerList = req₀.headerList ++ hs.map (fun h => cstr h.stored)

/-- A complete head in the request. -/
structure Filled (req₀ : HttpRequest) (h : Head) (req : HttpRequest) : Prop where
  filling : Filling req₀ req h.line h.headers
  keepAlive : req.keepAlive = req.headerList.foldl connectionOverride
    (decide (cstr h.line.version = ascii "HTTP/1.1"))
  parsed : req.parsed = true

def AgreesAt (req₀ : HttpRequest) (p : HttpParser) (req : HttpRequest) : Scan → Prop
  | .method m =>
      p.state = .method ∧ p.hostSeen = false ∧ m.length ≤ 15 ∧
      Cursor p.methodTmp p.methodLen m ∧ req = req₀
  | .path m _ pth =>
      p.state = .path ∧ p.hostSeen = false ∧ pth.length ≤ 4095 ∧ Cursor req.path p.pathPos pth ∧
      req = { req₀ with method := methodFromToken (cstr m), path := req.path }
  | .query m _ pth q =>
      p.state = .query ∧ p.hostSeen = false ∧ q.length ≤ 4095 ∧
      Cursor req.queryString p.queryPos q ∧ req.path.str = cstr pth ∧
      req = { req₀ with
        method := methodFromToken (cstr m), path := req.path, queryString := req.queryString }
  | .version st v =>
      p.state = .version ∧ p.hostSeen = false ∧ v.length ≤ 15 ∧ Cursor req.version p.versionPos v ∧
      Started req₀ req st ∧ req.numHeaders = req₀.numHeaders ∧ req.headers = req₀.headers
  | .versionCr st v =>
      p.state = .versionCr ∧ p.hostSeen = false ∧ v.length ≤ 15 ∧
      Cursor req.version p.versionPos v ∧
      Started req₀ req st ∧ req.numHeaders = req₀.numHeaders ∧ req.headers = req₀.headers
  | .name l hs nm =>
      p.state = .headerName ∧ p.hostSeen = hs.any HeaderLine.isHost ∧ Filling req₀ req l hs ∧
      nm.length ≤ 255 ∧ p.nameLen = nm.length ∧ (nm ≠ [] → RowHolds req nm)
  | .nameCr l hs =>
      p.state = .headerNameCr ∧ p.hostSeen = hs.any HeaderLine.isHost ∧ Filling req₀ req l hs
  | .value l hs nm _ v =>
      p.state = .headerValue ∧ p.hostSeen = (hs.any HeaderLine.isHost || isHostName nm) ∧
      Filling req₀ req l hs ∧ p.valuePos = nm.length + 2 ∧ p.valueLen = v.length ∧
      RowHolds req (nm ++ [COLON, SP] ++ v)
  | .valueCr l hs nm _ v =>
      p.state = .headerValueCr ∧ p.hostSeen = (hs.any HeaderLine.isHost || isHostName nm) ∧
      Filling req₀ req l hs ∧ p.valuePos = nm.length + 2 ∧ p.valueLen = v.length ∧
      RowHolds req (nm ++ [COLON, SP] ++ v)

def Agrees (req₀ : HttpRequest) (p : HttpParser) (req : HttpRequest) (s : Scan) : Prop :=
  p.done = false ∧ AgreesAt req₀ p req s

/-- The rule on `Host`: it is checked where the blank line is CRLF. -/
def Head.hostOk (h : Head) : Bool :=
  h.blank = .lf || h.headers.any HeaderLine.isHost ||
    !decide (cstr h.line.version = ascii "HTTP/1.1")

/-- The outcome of a byte in the machine matches the outcome in the scanner. -/
def Matches (req₀ : HttpRequest) (r : FeedStep) : ScanStep → Prop
  | .more s => ∃ p req, r = next p req ∧ Agrees req₀ p req s
  | .head h =>
      if h.hostOk then ∃ p req, r = ret .done p req ∧ p.done = true ∧ Filled req₀ h req
      else ∃ p req, r = ret .error p req
  | .reject => ∃ p req, r = ret .error p req
  | .fault f => r = .error f

theorem agrees_init (req₀ : HttpRequest) : Agrees req₀ httpParserInit req₀ (.method []) :=
  ⟨rfl, rfl, rfl, Nat.zero_le _, Cursor.nil _, rfl⟩

/-! ## One byte, state by state -/

section Step

variable {req₀ req : HttpRequest} {p : HttpParser} {rows : Nat}

theorem ret_error (p : HttpParser) (req : HttpRequest) :
    ∃ p' req', ret .error p req = ret .error p' req' :=
  ⟨p, req, rfl⟩

theorem feedMethod_matches {m : List UInt8} (h : Agrees req₀ p req (.method m)) (c : UInt8) :
    Matches req₀ (feedMethod p req c) (Scan.step rows (.method m) c) := by
  obtain ⟨hd, hst, hh, hlen, hcur, rfl⟩ := h
  have hpos : p.methodLen = m.length := hcur.1
  simp only [Scan.step, feedMethod]
  by_cases hb : IsBlank c
  · rw [if_pos hb, if_pos (show c = SP ∨ c = TAB from hb)]
    by_cases hm : m = []
    · rw [if_pos hm, if_pos (by rw [hpos, hm]; rfl)]
      exact ret_error p req
    · rw [if_neg hm, if_neg (by rw [hpos]; simpa using hm)]
      obtain ⟨tmp, hs, hstr⟩ := hcur.terminate (by unfold methodSize; omega)
      rw [hs]
      exact ⟨_, _, rfl, hd, rfl, hh, Nat.zero_le _, Cursor.nil _, by rw [hstr]⟩
  · rw [if_neg hb, if_neg (show ¬ (c = SP ∨ c = TAB) from hb)]
    by_cases hk : IsBreak c
    · rw [if_pos hk, if_pos (show c = CR ∨ c = LF from hk)]
      exact ret_error p req
    · rw [if_neg hk, if_neg (show ¬ (c = CR ∨ c = LF) from hk)]
      by_cases hl : m.length < 15
      · rw [if_pos hl, if_pos (show p.methodLen < methodSize - 1 by rw [hpos]; exact hl)]
        obtain ⟨tmp, hs, hc⟩ := hcur.push c (by unfold methodSize; omega)
        rw [hs]
        exact ⟨_, _, rfl, hd, hst, hh, by rw [List.length_append]; exact hl, hc, rfl⟩
      · rw [if_neg hl, if_neg (show ¬ p.methodLen < methodSize - 1 by rw [hpos]; exact hl)]
        exact ret_error p req

theorem feedPath_matches {m pth : List UInt8} {sp : UInt8} (h : Agrees req₀ p req (.path m sp pth))
    (c : UInt8) : Matches req₀ (feedPath p req c) (Scan.step rows (.path m sp pth) c) := by
  obtain ⟨hd, hst, hh, hlen, hcur, hreq⟩ := h
  have hpos : p.pathPos = pth.length := hcur.1
  have hin : pth.length < maxPath := by unfold maxPath; omega
  simp only [Scan.step, feedPath]
  -- a blank or a `?` ends the path and writes its terminator
  by_cases hb : IsBlank c
  · rw [if_pos hb, if_pos (show c = SP ∨ c = TAB from hb)]
    by_cases hm : pth = []
    · rw [if_pos hm, if_pos (by rw [hpos, hm]; rfl)]
      exact ret_error p req
    · rw [if_neg hm, if_neg (by rw [hpos]; simpa using hm)]
      obtain ⟨buf, hs, hstr⟩ := hcur.terminate hin
      rw [hs]
      refine ⟨_, _, rfl, hd, rfl, hh, Nat.zero_le _, Cursor.nil _, ⟨?_, hstr, ?_⟩, ?_, ?_⟩
      all_goals rw [hreq]
  · rw [if_neg hb, if_neg (show ¬ (c = SP ∨ c = TAB) from hb)]
    by_cases hq : c = QMARK
    · rw [if_pos hq, if_pos hq]
      obtain ⟨buf, hs, hstr⟩ := hcur.terminate hin
      rw [hs]
      refine ⟨_, _, rfl, hd, rfl, hh, Nat.zero_le _, Cursor.nil _, hstr, ?_⟩
      rw [hreq]
    · rw [if_neg hq, if_neg hq]
      by_cases hk : IsBreak c
      · rw [if_pos hk, if_pos (show c = CR ∨ c = LF from hk)]
        exact ret_error p req
      · rw [if_neg hk, if_neg (show ¬ (c = CR ∨ c = LF) from hk)]
        -- the last byte of the buffer is left for the terminator
        by_cases hl : pth.length < 4095
        · rw [if_pos hl, if_pos (show p.pathPos < maxPath - 1 by rw [hpos]; exact hl)]
          obtain ⟨buf, hs, hc⟩ := hcur.push c hin
          rw [hs]
          refine ⟨_, _, rfl, hd, hst, hh, by rw [List.length_append]; exact hl, hc, ?_⟩
          rw [hreq]
        · rw [if_neg hl, if_neg (show ¬ p.pathPos < maxPath - 1 by rw [hpos]; exact hl)]
          exact ret_error p req

theorem feedQuery_matches {m pth q : List UInt8} {sp : UInt8}
    (h : Agrees req₀ p req (.query m sp pth q)) (c : UInt8) :
    Matches req₀ (feedQuery p req c) (Scan.step rows (.query m sp pth q) c) := by
  obtain ⟨hd, hst, hh, hlen, hcur, hpath, hreq⟩ := h
  have hpos : p.queryPos = q.length := hcur.1
  have hin : q.length < maxPath := by unfold maxPath; omega
  simp only [Scan.step, feedQuery]
  by_cases hb : IsBlank c
  · rw [if_pos hb, if_pos (show c = SP ∨ c = TAB from hb)]
    obtain ⟨buf, hs, hstr⟩ := hcur.terminate hin
    rw [hs]
    refine ⟨_, _, rfl, hd, rfl, hh, Nat.zero_le _, Cursor.nil _, ⟨?_, hpath, hstr⟩, ?_, ?_⟩
    all_goals rw [hreq]
  · rw [if_neg hb, if_neg (show ¬ (c = SP ∨ c = TAB) from hb)]
    by_cases hk : IsBreak c
    · rw [if_pos hk, if_pos (show c = CR ∨ c = LF from hk)]
      exact ret_error p req
    · rw [if_neg hk, if_neg (show ¬ (c = CR ∨ c = LF) from hk)]
      by_cases hl : q.length < 4095
      · rw [if_pos hl, if_pos (show p.queryPos < maxPath - 1 by rw [hpos]; exact hl)]
        obtain ⟨buf, hs, hc⟩ := hcur.push c hin
        rw [hs]
        refine ⟨_, _, rfl, hd, hst, hh, by rw [List.length_append]; exact hl, hc, hpath, ?_⟩
        rw [hreq]
      · rw [if_neg hl, if_neg (show ¬ p.queryPos < maxPath - 1 by rw [hpos]; exact hl)]
        exact ret_error p req

/-- The end of the request line starts an empty list of headers. -/
theorem endVersion_matches {st : Start} {v : List UInt8} (hd : p.done = false)
    (hh : p.hostSeen = false) (hlen : v.length ≤ 15) (hcur : Cursor req.version p.versionPos v)
    (hst : Started req₀ req st) (hnum : req.numHeaders = req₀.numHeaders)
    (hhd : req.headers = req₀.headers) (e : Eol) :
    Matches req₀ (endVersion p req) (.more (.name ⟨st, v, e⟩ [] [])) := by
  obtain ⟨buf, hs, hstr⟩ := hcur.terminate (by unfold verSize; omega)
  simp only [endVersion, hs]
  refine ⟨_, _, rfl, hd, rfl, hh, ⟨⟨hst.method, hst.path, hst.query⟩, hstr, hnum, ?_⟩,
    Nat.zero_le _, rfl, fun h => absurd rfl h⟩
  simp only [HttpRequest.headerList, hnum, hhd, List.map_nil, List.append_nil]

theorem feedVersion_matches {st : Start} {v : List UInt8} (h : Agrees req₀ p req (.version st v))
    (c : UInt8) : Matches req₀ (feedVersion p req c) (Scan.step rows (.version st v) c) := by
  obtain ⟨hd, hstate, hh, hlen, hcur, hst, hnum, hhd⟩ := h
  have hpos : p.versionPos = v.length := hcur.1
  simp only [Scan.step, feedVersion]
  by_cases hcr : c = CR
  · rw [if_pos hcr, if_pos hcr]
    exact ⟨_, _, rfl, hd, rfl, hh, hlen, hcur, hst, hnum, hhd⟩
  · rw [if_neg hcr, if_neg hcr]
    by_cases hlf : c = LF
    · rw [if_pos hlf, if_pos hlf]
      exact endVersion_matches hd hh hlen hcur hst hnum hhd .lf
    · rw [if_neg hlf, if_neg hlf]
      by_cases hl : v.length < 15
      · rw [if_pos hl, if_pos (show p.versionPos < verSize - 1 by rw [hpos]; exact hl)]
        obtain ⟨buf, hs, hc⟩ := hcur.push c (by unfold verSize; omega)
        rw [hs]
        exact ⟨_, _, rfl, hd, hstate, hh, by rw [List.length_append]; exact hl, hc,
          ⟨hst.method, hst.path, hst.query⟩, hnum, hhd⟩
      · rw [if_neg hl, if_neg (show ¬ p.versionPos < verSize - 1 by rw [hpos]; exact hl)]
        exact ret_error p req

theorem feedVersionCr_matches {st : Start} {v : List UInt8}
    (h : Agrees req₀ p req (.versionCr st v)) (c : UInt8) :
    Matches req₀ (feedVersionCr p req c) (Scan.step rows (.versionCr st v) c) := by
  obtain ⟨hd, -, hh, hlen, hcur, hst, hnum, hhd⟩ := h
  simp only [Scan.step, feedVersionCr]
  by_cases hlf : c = LF
  · rw [if_pos hlf, if_pos hlf]
    exact endVersion_matches hd hh hlen hcur hst hnum hhd .crlf
  · rw [if_neg hlf, if_neg hlf]
    exact ret_error p req

/-- A blank line finalizes the request. -/
theorem finish_matches {l : RequestLine} {hs : List HeaderLine} (hf : Filling req₀ req l hs)
    (e : Eol) (hok : (Head.mk l hs e).hostOk = true) :
    Matches req₀ (finish p req) (.head ⟨l, hs, e⟩) := by
  rw [Matches, if_pos hok]
  exact ⟨_, _, rfl, rfl, ⟨⟨hf.started.method, hf.started.path, hf.started.query⟩, hf.version,
    hf.num, hf.list⟩, by simp only [parserFinalize, hf.version]; rfl, rfl⟩

/-- Bytes written after what the rows before the current one hold leave these rows. -/
theorem Filling.storeHeader {l : RequestLine} {hs : List HeaderLine} (hf : Filling req₀ req l hs)
    {headers' : CArray (CArray UInt8 headerSize) maxHeaders}
    (ht : headers'.elems.take req.numHeaders = req.headers.elems.take req.numHeaders) :
    Filling req₀ { req with headers := headers' } l hs where
  started := ⟨hf.started.method, hf.started.path, hf.started.query⟩
  version := hf.version
  num := hf.num
  list := by
    rw [← hf.list]
    simp only [HttpRequest.headerList, ht]

theorem isHostName_eq {nm : List UInt8} {row : CArray UInt8 headerSize}
    (hrow : row.elems.take nm.length = nm) :
    (strncaseeq row.str (ascii "host") 4 && decide (nm.length = 4)) = isHostName nm := by
  have hsplit : row.elems = nm ++ row.elems.drop nm.length := by
    conv_lhs => rw [← List.take_append_drop nm.length row.elems, hrow]
  by_cases hlen : nm.length = 4
  · rw [decide_eq_true hlen, Bool.and_true, CArray.str, hsplit]
    by_cases h0 : (0 : UInt8) ∈ nm
    · -- a zero in the name ends the C string before its fourth byte
      obtain ⟨a, b, rfl⟩ := List.append_of_mem h0
      have hshort : (cstr a).length < 4 := by
        have := cstr_length_le a
        rw [List.length_append, List.length_cons] at hlen
        omega
      rw [List.append_assoc, List.cons_append, cstr_append_zero,
        show isHostName (a ++ 0 :: b) = false from ?_]
      · rw [strncaseeq, beq_eq_false_iff_ne]
        intro heq
        have := congrArg List.length heq
        rw [List.length_map, List.length_take, show ((ascii "host").take 4).map lower
          = ascii "host" by decide, show (ascii "host").length = 4 by decide] at this
        omega
      · simp only [isHostName, decide_eq_false_iff_not]
        intro heq
        have : (0 : UInt8) ∈ ascii "host" := by
          rw [← heq]
          exact List.mem_map.mpr ⟨0, by simp, rfl⟩
        exact absurd this (by decide)
    -- without a zero the row begins with the name itself
    · rw [cstr_append h0, strncaseeq, ← hlen, List.take_left, isHostName, hlen,
        show ((ascii "host").take 4).map lower = ascii "host" by decide]
      exact beq_eq_decide _ _
  · have hne : isHostName nm = false := by
      simp only [isHostName, decide_eq_false_iff_not]
      intro heq
      have := congrArg List.length heq
      rw [List.length_map, show (ascii "host").length = 4 by decide] at this
      exact hlen this
    rw [hne, decide_eq_false hlen, Bool.and_false]

/-- The colon after a name: the separator is stored if the row has room for it. -/
theorem feedColon_matches {l : RequestLine} {hs : List HeaderLine} {nm : List UInt8}
    (hd : p.done = false) (hh : p.hostSeen = hs.any HeaderLine.isHost)
    (hf : Filling req₀ req l hs) (hlen : nm.length ≤ 255) (hpos : p.nameLen = nm.length)
    (hrow : RowHolds req nm) :
    Matches req₀
      (do
        let row ← req.row
        let host := strncaseeq row.str (ascii "host") 4 && decide (p.nameLen = 4)
        let req1 ← req.storeHeader p.nameLen COLON
        let req2 ← req1.storeHeader (p.nameLen + 1) SP
        next { p with
            hostSeen := p.hostSeen || host
            valuePos := p.nameLen + 2
            valueLen := 0
            state := .headerValue } req2)
      (if nm.length + 1 < headerSize then .more (.value l hs nm [] []) else .fault .column) := by
  obtain ⟨row, hr, htake⟩ := hrow.row
  obtain ⟨headers1, hs1, hr1, ht1⟩ := hrow.store COLON (by unfold headerSize; omega)
  have hlen1 : (nm ++ [COLON]).length = nm.length + 1 := by rw [List.length_append]; rfl
  simp only [hpos, hr, hs1, isHostName_eq htake, bind, Except.bind]
  -- the blank behind the colon may be the first byte past the row
  by_cases h2 : nm.length + 1 < headerSize
  · obtain ⟨headers2, hs2, hr2, ht2⟩ := hr1.store SP (by rw [hlen1]; exact h2)
    rw [hlen1] at hs2
    rw [if_pos h2]
    simp only [hs2]
    refine ⟨_, _, rfl, hd, rfl, by rw [hh], (hf.storeHeader ht1).storeHeader ht2, rfl, rfl, ?_⟩
    rw [List.append_nil]
    simpa using hr2
  · have hs2 := hr1.store_column SP (by rw [hlen1]; omega)
    rw [hlen1] at hs2
    rw [if_neg h2]
    simp only [hs2]
    rfl

theorem feedHeaderName_matches {l : RequestLine} {hs : List HeaderLine} {nm : List UInt8}
    (hrows : rows = maxHeaders - req₀.numHeaders)
    (h : Agrees req₀ p req (.name l hs nm)) (c : UInt8) :
    Matches req₀ (feedHeaderName p req c) (Scan.step rows (.name l hs nm) c) := by
  obtain ⟨hd, hstate, hh, hf, hlen, hpos, hrow⟩ := h
  have hnil : p.nameLen = 0 ↔ nm = [] := by rw [hpos]; exact List.length_eq_zero_iff
  simp only [Scan.step, feedHeaderName, hnil]
  -- both sides test the byte in the order of the source
  by_cases hcr : c = CR
  · rw [if_pos hcr, if_pos hcr]
    by_cases hn : nm = []
    · rw [if_pos hn, if_pos hn]
      exact ⟨_, _, rfl, hd, rfl, hh, hf⟩
    · rw [if_neg hn, if_neg hn]
      exact ret_error p req
  · rw [if_neg hcr, if_neg hcr]
    by_cases hlf : c = LF
    · rw [if_pos hlf, if_pos hlf]
      by_cases hn : nm = []
      · rw [if_pos hn, if_pos hn]
        exact finish_matches hf .lf (by simp [Head.hostOk])
      · rw [if_neg hn, if_neg hn]
        exact ret_error p req
    · rw [if_neg hlf, if_neg hlf]
      by_cases hco : c = COLON
      · rw [if_pos hco, if_pos hco]
        by_cases hn : nm = []
        · rw [if_pos hn, if_pos hn]
          exact ret_error p req
        · rw [if_neg hn, if_neg hn]
          exact feedColon_matches hd hh hf hlen hpos (hrow hn)
      · rw [if_neg hco, if_neg hco]
        by_cases hl : nm.length < 255
        · rw [if_pos hl, if_pos (show p.nameLen < 255 by rw [hpos]; exact hl)]
          have hnum := hf.num
          by_cases hr : hs.length < rows
          · rw [if_pos hr]
            -- the first byte of a name begins a row, the others go on with it
            have hrow' : RowHolds req nm := by
              by_cases hn : nm = []
              · rw [hn]; exact RowHolds.nil (by omega)
              · exact hrow hn
            obtain ⟨headers', hs', hr', ht'⟩ := hrow'.store c (by unfold headerSize; omega)
            rw [hpos, hs']
            exact ⟨_, _, rfl, hd, hstate, hh, hf.storeHeader ht', by rw [List.length_append]; exact hl,
              by rw [List.length_append]; rfl, fun _ => hr'⟩
          · rw [if_neg hr, storeHeader_row _ _ (by omega)]
            rfl
        · rw [if_neg hl, if_neg (show ¬ p.nameLen < 255 by rw [hpos]; exact hl)]
          exact ret_error p req

theorem feedHeaderNameCr_matches {l : RequestLine} {hs : List HeaderLine}
    (h : Agrees req₀ p req (.nameCr l hs)) (c : UInt8) :
    Matches req₀ (feedHeaderNameCr p req c) (Scan.step rows (.nameCr l hs) c) := by
  obtain ⟨hd, hstate, hh, hf⟩ := h
  simp only [Scan.step, feedHeaderNameCr]
  by_cases hlf : c = LF
  · rw [if_pos hlf, if_pos hlf, hh, hf.version]
    rw [show (!hs.any HeaderLine.isHost && decide (cstr l.version = ascii "HTTP/1.1"))
      = !(Head.mk l hs .crlf).hostOk by simp [Head.hostOk]]
    by_cases hok : (Head.mk l hs .crlf).hostOk = true
    · rw [if_neg (by simp [hok])]
      exact finish_matches hf .crlf hok
    · rw [if_pos (by simpa using hok), Matches, if_neg hok]
      exact ret_error p req
  · rw [if_neg hlf, if_neg hlf]
    exact ret_error p req

/-- The end of a header line counts the row, if it has room for the terminating zero. -/
theorem endHeader_matches {l : RequestLine} {hs : List HeaderLine} {nm ows v : List UInt8}
    (hd : p.done = false) (hh : p.hostSeen = (hs.any HeaderLine.isHost || isHostName nm))
    (hf : Filling req₀ req l hs) (hpos : p.valuePos = nm.length + 2) (hvl : p.valueLen = v.length)
    (hrow : RowHolds req (nm ++ [COLON, SP] ++ v)) (e : Eol) :
    Matches req₀ (endHeader p req) (endLine l hs nm ows v e) := by
  have hlen : (nm ++ [COLON, SP] ++ v).length = p.valuePos + p.valueLen := by
    rw [stored_length, hpos, hvl]
  have hlen' : nm.length + 2 + v.length = p.valuePos + p.valueLen := by rw [hpos, hvl]
  -- the terminator may be the first byte past the row
  by_cases hlt : nm.length + 2 + v.length < headerSize
  · obtain ⟨headers', hs', ⟨row, hrow', ht'⟩, htk⟩ := hrow.store 0 (by rw [hlen, ← hlen']; exact hlt)
    have hstr : row.str = cstr (nm ++ [COLON, SP] ++ v) := by
      rw [List.length_append] at ht'
      exact row.str_of_terminated ht'
    rw [hlen] at hs'
    simp only [endHeader, endLine, if_pos hlt, hs', bind, Except.bind]
    refine ⟨_, _, rfl, hd, rfl, ?_, ⟨?_, hf.version, ?_, ?_⟩, Nat.zero_le _, rfl,
      fun h => absurd rfl h⟩
    · simp [hh, HeaderLine.isHost]
    · exact ⟨hf.started.method, hf.started.path, hf.started.query⟩
    · rw [List.length_append]
      simp only [hf.num, List.length_singleton]
      omega
    -- the row just ended is the next one of the list
    · have hold := hf.list
      simp only [HttpRequest.headerList] at hold ⊢
      rw [List.take_add_one, htk, List.map_append, hold, hrow', List.map_append,
        ← List.append_assoc]
      simp [hstr, HeaderLine.stored]
  · have hs' := hrow.store_column 0 (by rw [hlen, ← hlen']; omega)
    rw [hlen] at hs'
    simp only [endHeader, endLine, if_neg hlt, hs', bind, Except.bind]
    rfl

theorem feedHeaderValue_matches {l : RequestLine} {hs : List HeaderLine} {nm ows v : List UInt8}
    (h : Agrees req₀ p req (.value l hs nm ows v)) (c : UInt8) :
    Matches req₀ (feedHeaderValue p req c) (Scan.step rows (.value l hs nm ows v) c) := by
  obtain ⟨hd, hstate, hh, hf, hpos, hvl, hrow⟩ := h
  have hnil : p.valueLen = 0 ↔ v = [] := by rw [hvl]; exact List.length_eq_zero_iff
  simp only [Scan.step, feedHeaderValue]
  by_cases hcr : c = CR
  · rw [if_pos hcr, if_pos hcr]
    exact ⟨_, _, rfl, hd, rfl, hh, hf, hpos, hvl, hrow⟩
  · rw [if_neg hcr, if_neg hcr]
    by_cases hlf : c = LF
    · rw [if_pos hlf, if_pos hlf]
      exact endHeader_matches hd hh hf hpos hvl hrow .lf
    · rw [if_neg hlf, if_neg hlf]
      -- blanks before the value are skipped
      by_cases hw : v = [] ∧ IsBlank c
      · rw [if_pos hw, if_pos (show p.valueLen = 0 ∧ (c = SP ∨ c = TAB) from ⟨hnil.mpr hw.1, hw.2⟩)]
        exact ⟨_, _, rfl, hd, hstate, hh, hf, hpos, hvl, hrow⟩
      · rw [if_neg hw, if_neg (fun h : p.valueLen = 0 ∧ (c = SP ∨ c = TAB) =>
          hw ⟨hnil.mp h.1, h.2⟩)]
        by_cases hl : nm.length + 2 + v.length < 255
        · rw [if_pos hl, if_pos (show p.valuePos + p.valueLen < 255 by rw [hpos, hvl]; exact hl)]
          have hlen : (nm ++ [COLON, SP] ++ v).length = p.valuePos + p.valueLen := by
            rw [stored_length, hpos, hvl]
          obtain ⟨headers', hs', hr', ht'⟩ := hrow.store c (by
            rw [hlen, hpos, hvl]; unfold headerSize; omega)
          rw [hlen] at hs'
          rw [hs']
          exact ⟨_, _, rfl, hd, hstate, hh, hf.storeHeader ht', hpos,
            by rw [List.length_append, hvl]; rfl, by rw [← List.append_assoc]; exact hr'⟩
        · rw [if_neg hl, if_neg (show ¬ p.valuePos + p.valueLen < 255 by rw [hpos, hvl]; exact hl)]
          exact ret_error p req

theorem feedHeaderValueCr_matches {l : RequestLine} {hs : List HeaderLine} {nm ows v : List UInt8}
    (h : Agrees req₀ p req (.valueCr l hs nm ows v)) (c : UInt8) :
    Matches req₀ (feedHeaderValueCr p req c) (Scan.step rows (.valueCr l hs nm ows v) c) := by
  obtain ⟨hd, hstate, hh, hf, hpos, hvl, hrow⟩ := h
  simp only [Scan.step, feedHeaderValueCr]
  by_cases hlf : c = LF
  · rw [if_pos hlf, if_pos hlf]
    exact endHeader_matches hd hh hf hpos hvl hrow .crlf
  · rw [if_neg hlf, if_neg hlf]
    exact ret_error p req

/-- **One byte of the machine is one byte of the scanner.** -/
theorem feedByte_matches {s : Scan} (hrows : rows = maxHeaders - req₀.numHeaders)
    (h : Agrees req₀ p req s) (c : UInt8) :
    Matches req₀ (feedByte p req c) (s.step rows c) := by
  cases s with
  | method m => rw [feedByte, h.2.1]; exact feedMethod_matches h c
  | path m sp pth => rw [feedByte, h.2.1]; exact feedPath_matches h c
  | query m sp pth q => rw [feedByte, h.2.1]; exact feedQuery_matches h c
  | version st v => rw [feedByte, h.2.1]; exact feedVersion_matches h c
  | versionCr st v => rw [feedByte, h.2.1]; exact feedVersionCr_matches h c
  | name l hs nm => rw [feedByte, h.2.1]; exact feedHeaderName_matches hrows h c
  | nameCr l hs => rw [feedByte, h.2.1]; exact feedHeaderNameCr_matches h c
  | value l hs nm ows v => rw [feedByte, h.2.1]; exact feedHeaderValue_matches h c
  | valueCr l hs nm ows v => rw [feedByte, h.2.1]; exact feedHeaderValueCr_matches h c

end Step

/-! ## Whole chunks -/

/-- The result of a chunk in the machine matches the result in the scanner. -/
def MatchesRun (req₀ : HttpRequest) (r : Except Fault (ParseStatus × HttpParser × HttpRequest)) :
    ScanStep → Prop
  | .more s => ∃ p req, r = .ok (.incomplete, p, req) ∧ Agrees req₀ p req s
  | .head h =>
      if h.hostOk then ∃ p req, r = .ok (.done, p, req) ∧ p.done = true ∧ Filled req₀ h req
      else ∃ p req, r = .ok (.error, p, req)
  | .reject => ∃ p req, r = .ok (.error, p, req)
  | .fault f => r = .error f

/-- The faults of the machine are the faults of the scanner. -/
theorem MatchesRun.error_iff {req₀ : HttpRequest}
    {r : Except Fault (ParseStatus × HttpParser × HttpRequest)} {o : ScanStep}
    (h : MatchesRun req₀ r o) (f : Fault) : r = .error f ↔ o = .fault f := by
  cases o with
  | more s =>
      obtain ⟨p, req, rfl, -⟩ := h
      exact ⟨by simp, by simp⟩
  | head hd =>
      rw [MatchesRun] at h
      refine ⟨fun h0 => ?_, by simp⟩
      rw [h0] at h
      split at h
      · obtain ⟨p, req, heq, -⟩ := h
        cases heq
      · obtain ⟨p, req, heq⟩ := h
        cases heq
  | reject =>
      obtain ⟨p, req, rfl⟩ := h
      exact ⟨by simp, by simp⟩
  | fault f' =>
      have heq : r = .error f' := h
      rw [heq]
      simp

/-- **A chunk fed to the machine is a chunk fed to the scanner.** -/
theorem feedLoop_matches {req₀ : HttpRequest} {rows : Nat}
    (hrows : rows = maxHeaders - req₀.numHeaders) (cs : List UInt8) :
    ∀ {p : HttpParser} {req : HttpRequest} {s : Scan}, Agrees req₀ p req s →
      MatchesRun req₀ (feedLoop p req cs) (s.run rows cs) := by
  induction cs with
  | nil => intro p req s h; exact ⟨p, req, rfl, h⟩
  | cons c cs ih =>
      intro p req s h
      have hm := feedByte_matches hrows h c
      simp only [feedLoop, Scan.run]
      cases hs : s.step rows c with
      -- the byte has been taken by both, and they agree again
      | more s' =>
          rw [hs] at hm
          obtain ⟨p', req', hb, h'⟩ := hm
          rw [hb]
          exact ih h'
      | head hd =>
          rw [hs] at hm
          by_cases hok : hd.hostOk = true
          · rw [Matches, if_pos hok] at hm
            obtain ⟨p', req', hb, h'⟩ := hm
            rw [hb, MatchesRun, if_pos hok]
            exact ⟨p', req', rfl, h'⟩
          · rw [Matches, if_neg hok] at hm
            obtain ⟨p', req', hb⟩ := hm
            rw [hb, MatchesRun, if_neg hok]
            exact ⟨p', req', rfl⟩
      | reject =>
          rw [hs] at hm
          obtain ⟨p', req', hb⟩ := hm
          rw [hb]
          exact ⟨p', req', rfl⟩
      | fault f =>
          rw [hs] at hm
          rw [show feedByte p req c = .error f from hm]
          rfl

theorem httpParserFeed_matches {req₀ : HttpRequest} {rows : Nat}
    (hrows : rows = maxHeaders - req₀.numHeaders) {p : HttpParser} {req : HttpRequest} {s : Scan}
    (h : Agrees req₀ p req s) (cs : List UInt8) :
    MatchesRun req₀ (httpParserFeed p req cs) (s.run rows cs) := by
  rw [httpParserFeed, h.1]
  exact feedLoop_matches hrows cs h

end HttpServer
