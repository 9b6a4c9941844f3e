import HttpServer.Lib.CString

set_option autoImplicit false

/-! # The incremental request parser (`src/http_parser.c`)

`httpParserFeed` consumes a chunk of bytes, one `feedByte` per byte. Each case of the
source's `switch` is a definition of its own (`feedMethod`, `feedPath`, ...), all of them
returning

* `none` with the new parser and request when the `switch` falls out of a `break` (the loop
  goes on with the next byte),
* `some st` when the source returns `st` there,
* a `Fault` when the source writes outside an array. The C program has no defined behaviour
  after that, so the model stops.
-/

namespace HttpServer

open CLib

/-! ## Data -/

def maxHeaders : Nat := 64
def maxPath : Nat := 4096
def verSize : Nat := 16
def headerSize : Nat := 256
def methodSize : Nat := 16

def SP : UInt8 := 32
def TAB : UInt8 := 9
def CR : UInt8 := 13
def LF : UInt8 := 10
def COLON : UInt8 := 58
def QMARK : UInt8 := 63

inductive HttpMethod
  | get
  | head
  | post
  | unsupported
  deriving DecidableEq, Repr

/-- `struct http_request`. -/
structure HttpRequest where
  method : HttpMethod
  path : CArray UInt8 maxPath
  queryString : CArray UInt8 maxPath
  version : CArray UInt8 verSize
  headers : CArray (CArray UInt8 headerSize) maxHeaders
  numHeaders : Nat
  keepAlive : Bool
  parsed : Bool
  deriving DecidableEq

/-- A zeroed `struct http_request`. -/
def HttpRequest.zero : HttpRequest where
  method := .get
  path := .fill maxPath 0
  queryString := .fill maxPath 0
  version := .fill verSize 0
  headers := .fill maxHeaders (.fill headerSize 0)
  numHeaders := 0
  keepAlive := false
  parsed := false

inductive ParseStatus
  | incomplete
  | done
  | error
  deriving DecidableEq, Repr

/-- `enum parser_state`. -/
inductive ParserState
  | method
  | path
  | query
  | version
  | versionCr
  | headerName
  | headerNameCr
  | headerValue
  | headerValueCr
  | done
  deriving DecidableEq, Repr

/-- `struct http_parser`; the request it fills is passed beside it. -/
structure HttpParser where
  state : ParserState
  pathPos : Nat
  queryPos : Nat
  versionPos : Nat
  methodTmp : CArray UInt8 methodSize
  methodLen : Nat
  nameLen : Nat
  valuePos : Nat
  valueLen : Nat
  hostSeen : Bool
  done : Bool
  deriving DecidableEq

/-- `http_parser_init`: all fields zero, state `P_METHOD`. The request is left as it is. -/
def httpParserInit : HttpParser where
  state := .method
  pathPos := 0
  queryPos := 0
  versionPos := 0
  methodTmp := .fill methodSize 0
  methodLen := 0
  nameLen := 0
  valuePos := 0
  valueLen := 0
  hostSeen := false
  done := false

/-- A write outside an array: at a row of the header table past its end, or at a column
past the end of a row or of one of the other buffers. -/
inductive Fault
  | row
  | column
  deriving DecidableEq, Repr

/-! ## Helpers of the source -/

def methodFromToken (tok : List UInt8) : HttpMethod :=
  if tok = ascii "GET" then .get
  else if tok = ascii "HEAD" then .head
  else if tok = ascii "POST" then .post
  else .unsupported

/-- One turn of the loop of `parser_finalize`: a `Connection` header overrides the
keep-alive flag computed so far. -/
def connectionOverride (keepAlive : Bool) (header : List UInt8) : Bool :=
  if strncaseeq header (ascii "connection:") 11 then
    -- both words are looked for in the whole line, not in a list of options
    if strcasestr header (ascii "close") then false
    else if strcasestr header (ascii "keep-alive") then true
    else keepAlive
  else keepAlive

/-- The header lines of a request, as C strings. -/
def HttpRequest.headerList (req : HttpRequest) : List (List UInt8) :=
  (req.headers.elems.take req.numHeaders).map CArray.str

def parserFinalize (req : HttpRequest) : HttpRequest :=
  { req with
    parsed := true
    keepAlive := req.headerList.foldl connectionOverride
      (decide (req.version.str = ascii "HTTP/1.1")) }

/-- `buf[i] = c` in one of the parser's byte buffers. -/
def store {n : Nat} (buf : CArray UInt8 n) (i : Nat) (c : UInt8) :
    Except Fault (CArray UInt8 n) :=
  match buf.write i c with
  | some buf' => .ok buf'
  | none => .error .column

/-- `req->headers[req->num_headers]`. -/
def HttpRequest.row (req : HttpRequest) : Except Fault (CArray UInt8 headerSize) :=
  match req.headers.elems[req.numHeaders]? with
  | some row => .ok row
  | none => .error .row

/-- `req->headers[req->num_headers][i] = c`. -/
def HttpRequest.storeHeader (req : HttpRequest) (i : Nat) (c : UInt8) :
    Except Fault HttpRequest := do
  let row ← req.row
  let row' ← store row i c
  match req.headers.write req.numHeaders row' with
  | some headers' => .ok { req with headers := headers' }
  | none => .error .row

/-! ## The state machine -/

/-- The outcome of one byte: `none` to go on with the loop, or the status returned. -/
abbrev FeedStep := Except Fault (Option ParseStatus × HttpParser × HttpRequest)

/-- `return st;`. -/
def ret (st : ParseStatus) (p : HttpParser) (req : HttpRequest) : FeedStep := .ok (some st, p, req)

/-- `break;` out of the `switch`. -/
def next (p : HttpParser) (req : HttpRequest) : FeedStep := .ok (none, p, req)

def feedMethod (p : HttpParser) (req : HttpRequest) (c : UInt8) : FeedStep :=
  if c = SP ∨ c = TAB then
    if p.methodLen = 0 then ret .error p req
    else do
      -- `method_len` keeps the length of the token
      let tmp ← store p.methodTmp p.methodLen 0
      next { p with methodTmp := tmp, state := .path, pathPos := 0 }
        { req with method := methodFromToken tmp.str }
  else if c = CR ∨ c = LF then ret .error p req
  else if p.methodLen < methodSize - 1 then do
    let tmp ← store p.methodTmp p.methodLen c
    next { p with methodTmp := tmp, methodLen := p.methodLen + 1 } req
  else ret .error p req

def feedPath (p : HttpParser) (req : HttpRequest) (c : UInt8) : FeedStep :=
  if c = SP ∨ c = TAB then
    if p.pathPos = 0 then ret .error p req
    else do
      let path ← store req.path p.pathPos 0
      next { p with state := .version, versionPos := 0 } { req with path := path }
  else if c = QMARK then do
    let path ← store req.path p.pathPos 0
    next { p with state := .query, queryPos := 0 } { req with path := path }
  else if c = CR ∨ c = LF then ret .error p req
  else if p.pathPos < maxPath - 1 then do
    let path ← store req.path p.pathPos c
    next { p with pathPos := p.pathPos + 1 } { req with path := path }
  else ret .error p req

def feedQuery (p : HttpParser) (req : HttpRequest) (c : UInt8) : FeedStep :=
  if c = SP ∨ c = TAB then do
    let query ← store req.queryString p.queryPos 0
    next { p with state := .version, versionPos := 0 } { req with queryString := query }
  else if c = CR ∨ c = LF then ret .error p req
  else if p.queryPos < maxPath - 1 then do
    let query ← store req.queryString p.queryPos c
    next { p with queryPos := p.queryPos + 1 } { req with queryString := query }
  else ret .error p req

/-- The end of the request line: terminate the version and start on the headers. -/
def endVersion (p : HttpParser) (req : HttpRequest) : FeedStep := do
  let version ← store req.version p.versionPos 0
  next { p with state := .headerName, nameLen := 0 } { req with version := version }

def feedVersion (p : HttpParser) (req : HttpRequest) (c : UInt8) : FeedStep :=
  if c = CR then next { p with state := .versionCr } req
  else if c = LF then endVersion p req
  else if p.versionPos < verSize - 1 then do
    let version ← store req.version p.versionPos c
    next { p with versionPos := p.versionPos + 1 } { req with version := version }
  else ret .error p req

def feedVersionCr (p : HttpParser) (req : HttpRequest) (c : UInt8) : FeedStep :=
  if c = LF then endVersion p req else ret .error p req

/-- The terminating blank line: mark the parser done and finalize the request. -/
def finish (p : HttpParser) (req : HttpRequest) : FeedStep :=
  ret .done { p with done := true, state := .done } (parserFinalize req)

def feedHeaderName (p : HttpParser) (req : HttpRequest) (c : UInt8) : FeedStep :=
  if c = CR then
    if p.nameLen = 0 then next { p with state := .headerNameCr } req
    else ret .error p req
  else if c = LF then
    -- no check for a `Host` field here, unlike after `CR LF`
    if p.nameLen = 0 then finish p req
    else ret .error p req
  else if c = COLON then
    if p.nameLen = 0 then ret .error p req
    else do
      -- the row is read before it is written to, and may lie past the table
      let row ← req.row
      let host := strncaseeq row.str (ascii "host") 4 && decide (p.nameLen = 4)
      -- with a name of 255 bytes the blank goes to column 256
      let req1 ← req.storeHeader p.nameLen COLON
      let req2 ← req1.storeHeader (p.nameLen + 1) SP
      next { p with
          hostSeen := p.hostSeen || host
          valuePos := p.nameLen + 2
          valueLen := 0
          state := .headerValue } req2
  else if p.nameLen < 255 then do
    let req' ← req.storeHeader p.nameLen c
    next { p with nameLen := p.nameLen + 1 } req'
  else ret .error p req

def feedHeaderNameCr (p : HttpParser) (req : HttpRequest) (c : UInt8) : FeedStep :=
  if c = LF then
    if !p.hostSeen && decide (req.version.str = ascii "HTTP/1.1") then ret .error p req
    else finish p req
  else ret .error p req

/-- The end of a header line: terminate the row and count it. -/
def endHeader (p : HttpParser) (req : HttpRequest) : FeedStep := do
  let req' ← req.storeHeader (p.valuePos + p.valueLen) 0
  next { p with state := .headerName, nameLen := 0 } { req' with numHeaders := req'.numHeaders + 1 }

def feedHeaderValue (p : HttpParser) (req : HttpRequest) (c : UInt8) : FeedStep :=
  if c = CR then next { p with state := .headerValueCr } req
  else if c = LF then endHeader p req
  -- blanks in front of the value are consumed and not counted
  else if p.valueLen = 0 ∧ (c = SP ∨ c = TAB) then next p req
  else if p.valuePos + p.valueLen < 255 then do
    let req' ← req.storeHeader (p.valuePos + p.valueLen) c
    next { p with valueLen := p.valueLen + 1 } req'
  else ret .error p req

def feedHeaderValueCr (p : HttpParser) (req : HttpRequest) (c : UInt8) : FeedStep :=
  if c = LF then endHeader p req else ret .error p req

/-- The body of the loop of `http_parser_feed`. -/
def feedByte (p : HttpParser) (req : HttpRequest) (c : UInt8) : FeedStep :=
  match p.state with
  | .method => feedMethod p req c
  | .path => feedPath p req c
  | .query => feedQuery p req c
  | .version => feedVersion p req c
  | .versionCr => feedVersionCr p req c
  | .headerName => feedHeaderName p req c
  | .headerNameCr => feedHeaderNameCr p req c
  | .headerValue => feedHeaderValue p req c
  | .headerValueCr => feedHeaderValueCr p req c
  | .done => ret .done p req

/-- The loop of `http_parser_feed` over the bytes of the chunk. -/
def feedLoop (p : HttpParser) (req : HttpRequest) :
    List UInt8 → Except Fault (ParseStatus × HttpParser × HttpRequest)
  | [] => .ok (.incomplete, p, req)
  | c :: cs =>
      match feedByte p req c with
      | .error f => .error f
      | .ok (some st, p', req') => .ok (st, p', req')
      | .ok (none, p', req') => feedLoop p' req' cs

/-- `http_parser_feed`. -/
def httpParserFeed (p : HttpParser) (req : HttpRequest) (buf : List UInt8) :
    Except Fault (ParseStatus × HttpParser × HttpRequest) :=
  if p.done then .ok (.done, p, req) else feedLoop p req buf

end HttpServer
