import HttpServer.Reactor.Os

set_option autoImplicit false

/-! # Connections (`src/reactor.c`)

The connection record, the building of responses, and the input and output handlers. A
handler takes the reactor and the connection it runs for; it returns them with a `ConnRef`
that says whether the connection is still there. The loops of the source that call `read`,
`write` and `sendfile` are recursions on the list of the kernel's answers, one turn for each.
-/

namespace HttpServer

open CLib

/-! ## Data -/

def bufferSize : Nat := 8192

/-- The response codes the reactor uses. -/
inductive StatusCode
  | ok
  | badRequest
  | forbidden
  | notFound
  | methodNotAllowed
  | tooLarge
  | internalError
  deriving DecidableEq, Repr

/-- `enum conn_state`, without `ST_CLOSED`, which the source never uses. -/
inductive ConnState
  | reading
  | writing
  deriving DecidableEq, Repr

/-- `enum resp_phase`. -/
inductive RespPhase
  | head
  | sendfile
  | done
  deriving DecidableEq, Repr

/-- `struct conn`. `inbuf` holds the bytes below `in_tail`, so its length is `in_tail`;
`head` holds the block of `head_len` bytes, and is empty when the pointer is `NULL`; a
`fileFd` of `none` is `-1`. `cid` is the number of the `accept` that made the connection. -/
structure Conn where
  fd : Nat
  cid : Nat
  state : ConnState
  keepAlive : Bool
  inbuf : List UInt8
  inHead : Nat
  parser : HttpParser
  req : HttpRequest
  phase : RespPhase
  head : List UInt8
  headOff : Nat
  fileFd : Option Nat
  fileOff : Nat
  fileLen : Nat
  deriving DecidableEq

/-- `calloc(1, sizeof(*c))`, with the fields `reactor_accept` sets. All bytes are zero, so
`file_fd` is descriptor `0`. -/
def Conn.calloc (fd cid : Nat) : Conn where
  fd := fd
  cid := cid
  state := .reading
  keepAlive := false
  inbuf := []
  inHead := 0
  parser := httpParserInit
  req := .zero
  phase := .head
  head := []
  headOff := 0
  fileFd := some 0
  fileOff := 0
  fileLen := 0

/-- `struct reactor`: its own descriptors, the connections by descriptor, and the system
below. `crashed` is set once a handler has written outside an array. -/
structure Reactor where
  epfd : Nat
  listenFd : Nat
  wakeupFd : Nat
  activeConns : Int
  conns : Nat → Option Conn
  stop : Bool
  crashed : Option Fault
  os : Os

/-- What a handler leaves of its connection. -/
inductive ConnRef
  | live (c : Conn)
  | closed
  | crashed (f : Fault)

def closeFile (os : Os) (c : Conn) : Os :=
  match c.fileFd with
  | some k => os.close (some c.cid) k
  | none => os

def connClose (r : Reactor) (c : Conn) : Reactor :=
  let os := r.os.epollDel c.fd
  let os := os.close (some c.cid) c.fd
  let os := closeFile os c
  { r with
    os := os
    conns := Function.update r.conns c.fd none
    activeConns := r.activeConns - 1 }

def modEvents (r : Reactor) (c : Conn) (i : Interest) : Reactor :=
  { r with os := r.os.epollMod c.fd i }

/-! ## Responses -/

def statusReason : StatusCode → List UInt8
  | .ok => ascii "200 OK"
  | .badRequest => ascii "400 Bad Request"
  | .forbidden => ascii "403 Forbidden"
  | .notFound => ascii "404 Not Found"
  | .methodNotAllowed => ascii "405 Method Not Allowed"
  | .tooLarge => ascii "413 Payload Too Large"
  | .internalError => ascii "500 Internal Server Error"

/-- The number of a response code, as `%d` prints it. -/
def StatusCode.number : StatusCode → List UInt8
  | .ok => ascii "200"
  | .badRequest => ascii "400"
  | .forbidden => ascii "403"
  | .notFound => ascii "404"
  | .methodNotAllowed => ascii "405"
  | .tooLarge => ascii "413"
  | .internalError => ascii "500"

def DOT : UInt8 := 46
def SLASH : UInt8 := 47

def reactorMimeType (path : List UInt8) : List UInt8 :=
  match strrchr path DOT with
  | none => ascii "application/octet-stream"
  | some ext =>
      if ext = ascii ".html" ∨ ext = ascii ".htm" then ascii "text/html"
      else if ext = ascii ".css" then ascii "text/css"
      else if ext = ascii ".js" then ascii "application/javascript"
      else if ext = ascii ".txt" then ascii "text/plain"
      else if ext = ascii ".png" then ascii "image/png"
      else if ext = ascii ".jpg" ∨ ext = ascii ".jpeg" then ascii "image/jpeg"
      else if ext = ascii ".gif" then ascii "image/gif"
      else if ext = ascii ".ico" then ascii "image/x-icon"
      else ascii "application/octet-stream"

/-- The text `build_head` formats. -/
def headText (code : StatusCode) (ctype : List UInt8) (contentLength : Nat) (keepAlive : Bool) :
    List UInt8 :=
  ascii "HTTP/1.1 " ++ statusReason code ++ ascii "\r\n" ++
  ascii "Content-Type: " ++ ctype ++ ascii "\r\n" ++
  ascii "Content-Length: " ++ decimal contentLength ++ ascii "\r\n" ++
  ascii "Connection: " ++ (if keepAlive then ascii "keep-alive" else ascii "close") ++
  ascii "\r\n" ++ ascii "\r\n"

/-- `build_head`; `none` when `malloc` fails. -/
def buildHead (os : Os) (code : StatusCode) (ctype : List UInt8) (contentLength : Nat)
    (keepAlive : Bool) : Option (List UInt8) × Os :=
  match os.malloc with
  | (true, os) => (some (headText code ctype contentLength keepAlive), os)
  | (false, os) => (none, os)

def respondSimple (os : Os) (c : Conn) (code : StatusCode) (ctype body : List UInt8) :
    Os × Conn :=
  match buildHead os code ctype body.length c.keepAlive with
  -- without memory the connection keeps the response it had
  | (none, os) => (os, c)
  | (some head, os) =>
      match os.malloc with
      | (false, os) => (os, c)
      | (true, os) =>
          (os, { c with head := head ++ body, headOff := 0, fileFd := none, phase := .head })

/-- The size of the buffer for the full pathname, less the final zero. -/
def fullPathMax : Nat := maxPath + 64 - 1

/-- The path below the document root that a request path stands for. -/
def relPath (path : List UInt8) : List UInt8 :=
  if path = ascii "/" then ascii "/index.html" else path

/-- `snprintf(full, sizeof(full), "%s%s", doc_root, rel)`. -/
def fullPath (docRoot rel : List UInt8) : List UInt8 := (docRoot ++ rel).take fullPathMax

/-- The part of `respond_file` after `stat` has found a regular file. -/
def respondFound (site : Site) (os : Os) (c : Conn) (rel full content : List UInt8) : Os × Conn :=
  match os.openFile site c.cid full with
  | (none, os) =>
      respondSimple os c .internalError (ascii "text/plain") (ascii "500 Internal Server Error\n")
  | (some fd, os) =>
      match buildHead os .ok (reactorMimeType rel) content.length c.keepAlive with
      | (none, os) =>
          respondSimple (os.close (some c.cid) fd) c .internalError (ascii "text/plain")
            (ascii "500 Internal Server Error\n")
      | (some head, os) =>
          -- the response to `HEAD` has the head only, and the file is not needed
          if c.req.method = .head then
            (os.close (some c.cid) fd,
              { c with head := head, headOff := 0, phase := .head, fileFd := none })
          else
            (os, { c with
              head := head
              headOff := 0
              phase := .head
              fileFd := some fd
              fileOff := 0
              fileLen := content.length })

def respondFile (site : Site) (os : Os) (c : Conn) (path : List UInt8) : Os × Conn :=
  if strstr path (ascii "..") then
    respondSimple os c .forbidden (ascii "text/plain") (ascii "403 Forbidden\n")
  else
    match site.stat (fullPath site.docRoot (relPath path)) with
    | .absent => respondSimple os c .notFound (ascii "text/plain") (ascii "404 Not Found\n")
    | .dir => respondSimple os c .notFound (ascii "text/plain") (ascii "404 Not Found\n")
    | .special => respondSimple os c .forbidden (ascii "text/plain") (ascii "403 Forbidden\n")
    | .file content _ =>
        respondFound site os c (relPath path) (fullPath site.docRoot (relPath path)) content

def buildResponse (site : Site) (os : Os) (c : Conn) : Os × Conn :=
  let c := { c with keepAlive := c.req.keepAlive }
  if c.req.method = .get ∨ c.req.method = .head then respondFile site os c c.req.path.str
  else
    respondSimple os c .methodNotAllowed (ascii "text/plain") (ascii "405 Method Not Allowed\n")

/-- The body of an error page: `"%d %s\n"` of the code and its reason. -/
def errorMessage (code : StatusCode) : List UInt8 :=
  code.number ++ ascii " " ++ statusReason code ++ ascii "\n"

def buildErrorResponse (os : Os) (c : Conn) (code : StatusCode) : Os × Conn :=
  respondSimple os { c with keepAlive := false } code (ascii "text/plain") (errorMessage code)

/-! ## Input -/

/-- The loop of `conn_process_input` over the bytes from `in_head` to `in_tail`. -/
def processLoop (site : Site) (os : Os) (c : Conn) : List UInt8 → Os × Except Fault Conn
  | [] => (os, .ok c)
  | b :: bs =>
      let os := os.log (.parsed c.cid b)
      match httpParserFeed c.parser c.req [b] with
      | .error f => (os, .error f)
      | .ok (st, p, req) =>
          let c := { c with parser := p, req := req, inHead := c.inHead + 1 }
          match st with
          | .done =>
              let os := os.log (.request c.cid c.req)
              let (os, c) := buildResponse site os c
              (os, .ok { c with state := .writing })
          | .error =>
              let (os, c) := buildErrorResponse os c .badRequest
              (os, .ok { c with state := .writing })
          | .incomplete => processLoop site os c bs

def connProcessInput (site : Site) (os : Os) (c : Conn) : Os × Except Fault Conn :=
  if c.state = .reading then processLoop site os c (c.inbuf.drop c.inHead) else (os, .ok c)

/-- Start the input buffer over when all of it has been consumed. -/
def compact (c : Conn) : Conn :=
  if c.inHead = c.inbuf.length then { c with inbuf := [], inHead := 0 } else c

/-- What one turn of the loop of `conn_read` decides. -/
inductive ReadTurn
  | more (c : Conn)
  | stop (ref : ConnRef)

/-- One turn of the loop of `conn_read`, in which `read` answers `a`; `rest` is left for the
turns after it. -/
def readTurn (site : Site) (r : Reactor) (c : Conn) (a : ReadRes) (rest : List ReadRes) :
    Reactor × ReadTurn :=
  let c := compact c
  -- `in_tail` has reached the end of the buffer with bytes left to parse
  if c.inbuf.length = bufferSize then
    let (os, c) := buildErrorResponse r.os c .tooLarge
    ({ r with os := os }, .stop (.live { c with state := .writing }))
  else
    match r.os.incoming c.fd with
    -- `EBADF`, whatever the schedule says; the bytes of a file that has been opened at the
    -- descriptor of a lost socket are left out
    | none => (connClose r c, .stop .closed)
    | some incoming =>
        match a with
        | .again => (r, .stop (.live c))
        | .intr => ({ r with os := r.os.setReads rest }, .more c)
        | .eof => (connClose r c, .stop .closed)
        | .fail => (connClose r c, .stop .closed)
        | .bytes n =>
            let bs := incoming.take (min n (bufferSize - c.inbuf.length))
            -- nothing has arrived
            if bs = [] then (r, .stop (.live c))
            else
              let os := ((r.os.setReads rest).consume c.fd bs.length).log (.read c.cid bs)
              match connProcessInput site os { c with inbuf := c.inbuf ++ bs } with
              | (os, .error f) => ({ r with os := os }, .stop (.crashed f))
              | (os, .ok c) =>
                  ({ r with os := os }, if c.state = .writing then .stop (.live c) else .more c)

/-- `conn_read`; after the listed answers `read` fails with `EAGAIN`. -/
def connRead (site : Site) (r : Reactor) (c : Conn) : List ReadRes → Reactor × ConnRef
  | [] =>
      match readTurn site r c .again [] with
      | (r, .more c) => (r, .live c)
      | (r, .stop ref) => (r, ref)
  | a :: rest =>
      match readTurn site r c a rest with
      | (r, .more c) => connRead site r c rest
      | (r, .stop ref) => (r, ref)

/-! ## Output -/

/-- How a turn of an output loop of `conn_write` ends: go on, everything is sent, wait for
the socket to become writable, or the connection is closed. -/
inductive Flush
  | more (c : Conn)
  | sent (c : Conn)
  | parked (c : Conn)
  | closed

def Reactor.setWrites (r : Reactor) (ws : List WriteRes) : Reactor :=
  { r with os := r.os.setWrites ws }

/-- The two loops of `conn_write`: while there is something to do, make a call; then finish.
After the listed answers the calls fail with `EAGAIN`. -/
def writeLoop (todo : Conn → Bool) (call : Reactor → Conn → WriteRes → Reactor × Flush)
    (finish : Reactor → Conn → Reactor × Flush) (r : Reactor) (c : Conn) :
    List WriteRes → Reactor × Flush
  | [] => if todo c then call (r.setWrites []) c .again else finish (r.setWrites []) c
  | w :: ws =>
      if todo c then
        match call (r.setWrites ws) c w with
        | (r, .more c) => writeLoop todo call finish r c ws
        | out => out
      else finish (r.setWrites (w :: ws)) c

/-- The `EAGAIN` branch of both loops. -/
def park (r : Reactor) (c : Conn) : Reactor × Flush := (modEvents r c .output, .parked c)

/-- One `write` of the response head. -/
def headCall (r : Reactor) (c : Conn) (w : WriteRes) : Reactor × Flush :=
  match r.os.incoming c.fd with
  | none => (connClose r c, .closed)
  | some _ =>
      match w with
      | .again => park r c
      | .intr => (r, .more c)
      | .fail => (connClose r c, .closed)
      | .bytes n =>
          let bs := (c.head.drop c.headOff).take n
          -- a `write` that takes nothing ends in the last branch of the loop
          if bs = [] then (connClose r c, .closed)
          else
            ({ r with os := r.os.log (.wrote c.cid bs) },
              .more { c with headOff := c.headOff + bs.length })

def headDone (r : Reactor) (c : Conn) : Reactor × Flush :=
  (r, .sent { c with
    head := []
    headOff := 0
    phase := if c.fileFd.isSome then .sendfile else .done })

/-- Phase 1 of `conn_write`: the response head. -/
def flushHead (r : Reactor) (c : Conn) : Reactor × Flush :=
  writeLoop (fun c => decide (c.headOff < c.head.length)) headCall headDone r c r.os.sched.writes

/-- The largest count of one `sendfile`. -/
def sendfileMax : Nat := 0x7ffff000

/-- The error branch of the `sendfile` loop. -/
def fileFail (r : Reactor) (c : Conn) : Reactor × Flush :=
  (connClose { r with os := closeFile r.os c } { c with fileFd := none }, .closed)

/-- One `sendfile` of the file body. The kernel advances `file_off`. -/
def fileCall (r : Reactor) (c : Conn) (w : WriteRes) : Reactor × Flush :=
  match c.fileFd.bind r.os.content, r.os.incoming c.fd with
  | some content, some _ =>
      match w with
      | .again => park r c
      | .intr => (r, .more c)
      | .fail => fileFail r c
      | .bytes n =>
          -- a `sendfile` that takes nothing is tried again, unlike such a `write`
          let count := min (c.fileLen - c.fileOff) sendfileMax
          let bs := (content.drop c.fileOff).take (min n count)
          ({ r with os := r.os.log (.wrote c.cid bs) },
            .more { c with fileOff := c.fileOff + bs.length })
  | _, _ => fileFail r c

def fileDone (r : Reactor) (c : Conn) : Reactor × Flush :=
  ({ r with os := closeFile r.os c }, .sent { c with fileFd := none, phase := .done })

/-- Phase 2 of `conn_write`: the file body. -/
def flushFile (r : Reactor) (c : Conn) : Reactor × Flush :=
  writeLoop (fun c => decide (c.fileOff < c.fileLen)) fileCall fileDone r c r.os.sched.writes

/-- Phases 1 and 2 of `conn_write`. -/
def flush (r : Reactor) (c : Conn) : Reactor × Flush :=
  match if c.phase = .head then flushHead r c else (r, .sent c) with
  | (r, .sent c) => if c.phase = .sendfile then flushFile r c else (r, .sent c)
  | out => out

/-- `conn_write`, with a bound on the depth of its recursion. Every nested call has parsed a
byte more of the input buffer, so the bound of `connWrite` is never reached. -/
def connWriteN (site : Site) : Nat → Reactor → Conn → Reactor × ConnRef
  | 0, r, c => (r, .live c)
  | n + 1, r, c =>
      match flush r c with
      | (r, .more c) => (r, .live c)
      | (r, .parked c) => (r, .live c)
      | (r, .closed) => (r, .closed)
      | (r, .sent c) =>
          if c.phase ≠ .done then (r, .live c)
          -- `Connection: close`
          else if c.keepAlive = false then (connClose r c, .closed)
          else
            match connProcessInput site r.os
                { c with state := .reading, parser := httpParserInit } with
            | (os, .error f) => ({ r with os := os }, .crashed f)
            | (os, .ok c) =>
                let r := { r with os := os }
                -- a pipelined request was complete: the source calls itself
                if c.state = .writing then
                  connWriteN site n r { c with phase := .head, headOff := 0 }
                else (modEvents r c .input, .live c)

def connWrite (site : Site) (r : Reactor) (c : Conn) : Reactor × ConnRef :=
  connWriteN site (c.inbuf.length - c.inHead + 1) r c

end HttpServer
