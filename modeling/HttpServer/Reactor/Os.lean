import HttpServer.Parser.Machine
import HttpServer.Lib.FdTable

set_option autoImplicit false

/-! # The operating system under the reactor

The reactor sees the system through `accept`, `read`, `write`, `sendfile`, `stat`, `open`,
`close`, `epoll_ctl` and `malloc`. What the kernel answers is not decided by the program, so
the answers are an input: a `Sched` lists them for the handling of one event. When a list is
used up the calls go on with `EAGAIN` (reads and writes), a free descriptor (opens) or a
block of memory (`malloc`); every handling of an event that ends is one of these.

`Os` is the state the calls act on: the descriptor table, the epoll interest of each
descriptor, and the list of all calls made so far. The serial numbers in descriptors and
calls tell apart the uses of one descriptor number; the program never reads them.

The program ignores what `epoll_ctl` returns. So the interest is kept twice: `interest` is what
the program has asked for, as it stands if every call succeeds, and `registered` is what the
kernel has taken up, given the answers in `ctls`.
-/

namespace HttpServer

open CLib

/-! ## Files -/

/-- What a pathname names, for `stat` and `open(O_RDONLY)`. -/
inductive Node
  | absent
  | dir
  | special
  | file (content : List UInt8) (readable : Bool)
  deriving DecidableEq, Repr

/-- `PATH_MAX`: pathnames of this length or longer name nothing. -/
def pathMax : Nat := 4096

/-- The directory served and the files of the system, which do not change. -/
structure Site where
  docRoot : List UInt8
  stat : List UInt8 → Node
  stat_long : ∀ p, pathMax ≤ p.length → stat p = .absent

/-! ## Descriptors -/

inductive Resource
  | socket (incoming : List UInt8)
  | file (content : List UInt8)
  | other
  deriving DecidableEq, Repr

/-- An open descriptor: the number of the call that opened it, the connection it was opened
for (a connection has the number of its `accept`), and what it refers to. -/
structure Desc where
  serial : Nat
  owner : Option Nat
  res : Resource
  deriving DecidableEq, Repr

/-! ## Answers of the kernel -/

/-- A `read` that succeeds with at most `n` of the bytes the client sends, finds the end of
the input, or fails with `EAGAIN`, `EINTR` or another error. -/
inductive ReadRes
  | bytes (n : Nat)
  | eof
  | again
  | intr
  | fail
  deriving DecidableEq, Repr

/-- A `write` or `sendfile` that takes at most `n` bytes, or fails. -/
inductive WriteRes
  | bytes (n : Nat)
  | again
  | intr
  | fail
  deriving DecidableEq, Repr

structure Sched where
  reads : List ReadRes
  writes : List WriteRes
  opens : List (Option Nat)
  mallocs : List Bool
  deriving DecidableEq, Repr

/-- A connection that `accept` returns: the descriptor the kernel would give it, all the
bytes its client sends, and whether the `calloc` of its record succeeds. -/
structure AcceptRes where
  hint : Nat
  incoming : List UInt8
  calloc : Bool
  deriving DecidableEq, Repr

inductive Interest
  | input
  | output
  deriving DecidableEq, Repr

/-! ## Calls -/

/-- The calls made, and the steps of the parser between them. `by` is the connection that
closes a descriptor (`none` for the reactor itself) and `found` what was open there. -/
inductive Ev
  | accepted (cid fd : Nat)
  | read (cid : Nat) (bs : List UInt8)
  | parsed (cid : Nat) (b : UInt8)
  | request (cid : Nat) (req : HttpRequest)
  | opened (cid : Nat) (path : List UInt8) (fd : Option Nat)
  | wrote (cid : Nat) (bs : List UInt8)
  | closed (by_ : Option Nat) (fd : Nat) (found : Option Desc)
  deriving DecidableEq

/-- `ctls` are the answers to the calls of `epoll_ctl` that add or modify, in order; once they are
used up the calls succeed. -/
structure Os where
  sched : Sched
  fds : FdTable Desc
  serial : Nat
  interest : Nat → Option Interest
  registered : Nat → Option Interest
  ctls : List Bool
  trace : List Ev

namespace Os

def log (os : Os) (e : Ev) : Os := { os with trace := os.trace ++ [e] }

def setReads (os : Os) (as : List ReadRes) : Os :=
  { os with sched := { os.sched with reads := as } }

def setWrites (os : Os) (ws : List WriteRes) : Os :=
  { os with sched := { os.sched with writes := ws } }

/-- `malloc(n) != NULL`. -/
def malloc (os : Os) : Bool × Os :=
  (os.sched.mallocs.headD true,
    { os with sched := { os.sched with mallocs := os.sched.mallocs.tail } })

/-- A descriptor for `res`, opened for connection `owner`. -/
def alloc (os : Os) (hint : Nat) (owner : Option Nat) (res : Resource) : Nat × Os :=
  (os.fds.pick hint,
    { os with
      fds := os.fds.insert (os.fds.pick hint) ⟨os.serial, owner, res⟩
      serial := os.serial + 1 })

/-- `open(path, O_RDONLY)` for connection `cid`. -/
def openFile (site : Site) (os : Os) (cid : Nat) (path : List UInt8) : Option Nat × Os :=
  let answer := os.sched.opens.headD (some 0)
  let os := { os with sched := { os.sched with opens := os.sched.opens.tail } }
  match site.stat path, answer with
  | .file content true, some hint =>
      let (fd, os) := os.alloc hint (some cid) (.file content)
      (some fd, os.log (.opened cid path (some fd)))
  | _, _ => (none, os.log (.opened cid path none))

/-- `close(fd)`; the last reference to a descriptor takes its epoll registration with it. -/
def close (os : Os) (by_ : Option Nat) (fd : Nat) : Os :=
  { os with
    fds := os.fds.erase fd
    interest := Function.update os.interest fd none
    registered := Function.update os.registered fd none
    trace := os.trace ++ [.closed by_ fd (os.fds.get fd)] }

/-- `epoll_ctl(EPOLL_CTL_DEL)`. Each is followed by the `close` of the descriptor, which takes the
registration with it even where this call fails. -/
def epollDel (os : Os) (fd : Nat) : Os :=
  { os with
    interest := Function.update os.interest fd none
    registered := Function.update os.registered fd none }

/-- `epoll_ctl` for the interest `i`, which the kernel takes up if it succeeds (`ok`). -/
def epollCtl (os : Os) (fd : Nat) (i : Interest) (ok : Bool) : Os :=
  { os with
    interest := Function.update os.interest fd (some i)
    registered := if ok then Function.update os.registered fd (some i) else os.registered
    ctls := os.ctls.tail }

/-- `epoll_ctl(EPOLL_CTL_ADD)`. -/
def epollAdd (os : Os) (fd : Nat) (i : Interest) : Os := os.epollCtl fd i (os.ctls.headD true)

/-- `epoll_ctl(EPOLL_CTL_MOD)`, which fails on a descriptor that is not registered: because its
socket has been closed, or because it could not be added. -/
def epollMod (os : Os) (fd : Nat) (i : Interest) : Os :=
  if (os.interest fd).isSome then
    os.epollCtl fd i (os.ctls.headD true && (os.registered fd).isSome)
  else os

/-- The bytes still to be read from a socket; `none` if `fd` is not one. -/
def incoming (os : Os) (fd : Nat) : Option (List UInt8) :=
  match os.fds.get fd with
  | some ⟨_, _, .socket bs⟩ => some bs
  | _ => none

/-- The content of an open file; `none` if `fd` is not one. -/
def content (os : Os) (fd : Nat) : Option (List UInt8) :=
  match os.fds.get fd with
  | some ⟨_, _, .file bs⟩ => some bs
  | _ => none

/-- Take `n` bytes off the front of what a socket has received. -/
def consume (os : Os) (fd : Nat) (n : Nat) : Os :=
  match os.fds.get fd with
  | some ⟨s, o, .socket bs⟩ => { os with fds := os.fds.insert fd ⟨s, o, .socket (bs.drop n)⟩ }
  | _ => os

end Os

end HttpServer
