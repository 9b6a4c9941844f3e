import HttpServer.Reactor.Conn

set_option autoImplicit false

/-! # The event loop (`src/reactor.c`)

`dispatch` is the body of the loop of `reactor_run` for one event; `reactorRun` handles a
list of them. The list stands for the batches `epoll_wait` returns: the kernel decides which
events come and in what order, so every list is a run. Of an event only what the descriptor
is registered for is reported, and errors and hangups always.

These two are the loop as it runs while every `epoll_ctl` succeeds and the epoll instance stays
open. `dispatchCtl` and `reactorRunCtl` are the same loop without these two assumptions.
-/

namespace HttpServer

open CLib

def connMax : Nat := 65536

/-- The flags of an `epoll_event`; `err` is `EPOLLERR` or `EPOLLHUP`. -/
structure Evs where
  input : Bool
  output : Bool
  err : Bool
  deriving DecidableEq, Repr

/-- An event: the descriptor, its flags, the kernel's answers while it is handled and, on
the listening socket, the connections that are waiting. -/
structure Event where
  fd : Nat
  evs : Evs
  sched : Sched
  accepts : List AcceptRes
  deriving DecidableEq, Repr

/-! ## Creation -/

/-- The system before the reactor is created: some descriptors are open already. `ctls` is what
`epoll_ctl` will answer. -/
def bootCtl (inherited : List Nat) (ctls : List Bool) : Os where
  sched := ⟨[], [], [], []⟩
  fds := .ofList inherited ⟨0, none, .other⟩
  serial := 1
  interest := fun _ => none
  registered := fun _ => none
  ctls := ctls
  trace := []

def bootOs (inherited : List Nat) : Os := bootCtl inherited []

/-- `reactor_create`, when all its calls succeed whose results it looks at: the epoll instance, the
eventfd that stops the loop and the listening socket. -/
def reactorCreateCtl (inherited : List Nat) (ctls : List Bool) : Reactor :=
  let (epfd, os) := (bootCtl inherited ctls).alloc 0 none .other
  let (wakeupFd, os) := os.alloc 0 none .other
  let (listenFd, os) := os.alloc 0 none .other
  { epfd := epfd
    listenFd := listenFd
    wakeupFd := wakeupFd
    activeConns := 0
    conns := fun _ => none
    stop := false
    crashed := none
    os := (os.epollAdd wakeupFd .input).epollAdd listenFd .input }

/-- `reactor_create` where no `epoll_ctl` fails. -/
def reactorCreate (inherited : List Nat) : Reactor := reactorCreateCtl inherited []

/-! ## Accepting -/

/-- One turn of the loop of `reactor_accept`. -/
def acceptOne (r : Reactor) (a : AcceptRes) : Reactor :=
  let cid := r.os.serial
  let (fd, os) := r.os.alloc a.hint (some cid) (.socket a.incoming)
  let os := os.log (.accepted cid fd)
  -- the connection is dropped without a word to the client
  if connMax ≤ fd then { r with os := os.close none fd }
  else if a.calloc = false then { r with os := os.close none fd }
  else
    { r with
      os := os.epollAdd fd .input
      conns := Function.update r.conns fd (some (Conn.calloc fd cid))
      activeConns := r.activeConns + 1 }

def reactorAccept (r : Reactor) (accepts : List AcceptRes) : Reactor :=
  accepts.foldl acceptOne r

/-! ## The loop -/

/-- The flags that are reported for a descriptor registered for `i`. -/
def Evs.report (evs : Evs) (i : Interest) : Evs where
  input := evs.input && decide (i = .input)
  output := evs.output && decide (i = .output)
  err := evs.err

/-- Put back what a handler has left of the connection at `fd`. -/
def Reactor.settle (r : Reactor) (fd : Nat) : ConnRef → Reactor
  | .live c => { r with conns := Function.update r.conns fd (some c) }
  | .closed => r
  | .crashed f => { r with crashed := some f }

/-- The `EPOLLIN` part of the loop body: read, and flush a response that is ready. -/
def onInput (site : Site) (r : Reactor) (c : Conn) : Reactor × ConnRef :=
  match connRead site r c r.os.sched.reads with
  | (r, .live c) => if c.state = .writing then connWrite site r c else (r, .live c)
  | out => out

/-- The events of a connection. -/
def connEvent (site : Site) (r : Reactor) (c : Conn) (evs : Evs) : Reactor × ConnRef :=
  if evs.err then (connClose r c, .closed)
  else
    match if evs.input then onInput site r c else (r, .live c) with
    | (r, .live c) => if evs.output then connWrite site r c else (r, .live c)
    | out => out

/-- The body of the loop of `reactor_run`, for one event. -/
def dispatch (site : Site) (r : Reactor) (e : Event) : Reactor :=
  if r.stop ∨ r.crashed.isSome then r
  else
    match r.os.interest e.fd with
    -- nothing is reported for a descriptor that is not registered
    | none => r
    | some i =>
        let r := { r with os := { r.os with sched := e.sched } }
        if e.fd = r.wakeupFd then { r with stop := true }
        else if e.fd = r.listenFd then reactorAccept r e.accepts
        else
          match r.conns e.fd with
          | none => r
          | some c =>
              let (r, ref) := connEvent site r c (e.evs.report i)
              r.settle e.fd ref

/-- `reactor_run`. -/
def reactorRun (site : Site) (r : Reactor) (es : List Event) : Reactor :=
  es.foldl (dispatch site) r

/-! ## The loop when `epoll_ctl` fails -/

/-- The reactor's descriptor still refers to its epoll instance. -/
def Reactor.epollOpen (r : Reactor) : Bool :=
  match r.os.fds.get r.epfd with
  | some ⟨_, none, .other⟩ => true
  | _ => false

/-- What the epoll instance watches at a descriptor. An instance that has been closed watches
nothing. -/
def Reactor.registration (r : Reactor) (fd : Nat) : Option Interest :=
  if r.epollOpen then r.os.registered fd else none

/-- The body of the loop of `reactor_run`, for one event, whatever `epoll_ctl` has answered. Once
the epoll instance is closed `epoll_wait` fails, and the loop ends: the descriptor may be used
again, but never for an epoll instance. -/
def dispatchCtl (site : Site) (r : Reactor) (e : Event) : Reactor :=
  if r.stop ∨ r.crashed.isSome then r
  else
    match r.registration e.fd with
    | none => r
    | some i =>
        let r := { r with os := { r.os with sched := e.sched } }
        if e.fd = r.wakeupFd then { r with stop := true }
        else if e.fd = r.listenFd then reactorAccept r e.accepts
        else
          match r.conns e.fd with
          | none => r
          | some c =>
              let (r, ref) := connEvent site r c (e.evs.report i)
              r.settle e.fd ref

/-- `reactor_run`, whatever `epoll_ctl` answers. -/
def reactorRunCtl (site : Site) (r : Reactor) (es : List Event) : Reactor :=
  es.foldl (dispatchCtl site) r

/-! ## Destruction -/

/-- The loop of `reactor_destroy` over the connections. -/
def destroyConn (conns : Nat → Option Conn) (os : Os) (fd : Nat) : Os :=
  match conns fd with
  | some c => closeFile ((os.epollDel fd).close (some c.cid) fd) c
  | none => os

/-- `reactor_destroy`. -/
def reactorDestroy (r : Reactor) : Os :=
  let os := (List.range connMax).foldl (destroyConn r.conns) r.os
  ((os.close none r.listenFd).close none r.wakeupFd).close none r.epfd

end HttpServer
