import HttpServer.Reactor.Respond
import HttpServer.Reactor.Loop

set_option autoImplicit false

/-! # What a handler can do

The handling of an event is a sequence of actions: bytes are received, a byte is parsed, a
response is set up, bytes are sent, and so on. `Action` lists them once, each with the conditions
under which the handlers take it. The lists of answers stay inside the state, so an action that
uses up an answer says so.

An invariant of the reactor is then shown action by action and lifted to sequences by
`Actions.rule`, without following the handlers again. Two facts hold of every action and are
needed throughout: it changes the system and its own connection only (`Action.confined`), and the
answers that are left are among those that were there (`Action.later`). The second one carries
the absence of failures in a whole schedule to the middle of a handler.

How a sequence can end is an `Outcome`. The connection waits for the next event (`Waiting`, which
is also what the next event may rely on), it is closed for one of the reasons in `Closing`, or
the parser has written outside an array. Closing is kept apart from the actions because it is the
one thing a handler does to the table of connections. That every event of a connection is such a
sequence is `connEvent_outcome` in `Reactor.Handler`.
-/

namespace HttpServer

open CLib

/-! ## Setting up a response -/

/-- Setting up a response concerns the output side of a connection only. -/
structure SetUp (c c' : Conn) : Prop where
  fd : c'.fd = c.fd
  cid : c'.cid = c.cid
  inbuf : c'.inbuf = c.inbuf
  inHead : c'.inHead = c.inHead
  req : c'.req = c.req
  keepAlive : c'.keepAlive = c.keepAlive
  headOff : c.headOff = 0 → c'.headOff = 0

theorem Plain.setUp {spares : Bool} {c c' : Conn} (h : Plain spares c c') : SetUp c c' := by
  cases spares with
  | false =>
      cases h
      exact ⟨rfl, rfl, rfl, rfl, rfl, rfl, id⟩
  | true =>
      obtain ⟨head, rfl⟩ := h
      exact ⟨rfl, rfl, rfl, rfl, rfl, rfl, fun _ => rfl⟩

theorem Built.setUp {site : Site} {os os' : Os} {c c' : Conn} (h : Built site os c os' c') :
    SetUp c c' := by
  cases h with
  | plain _ _ hc => exact hc.setUp
  | unopened _ _ _ hc => exact hc.setUp
  | aborted _ _ _ _ hc => exact hc.setUp
  | headOnly => exact ⟨rfl, rfl, rfl, rfl, rfl, rfl, fun _ => rfl⟩
  | withFile => exact ⟨rfl, rfl, rfl, rfl, rfl, rfl, fun _ => rfl⟩

theorem buildResponse_setUp {site : Site} {os os' : Os} {c c' : Conn}
    (h : buildResponse site os c = (os', c')) :
    SetUp { c with keepAlive := c.req.keepAlive } c' :=
  (buildResponse_built site h).setUp

theorem buildErrorResponse_setUp {os os' : Os} {c c' : Conn} {code : StatusCode}
    (h : buildErrorResponse os c code = (os', c')) : SetUp { c with keepAlive := false } c' :=
  (buildErrorResponse_plain h).2.setUp

/-! ## Actions -/

/-- Part of the response is still to be sent. -/
def Unfinished (c : Conn) : Prop :=
  (c.phase = .head ∧ c.headOff < c.head.length) ∨
    (c.phase = .sendfile ∧ c.headOff = 0 ∧ c.fileOff < c.fileLen)

/-- One action of a handler on the connection `c` of the reactor `r`. -/
inductive Action (site : Site) : Reactor × Conn → Reactor × Conn → Prop
  | rewind {r : Reactor} {c : Conn} (hs : c.state = .reading)
      (hin : c.inHead = c.inbuf.length) :
      Action site (r, c) (r, { c with inbuf := [], inHead := 0 })
  | receive {r : Reactor} {c : Conn} {n : Nat} {rest : List ReadRes} {incoming bs : List UInt8}
      (hs : c.state = .reading) (hempty : c.inbuf = [] ∧ c.inHead = 0)
      (hreads : r.os.sched.reads = .bytes n :: rest) (hsock : r.os.incoming c.fd = some incoming)
      (hbs : bs = incoming.take (min n bufferSize)) (hne : bs ≠ []) :
      Action site (r, c)
        ({ r with os := ((r.os.setReads rest).consume c.fd bs.length).log (.read c.cid bs) },
          { c with inbuf := bs })
  | retry {r : Reactor} {c : Conn} {rest : List ReadRes} (hs : c.state = .reading)
      (hreads : r.os.sched.reads = .intr :: rest) :
      Action site (r, c) ({ r with os := r.os.setReads rest }, c)
  | parse {r : Reactor} {c : Conn} {b : UInt8} {p : HttpParser} {req : HttpRequest}
      (hs : c.state = .reading) (hget : c.inbuf[c.inHead]? = some b)
      (hfeed : httpParserFeed c.parser c.req [b] = .ok (.incomplete, p, req)) :
      Action site (r, c)
        ({ r with os := r.os.log (.parsed c.cid b) },
          { c with parser := p, req := req, inHead := c.inHead + 1 })
  | request {r : Reactor} {c : Conn} {b : UInt8} {p : HttpParser} {req : HttpRequest}
      {os : Os} {c' : Conn} (hs : c.state = .reading) (hget : c.inbuf[c.inHead]? = some b)
      (hfeed : httpParserFeed c.parser c.req [b] = .ok (.done, p, req))
      (hbuild : buildResponse site ((r.os.log (.parsed c.cid b)).log (.request c.cid req))
        { c with parser := p, req := req, inHead := c.inHead + 1 } = (os, c')) :
      Action site (r, c) ({ r with os := os }, { c' with state := .writing })
  | reject {r : Reactor} {c : Conn} {b : UInt8} {p : HttpParser} {req : HttpRequest}
      {os : Os} {c' : Conn} (hs : c.state = .reading) (hget : c.inbuf[c.inHead]? = some b)
      (hfeed : httpParserFeed c.parser c.req [b] = .ok (.error, p, req))
      (hbuild : buildErrorResponse (r.os.log (.parsed c.cid b))
        { c with parser := p, req := req, inHead := c.inHead + 1 } .badRequest = (os, c')) :
      Action site (r, c) ({ r with os := os }, { c' with state := .writing })
  | answers {r : Reactor} {c : Conn} {ws : List WriteRes} (hws : ws <:+ r.os.sched.writes) :
      Action site (r, c) (r.setWrites ws, c)
  | sendHead {r : Reactor} {c : Conn} (n : Nat) (hs : c.state = .writing)
      (hphase : c.phase = .head) :
      Action site (r, c)
        ({ r with os := r.os.log (.wrote c.cid ((c.head.drop c.headOff).take n)) },
          { c with headOff := c.headOff + ((c.head.drop c.headOff).take n).length })
  | headSent {r : Reactor} {c : Conn} (hs : c.state = .writing) (hphase : c.phase = .head)
      (hall : c.head.length ≤ c.headOff) :
      Action site (r, c)
        (r, { c with
          head := []
          headOff := 0
          phase := if c.fileFd.isSome then .sendfile else .done })
  | sendBody {r : Reactor} {c : Conn} {content : List UInt8} (n : Nat) (hs : c.state = .writing)
      (hphase : c.phase = .sendfile) (hfile : c.fileFd.bind r.os.content = some content) :
      Action site (r, c)
        ({ r with os := r.os.log (.wrote c.cid ((content.drop c.fileOff).take n)) },
          { c with fileOff := c.fileOff + ((content.drop c.fileOff).take n).length })
  | bodySent {r : Reactor} {c : Conn} (hs : c.state = .writing) (hphase : c.phase = .sendfile)
      (hall : c.fileLen ≤ c.fileOff) :
      Action site (r, c)
        ({ r with os := closeFile r.os c }, { c with fileFd := none, phase := .done })
  | park {r : Reactor} {c : Conn} (hs : c.state = .writing) (hleft : Unfinished c) :
      Action site (r, c) (modEvents r c .output, c)
  | next {r : Reactor} {c : Conn} (hs : c.state = .writing) (hphase : c.phase = .done)
      (hka : c.keepAlive = true) :
      Action site (r, c) (r, { c with state := .reading, parser := httpParserInit })
  | restart {r : Reactor} {c : Conn} (hs : c.state = .writing) (hoff : c.headOff = 0) :
      Action site (r, c) (r, { c with phase := .head, headOff := 0 })
  | listen {r : Reactor} {c : Conn} (hs : c.state = .reading) :
      Action site (r, c) (modEvents r c .input, c)

/-- A sequence of actions. -/
def Actions (site : Site) : Reactor × Conn → Reactor × Conn → Prop :=
  Relation.ReflTransGen (Action site)

variable {site : Site} {r r' : Reactor} {c c' : Conn} {ref : ConnRef}

/-- What every action keeps, a sequence of actions keeps. -/
theorem Actions.rule {I : Reactor → Conn → Prop}
    (hstep : ∀ r c r' c', Action site (r, c) (r', c') → I r c → I r' c')
    (h : Actions site (r, c) (r', c')) (hI : I r c) : I r' c' := by
  have hall : ∀ x, Relation.ReflTransGen (Action site) (r, c) x → I x.1 x.2 := by
    intro x hx
    induction hx with
    | refl => exact hI
    | tail _ hlast ih => exact hstep _ _ _ _ hlast ih
  exact hall (r', c') h

/-- An action acts on the system and on its own connection. -/
structure Confined (r : Reactor) (c : Conn) (r' : Reactor) (c' : Conn) : Prop where
  reactor : r' = { r with os := r'.os }
  fd : c'.fd = c.fd
  cid : c'.cid = c.cid

theorem Action.confined (h : Action site (r, c) (r', c')) : Confined r c r' c' := by
  cases h with
  | request hs hget hfeed hbuild =>
      have hset := buildResponse_setUp hbuild
      exact ⟨rfl, hset.fd, hset.cid⟩
  | reject hs hget hfeed hbuild =>
      have hset := buildErrorResponse_setUp hbuild
      exact ⟨rfl, hset.fd, hset.cid⟩
  | _ => exact ⟨rfl, rfl, rfl⟩

theorem Actions.confined (h : Actions site (r, c) (r', c')) : Confined r c r' c' := by
  refine Actions.rule (I := Confined r c) ?_ h ⟨rfl, rfl, rfl⟩
  intro r₁ c₁ r₂ c₂ hact hconf
  have hone := hact.confined
  refine ⟨?_, hone.fd.trans hconf.fd, hone.cid.trans hconf.cid⟩
  rw [hone.reactor, hconf.reactor]

/-! ## Answers are used up from the front -/

theorem Mallocs.later {os os' : Os} (h : Mallocs os os') : os.sched.Later os'.sched := by
  obtain ⟨ms, hms, rfl⟩ := h
  exact ⟨List.suffix_rfl, List.suffix_rfl, List.suffix_rfl, hms⟩

theorem later_openFile (site : Site) (os : Os) (cid : Nat) (path : List UInt8) :
    os.sched.Later (os.openFile site cid path).2.sched := by
  unfold Os.openFile
  simp only
  split
  · exact ⟨List.suffix_rfl, List.suffix_rfl, List.tail_suffix _, List.suffix_rfl⟩
  · exact ⟨List.suffix_rfl, List.suffix_rfl, List.tail_suffix _, List.suffix_rfl⟩

theorem Built.later {os os' : Os} (h : Built site os c os' c') : os.sched.Later os'.sched := by
  have hopened := later_openFile site os c.cid (c.req.pathname site)
  cases h with
  | plain _ hm _ => exact hm.later
  | unopened _ hopen hm _ => rw [hopen] at hopened; exact hopened.trans hm.later
  | aborted _ hopen hfail hm _ =>
      have hm₁ := Mallocs.of_malloc hfail
      rw [hopen] at hopened
      exact hopened.trans (hm₁.later.trans hm.later)
  | headOnly _ hopen hm => rw [hopen] at hopened; exact hopened.trans hm.later
  | withFile _ hopen hm => rw [hopen] at hopened; exact hopened.trans hm.later

theorem consume_eq (os : Os) (fd n : Nat) :
    os.consume fd n = { os with fds := (os.consume fd n).fds } := by
  unfold Os.consume
  split
  · rfl
  · rfl

theorem sched_closeFile (os : Os) (c : Conn) : (closeFile os c).sched = os.sched := by
  unfold closeFile
  split
  · rfl
  · rfl

theorem sched_modEvents (r : Reactor) (c : Conn) (i : Interest) :
    (modEvents r c i).os.sched = r.os.sched := by
  unfold modEvents Os.epollMod
  simp only
  split
  · rfl
  · rfl

theorem Action.later (h : Action site (r, c) (r', c')) : r.os.sched.Later r'.os.sched := by
  cases h with
  | receive _ _ hreads =>
      rw [consume_eq]
      exact ⟨hreads ▸ List.suffix_cons .., List.suffix_rfl, List.suffix_rfl, List.suffix_rfl⟩
  | retry _ hreads =>
      exact ⟨hreads ▸ List.suffix_cons .., List.suffix_rfl, List.suffix_rfl, List.suffix_rfl⟩
  | request hs hget hfeed hbuild => exact (buildResponse_built site hbuild).later
  | reject hs hget hfeed hbuild => exact (buildErrorResponse_plain hbuild).1.later
  | answers hws => exact ⟨List.suffix_rfl, hws, List.suffix_rfl, List.suffix_rfl⟩
  | bodySent => simp only [sched_closeFile]; exact .refl _
  | park => rw [sched_modEvents]; exact .refl _
  | listen => rw [sched_modEvents]; exact .refl _
  | _ => exact .refl _

theorem Actions.later (h : Actions site (r, c) (r', c')) : r.os.sched.Later r'.os.sched :=
  Actions.rule (I := fun r' _ => r.os.sched.Later r'.os.sched)
    (fun _ _ _ _ hact hl => hl.trans hact.later) h (.refl _)

/-! ## Outcomes -/

/-- A connection between two events: it waits for input with all of it parsed, or for the
socket with part of a response left. It may have lost its registration. -/
inductive Waiting (r : Reactor) (c : Conn) : Prop
  | input (hs : c.state = .reading) (hin : c.inHead = c.inbuf.length) (hoff : c.headOff = 0)
      (hint : r.os.interest c.fd = some .input ∨ r.os.interest c.fd = none)
  | output (hs : c.state = .writing) (hin : c.inHead ≤ c.inbuf.length) (hleft : Unfinished c)
      (hint : r.os.interest c.fd = some .output ∨ r.os.interest c.fd = none)

/-- A call has failed: the schedule says so, or the descriptor is not open. -/
def Failed (s : Sched) (r : Reactor) (c : Conn) : Prop :=
  ¬ s.Benign ∨ r.os.incoming c.fd = none ∨
    (c.state = .writing ∧ c.phase = .sendfile ∧ c.fileFd.bind r.os.content = none)

/-- Why a handler closes the connection `c`, under the schedule `s`. -/
inductive Closing (s : Sched) (r : Reactor) (c : Conn) : Prop
  | eof (hs : c.state = .reading) (hin : c.inHead = c.inbuf.length)
      (hnext : r.os.sched.reads.head? = some .eof)
  | broken (hs : c.state = .reading) (hin : c.inHead = c.inbuf.length)
      (hnext : r.os.sched.reads.head? = some .fail)
  | lost (hs : c.state = .reading) (hsock : r.os.incoming c.fd = none)
  | failed (hs : c.state = .writing) (h : Failed s r c)
  | last (hs : c.state = .writing) (hphase : c.phase = .done) (hka : c.keepAlive = false)

/-- How the handling of an event can end. -/
inductive Outcome (site : Site) (r : Reactor) (c : Conn) : Reactor → ConnRef → Prop
  | live {r' : Reactor} {c' : Conn} (h : Actions site (r, c) (r', c')) (hwait : Waiting r' c') :
      Outcome site r c r' (.live c')
  | closed {r' : Reactor} {c' : Conn} (h : Actions site (r, c) (r', c'))
      (hwhy : Closing r.os.sched r' c') :
      Outcome site r c (connClose r' c') .closed
  | closedFile {r' : Reactor} {c' : Conn} (h : Actions site (r, c) (r', c'))
      (hs : c'.state = .writing) (hphase : c'.phase = .sendfile)
      (hwhy : Failed r.os.sched r' c') :
      Outcome site r c
        (connClose { r' with os := closeFile r'.os c' } { c' with fileFd := none }) .closed
  | crashed {r' : Reactor} {c' : Conn} {b : UInt8} {f : Fault}
      (h : Actions site (r, c) (r', c')) (hs : c'.state = .reading)
      (hget : c'.inbuf[c'.inHead]? = some b)
      (hfeed : httpParserFeed c'.parser c'.req [b] = .error f) :
      Outcome site r c { r' with os := r'.os.log (.parsed c'.cid b) } (.crashed f)

theorem Failed.earlier {s s' : Sched} (hl : s.Later s') (h : Failed s' r c) : Failed s r c := by
  rcases h with hnot | h
  · exact .inl (fun hb => hnot (hb.later hl))
  · exact .inr h

theorem Closing.earlier {s s' : Sched} (hl : s.Later s') (h : Closing s' r c) : Closing s r c := by
  cases h with
  | eof hs hin hnext => exact .eof hs hin hnext
  | broken hs hin hnext => exact .broken hs hin hnext
  | lost hs hsock => exact .lost hs hsock
  | failed hs h => exact .failed hs (h.earlier hl)
  | last hs hphase hka => exact .last hs hphase hka

theorem Outcome.after (h : Actions site (r, c) (r', c')) {r'' : Reactor}
    (hout : Outcome site r' c' r'' ref) : Outcome site r c r'' ref := by
  cases hout with
  | live h' hwait => exact .live (h.trans h') hwait
  | closed h' hwhy => exact .closed (h.trans h') (hwhy.earlier h.later)
  | closedFile h' hs hphase hwhy => exact .closedFile (h.trans h') hs hphase (hwhy.earlier h.later)
  | crashed h' hs hget hfeed => exact .crashed (h.trans h') hs hget hfeed

theorem connClose_conns (r : Reactor) (c : Conn) {k : Nat} (hk : k ≠ c.fd) :
    (connClose r c).conns k = r.conns k :=
  Function.update_of_ne hk ..

theorem connClose_gone (r : Reactor) (c : Conn) : (connClose r c).conns c.fd = none :=
  Function.update_self ..

/-- A connection that is there after a close was there before, elsewhere. -/
theorem conns_of_connClose {k : Nat} {d : Conn} (h : (connClose r c).conns k = some d) :
    r.conns k = some d ∧ k ≠ c.fd := by
  rcases eq_or_ne k c.fd with rfl | hne
  · rw [connClose_gone] at h
    cases h
  · rw [connClose_conns _ _ hne] at h
    exact ⟨h, hne⟩

theorem Outcome.gone (h : Outcome site r c r' .closed) : r'.conns c.fd = none := by
  cases h with
  | closed hacts => rw [← hacts.confined.fd]; exact connClose_gone _ _
  | closedFile hacts => rw [← hacts.confined.fd]; exact connClose_gone _ _

/-- An event of one connection leaves the others where they are. -/
theorem Outcome.others (h : Outcome site r c r' ref) {k : Nat} (hk : k ≠ c.fd) :
    r'.conns k = r.conns k := by
  cases h with
  | live hacts => rw [hacts.confined.reactor]
  | crashed hacts => rw [hacts.confined.reactor]
  | closed hacts =>
      have hconf := hacts.confined
      rw [connClose_conns _ _ (by rw [hconf.fd]; exact hk), hconf.reactor]
  | closedFile hacts =>
      have hconf := hacts.confined
      rw [connClose_conns _ _ (by rw [← hconf.fd] at hk; exact hk), hconf.reactor]

theorem Outcome.crashed_eq (h : Outcome site r c r' ref) : r'.crashed = r.crashed := by
  cases h with
  | live hacts => rw [hacts.confined.reactor]
  | crashed hacts => rw [hacts.confined.reactor]
  | closed hacts =>
      have hcr := congrArg Reactor.crashed hacts.confined.reactor
      exact hcr
  | closedFile hacts =>
      have hcr := congrArg Reactor.crashed hacts.confined.reactor
      exact hcr

end HttpServer
