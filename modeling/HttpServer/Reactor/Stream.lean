import HttpServer.Reactor.Serving

set_option autoImplicit false

/-! # The output does not depend on the schedule

Every run of events on one connection keeps to the dialogue over what the connection has parsed.
Two runs on one stream can therefore differ only in how far they are.

`Watched` is the invariant: the connection is served and its history is a prefix of the dialogue
(`Serving`), it is gone with its history final (`Finished`), or the parser has written outside an
array; there is no other connection. It is kept by every step, and accepting the connection
establishes it. A run that ends with nothing left to read has received the whole stream or closed
the connection on the way, and in both cases what it sent is determined by the stream
(`Session.conforms`).
-/

namespace HttpServer

open CLib

variable {site : Site} {stream : List UInt8} {cid fd : Nat} {r r' : Reactor} {c : Conn}

/-! ## One event -/

/-- An event whose handling meets no failure. -/
structure Event.Benign (e : Event) : Prop where
  sched : e.sched.Benign
  err : e.evs.err = false
  accepts : e.accepts = []

/-- How the connection `cid` at `fd` stands: it is served, it is gone, or the parser has
written outside an array. -/
inductive Standing (site : Site) (stream : List UInt8) (cid fd : Nat) (r : Reactor) : Prop
  | live (c : Conn) (hcr : r.crashed = none) (hc : r.conns fd = some c)
      (hserve : Serving site stream r.os c) (hcid : c.cid = cid)
  | gone (hnone : r.conns fd = none) (hfin : Finished site stream r.os cid)
  | fault (f : Fault) (hcr : r.crashed = some f) (hfin : Finished site stream r.os cid)
      (hstage : (r.os.dialogue cid).stage = .fault)

/-- The reactor serves connection `cid` at `fd`, and no other. -/
structure Watched (site : Site) (stream : List UInt8) (cid fd : Nat) (r : Reactor) : Prop where
  alone : ∀ k, k ≠ fd → r.conns k = none
  standing : Standing site stream cid fd r

theorem Serving.setSched {os : Os} (h : Serving site stream os c) {s : Sched} (hs : s.Benign) :
    Serving site stream { os with sched := s } c :=
  ⟨h.attuned.still rfl, h.buffered.of_history rfl, ⟨h.intake.sock, h.intake.armed⟩,
    ⟨h.reply.output, h.reply.file, h.reply.phase⟩, hs⟩

theorem Watched.begin (h : Watched site stream cid fd r) {e : Event} (he : e.Benign) :
    Watched site stream cid fd (r.begin e) := by
  refine ⟨h.alone, ?_⟩
  cases h.standing with
  | live c hcr hc hserve hcid => exact .live c hcr hc (hserve.setSched he.sched) hcid
  | gone hnone hfin => exact .gone hnone (hfin.of_history rfl)
  | fault f hcr hfin hstage => exact .fault f hcr (hfin.of_history rfl) hstage

/-- What a handler leaves of the connection is put back into the reactor. -/
theorem Watched.settle (h : Watched site stream cid fd r) (hcr : r.crashed = none)
    (hc : r.conns fd = some c) (hfd : c.fd = fd) {ref : ConnRef}
    (hout : Outcome site r c r' ref) : Watched site stream cid fd (r'.settle fd ref) := by
  have hserve : Serving site stream r.os c ∧ c.cid = cid := by
    cases h.standing with
    | live c' _ hc' hserve hcid =>
        cases hc.symm.trans hc'
        exact ⟨hserve, hcid⟩
    | gone hnone _ => cases hc.symm.trans hnone
    | fault f hcr' _ _ => cases hcr.symm.trans hcr'
  have hkept := hout.kept hserve.1
  subst hfd
  refine ⟨fun k hk => (hout.settle_of_ne hk).trans (h.alone k hk), ?_⟩
  rw [hserve.2] at hkept
  cases ref with
  | live c' =>
      obtain ⟨hserve', hcid', _⟩ := hkept
      exact .live c' (hout.crashed_eq.trans hcr) (Function.update_self ..) hserve' hcid'
  | closed => exact .gone hout.gone hkept
  | crashed f => exact .fault f rfl hkept.1 hkept.2

theorem Step.watched {e : Event} (hstep : Step site r e r') (he : e.Benign)
    (h : Watched site stream cid fd r) : Watched site stream cid fd r' := by
  have hbegin := h.begin he
  cases hstep with
  | idle => exact h
  | woken =>
      refine ⟨hbegin.alone, ?_⟩
      cases hbegin.standing with
      | live c hcr hc hserve hcid => exact .live c hcr hc hserve hcid
      | gone hnone hfin => exact .gone hnone hfin
      | fault f hcr hfin hstage => exact .fault f hcr hfin hstage
  | accepted =>
      rw [he.accepts]
      exact hbegin
  | ignored => exact hbegin
  | hangup _ _ _ _ _ herr => cases herr.symm.trans he.err
  | handled _ hcr hc hfd _ _ _ hout =>
      have hat : e.fd = fd := by
        by_contra hne
        cases hc.symm.trans (h.alone e.fd hne)
      rw [hat] at hc hfd ⊢
      exact hbegin.settle hcr hc hfd hout

/-! ## A connection from its start -/

theorem Finished.fresh {os : Os} (h : os.history cid = ⟨[], [], [], []⟩) (stream : List UInt8) :
    Finished site stream os cid := by
  have hrec : os.received cid = [] := congrArg History.received h
  have hpar : os.parsed cid = [] := congrArg History.parsed h
  have hsent : os.sent cid = [] := congrArg History.sent h
  have hdia : os.dialogue cid = Transcript.start := congrArg Transcript.start.run hpar
  refine ⟨?_, ?_, ?_, fun h0 => ?_, fun _ _ _ => ?_⟩
  · rw [hrec]; exact List.nil_prefix
  · rw [hpar]; exact List.nil_prefix
  · rw [hsent, hdia]; rfl
  · rw [hdia] at h0; cases h0
  · rw [hpar, hrec]

theorem Serving.fresh {os : Os} (h : os.history cid = ⟨[], [], [], []⟩)
    (hsock : os.incoming fd = some stream) (harmed : (os.interest fd).isSome)
    (hb : os.sched.Benign) : Serving site stream os (Conn.calloc fd cid) := by
  have hrec : os.received cid = [] := congrArg History.received h
  have hfin : Finished site stream os cid := .fresh h stream
  refine ⟨.fresh _ h, .fresh _ h, ⟨⟨stream, hsock, ?_⟩, harmed⟩,
    ⟨?_, fun h0 => (by cases h0), fun h0 => (by cases h0)⟩, hb⟩
  · change stream = os.received cid ++ stream
    rw [hrec]
    rfl
  · change os.sent cid ++ [] = _
    rw [List.append_nil]
    exact hfin.output

/-- A fresh reactor that accepts one connection serves it. -/
theorem Accepted.watched {a : AcceptRes} (hacc : Accepted r a r') (hconns : ∀ k, r.conns k = none)
    (hcr : r.crashed = none) (htrace : r.os.trace = []) (hsched : r.os.sched.Benign) :
    Watched site a.incoming r.os.serial (r.os.fds.pick a.hint) r' := by
  have hhist := history_acceptedOs_nil htrace a
  cases hacc with
  | refused =>
      refine ⟨fun k _ => hconns k, .gone (hconns _) (.fresh ?_ _)⟩
      rw [Os.history_close]
      exact hhist _
  | welcomed =>
      refine ⟨fun k hk => (Function.update_of_ne hk ..).trans (hconns k),
        .live _ hcr (Function.update_self ..) (.fresh (hhist _) ?_ ?_ hsched) rfl⟩
      · simp [Os.incoming, Os.epollAdd, Os.epollCtl, Reactor.acceptedOs, Os.alloc, Os.log]
      · simp [Os.epollAdd, Os.epollCtl]

/-- A run of the reactor on a single connection whose client sends `stream`: the descriptors
the process has open before, the one it accepts the connection at, and the events, none of
which meets a failure. -/
structure Session (stream : List UInt8) where
  inherited : List Nat
  hint : Nat
  events : List Event
  benign : ∀ e ∈ events, e.Benign

namespace Session

variable (s : Session stream)

/-- The descriptor of the connection. -/
def connFd : Nat := (reactorCreate s.inherited).os.fds.pick s.hint

/-- The number of the connection: it is the fourth descriptor the reactor opens. -/
def connId : Nat := (reactorCreate s.inherited).os.serial

/-- The reactor at the end of the run. -/
def final (site : Site) : Reactor :=
  reactorRun site (acceptOne (reactorCreate s.inherited) ⟨s.hint, stream, true⟩) s.events

def received (site : Site) : List UInt8 := (s.final site).os.received s.connId

def parsed (site : Site) : List UInt8 := (s.final site).os.parsed s.connId

def sent (site : Site) : List UInt8 := (s.final site).os.sent s.connId

/-- Nothing is left to send. -/
def Quiet (site : Site) : Prop :=
  ∀ c, (s.final site).conns s.connFd = some c → c.unsent (s.final site).os = []

theorem watched (site : Site) :
    AtRest (s.final site) ∧ Watched site stream s.connId s.connFd (s.final site) := by
  have hbenign : (reactorCreate s.inherited).os.sched.Benign :=
    ⟨by simp [reactorCreate, reactorCreateCtl, bootCtl, Os.alloc, Os.epollAdd, Os.epollCtl],
      by simp [reactorCreate, reactorCreateCtl, bootCtl, Os.alloc, Os.epollAdd, Os.epollCtl],
      by simp [reactorCreate, reactorCreateCtl, bootCtl, Os.alloc, Os.epollAdd, Os.epollCtl],
      by simp [reactorCreate, reactorCreateCtl, bootCtl, Os.alloc, Os.epollAdd, Os.epollCtl]⟩
  have hrest := reactorCreate_atRest s.inherited
  have hacc := acceptOne_accepted (reactorCreate s.inherited) ⟨s.hint, stream, true⟩
  refine reactorRun_rule site (G := fun _ e => e.Benign)
    (fun _ _ _ _ he h hstep => hstep.watched he h) s.events (along_of_forall s.benign _)
    ⟨hacc.orderly rfl hrest.orderly, hacc.numbered hrest.numbered⟩
    (hacc.watched (fun _ => rfl) rfl rfl hbenign)

end Session

/-- **What a run on one connection does.** It reads a part of the stream; `dialogue` is the
dialogue over that part, with its exchanges cut off the front of what was read. The bytes
sent are a prefix of its output, and all of it once nothing is left to send. When the
dialogue is over no byte after its last exchange is parsed, and the connection is closed as
soon as nothing is left to send. -/
structure Session.Conforms (site : Site) (s : Session stream) (dialogue : Transcript) : Prop where
  dialogue_eq : dialogue = Transcript.start.run (s.received site)
  cut : dialogue.Cut (s.received site)
  received : s.received site <+: stream
  parsed : s.parsed site <+: s.received site
  sent : s.sent site <+: dialogue.output site
  complete : s.Quiet site → s.sent site = dialogue.output site
  stops : dialogue.stage = .ended → s.parsed site <+: dialogue.answered
  closes : dialogue.stage = .ended → s.Quiet site → (s.final site).conns s.connFd = none

/-- A connection that waits for the socket has something left to send. -/
theorem Serving.unsent_ne_nil (h : Serving site stream r.os c) (hs : c.state = .writing)
    (hleft : Unfinished c) : c.unsent r.os ≠ [] := by
  rcases hleft with ⟨_, hlt⟩ | ⟨hphase, _, hlt⟩
  · rw [Conn.unsent, if_pos hs]
    intro h0
    have hdrop := List.drop_eq_nil_iff.mp (List.append_eq_nil_iff.mp h0).1
    omega
  · obtain ⟨k, hk⟩ := Option.isSome_iff_exists.mp ((h.reply.phase hs).sendfile hphase).2
    obtain ⟨_, content, hcontent, hlen, _⟩ := h.reply.file hs k hk
    have hfile : c.fileFd.bind r.os.content = some content := by rw [hk]; exact hcontent
    have hnow := h.reply.draft.unsent_sendfile hs hphase hfile c.fileOff
    intro h0
    have hdrop := List.drop_eq_nil_iff.mp (hnow.symm.trans h0)
    omega

/-- A connection that is live and has nothing left to send has parsed all it has read. -/
theorem Serving.reading_of_quiet (h : Serving site stream r.os c) (hwait : Waiting r c)
    (hquiet : c.unsent r.os = []) :
    c.state = .reading ∧ r.os.parsed c.cid = r.os.received c.cid := by
  cases hwait with
  | input hs hin _ _ =>
      refine ⟨hs, ?_⟩
      rw [h.buffered.buffer, hin, List.drop_length, List.append_nil]
  | output hs _ hleft _ => exact absurd hquiet (h.unsent_ne_nil hs hleft)

theorem Finished.dialogue_received {os : Os} {cid : Nat} (h : Finished site stream os cid) :
    Transcript.start.run (os.received cid) = os.dialogue cid := by
  by_cases hparsing : ∃ p req, (os.dialogue cid).stage = .parsing p req
  · obtain ⟨p, req, hstage⟩ := hparsing
    rw [Os.dialogue, h.open_ p req hstage]
  · exact Transcript.run_of_not_parsing h.parsed (fun p req h0 => hparsing ⟨p, req, h0⟩)

/-- A connection that is gone has done all its dialogue asks for. -/
theorem Finished.conforms {s : Session stream}
    (h : Finished site stream (s.final site).os s.connId)
    (hgone : (s.final site).conns s.connFd = none ∨
      ((s.final site).os.dialogue s.connId).stage = .fault) :
    s.Conforms site (Transcript.start.run (s.received site)) := by
  have hdia : Transcript.start.run (s.received site) =
      (s.final site).os.dialogue s.connId := h.dialogue_received
  refine ⟨rfl, Transcript.cut_run _, h.received, h.parsed, ?_, fun _ => ?_, fun hover => ?_,
    fun hover _ => ?_⟩
  · rw [hdia, ← h.output]
    exact List.prefix_rfl
  · rw [hdia, ← h.output]
    rfl
  · exact Transcript.prefix_answered h.parsed hover h.whole
  · rcases hgone with hnone | hfault
    · exact hnone
    · rw [hdia, hfault] at hover
      cases hover

/-- So has a live one, up to what is left in its buffers. -/
theorem Serving.conforms {s : Session stream} (h : Serving site stream (s.final site).os c)
    (hc : (s.final site).conns s.connFd = some c) (hcid : c.cid = s.connId)
    (hwait : Waiting (s.final site) c) :
    s.Conforms site (Transcript.start.run (s.received site)) := by
  have hparsed : s.parsed site <+: s.received site := by
    rw [Session.parsed, Session.received, ← hcid]
    exact h.buffered.parsed_prefix
  -- the invariant, read for this session
  have hwhole : (Transcript.start.run (s.parsed site)).stage = .ended →
      (Transcript.start.run (s.parsed site)).answered = s.parsed site := by
    rw [Session.parsed, ← hcid]
    exact h.attuned.whole
  have hquiet : s.Quiet site → c.state = .reading ∧ s.parsed site = s.received site := by
    intro hq
    rw [Session.parsed, Session.received, ← hcid]
    exact h.reading_of_quiet hwait (hq c hc)
  refine ⟨rfl, Transcript.cut_run _, ?_, hparsed, ?_, fun hq => ?_, fun hover => ?_,
    fun hover hq => ?_⟩
  · rw [Session.received, ← hcid]
    exact h.intake.received_prefix
  · have hout : s.sent site <+: (Transcript.start.run (s.parsed site)).output site := by
      rw [Session.sent, Session.parsed, ← hcid]
      exact ⟨_, h.reply.output⟩
    exact hout.trans (Transcript.output_prefix site _ hparsed)
  · obtain ⟨hs, heq⟩ := hquiet hq
    rw [← heq, Session.sent, Session.parsed, ← hcid]
    exact h.reply.sent_of_reading hs
  · exact Transcript.prefix_answered hparsed hover hwhole
  · obtain ⟨hs, heq⟩ := hquiet hq
    have hstage := h.attuned.reading hs
    rw [← heq, Session.parsed, ← hcid] at hover
    rw [Os.dialogue, hover] at hstage
    cases hstage

theorem Session.conforms (site : Site) (s : Session stream) :
    s.Conforms site (Transcript.start.run (s.received site)) := by
  obtain ⟨hrest, hwatched⟩ := s.watched site
  cases hwatched.standing with
  | live c hcr hc hserve hcid => exact hserve.conforms hc hcid (hrest.orderly hcr _ c hc).2
  | gone hnone hfin => exact hfin.conforms (.inl hnone)
  | fault f _ hfin hstage => exact hfin.conforms (.inr hstage)

/-- **The output does not depend on the schedule.** Two runs on one stream, however the
reads, writes and events fall, have written bytes one of which is a prefix of the other, and
the same bytes once they have read the same input and have nothing left to send. Each of them
conforms to the dialogue over what it has read: one answer for each request head, in order,
up to the first that ends the connection. -/
theorem output_independent_of_schedule (site : Site) (stream : List UInt8)
    (s₁ s₂ : Session stream) :
    (s₁.sent site <+: s₂.sent site ∨ s₂.sent site <+: s₁.sent site) ∧
    (s₁.received site = s₂.received site → s₁.Quiet site → s₂.Quiet site →
      s₁.sent site = s₂.sent site) ∧
    s₁.Conforms site (Transcript.start.run (s₁.received site)) ∧
    s₂.Conforms site (Transcript.start.run (s₂.received site)) := by
  have h₁ := s₁.conforms site
  have h₂ := s₂.conforms site
  refine ⟨?_, ?_, h₁, h₂⟩
  · have hout₁ := h₁.sent.trans (Transcript.output_prefix site _ h₁.received)
    have hout₂ := h₂.sent.trans (Transcript.output_prefix site _ h₂.received)
    exact List.prefix_or_prefix_of_prefix hout₁ hout₂
  · intro heq hq₁ hq₂
    rw [h₁.complete hq₁, h₂.complete hq₂, heq]

/-! A request for a file that is not there, read and answered in one go, and the same request
read in two parts over two events, with an interrupted and a partial write. -/

/-- A site without files. -/
def emptySite : Site := ⟨ascii "www", fun _ => .absent, fun _ _ => rfl⟩

def sampleStream : List UInt8 := ascii "GET /a HTTP/1.0\n\n"

def wholeSession : Session sampleStream where
  inherited := [0, 1, 2]
  hint := 6
  events := [⟨6, ⟨true, false, false⟩, ⟨[.bytes 100], [.bytes 1000], [], []⟩, []⟩]
  benign := by
    intro e he
    rw [List.mem_singleton.mp he]
    exact ⟨⟨by simp, by simp, by simp, by simp⟩, rfl, rfl⟩

def splitSession : Session sampleStream where
  inherited := []
  hint := 9
  events :=
    [⟨9, ⟨true, false, false⟩, ⟨[.bytes 5, .again], [], [], []⟩, []⟩,
     ⟨9, ⟨true, true, false⟩, ⟨[.intr, .bytes 100], [.intr, .bytes 10, .again], [], []⟩, []⟩,
     ⟨9, ⟨false, true, false⟩, ⟨[], [.bytes 20, .bytes 1000], [], []⟩, []⟩]
  benign := by
    intro e he
    simp only [List.mem_cons, List.not_mem_nil, or_false] at he
    rcases he with rfl | rfl | rfl
    · exact ⟨⟨by simp, by simp, by simp, by simp⟩, rfl, rfl⟩
    · exact ⟨⟨by simp, by simp, by simp, by simp⟩, rfl, rfl⟩
    · exact ⟨⟨by simp, by simp, by simp, by simp⟩, rfl, rfl⟩

theorem Session.quiet_of_closed (s : Session stream)
    (h : (s.final site).conns s.connFd = none) : s.Quiet site := by
  intro c hc
  rw [h] at hc
  cases hc

theorem output_independent_of_schedule_sample :
    wholeSession.sent emptySite = splitSession.sent emptySite ∧
      wholeSession.sent emptySite = simpleReply .notFound (ascii "404 Not Found\n") false := by
  refine ⟨(output_independent_of_schedule emptySite sampleStream wholeSession splitSession).2.1
    ?_ (Session.quiet_of_closed _ ?_) (Session.quiet_of_closed _ ?_), ?_⟩
  · decide +kernel
  · decide +kernel
  · decide +kernel
  · decide +kernel

end HttpServer
