import HttpServer.Reactor.Dialogue

set_option autoImplicit false

/-! # Serving a connection

A connection that is served without failures keeps to its dialogue on both sides. What it has
read is what it has parsed and what is left in its buffer (`Intake`); what it has sent, and
what is left of the current response, are the answers of the dialogue (`Reply`). The actions
of the handlers keep both, and when a handler closes the connection everything is sent
(`Finished`).
-/

namespace HttpServer

open CLib

variable {site : Site} {stream out : List UInt8} {os os' : Os} {r r' : Reactor} {c c' : Conn}
  {ref : ConnRef}

/-! ## The invariant -/

/-- The bytes of the current response that are still to be written. -/
def Conn.unsent (os : Os) (c : Conn) : List UInt8 :=
  if c.state = .writing then c.head.drop c.headOff ++ c.body os else []

/-- The input side of a connection whose client sends `stream`: what has not been read is
still to come, and the connection is told of it. -/
structure Intake (stream : List UInt8) (os : Os) (c : Conn) : Prop where
  sock : ∃ rest, os.incoming c.fd = some rest ∧ stream = os.received c.cid ++ rest
  armed : (os.interest c.fd).isSome

/-- While the file is sent the head is gone; afterwards the file is gone as well. -/
structure InPhase (c : Conn) : Prop where
  sendfile : c.phase = .sendfile → c.head = [] ∧ c.fileFd.isSome
  done : c.phase = .done → c.head = [] ∧ c.fileFd = none

/-- The output side of a connection that has sent `out` once nothing is left. -/
structure Draft (out : List UInt8) (os : Os) (c : Conn) : Prop where
  output : os.sent c.cid ++ c.unsent os = out
  file : c.state = .writing → FileOk os c
  phase : c.state = .writing → InPhase c

/-- The output side of a connection. -/
structure Reply (site : Site) (os : Os) (c : Conn) : Prop where
  output : os.sent c.cid ++ c.unsent os = (os.dialogue c.cid).output site
  file : c.state = .writing → FileOk os c
  phase : c.state = .writing → InPhase c

structure Serving (site : Site) (stream : List UInt8) (os : Os) (c : Conn) : Prop where
  attuned : Attuned os c
  buffered : Buffered os c
  intake : Intake stream os c
  reply : Reply site os c
  benign : os.sched.Benign

/-- A connection that is gone has sent everything its dialogue asks for. -/
structure Finished (site : Site) (stream : List UInt8) (os : Os) (cid : Nat) : Prop where
  received : os.received cid <+: stream
  parsed : os.parsed cid <+: os.received cid
  output : os.sent cid = (os.dialogue cid).output site
  whole : (os.dialogue cid).stage = .ended → (os.dialogue cid).answered = os.parsed cid
  open_ : ∀ p req, (os.dialogue cid).stage = .parsing p req → os.parsed cid = os.received cid

theorem Intake.received_prefix (h : Intake stream os c) : os.received c.cid <+: stream := by
  obtain ⟨rest, _, hrest⟩ := h.sock
  exact ⟨rest, hrest.symm⟩

theorem Buffered.parsed_prefix (h : Buffered os c) : os.parsed c.cid <+: os.received c.cid :=
  ⟨_, h.buffer.symm⟩

theorem Intake.fds_get (h : Intake stream os c) : os.fds.get c.fd ≠ none := by
  obtain ⟨rest, hrest, _⟩ := h.sock
  intro hnone
  rw [Os.incoming, hnone] at hrest
  cases hrest

theorem Reply.sent_of_reading (h : Reply site os c) (hs : c.state = .reading) :
    os.sent c.cid = (os.dialogue c.cid).output site := by
  have hout := h.output
  rw [Conn.unsent, if_neg (by rw [hs]; simp), List.append_nil] at hout
  exact hout

/-! ## Input -/

/-- The input side after an action that does not read. -/
theorem Intake.still (h : Intake stream os c) (hfd : c'.fd = c.fd) (hcid : c'.cid = c.cid)
    (hsock : os'.incoming c.fd = os.incoming c.fd) (harmed : (os'.interest c.fd).isSome)
    (hrec : os'.received c.cid = os.received c.cid) : Intake stream os' c' := by
  refine ⟨?_, by rw [hfd]; exact harmed⟩
  rw [hfd, hcid, hsock, hrec]
  exact h.sock

/-- What a `read` takes is what came next. -/
theorem Intake.receive (h : Intake stream os c) {incoming bs : List UInt8}
    (hsock : os.incoming c.fd = some incoming) (hpre : bs <+: incoming) :
    Intake stream ((os.consume c.fd bs.length).log (.read c.cid bs)) { c with inbuf := bs } := by
  obtain ⟨hrec, _, _⟩ := log_receive os c.cid c.fd bs
  obtain ⟨rest, hrest⟩ := hpre
  refine ⟨⟨rest, ?_, ?_⟩, ?_⟩
  · change (os.consume c.fd bs.length).incoming c.fd = some rest
    rw [incoming_consume hsock, ← hrest, List.drop_left]
  · obtain ⟨rest', hrest', hstream⟩ := h.sock
    cases hsock.symm.trans hrest'
    rw [hrec, List.append_assoc, hrest, hstream]
  · have harmed := h.armed
    rw [consume_eq]
    exact harmed

/-! ## Output -/

/-- The output side of a reading connection, after an action that sends nothing and after
which the dialogue has no further answer. -/
theorem Reply.of_reading (h : Reply site os c) (hs : c.state = .reading)
    (hcid : c'.cid = c.cid) (hs' : c'.state = .reading)
    (hsent : os'.sent c.cid = os.sent c.cid)
    (hdia : (os'.dialogue c.cid).output site = (os.dialogue c.cid).output site) :
    Reply site os' c' := by
  have hw : c'.state ≠ .writing := by rw [hs']; simp
  refine ⟨?_, fun h0 => absurd h0 hw, fun h0 => absurd h0 hw⟩
  rw [Conn.unsent, if_neg hw, List.append_nil, hcid, hsent, hdia]
  exact h.sent_of_reading hs

/-- The output side of a writing connection, after an action that parses nothing: what was to
be sent is what has been sent since and what is left. -/
theorem Draft.of_writing (h : Draft out os c) (hcid : c'.cid = c.cid)
    (bs : List UInt8) (hsent : os'.sent c.cid = os.sent c.cid ++ bs)
    (hleft : c.unsent os = bs ++ c'.unsent os') (hfile : FileOk os' c') (hphase : InPhase c') :
    Draft out os' c' := by
  refine ⟨?_, fun _ => hfile, fun _ => hphase⟩
  rw [hcid, hsent, ← h.output, hleft, List.append_assoc]

/-- A response that is set up is what is left to send. -/
theorem Ready.draft {c₁ : Conn} {reply : List UInt8} {ka : Bool} (h : Ready os' c₁ c' reply ka)
    (hsent : os'.sent c₁.cid = out) : Draft (out ++ reply) os' { c' with state := .writing } := by
  obtain ⟨hframe, hfile, hwhole⟩ := h
  have hcid : c'.cid = c₁.cid := by rw [hframe]
  have hoff : c'.headOff = 0 := by rw [hframe]
  have hphase : c'.phase = .head := by rw [hframe]
  refine ⟨?_, fun _ => hfile, fun _ => ⟨fun h0 => ?_, fun h0 => ?_⟩⟩
  · rw [Conn.unsent, if_pos rfl, ← hwhole, ← hsent, hoff, ← hcid]
    rfl
  · cases hphase.symm.trans h0
  · cases hphase.symm.trans h0

theorem take_append_drop_length {α : Type} (l : List α) (k n : Nat) :
    (l.drop k).take n ++ l.drop (k + ((l.drop k).take n).length) = l.drop k := by
  rw [← List.drop_drop]
  exact List.prefix_iff_eq_append.mp (List.take_prefix n _)

theorem InPhase.headSent (c : Conn) :
    InPhase { c with
      head := []
      headOff := 0
      phase := if c.fileFd.isSome then .sendfile else .done } := by
  refine ⟨fun h0 => ⟨rfl, ?_⟩, fun h0 => ⟨rfl, ?_⟩⟩
  · by_contra hno
    simp only [hno] at h0
    cases h0
  · cases hfile : c.fileFd with
    | none => rfl
    | some k =>
        simp only [hfile] at h0
        cases h0

theorem Draft.sendHead (h : Draft out os c) (hs : c.state = .writing) (n : Nat) :
    Draft out (os.log (.wrote c.cid ((c.head.drop c.headOff).take n)))
      { c with headOff := c.headOff + ((c.head.drop c.headOff).take n).length } := by
  refine h.of_writing rfl ((c.head.drop c.headOff).take n) (by simp [Ev.sent]) ?_
    (h.file hs)
    ⟨(h.phase hs).sendfile, (h.phase hs).done⟩
  rw [Conn.unsent, Conn.unsent, if_pos hs, if_pos hs, ← List.append_assoc,
    take_append_drop_length]
  rfl

theorem Draft.headSent (h : Draft out os c) (hs : c.state = .writing)
    (hall : c.head.length ≤ c.headOff) :
    Draft out os { c with
      head := []
      headOff := 0
      phase := if c.fileFd.isSome then .sendfile else .done } := by
  refine h.of_writing rfl [] (List.append_nil _).symm ?_ (h.file hs) (.headSent c)
  rw [Conn.unsent, Conn.unsent, if_pos hs, if_pos hs, List.drop_of_length_le hall]
  rfl

/-- What is left while the file is sent. -/
theorem Draft.unsent_sendfile (h : Draft out os c) (hs : c.state = .writing)
    (hphase : c.phase = .sendfile) {content : List UInt8}
    (hfile : c.fileFd.bind os.content = some content) (off : Nat) :
    Conn.unsent os { c with fileOff := off } = content.drop off := by
  have hhead := ((h.phase hs).sendfile hphase).1
  simp [Conn.unsent, hs, hhead, Conn.body, hfile]

theorem Draft.sendBody (h : Draft out os c) (hs : c.state = .writing)
    (hphase : c.phase = .sendfile) {content : List UInt8}
    (hfile : c.fileFd.bind os.content = some content) (n : Nat) :
    Draft out (os.log (.wrote c.cid ((content.drop c.fileOff).take n)))
      { c with fileOff := c.fileOff + ((content.drop c.fileOff).take n).length } := by
  refine h.of_writing rfl ((content.drop c.fileOff).take n) (by simp [Ev.sent]) ?_
    ?_
    ⟨(h.phase hs).sendfile, (h.phase hs).done⟩
  · have hnow := h.unsent_sendfile hs hphase hfile c.fileOff
    have hthen := h.unsent_sendfile hs hphase hfile
      (c.fileOff + ((content.drop c.fileOff).take n).length)
    rw [← take_append_drop_length content c.fileOff n, ← hthen] at hnow
    exact hnow
  · intro k hk
    obtain ⟨hne, bs, hbs, hlen, hle⟩ := h.file hs k hk
    have hcontent : bs = content := by
      rw [show c.fileFd = some k from hk, Option.bind_some, hbs] at hfile
      exact Option.some.inj hfile
    have htake : ((content.drop c.fileOff).take n).length ≤ content.length - c.fileOff := by
      rw [List.length_take, List.length_drop]
      exact Nat.min_le_right ..
    rw [hcontent] at hlen hbs
    refine ⟨hne, content, hbs, hlen, ?_⟩
    simp only
    omega

theorem Draft.bodySent (h : Draft out os c) (hs : c.state = .writing)
    (hphase : c.phase = .sendfile) (hall : c.fileLen ≤ c.fileOff) :
    Draft out (closeFile os c) { c with fileFd := none, phase := .done } := by
  obtain ⟨hhead, hopen⟩ := (h.phase hs).sendfile hphase
  obtain ⟨k, hk⟩ := Option.isSome_iff_exists.mp hopen
  obtain ⟨_, content, hcontent, hlen, _⟩ := h.file hs k hk
  refine h.of_writing rfl [] ?_ ?_ (fun j hj => (by cases hj)) ⟨fun h0 => (by cases h0), fun _ => ⟨hhead, rfl⟩⟩
  · rw [List.append_nil]
    exact congrArg History.sent (congrFun (history_closeFile os c) c.cid)
  · have hfile : c.fileFd.bind os.content = some content := by rw [hk]; exact hcontent
    have hnow := h.unsent_sendfile hs hphase hfile c.fileOff
    rw [List.drop_of_length_le (by omega)] at hnow
    refine hnow.trans ?_
    simp [Conn.unsent, hs, hhead, Conn.body]

theorem Draft.restart (h : Draft out os c) (hs : c.state = .writing) (hoff : c.headOff = 0) :
    Draft out os { c with phase := .head, headOff := 0 } := by
  refine h.of_writing rfl [] (List.append_nil _).symm ?_ (h.file hs)
    ⟨fun h0 => (by cases h0), fun h0 => (by cases h0)⟩
  rw [Conn.unsent, Conn.unsent, if_pos hs, if_pos hs, hoff]
  rfl

/-- Once the response is sent nothing is left. -/
theorem Draft.unsent_done (h : Draft out os c) (hs : c.state = .writing)
    (hphase : c.phase = .done) : c.unsent os = [] := by
  obtain ⟨hhead, hfile⟩ := (h.phase hs).done hphase
  simp [Conn.unsent, hs, hhead, Conn.body, hfile]

/-! ## Output, in the dialogue -/

theorem Reply.draft (h : Reply site os c) : Draft ((os.dialogue c.cid).output site) os c :=
  ⟨h.output, h.file, h.phase⟩

/-- After an action that parses nothing the same is to be sent. -/
theorem Draft.reply (h : Draft ((os.dialogue c.cid).output site) os' c') (hcid : c'.cid = c.cid)
    (hpar : os'.parsed c.cid = os.parsed c.cid) : Reply site os' c' := by
  have hdia : os'.dialogue c.cid = os.dialogue c.cid := congrArg Transcript.start.run hpar
  refine ⟨?_, h.file, h.phase⟩
  rw [hcid, hdia, ← hcid]
  exact hcid ▸ h.output

/-- The response to a head is set up: it is what the dialogue answers to it. -/
theorem Reply.exchange (h : Reply site os c) (hs : c.state = .reading) {c₁ : Conn}
    {reply : List UInt8} {ka : Bool} (hready : Ready os' c₁ c' reply ka) (hcid : c₁.cid = c.cid)
    (hsent : os'.sent c.cid = os.sent c.cid)
    (hdia : (os'.dialogue c.cid).output site = (os.dialogue c.cid).output site ++ reply) :
    Reply site os' { c' with state := .writing } := by
  have hcid' : c'.cid = c.cid := by rw [hready.frame]; exact hcid
  have hnow : os'.sent c₁.cid = (os.dialogue c.cid).output site := by
    rw [hcid, hsent, h.sent_of_reading hs]
  have hdraft := hready.draft hnow
  refine ⟨?_, hdraft.file, hdraft.phase⟩
  rw [hdraft.output]
  simp only [hcid']
  exact hdia.symm

theorem Reply.next (h : Reply site os c) (hs : c.state = .writing) (hphase : c.phase = .done) :
    Reply site os { c with state := .reading, parser := httpParserInit } := by
  refine ⟨?_, fun h0 => (by cases h0), fun h0 => (by cases h0)⟩
  have hout := h.output
  rw [h.draft.unsent_done hs hphase] at hout
  exact hout

/-! ## Actions -/

/-- The answer to a head comes after those before it. -/
theorem output_done (t : Transcript) (b : UInt8) (p : HttpParser) (req : HttpRequest) :
    (t.took b (.ok (.done, p, req))).output site = t.output site ++ answer site req := by
  simp [Transcript.took, Transcript.output, Exchange.reply]

theorem output_error (t : Transcript) (b : UInt8) (p : HttpParser) (req : HttpRequest) :
    (t.took b (.ok (.error, p, req))).output site = t.output site ++ badRequestAnswer := by
  simp [Transcript.took, Transcript.output, Exchange.reply]

/-- A byte that ends a head, once its answer is set up. -/
theorem Serving.exchange (h : Serving site stream os c) (hs : c.state = .reading) (b : UInt8)
    {os₁ : Os} (hsame : os₁.Same c.fd os')
    (hsock : os₁.fds = os.fds) (hint : os₁.interest = os.interest)
    (hrec : os₁.received c.cid = os.received c.cid)
    (hpar : os₁.parsed c.cid = os.parsed c.cid ++ [b]) (hsent : os₁.sent c.cid = os.sent c.cid)
    {p : HttpParser} {req : HttpRequest} {reply : List UInt8} {ka : Bool}
    (hready : Ready os' { c with parser := p, req := req, inHead := c.inHead + 1 } c' reply ka)
    (hout : ((os.dialogue c.cid).took b (httpParserFeed c.parser c.req [b])).output site =
      (os.dialogue c.cid).output site ++ reply) :
    Intake stream os' { c' with state := .writing } ∧
      Reply site os' { c' with state := .writing } := by
  have hframe := hready.frame
  have hhist := congrFun hsame.history c.cid
  have hpar' : os'.parsed c.cid = os.parsed c.cid ++ [b] :=
    (congrArg History.parsed hhist).trans hpar
  refine ⟨h.intake.still ?_ ?_ ?_ ?_ ?_, ?_⟩
  · rw [hframe]
  · rw [hframe]
  · rw [Os.incoming, hsame.sock, hsock]
    rfl
  · rw [hsame.interest, hint]
    exact h.intake.armed
  · exact (congrArg History.received hhist).trans hrec
  · refine h.reply.exchange hs hready rfl ((congrArg History.sent hhist).trans hsent) ?_
    rw [h.attuned.dialogue_step hs hpar', hout]

theorem Serving.request (h : Serving site stream r.os c) (hs : c.state = .reading) {b : UInt8}
    {p : HttpParser} {req : HttpRequest}
    (hfeed : httpParserFeed c.parser c.req [b] = .ok (.done, p, req))
    (hbuild : buildResponse site ((r.os.log (.parsed c.cid b)).log (.request c.cid req))
      { c with parser := p, req := req, inHead := c.inHead + 1 } = (os', c')) :
    Intake stream os' { c' with state := .writing } ∧
      Reply site os' { c' with state := .writing } := by
  obtain ⟨os₁, c₁, heq, hsame, hready⟩ := buildResponse_ready site
    ((r.os.log (.parsed c.cid b)).log (.request c.cid req))
    (c := { c with parser := p, req := req, inHead := c.inHead + 1 }) h.benign h.intake.fds_get
  cases heq.symm.trans hbuild
  refine h.exchange hs b hsame rfl rfl ?_ ?_ ?_ hready ?_
  · simp [Ev.received]
  · simp [Ev.parse]
  · simp [Ev.sent]
  · rw [hfeed]
    exact output_done ..

theorem Serving.reject (h : Serving site stream r.os c) (hs : c.state = .reading) {b : UInt8}
    {p : HttpParser} {req : HttpRequest}
    (hfeed : httpParserFeed c.parser c.req [b] = .ok (.error, p, req))
    (hbuild : buildErrorResponse (r.os.log (.parsed c.cid b))
      { c with parser := p, req := req, inHead := c.inHead + 1 } .badRequest = (os', c')) :
    Intake stream os' { c' with state := .writing } ∧
      Reply site os' { c' with state := .writing } := by
  have hbenign : (r.os.log (.parsed c.cid b)).sched.Benign := h.benign
  obtain ⟨os₁, c₁, heq, hsame, hready⟩ := buildErrorResponse_ready
    (c := { c with parser := p, req := req, inHead := c.inHead + 1 }) .badRequest hbenign
  cases heq.symm.trans hbuild
  refine h.exchange hs b hsame rfl rfl ?_ ?_ ?_ hready ?_
  · simp [Ev.received]
  · simp [Ev.parse]
  · simp [Ev.sent]
  · rw [hfeed]
    exact output_error ..

/-- Registering for other events concerns neither side. -/
theorem Serving.modEvents (h : Serving site stream r.os c) (i : Interest) :
    Intake stream (modEvents r c i).os c ∧ Reply site (modEvents r c i).os c := by
  have hmod : (HttpServer.modEvents r c i).os =
      r.os.epollCtl c.fd i (r.os.ctls.headD true && (r.os.registered c.fd).isSome) :=
    if_pos h.intake.armed
  rw [hmod]
  refine ⟨h.intake.still rfl rfl rfl ?_ rfl,
    ⟨h.reply.output, h.reply.file, h.reply.phase⟩⟩
  simp [Os.epollCtl]

/-- The file is closed; the socket is not. -/
theorem Serving.bodySent (h : Serving site stream os c) (hs : c.state = .writing)
    (hphase : c.phase = .sendfile) :
    Intake stream (closeFile os c) { c with fileFd := none, phase := .done } := by
  obtain ⟨k, hk⟩ := Option.isSome_iff_exists.mp ((h.reply.phase hs).sendfile hphase).2
  have hsame := Os.same_close os (some c.cid) (h.reply.file hs k hk).1
  have hclose : closeFile os c = os.close (some c.cid) k := by rw [closeFile, hk]
  have hhist := congrFun hsame.history c.cid
  rw [hclose]
  refine h.intake.still rfl rfl ?_ ?_ (congrArg History.received hhist)
  · rw [Os.incoming, hsame.sock]
    rfl
  · rw [hsame.interest]
    exact h.intake.armed

theorem Action.serving (h : Action site (r, c) (r', c')) (hserve : Serving site stream r.os c) :
    Serving site stream r'.os c' := by
  -- the two sides of the connection, one action at a time
  have hsides : Intake stream r'.os c' ∧ Reply site r'.os c' := by
    obtain ⟨hatt, _, hin, hrep, _⟩ := id hserve
    cases h with
    | rewind hs hall =>
        exact ⟨hin.still rfl rfl rfl hin.armed rfl, hrep.of_reading hs rfl hs rfl rfl⟩
    | @receive _ _ n rest incoming bs hs hempty hreads hsock hbs hne =>
        have hin' : Intake stream (r.os.setReads rest) c := ⟨hin.sock, hin.armed⟩
        obtain ⟨_, hpar, hsent⟩ := log_receive (r.os.setReads rest) c.cid c.fd bs
        refine ⟨hin'.receive hsock (hbs ▸ List.take_prefix ..),
          hrep.of_reading hs rfl hs hsent ?_⟩
        rw [Os.dialogue, hpar]
        rfl
    | retry hs =>
        exact ⟨⟨hin.sock, hin.armed⟩, hrep.of_reading hs rfl hs rfl rfl⟩
    | parse hs hget hfeed =>
        refine ⟨hin.still rfl rfl rfl hin.armed (by simp [Ev.received]),
          hrep.of_reading hs rfl hs (by simp [Ev.sent]) ?_⟩
        rw [hatt.dialogue_step hs (parsed_log_parsed ..), hfeed]
        rfl
    | request hs hget hfeed hbuild => exact hserve.request hs hfeed hbuild
    | reject hs hget hfeed hbuild => exact hserve.reject hs hfeed hbuild
    | answers =>
        exact ⟨hin.still rfl rfl rfl hin.armed rfl,
          ⟨hrep.output, hrep.file, hrep.phase⟩⟩
    | sendHead n hs =>
        exact ⟨hin.still rfl rfl rfl hin.armed (by simp [Ev.received]),
          (hrep.draft.sendHead hs n).reply rfl (by simp [Ev.parse])⟩
    | headSent hs _ hall =>
        exact ⟨hin.still rfl rfl rfl hin.armed rfl, (hrep.draft.headSent hs hall).reply rfl rfl⟩
    | sendBody n hs hphase hfile =>
        exact ⟨hin.still rfl rfl rfl hin.armed (by simp [Ev.received]),
          (hrep.draft.sendBody hs hphase hfile n).reply rfl (by simp [Ev.parse])⟩
    | bodySent hs hphase hall =>
        exact ⟨hserve.bodySent hs hphase, (hrep.draft.bodySent hs hphase hall).reply rfl
          (congrArg History.parsed (congrFun (history_closeFile ..) c.cid))⟩
    | park => exact hserve.modEvents .output
    | listen => exact hserve.modEvents .input
    | next hs hphase _ =>
        exact ⟨hin.still rfl rfl rfl hin.armed rfl, hrep.next hs hphase⟩
    | restart hs hoff =>
        exact ⟨hin.still rfl rfl rfl hin.armed rfl, (hrep.draft.restart hs hoff).reply rfl rfl⟩
  exact ⟨h.attuned hserve.attuned, h.buffered hserve.buffered, hsides.1, hsides.2,
    hserve.benign.later h.later⟩

theorem Actions.serving (h : Actions site (r, c) (r', c')) (hserve : Serving site stream r.os c) :
    Serving site stream r'.os c' :=
  Actions.rule (I := fun r c => Serving site stream r.os c)
    (fun _ _ _ _ hact hI => hact.serving hI) h hserve

/-! ## The end of a connection -/

theorem Finished.of_history {cid : Nat} (h : Finished site stream os cid)
    (hhist : os'.history cid = os.history cid) : Finished site stream os' cid := by
  have hrec : os'.received cid = os.received cid := congrArg History.received hhist
  have hpar : os'.parsed cid = os.parsed cid := congrArg History.parsed hhist
  have hsent : os'.sent cid = os.sent cid := congrArg History.sent hhist
  have hdia : os'.dialogue cid = os.dialogue cid := dialogue_of_history hhist
  refine ⟨?_, ?_, ?_, ?_, ?_⟩
  · rw [hrec]; exact h.received
  · rw [hpar, hrec]; exact h.parsed
  · rw [hsent, hdia]; exact h.output
  · rw [hdia, hpar]; exact h.whole
  · rw [hdia, hpar, hrec]; exact h.open_

/-- The client has sent everything, and all of it is parsed and answered. -/
theorem Serving.finished_of_eof (h : Serving site stream os c) (hs : c.state = .reading)
    (hin : c.inHead = c.inbuf.length) : Finished site stream os c.cid where
  received := h.intake.received_prefix
  parsed := h.buffered.parsed_prefix
  output := h.reply.sent_of_reading hs
  whole := h.attuned.whole
  open_ := by
    intro p req _
    rw [h.buffered.buffer, hin, List.drop_length, List.append_nil]

/-- A response that is sent and does not keep the connection open ends the dialogue. -/
theorem Serving.finished_of_last (h : Serving site stream os c) (hs : c.state = .writing)
    (hphase : c.phase = .done) (hka : c.keepAlive = false) : Finished site stream os c.cid where
  received := h.intake.received_prefix
  parsed := h.buffered.parsed_prefix
  output := by
    rw [← h.reply.output, h.reply.draft.unsent_done hs hphase, List.append_nil]
  whole := h.attuned.whole
  open_ := by
    intro p req hstage
    rw [h.attuned.writing hs, hka] at hstage
    cases hstage

/-- A byte the parser faults on. -/
theorem Serving.finished_of_fault (h : Serving site stream os c) (hs : c.state = .reading)
    {b : UInt8} (hget : c.inbuf[c.inHead]? = some b) {f : Fault}
    (hfeed : httpParserFeed c.parser c.req [b] = .error f) :
    Finished site stream (os.log (.parsed c.cid b)) c.cid ∧
      ((os.log (.parsed c.cid b)).dialogue c.cid).stage = .fault := by
  have hdia := h.attuned.dialogue_step hs (parsed_log_parsed os c.cid b)
  rw [hfeed] at hdia
  have hstage : ((os.log (.parsed c.cid b)).dialogue c.cid).stage = .fault := by rw [hdia]; rfl
  have hrec : (os.log (.parsed c.cid b)).received c.cid = os.received c.cid := by
    simp [Ev.received]
  have hbuf : Buffered (os.log (.parsed c.cid b)) { c with inHead := c.inHead + 1 } :=
    h.buffered.parse hget rfl rfl rfl hrec (parsed_log_parsed ..)
  refine ⟨⟨by rw [hrec]; exact h.intake.received_prefix, hbuf.parsed_prefix, ?_, fun h0 => ?_, fun p req h0 => ?_⟩, hstage⟩
  · rw [hdia, Os.sent_log]
    exact (List.append_nil _).trans (h.reply.sent_of_reading hs)
  · cases hstage.symm.trans h0
  · cases hstage.symm.trans h0

/-- Without failures no call fails. -/
theorem Serving.not_failed (h : Serving site stream r.os c) {s : Sched} (hs : s.Benign) :
    ¬ Failed s r c := by
  rintro (hnot | hsock | ⟨hw, hphase, hfile⟩)
  · exact hnot hs
  · obtain ⟨rest, hrest, _⟩ := h.intake.sock
    cases hsock.symm.trans hrest
  · obtain ⟨k, hk⟩ := Option.isSome_iff_exists.mp ((h.reply.phase hw).sendfile hphase).2
    obtain ⟨_, content, hcontent, _⟩ := h.reply.file hw k hk
    rw [hk, Option.bind_some, hcontent] at hfile
    cases hfile

/-- What the handling of an event leaves of a connection. -/
def Kept (site : Site) (stream : List UInt8) (r : Reactor) (cid : Nat) : ConnRef → Prop
  | .live c => Serving site stream r.os c ∧ c.cid = cid ∧ Waiting r c
  | .closed => Finished site stream r.os cid
  | .crashed _ => Finished site stream r.os cid ∧ (r.os.dialogue cid).stage = .fault

theorem Outcome.kept (h : Outcome site r c r' ref) (hserve : Serving site stream r.os c) :
    Kept site stream r' c.cid ref := by
  cases h with
  | live hacts hwait => exact ⟨hacts.serving hserve, hacts.confined.cid, hwait⟩
  | @closed r₁ c₁ hacts hwhy =>
      have hserve₁ := hacts.serving hserve
      have hfin : Finished site stream r₁.os c₁.cid := by
        cases hwhy with
        | eof hs hin _ => exact hserve₁.finished_of_eof hs hin
        | broken hs hin hnext =>
            exact absurd (List.mem_of_mem_head? hnext) hserve₁.benign.reads
        | lost hs hsock => exact absurd (.inr (.inl hsock)) (hserve₁.not_failed hserve.benign)
        | failed hs hfail => exact absurd hfail (hserve₁.not_failed hserve.benign)
        | last hs hphase hka => exact hserve₁.finished_of_last hs hphase hka
      rw [← hacts.confined.cid]
      exact hfin.of_history (congrFun (history_connClose ..) _)
  | closedFile hacts hs hphase hwhy =>
      exact absurd hwhy ((hacts.serving hserve).not_failed hserve.benign)
  | crashed hacts hs hget hfeed =>
      rw [← hacts.confined.cid]
      exact (hacts.serving hserve).finished_of_fault hs hget hfeed

end HttpServer
