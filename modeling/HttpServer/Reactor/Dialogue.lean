import HttpServer.Reactor.Step

set_option autoImplicit false

/-! # Every connection follows its dialogue

Whatever the kernel answers, the parser of a connection is where the dialogue over the bytes
it has parsed says (`Attuned`), the requests it has recognised are those of the dialogue, and
`open` has been called for the servable ones among them, in order (`Recorded`). This holds of
all connections of a reactor at once: what one of them does is no part of the history of
another.
-/

namespace HttpServer

open CLib

variable {site : Site} {r r' : Reactor} {c c' : Conn} {ref : ConnRef}

/-! ## One connection -/

/-- The dialogue over the bytes connection `cid` has parsed. -/
def Os.dialogue (os : Os) (cid : Nat) : Transcript := Transcript.start.run (os.parsed cid)

/-- The connection is where its dialogue is. -/
structure Attuned (os : Os) (c : Conn) : Prop where
  reading : c.state = .reading → (os.dialogue c.cid).stage = .parsing c.parser c.req
  writing : c.state = .writing → (os.dialogue c.cid).stage = .next c.req c.keepAlive
  whole : (os.dialogue c.cid).stage = .ended →
    (os.dialogue c.cid).answered = os.parsed c.cid

theorem dialogue_of_history {os os' : Os} {cid : Nat} (h : os'.history cid = os.history cid) :
    os'.dialogue cid = os.dialogue cid :=
  congrArg Transcript.start.run (congrArg History.parsed h)

/-- The dialogue after one more byte. -/
theorem dialogue_parsed {os os' : Os} {cid : Nat} {b : UInt8}
    (h : os'.parsed cid = os.parsed cid ++ [b]) :
    os'.dialogue cid = (os.dialogue cid).step b := by
  rw [Os.dialogue, h, Transcript.run_append]
  rfl

theorem parsed_log_parsed (os : Os) (cid : Nat) (b : UInt8) :
    (os.log (.parsed cid b)).parsed cid = os.parsed cid ++ [b] := by
  simp [Ev.parse]

theorem Attuned.of_history {os os' : Os} (h : Attuned os c) (hcid : c'.cid = c.cid)
    (hhist : os'.parsed c.cid = os.parsed c.cid)
    (hread : c'.state = .reading → c.state = .reading ∧ c'.parser = c.parser ∧ c'.req = c.req)
    (hwrite : c'.state = .writing →
      c.state = .writing ∧ c'.req = c.req ∧ c'.keepAlive = c.keepAlive) : Attuned os' c' := by
  have hdia : os'.dialogue c.cid = os.dialogue c.cid := congrArg Transcript.start.run hhist
  refine ⟨fun hs => ?_, fun hs => ?_, ?_⟩
  · obtain ⟨hs', hp, hreq⟩ := hread hs
    rw [hcid, hdia, h.reading hs', hp, hreq]
  · obtain ⟨hs', hreq, hka⟩ := hwrite hs
    rw [hcid, hdia, h.writing hs', hreq, hka]
  · rw [hcid, hdia, hhist]
    exact h.whole

/-! ## What the actions add to the histories -/

theorem Mallocs.history {os os' : Os} (h : Mallocs os os') : os'.history = os.history := by
  obtain ⟨_, _, rfl⟩ := h
  rfl

theorem Mallocs.opened {os os' : Os} (h : Mallocs os os') : os'.opened = os.opened := by
  obtain ⟨_, _, rfl⟩ := h
  rfl

/-- Setting up a response adds nothing to any history. -/
theorem Built.history {os os' : Os} (h : Built site os c os' c') : os'.history = os.history := by
  have hopened := os.history_openFile site c.cid (c.req.pathname site)
  cases h with
  | plain _ hm _ => exact hm.history
  | unopened _ hopen hm _ =>
      rw [hopen] at hopened
      exact hm.history.trans hopened
  | aborted _ hopen hfail hm _ =>
      have hm₁ := Mallocs.of_malloc hfail
      rw [hopen] at hopened
      rw [hm.history, Os.history_close, hm₁.history]
      exact hopened
  | headOnly _ hopen hm =>
      rw [hopen] at hopened
      rw [Os.history_close, hm.history]
      exact hopened
  | withFile _ hopen hm =>
      rw [hopen] at hopened
      exact hm.history.trans hopened

/-- `open` is called once for a servable request, and not at all for another. -/
theorem Built.opened {os os' : Os} (h : Built site os c os' c') (i : Nat) :
    os'.opened i = os.opened i ++
      if c.cid = i ∧ Servable site c.req then [c.req.pathname site] else [] := by
  have hopened := os.opened_openFile site c.cid i (c.req.pathname site)
  cases h with
  | plain hno hm _ => rw [if_neg (fun h0 => hno h0.2), List.append_nil, hm.opened]
  | unopened hserve hopen hm _ =>
      rw [hopen] at hopened
      simpa [hserve, hm.opened] using hopened
  | aborted hserve hopen hfail hm _ =>
      have hm₁ := Mallocs.of_malloc hfail
      rw [hopen] at hopened
      simpa [hserve, hm.opened, Os.opened_close, hm₁.opened] using hopened
  | headOnly hserve hopen hm =>
      rw [hopen] at hopened
      simpa [hserve, Os.opened_close, hm.opened] using hopened
  | withFile hserve hopen hm =>
      rw [hopen] at hopened
      simpa [hserve, hm.opened] using hopened

/-- The history of a connection after the byte that ends a head ... -/
theorem history_request {os os' : Os} {c c' : Conn} {cid : Nat} {b : UInt8} {req : HttpRequest}
    (h : buildResponse site ((os.log (.parsed cid b)).log (.request cid req)) c = (os', c')) :
    os'.history cid =
      ⟨os.received cid, os.parsed cid ++ [b], os.requests cid ++ [req], os.sent cid⟩ := by
  rw [(buildResponse_built site h).history]
  simp [Os.history, Ev.received, Ev.parse, Ev.recognised, Ev.sent]

/-- ... and after one that no head goes on with. -/
theorem history_reject {os os' : Os} {c c' : Conn} {cid : Nat} {b : UInt8} {code : StatusCode}
    (h : buildErrorResponse (os.log (.parsed cid b)) c code = (os', c')) :
    os'.history cid = ⟨os.received cid, os.parsed cid ++ [b], os.requests cid, os.sent cid⟩ := by
  rw [(buildErrorResponse_plain h).1.history]
  simp [Os.history, Ev.received, Ev.parse, Ev.recognised, Ev.sent]

theorem history_consume (os : Os) (fd n : Nat) : (os.consume fd n).history = os.history := by
  rw [consume_eq]
  rfl

theorem opened_consume (os : Os) (fd n : Nat) : (os.consume fd n).opened = os.opened := by
  rw [consume_eq]
  rfl

theorem history_closeFile (os : Os) (c : Conn) : (closeFile os c).history = os.history := by
  unfold closeFile
  split
  · exact Os.history_close ..
  · rfl

theorem opened_closeFile (os : Os) (c : Conn) : (closeFile os c).opened = os.opened := by
  unfold closeFile
  split
  · exact Os.opened_close ..
  · rfl

theorem trace_modEvents (r : Reactor) (c : Conn) (i : Interest) :
    (modEvents r c i).os.trace = r.os.trace := by
  unfold modEvents Os.epollMod
  simp only
  split
  · rfl
  · rfl

/-- What an action adds to the log concerns its own connection. -/
theorem Action.history_of_ne (h : Action site (r, c) (r', c')) {i : Nat} (hi : i ≠ c.cid) :
    r'.os.history i = r.os.history i := by
  have hne : some c.cid ≠ some i := fun h0 => hi (Option.some.inj h0).symm
  cases h with
  | receive =>
      exact (Os.history_log_of_ne (e := .read c.cid _) _ hne).trans
        (congrFun (history_consume ..) i)
  | parse => exact Os.history_log_of_ne _ hne
  | request _ _ _ hbuild =>
      have hbuilt := (buildResponse_built site hbuild).history
      rw [hbuilt]
      exact (Os.history_log_of_ne (e := .request c.cid _) _ hne).trans
        (Os.history_log_of_ne (e := .parsed c.cid _) _ hne)
  | reject _ _ _ hbuild =>
      have hm := (buildErrorResponse_plain hbuild).1.history
      rw [hm]
      exact Os.history_log_of_ne _ hne
  | sendHead => exact Os.history_log_of_ne _ hne
  | sendBody => exact Os.history_log_of_ne _ hne
  | bodySent => exact congrFun (history_closeFile ..) i
  | park => simp only [Os.history, Os.received, Os.parsed, Os.requests, Os.sent, trace_modEvents]
  | listen => simp only [Os.history, Os.received, Os.parsed, Os.requests, Os.sent, trace_modEvents]
  | _ => rfl

theorem Action.opened_of_ne (h : Action site (r, c) (r', c')) {i : Nat} (hi : i ≠ c.cid) :
    r'.os.opened i = r.os.opened i := by
  cases h with
  | receive =>
      simp only [Os.opened_log, Ev.opening, List.append_nil, opened_consume]
      rfl
  | parse => simp [Ev.opening]
  | request _ _ _ hbuild =>
      have hbuilt := (buildResponse_built site hbuild).opened i
      rw [if_neg (fun h0 => hi h0.1.symm)] at hbuilt
      simpa [Ev.opening] using hbuilt
  | reject _ _ _ hbuild =>
      have hm := congrFun (buildErrorResponse_plain hbuild).1.opened i
      simpa [Ev.opening] using hm
  | sendHead => simp [Ev.opening]
  | sendBody => simp [Ev.opening]
  | bodySent => exact congrFun (opened_closeFile ..) i
  | park => simp only [Os.opened, trace_modEvents]
  | listen => simp only [Os.opened, trace_modEvents]
  | _ => rfl

/-! ## Following the dialogue -/

/-- The log agrees with the dialogue of connection `cid`. -/
structure Recorded (site : Site) (os : Os) (cid : Nat) : Prop where
  requests : os.requests cid = (os.dialogue cid).requests
  opened : os.opened cid =
    ((os.dialogue cid).requests.filter (Servable site)).map (HttpRequest.pathname site)

theorem Recorded.of_log {os os' : Os} {cid : Nat} (h : Recorded site os cid)
    (hparsed : os'.parsed cid = os.parsed cid) (hreq : os'.requests cid = os.requests cid)
    (hopened : os'.opened cid = os.opened cid) : Recorded site os' cid := by
  have hdia : os'.dialogue cid = os.dialogue cid := congrArg Transcript.start.run hparsed
  refine ⟨?_, ?_⟩
  · rw [hreq, hdia]
    exact h.requests
  · rw [hopened, hdia]
    exact h.opened

theorem Recorded.of_history {os os' : Os} {cid : Nat} (h : Recorded site os cid)
    (hhist : os'.history cid = os.history cid) (hopened : os'.opened cid = os.opened cid) :
    Recorded site os' cid :=
  h.of_log (congrArg History.parsed hhist) (congrArg History.requests hhist) hopened

theorem Recorded.of_trace {os os' : Os} {cid : Nat} (h : Recorded site os cid)
    (htrace : os'.trace = os.trace) : Recorded site os' cid :=
  h.of_log (by rw [Os.parsed, htrace]; rfl) (by rw [Os.requests, htrace]; rfl)
    (by rw [Os.opened, htrace]; rfl)

/-- The dialogue after a byte of a reading connection. -/
theorem Attuned.dialogue_step {os os' : Os} (h : Attuned os c) (hs : c.state = .reading)
    {b : UInt8} (hparsed : os'.parsed c.cid = os.parsed c.cid ++ [b]) :
    os'.dialogue c.cid = (os.dialogue c.cid).took b (httpParserFeed c.parser c.req [b]) := by
  rw [dialogue_parsed hparsed, Transcript.step, h.reading hs]

/-- A byte that ends a head. -/
theorem Attuned.exchange {os os' : Os} (h : Attuned os c) (hs : c.state = .reading)
    (hcid : c'.cid = c.cid) {b : UInt8} (hparsed : os'.parsed c.cid = os.parsed c.cid ++ [b])
    (hstage : ((os.dialogue c.cid).took b (httpParserFeed c.parser c.req [b])).stage =
      .next c'.req c'.keepAlive) : Attuned os' { c' with state := .writing } := by
  have hdia := h.dialogue_step hs hparsed
  refine ⟨fun h0 => (by cases h0), fun _ => ?_, ?_⟩
  · simp only [hcid]
    rw [hdia, hstage]
  · simp only [hcid]
    intro hover
    rw [Os.dialogue, hparsed] at hover ⊢
    exact Transcript.answered_of_over (h.reading hs) hover

theorem Action.attuned (h : Action site (r, c) (r', c')) (hatt : Attuned r.os c) :
    Attuned r'.os c' := by
  -- an action that parses nothing
  have hcalm : ∀ c' : Conn, c'.cid = c.cid → c'.state = c.state → c'.parser = c.parser →
      c'.req = c.req → c'.keepAlive = c.keepAlive →
      r'.os.parsed c.cid = r.os.parsed c.cid → Attuned r'.os c' := by
    intro c' hcid hs hp hreq hka hparsed
    exact hatt.of_history hcid hparsed (fun h0 => ⟨hs ▸ h0, hp, hreq⟩)
      (fun h0 => ⟨hs ▸ h0, hreq, hka⟩)
  cases h with
  | receive =>
      refine hcalm _ rfl rfl rfl rfl rfl ?_
      rw [Os.parsed_log]
      exact (List.append_nil _).trans
        (congrArg History.parsed (congrFun (history_consume ..) c.cid))
  | @parse _ _ b p req hs hget hfeed =>
      have hdia := hatt.dialogue_step hs (parsed_log_parsed r.os c.cid b)
      rw [hfeed] at hdia
      refine ⟨fun _ => ?_, fun h0 => absurd (hs.symm.trans h0) (by simp), ?_⟩
      · rw [hdia]
        rfl
      · rw [hdia]
        intro h0
        cases h0
  | @request _ _ b p req os c' hs hget hfeed hbuild =>
      have hset := buildResponse_setUp hbuild
      have hcid : c'.cid = c.cid := hset.cid
      have hreq : c'.req = req := hset.req
      have hka : c'.keepAlive = req.keepAlive := hset.keepAlive
      have hparsed : os.parsed c.cid = r.os.parsed c.cid ++ [b] :=
        congrArg History.parsed (history_request hbuild)
      exact .exchange hatt hs hcid hparsed (by rw [hfeed, hreq, hka]; rfl)
  | @reject _ _ b p req os c' hs hget hfeed hbuild =>
      have hset := buildErrorResponse_setUp hbuild
      have hcid : c'.cid = c.cid := hset.cid
      have hka : c'.keepAlive = false := hset.keepAlive
      have hparsed : os.parsed c.cid = r.os.parsed c.cid ++ [b] :=
        congrArg History.parsed (history_reject hbuild)
      exact .exchange hatt hs hcid hparsed (by rw [hfeed, hka]; rfl)
  | sendHead => exact hcalm _ rfl rfl rfl rfl rfl (by simp [Ev.parse])
  | sendBody => exact hcalm _ rfl rfl rfl rfl rfl (by simp [Ev.parse])
  | bodySent =>
      exact hcalm _ rfl rfl rfl rfl rfl
        (congrArg History.parsed (congrFun (history_closeFile ..) c.cid))
  | park => exact hcalm _ rfl rfl rfl rfl rfl (by simp only [Os.parsed, trace_modEvents])
  | listen => exact hcalm _ rfl rfl rfl rfl rfl (by simp only [Os.parsed, trace_modEvents])
  | next hs hphase hka =>
      refine ⟨fun _ => ?_, fun h0 => (by cases h0), hatt.whole⟩
      have hstage := hatt.writing hs
      rw [hka] at hstage
      exact hstage
  | _ => exact hcalm _ rfl rfl rfl rfl rfl rfl

/-- A byte after which the dialogue has the further requests `new`. -/
theorem Recorded.parsed {os os' : Os} (h : Recorded site os c.cid) (hatt : Attuned os c)
    (hs : c.state = .reading) (b : UInt8) (new : List HttpRequest)
    (hparsed : os'.parsed c.cid = os.parsed c.cid ++ [b])
    (hnew : ((os.dialogue c.cid).took b (httpParserFeed c.parser c.req [b])).requests =
      (os.dialogue c.cid).requests ++ new)
    (hreq : os'.requests c.cid = os.requests c.cid ++ new)
    (hopened : os'.opened c.cid =
      os.opened c.cid ++ (new.filter (Servable site)).map (HttpRequest.pathname site)) :
    Recorded site os' c.cid := by
  have hdia := hatt.dialogue_step hs hparsed
  refine ⟨?_, ?_⟩
  · rw [hreq, hdia, hnew, h.requests]
  · rw [hopened, hdia, hnew, h.opened, List.filter_append, List.map_append]

theorem Action.recorded (h : Action site (r, c) (r', c')) (hatt : Attuned r.os c) {i : Nat}
    (hrec : Recorded site r.os i) : Recorded site r'.os i := by
  -- only the bytes that are parsed and the files that are opened count, and only one's own
  rcases eq_or_ne i c.cid with rfl | hne
  · cases h with
    | @receive _ _ n rest incoming bs hs hempty hreads hsock hbs hne =>
        have hcons : Recorded site ((r.os.setReads rest).consume c.fd bs.length) c.cid :=
          hrec.of_trace (by rw [consume_eq]; rfl)
        exact hcons.of_log (by simp [Ev.parse]) (by simp [Ev.recognised]) (by simp [Ev.opening])
    | @parse _ _ b p req hs hget hfeed =>
        refine hrec.parsed hatt hs b [] (parsed_log_parsed r.os c.cid b) ?_ ?_ ?_
        · rw [hfeed]
          simp [Transcript.took, Transcript.requests]
        · simp [Ev.recognised]
        · simp [Ev.opening]
    | @request _ _ b p req os c' hs hget hfeed hbuild =>
        have hhist := history_request hbuild
        have hopened := (buildResponse_built site hbuild).opened c.cid
        refine hrec.parsed hatt hs b [req] (congrArg History.parsed hhist) ?_
          (congrArg History.requests hhist) ?_
        · rw [hfeed]
          simp [Transcript.took, Transcript.requests]
        · simp only [Os.opened_log, Ev.opening, List.append_nil, true_and] at hopened
          rw [hopened]
          by_cases hserve : Servable site req
          · simp [hserve]
          · simp [hserve]
    | @reject _ _ b p req os c' hs hget hfeed hbuild =>
        have hhist := history_reject hbuild
        refine hrec.parsed hatt hs b [] (congrArg History.parsed hhist) ?_ ?_ ?_
        · rw [hfeed]
          simp [Transcript.took, Transcript.requests]
        · rw [List.append_nil]
          exact congrArg History.requests hhist
        · rw [(buildErrorResponse_plain hbuild).1.opened]
          simp [Ev.opening]
    | sendHead =>
        exact hrec.of_log (by simp [Ev.parse]) (by simp [Ev.recognised]) (by simp [Ev.opening])
    | sendBody =>
        exact hrec.of_log (by simp [Ev.parse]) (by simp [Ev.recognised]) (by simp [Ev.opening])
    | bodySent =>
        exact hrec.of_history (congrFun (history_closeFile ..) c.cid)
          (congrFun (opened_closeFile ..) c.cid)
    | park => exact hrec.of_trace (trace_modEvents ..)
    | listen => exact hrec.of_trace (trace_modEvents ..)
    | answers => exact hrec.of_trace rfl
    | retry => exact hrec.of_trace rfl
    | _ => exact hrec
  · exact hrec.of_history (h.history_of_ne hne) (h.opened_of_ne hne)

/-! ## The input buffer -/

/-- What has been read and not yet parsed is in the buffer. -/
structure Buffered (os : Os) (c : Conn) : Prop where
  inHead : c.inHead ≤ c.inbuf.length
  buffer : os.received c.cid = os.parsed c.cid ++ c.inbuf.drop c.inHead

/-- An action that neither reads nor parses. -/
theorem Buffered.still {os os' : Os} (h : Buffered os c) (hcid : c'.cid = c.cid)
    (hinbuf : c'.inbuf = c.inbuf) (hin : c'.inHead = c.inHead)
    (hrec : os'.received c.cid = os.received c.cid) (hpar : os'.parsed c.cid = os.parsed c.cid) :
    Buffered os' c' := by
  refine ⟨by rw [hin, hinbuf]; exact h.inHead, ?_⟩
  rw [hcid, hrec, hpar, hin, hinbuf]
  exact h.buffer

theorem Buffered.of_history {os os' : Os} (h : Buffered os c)
    (hhist : os'.history c.cid = os.history c.cid) : Buffered os' c :=
  h.still rfl rfl rfl (congrArg History.received hhist) (congrArg History.parsed hhist)

theorem Buffered.rewind {os : Os} (h : Buffered os c) (hin : c.inHead = c.inbuf.length) :
    Buffered os { c with inbuf := [], inHead := 0 } := by
  have hbuf := h.buffer
  rw [hin, List.drop_length] at hbuf
  exact ⟨Nat.le_refl 0, hbuf⟩

/-- The first unparsed byte is parsed. -/
theorem Buffered.parse {os os' : Os} (h : Buffered os c) {b : UInt8}
    (hget : c.inbuf[c.inHead]? = some b) (hcid : c'.cid = c.cid) (hinbuf : c'.inbuf = c.inbuf)
    (hin : c'.inHead = c.inHead + 1) (hrec : os'.received c.cid = os.received c.cid)
    (hpar : os'.parsed c.cid = os.parsed c.cid ++ [b]) : Buffered os' c' := by
  obtain ⟨hlt, hb⟩ := List.getElem?_eq_some_iff.mp hget
  have hdrop : c.inbuf.drop c.inHead = b :: c.inbuf.drop (c.inHead + 1) := by
    rw [List.drop_eq_getElem_cons hlt, hb]
  refine ⟨by rw [hin, hinbuf]; exact hlt, ?_⟩
  rw [hcid, hrec, hpar, hin, hinbuf, h.buffer, hdrop, List.append_assoc]
  rfl

theorem incoming_consume {os : Os} {fd n : Nat} {rest : List UInt8} (h : os.incoming fd = some rest) :
    (os.consume fd n).incoming fd = some (rest.drop n) := by
  cases hget : os.fds.get fd with
  | none => rw [Os.incoming, hget] at h; cases h
  | some d =>
      obtain ⟨s, o, res⟩ := d
      cases res with
      | socket bs =>
          simp only [Os.incoming, hget, Option.some.injEq] at h
          simp [Os.incoming, Os.consume, hget, h]
      | file bs => rw [Os.incoming, hget] at h; cases h
      | other => rw [Os.incoming, hget] at h; cases h

theorem log_receive (os : Os) (cid fd : Nat) (bs : List UInt8) :
    ((os.consume fd bs.length).log (.read cid bs)).received cid = os.received cid ++ bs ∧
    ((os.consume fd bs.length).log (.read cid bs)).parsed cid = os.parsed cid ∧
    ((os.consume fd bs.length).log (.read cid bs)).sent cid = os.sent cid := by
  have hhist := congrFun (history_consume os fd bs.length) cid
  rw [Os.received_log, Os.parsed_log, Os.sent_log]
  refine ⟨?_, (List.append_nil _).trans (congrArg History.parsed hhist),
    (List.append_nil _).trans (congrArg History.sent hhist)⟩
  simp only [Ev.received, if_true]
  exact congrArg (· ++ bs) (congrArg History.received hhist)

/-- The bytes a `read` has put into the empty buffer are waiting to be parsed. -/
theorem Buffered.receive {os : Os} (h : Buffered os c) (hempty : c.inbuf = [] ∧ c.inHead = 0)
    (bs : List UInt8) :
    Buffered ((os.consume c.fd bs.length).log (.read c.cid bs)) { c with inbuf := bs } := by
  obtain ⟨hrec, hpar, _⟩ := log_receive os c.cid c.fd bs
  have hbuf := h.buffer
  rw [hempty.1, List.drop_nil, List.append_nil] at hbuf
  refine ⟨by rw [hempty.2]; exact Nat.zero_le _, ?_⟩
  rw [hrec, hpar, hempty.2, hbuf]
  rfl

theorem Action.buffered (h : Action site (r, c) (r', c')) (hbuf : Buffered r.os c) :
    Buffered r'.os c' := by
  -- receiving fills the buffer, parsing moves its front, and all else leaves both alone
  cases h with
  | rewind _ hin => exact hbuf.rewind hin
  | @receive _ _ n rest incoming bs _ hempty =>
      have hbuf' : Buffered (r.os.setReads rest) c := hbuf.of_history rfl
      exact hbuf'.receive hempty bs
  | parse _ hget =>
      exact hbuf.parse hget rfl rfl rfl (by simp [Ev.received]) (parsed_log_parsed ..)
  | request _ hget _ hbuild =>
      have hset := buildResponse_setUp hbuild
      have hhist := history_request hbuild
      exact hbuf.parse hget hset.cid hset.inbuf hset.inHead (congrArg History.received hhist)
        (congrArg History.parsed hhist)
  | reject _ hget _ hbuild =>
      have hset := buildErrorResponse_setUp hbuild
      have hhist := history_reject hbuild
      exact hbuf.parse hget hset.cid hset.inbuf hset.inHead (congrArg History.received hhist)
        (congrArg History.parsed hhist)
  | sendHead =>
      exact hbuf.still rfl rfl rfl (by simp [Ev.received]) (by simp [Ev.parse])
  | sendBody =>
      exact hbuf.still rfl rfl rfl (by simp [Ev.received]) (by simp [Ev.parse])
  | bodySent =>
      have hhist := congrFun (history_closeFile r.os c) c.cid
      exact hbuf.still rfl rfl rfl (congrArg History.received hhist)
        (congrArg History.parsed hhist)
  | park =>
      exact hbuf.still rfl rfl rfl (by simp only [Os.received, trace_modEvents])
        (by simp only [Os.parsed, trace_modEvents])
  | listen =>
      exact hbuf.still rfl rfl rfl (by simp only [Os.received, trace_modEvents])
        (by simp only [Os.parsed, trace_modEvents])
  | _ => exact hbuf.still rfl rfl rfl rfl rfl

/-! ## All connections -/

/-- All connections of the reactor follow their dialogues. -/
structure Followed (site : Site) (r : Reactor) : Prop where
  attuned : r.crashed = none → ∀ fd c, r.conns fd = some c → Attuned r.os c
  recorded : ∀ cid, Recorded site r.os cid
  unborn : ∀ cid, r.os.serial ≤ cid → r.os.history cid = ⟨[], [], [], []⟩

theorem Actions.attuned (h : Actions site (r, c) (r', c')) (hatt : Attuned r.os c) :
    Attuned r'.os c' :=
  Actions.rule (I := fun r c => Attuned r.os c) (fun _ _ _ _ hact hI => hact.attuned hI) h hatt

theorem Actions.recorded (h : Actions site (r, c) (r', c')) (hatt : Attuned r.os c) {i : Nat}
    (hrec : Recorded site r.os i) : Recorded site r'.os i :=
  (Actions.rule (I := fun r c => Attuned r.os c ∧ Recorded site r.os i)
    (fun _ _ _ _ hact hI => ⟨hact.attuned hI.1, hact.recorded hI.1 hI.2⟩) h ⟨hatt, hrec⟩).2

theorem Actions.history_of_ne (h : Actions site (r, c) (r', c')) {i : Nat} (hi : i ≠ c.cid) :
    r'.os.history i = r.os.history i := by
  refine (Actions.rule (I := fun r' c' => r'.os.history i = r.os.history i ∧ c'.cid = c.cid) ?_ h
    ⟨rfl, rfl⟩).1
  intro r₁ c₁ r₂ c₂ hact hI
  exact ⟨(hact.history_of_ne (by rw [hI.2]; exact hi)).trans hI.1, hact.confined.cid.trans hI.2⟩

theorem history_connClose (r : Reactor) (c : Conn) : (connClose r c).os.history = r.os.history := by
  rw [connClose]
  simp only [history_closeFile, Os.history_close]
  rfl

theorem opened_connClose (r : Reactor) (c : Conn) : (connClose r c).os.opened = r.os.opened := by
  rw [connClose]
  simp only [opened_closeFile, Os.opened_close]
  rfl

theorem Recorded.connClose {i : Nat} (h : Recorded site r.os i) (c : Conn) :
    Recorded site (connClose r c).os i :=
  h.of_history (congrFun (history_connClose r c) i) (congrFun (opened_connClose r c) i)

theorem Recorded.closeFile {os : Os} {i : Nat} (h : Recorded site os i) (c : Conn) :
    Recorded site (closeFile os c) i :=
  h.of_history (congrFun (history_closeFile os c) i) (congrFun (opened_closeFile os c) i)

theorem Outcome.recorded (h : Outcome site r c r' ref) (hatt : Attuned r.os c) {i : Nat}
    (hrec : Recorded site r.os i) : Recorded site r'.os i := by
  cases h with
  | live hacts => exact hacts.recorded hatt hrec
  | closed hacts => exact (hacts.recorded hatt hrec).connClose _
  | closedFile hacts => exact ((hacts.recorded hatt hrec).closeFile _).connClose _
  | @crashed r₁ c₁ b f hacts hs hget hfeed =>
      have hrec₁ := hacts.recorded hatt hrec
      have hatt₁ := hacts.attuned hatt
      rcases eq_or_ne i c₁.cid with rfl | hne
      · refine hrec₁.parsed hatt₁ hs b [] (parsed_log_parsed ..) ?_ ?_ ?_
        · rw [hfeed]
          simp [Transcript.took, Transcript.requests]
        · simp [Ev.recognised]
        · simp [Ev.opening]
      · refine hrec₁.of_history (Os.history_log_of_ne _ ?_) (by simp [Ev.opening])
        exact fun h0 => hne (Option.some.inj h0).symm

theorem Outcome.history_of_ne (h : Outcome site r c r' ref) {i : Nat} (hi : i ≠ c.cid) :
    r'.os.history i = r.os.history i := by
  cases h with
  | live hacts => exact hacts.history_of_ne hi
  | closed hacts => rw [history_connClose]; exact hacts.history_of_ne hi
  | closedFile hacts => rw [history_connClose, history_closeFile]; exact hacts.history_of_ne hi
  | crashed hacts hs hget hfeed =>
      rw [← hacts.history_of_ne hi]
      refine Os.history_log_of_ne _ (fun h0 => hi ?_)
      rw [← hacts.confined.cid]
      exact (Option.some.inj h0).symm

theorem Attuned.still {os os' : Os} (h : Attuned os c)
    (hhist : os'.history c.cid = os.history c.cid) : Attuned os' c :=
  h.of_history rfl (congrArg History.parsed hhist) (fun hs => ⟨hs, rfl, rfl⟩)
    (fun hs => ⟨hs, rfl, rfl⟩)

/-- Nothing has happened, and no connection is new. -/
theorem Followed.of_log (h : Followed site r) (hcr : r.crashed = none)
    (hhist : r'.os.history = r.os.history) (hopened : r'.os.opened = r.os.opened)
    (hle : r.os.serial ≤ r'.os.serial)
    (hconns : ∀ k d, r'.conns k = some d → r.conns k = some d) : Followed site r' where
  attuned := fun _ k d hd => (h.attuned hcr k d (hconns k d hd)).still (congrFun hhist d.cid)
  recorded := fun i => (h.recorded i).of_history (congrFun hhist i) (congrFun hopened i)
  unborn := fun i hi => by rw [hhist]; exact h.unborn i (hle.trans hi)

theorem Attuned.fresh {os : Os} (fd : Nat) {cid : Nat}
    (h : os.history cid = ⟨[], [], [], []⟩) : Attuned os (Conn.calloc fd cid) := by
  have hparsed : os.parsed cid = [] := congrArg History.parsed h
  have hdia : os.dialogue cid = Transcript.start := congrArg Transcript.start.run hparsed
  refine ⟨fun _ => ?_, fun h0 => (by cases h0), fun h0 => ?_⟩
  · change (os.dialogue cid).stage = _
    rw [hdia]
    rfl
  · change (os.dialogue cid).stage = _ at h0
    rw [hdia] at h0
    cases h0

theorem Buffered.fresh {os : Os} (fd : Nat) {cid : Nat}
    (h : os.history cid = ⟨[], [], [], []⟩) : Buffered os (Conn.calloc fd cid) := by
  refine ⟨Nat.le_refl _, ?_⟩
  have hrec : os.received cid = [] := congrArg History.received h
  have hpar : os.parsed cid = [] := congrArg History.parsed h
  change os.received cid = os.parsed cid ++ []
  rw [hrec, hpar]
  rfl

theorem history_acceptedOs (r : Reactor) (a : AcceptRes) :
    (r.acceptedOs a).history = r.os.history :=
  Os.history_log _ rfl

/-- The first connection has no history. -/
theorem history_acceptedOs_nil (htrace : r.os.trace = []) (a : AcceptRes) (i : Nat) :
    (r.acceptedOs a).history i = ⟨[], [], [], []⟩ := by
  rw [history_acceptedOs]
  simp [Os.history, Os.received, Os.parsed, Os.requests, Os.sent, htrace]

theorem opened_acceptedOs (r : Reactor) (a : AcceptRes) :
    (r.acceptedOs a).opened = r.os.opened := by
  funext i
  exact (Os.opened_log _ _ i).trans (List.append_nil _)

theorem Accepted.followed {a : AcceptRes} (hacc : Accepted r a r') (hcr : r.crashed = none)
    (h : Followed site r) : Followed site r' := by
  have hhist := history_acceptedOs r a
  have hopened := opened_acceptedOs r a
  cases hacc with
  | refused =>
      exact h.of_log hcr ((Os.history_close ..).trans hhist) ((Os.opened_close ..).trans hopened)
        (Nat.le_succ _) (fun k d hd => hd)
  | welcomed =>
      refine ⟨fun _ k d hd => ?_, fun i => (h.recorded i).of_history (congrFun hhist i)
        (congrFun hopened i), fun i hi => (congrFun hhist i).trans
          (h.unborn i ((Nat.le_succ _).trans hi))⟩
      rcases eq_or_ne k (r.os.fds.pick a.hint) with rfl | hne
      · simp only [Function.update_self, Option.some.injEq] at hd
        rw [← hd]
        exact .fresh _ ((congrFun hhist _).trans (h.unborn _ (Nat.le_refl _)))
      · simp only [Function.update_of_ne hne] at hd
        exact (h.attuned hcr k d hd).still (congrFun hhist d.cid)

theorem settle_followed (h : Followed site r) (hcr : r.crashed = none) (hn : Numbered r)
    (hc : r.conns c.fd = some c) (hout : Outcome site r c r' ref) :
    Followed site (r'.settle c.fd ref) := by
  have hatt := h.attuned hcr c.fd c hc
  have hlt := hn.lt c.fd c hc
  have hos : (r'.settle c.fd ref).os = r'.os := by cases ref <;> rfl
  refine ⟨fun hcr' k d hd => ?_, fun i => ?_, fun i hi => ?_⟩
  · rw [hos]
    -- the handler follows its own dialogue, and leaves the others' as they were
    rcases eq_or_ne k c.fd with rfl | hne
    · cases ref with
      | live c' =>
          cases hout with
          | live hacts =>
              simp only [Reactor.settle, Function.update_self, Option.some.injEq] at hd
              rw [← hd]
              exact hacts.attuned hatt
      | closed =>
          rw [Reactor.settle, hout.gone] at hd
          cases hd
      | crashed f => cases hcr'
    · rw [hout.settle_of_ne hne] at hd
      refine (h.attuned hcr k d hd).still (hout.history_of_ne ?_)
      exact fun h0 => hne (hn.inj k c.fd d c hd hc h0)
  · rw [hos]
    exact hout.recorded hatt (h.recorded i)
  · rw [hos] at hi ⊢
    have hle := hout.serial_le
    rw [hout.history_of_ne (by omega)]
    exact h.unborn i (by omega)

theorem Followed.begin (h : Followed site r) (e : Event) : Followed site (r.begin e) :=
  ⟨fun hcr k d hd => (h.attuned hcr k d hd).still rfl, fun i => (h.recorded i).of_trace rfl,
    h.unborn⟩

theorem Step.followed {e : Event} (hstep : Step site r e r') (hn : Numbered r)
    (h : Followed site r) : Followed site r' := by
  have hbegin := h.begin e
  cases hstep with
  | idle => exact h
  | woken =>
      exact ⟨fun hcr k d hd => (h.attuned hcr k d hd).still rfl,
        fun i => (h.recorded i).of_trace rfl, h.unborn⟩
  | ignored => exact hbegin
  | accepted hcr _ =>
      exact reactorAccept_rule (fun _ _ _ hcr' hacc hI => hacc.followed hcr' hI) e.accepts hcr hbegin
  | hangup _ hcr =>
      exact hbegin.of_log hcr (history_connClose ..) (opened_connClose ..)
        (serial_connClose ..).ge (fun k d hd => (conns_of_connClose hd).1)
  | handled _ hcr hc hfd _ _ _ hout =>
      rw [← hfd] at hc ⊢
      exact settle_followed hbegin hcr ⟨hn.lt, hn.inj⟩ hc hout

theorem reactorCreateCtl_followed (site : Site) (inherited : List Nat) (ctls : List Bool) :
    Followed site (reactorCreateCtl inherited ctls) :=
  ⟨fun _ fd c hc => (by cases hc), fun _ => ⟨rfl, rfl⟩, fun _ _ => rfl⟩

theorem reactorCreate_followed (site : Site) (inherited : List Nat) :
    Followed site (reactorCreate inherited) :=
  reactorCreateCtl_followed site inherited []

/-- **All connections follow their dialogues**, after any events. -/
theorem reactorRun_followed (site : Site) (inherited : List Nat) (es : List Event) :
    Followed site (reactorRun site (reactorCreate inherited) es) := by
  refine (reactorRun_rule site (G := fun _ _ => True) ?_ es (along_of_forall (G := fun _ => True) (fun _ _ => trivial) _)
    (reactorCreate_atRest inherited) (reactorCreate_followed site inherited)).2
  intro r e r' hrest _ h hstep
  exact hstep.followed hrest.numbered h

end HttpServer
