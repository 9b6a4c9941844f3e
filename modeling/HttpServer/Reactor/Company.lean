import HttpServer.Reactor.Descriptors
import HttpServer.Reactor.Edge
import HttpServer.Reactor.Stream

set_option autoImplicit false

/-! # A connection in company

A reactor serves many connections at once. What it sends on one of them depends on what it has
received there and on nothing else: not on the other connections, what they send, when their events
come between, or which of their calls fail (`output_independent_of_company`). This holds as long as
no connection is closed before its first response is set up, which takes descriptor `0` away from
whoever has it.
-/

namespace HttpServer

open CLib

variable {site : Site} {stream : List UInt8} {cid fd : Nat} {os os' : Os} {r r' : Reactor}
  {c c' : Conn} {ref : ConnRef}

/-! ## Between its events -/

/-- A connection that is served, whatever the kernel will answer at its next event. -/
structure Served (site : Site) (stream : List UInt8) (os : Os) (c : Conn) : Prop where
  attuned : Attuned os c
  buffered : Buffered os c
  intake : Intake stream os c
  reply : Reply site os c

theorem Serving.served (h : Serving site stream os c) : Served site stream os c :=
  ⟨h.attuned, h.buffered, h.intake, h.reply⟩

theorem Served.setSched (h : Served site stream os c) (s : Sched) :
    Served site stream { os with sched := s } c :=
  ⟨h.attuned.still rfl, h.buffered.of_history rfl, ⟨h.intake.sock, h.intake.armed⟩,
    ⟨h.reply.output, h.reply.file, h.reply.phase⟩⟩

theorem Served.serving (h : Served site stream os c) {s : Sched} (hs : s.Benign) :
    Serving site stream { os with sched := s } c :=
  ⟨(h.setSched s).attuned, (h.setSched s).buffered, (h.setSched s).intake, (h.setSched s).reply, hs⟩

/-- The file of a response is the same after the calls of others. -/
theorem Owns.content_eq (h : Owns os c) (hs : c.state = .writing)
    (hsame : SameOwned (some c.cid) os os') {k : Nat} (hk : c.fileFd = some k) :
    os'.content k = os.content k := by
  obtain ⟨s, bs, hget⟩ := h.file (h.answered hs) k hk
  rw [Os.content, Os.content, hget, (hsame k _ rfl).mpr hget]

theorem Owns.unsent_eq (h : Owns os c) (hsame : SameOwned (some c.cid) os os') :
    c.unsent os' = c.unsent os := by
  by_cases hs : c.state = .writing
  · have hbody : c.fileFd.bind os'.content = c.fileFd.bind os.content := by
      cases hk : c.fileFd with
      | none => rfl
      | some k => exact h.content_eq hs hsame hk
    rw [Conn.unsent, Conn.unsent, if_pos hs, if_pos hs, Conn.body, Conn.body, hbody]
  · rw [Conn.unsent, Conn.unsent, if_neg hs, if_neg hs]

/-- What others do, who leave alone what is not theirs, does not concern the connection. -/
theorem Served.of_others (h : Served site stream os c) (hown : Owns os c)
    (hsame : SameOwned (some c.cid) os os') (hhist : os'.history c.cid = os.history c.cid)
    (henrolled : Enrolled os c.fd c.cid → Enrolled os' c.fd c.cid) : Served site stream os' c := by
  have hrec : os'.received c.cid = os.received c.cid := congrArg History.received hhist
  have hsent : os'.sent c.cid = os.sent c.cid := congrArg History.sent hhist
  refine ⟨h.attuned.still hhist, h.buffered.of_history hhist,
    ⟨?_, ?_⟩, ⟨?_, fun hs k hk => ?_, h.reply.phase⟩⟩
  · obtain ⟨bs, hget⟩ := hown.sock
    obtain ⟨rest, hrest, hstream⟩ := h.intake.sock
    refine ⟨rest, ?_, by rw [hrec]; exact hstream⟩
    rw [Os.incoming, (hsame _ _ rfl).mpr hget, ← hrest, Os.incoming, hget]
  · obtain ⟨bs, hget⟩ := hown.sock
    exact henrolled (fun _ => h.intake.armed) ⟨bs, (hsame _ _ rfl).mpr hget⟩
  · rw [hsent, hown.unsent_eq hsame, dialogue_of_history hhist]
    exact h.reply.output
  · obtain ⟨hne, bs, hbs, hlen, hle⟩ := h.reply.file hs k hk
    exact ⟨hne, bs, (hown.content_eq hs hsame hk).trans hbs, hlen, hle⟩

/-! ## Where a connection is -/

/-- How connection `cid` stands, whose client sends `stream`: it has not been accepted, it is
served, it is gone, or the parser has written outside an array on it. -/
inductive Stands (site : Site) (stream : List UInt8) (cid : Nat) (r : Reactor) : Prop
  | unborn (h : r.os.serial ≤ cid)
  | live (fd : Nat) (c : Conn) (hc : r.conns fd = some c) (hcid : c.cid = cid)
      (hserved : Served site stream r.os c)
  | gone (hlt : cid < r.os.serial) (hno : ∀ fd c, r.conns fd = some c → c.cid ≠ cid)
      (hfin : Finished site stream r.os cid)
  | fault (hcr : r.crashed ≠ none) (hfin : Finished site stream r.os cid)
      (hstage : (r.os.dialogue cid).stage = .fault)

/-- The events of connection `cid` meet no failure; and its client sends `stream`. -/
structure Attends (stream : List UInt8) (cid : Nat) (r : Reactor) (e : Event) : Prop where
  sends : r.os.serial ≤ cid → ∀ a ∈ e.accepts[cid - r.os.serial]?, a.incoming = stream
  benign : ∀ c ∈ r.conns e.fd, c.cid = cid → e.sched.Benign ∧ e.evs.err = false

/-- Another step of another connection. -/
theorem Stands.others (h : Stands site stream cid r) {os₀ : Os} (hsound : Sound os₀ r)
    (hfol : Followed site r) (hn : Numbered r) (hcr : r.crashed = none) (hcid : c.cid ≠ cid)
    (hcond : Conducted site c r r') (hserial : r.os.serial ≤ r'.os.serial)
    (henrolled : ∀ k i, Enrolled r.os k i → Enrolled r'.os k i)
    (hothers : ∀ k, k ≠ c.fd → r'.conns k = r.conns k) (hc : r.conns c.fd = some c)
    (hself : ∀ k d, r'.conns k = some d → ∃ d₀, r.conns k = some d₀ ∧ d.cid = d₀.cid) :
    Stands site stream cid r' := by
  -- the acting connection has another number, so its history is another one
  have hhist : r'.os.history cid = r.os.history cid := hcond.history cid (Ne.symm hcid)
  cases h with
  | unborn h =>
      rcases Nat.lt_or_ge cid r'.os.serial with hlt | hge
      · refine .gone hlt (fun fd d hd => ?_) (.fresh (hhist.trans (hfol.unborn cid h)) stream)
        obtain ⟨d₀, hd₀, heq⟩ := hself fd d hd
        have := hn.lt fd d₀ hd₀
        omega
      · exact .unborn hge
  | live fd d hd hdcid hserved =>
      subst hdcid
      have hne : fd ≠ c.fd := by
        rintro rfl
        cases hc.symm.trans hd
        exact hcid rfl
      refine .live fd d ((hothers fd hne).trans hd) rfl ?_
      exact hserved.of_others (hsound.owns hcr fd d hd).1
        (hcond.sameOwned (fun h0 => hcid (Option.some.inj h0).symm)) hhist (henrolled _ _)
  | gone hlt hno hfin =>
      refine .gone (Nat.lt_of_lt_of_le hlt hserial) (fun fd d hd => ?_) (hfin.of_history hhist)
      obtain ⟨d₀, hd₀, heq⟩ := hself fd d hd
      rw [heq]
      exact hno fd d₀ hd₀
  | fault h0 => exact absurd hcr h0

/-- Setting the schedule of an event changes nothing. -/
theorem Stands.begin (h : Stands site stream cid r) (e : Event) :
    Stands site stream cid (r.begin e) := by
  cases h with
  | unborn h => exact .unborn h
  | live fd c hc hcid hserved => exact .live fd c hc hcid (hserved.setSched e.sched)
  | gone hlt hno hfin => exact .gone hlt hno (hfin.of_history rfl)
  | fault hcr hfin hstage => exact .fault hcr (hfin.of_history rfl) hstage

/-- A connection in the table stands as live. -/
theorem Stands.served (h : Stands site stream cid r) (hn : Numbered r) (hcr : r.crashed = none)
    (hc : r.conns fd = some c) (hcid : c.cid = cid) : Served site stream r.os c := by
  cases h with
  | unborn h =>
      have := hn.lt fd c hc
      omega
  | live fd' c' hc' hcid' hserved =>
      have heq := hn.inj fd fd' c c' hc hc' (hcid.trans hcid'.symm)
      subst heq
      cases hc.symm.trans hc'
      exact hserved
  | gone hlt hno => exact absurd hcid (hno fd c hc)
  | fault h0 => exact absurd hcr h0

/-- A step of the connection itself. -/
theorem Stands.own {e : Event} (h : Stands site stream cid r) (hn : Numbered r)
    (hcr : r.crashed = none) (hc : r.conns c.fd = some c) (hcid : c.cid = cid)
    (hsched : e.sched.Benign) (hout : Outcome site (r.begin e) c r' ref) :
    Stands site stream cid (r'.settle c.fd ref) := by
  have hserving : Serving site stream (r.begin e).os c := (h.served hn hcr hc hcid).serving hsched
  have hkept := hout.kept hserving
  rw [hcid] at hkept
  have hlt : cid < r.os.serial := hcid ▸ hn.lt c.fd c hc
  cases ref with
  | live c' =>
      exact .live c.fd c' (Function.update_self ..) hkept.2.1 hkept.1.served
  | closed =>
      refine .gone (Nat.lt_of_lt_of_le hlt hout.serial_le) (fun fd d hd h0 => ?_) hkept
      obtain ⟨d₀, hd₀, heq⟩ := hout.settle_conns hc hd
      obtain rfl := hn.inj fd c.fd d₀ c hd₀ hc (heq.symm.trans (h0.trans hcid.symm))
      cases hout.gone.symm.trans hd
  | crashed f => exact .fault (by simp [Reactor.settle]) hkept.1 hkept.2

/-! ## Accepting -/

theorem Served.fresh {os : Os} (h : os.history cid = ⟨[], [], [], []⟩)
    (hsock : os.incoming fd = some stream) (harmed : (os.interest fd).isSome) :
    Served site stream os (Conn.calloc fd cid) := by
  have hserving : Serving site stream { os with sched := ⟨[], [], [], []⟩ } (Conn.calloc fd cid) :=
    .fresh h hsock harmed ⟨by simp, by simp, by simp, by simp⟩
  exact hserving.served.setSched os.sched

theorem Accepted.stands {a : AcceptRes} (hacc : Accepted r a r') (h : Stands site stream cid r)
    (hsends : r.os.serial = cid → a.incoming = stream) {os₀ : Os} (hsound : Sound os₀ r)
    (hfol : Followed site r) (hrest : AtRest r) (hcr : r.crashed = none) :
    Stands site stream cid r' := by
  have hhist := history_acceptedOs r a
  have hsame : ∀ d : Conn, d.cid < r.os.serial → SameOwned (some d.cid) r.os (r.acceptedOs a) :=
    fun d hlt => sameOwned_acceptedOs r a (fun h0 => Nat.ne_of_lt hlt (Option.some.inj h0))
  cases hacc with
  | refused =>
      -- the descriptor was free before `accept` and is free again
      have hfds : ((r.acceptedOs a).close none (r.os.fds.pick a.hint)).fds.get = r.os.fds.get :=
        get_erase_insert _ _ (r.os.fds.pick_free a.hint)
      have hhist' : ((r.acceptedOs a).close none (r.os.fds.pick a.hint)).history = r.os.history :=
        (Os.history_close ..).trans hhist
      cases h with
      | unborn h =>
          rcases Nat.lt_or_ge cid (r.os.serial + 1) with hlt | hge
          · refine .gone hlt (fun fd d hd => ?_)
              (.fresh ((congrFun hhist' cid).trans (hfol.unborn cid h)) stream)
            have := hrest.numbered.lt fd d hd
            omega
          · exact .unborn hge
      | live fd c hc hcid hserved =>
          refine .live fd c hc hcid (hserved.of_others (hsound.owns hcr fd c hc).1
            (fun k d _ => by rw [hfds]) (congrFun hhist' c.cid) (fun he => ?_))
          exact (he.accepted (hrest.numbered.lt fd c hc) a).close none _
      | gone hlt hno hfin =>
          exact .gone (Nat.lt_succ_of_lt hlt) hno (hfin.of_history (congrFun hhist' cid))
      | fault h0 => exact absurd hcr h0
  | welcomed hbelow =>
      cases h with
      | unborn h =>
          have hnew : (r.acceptedOs a).history cid = ⟨[], [], [], []⟩ :=
            (congrFun hhist cid).trans (hfol.unborn cid h)
          rcases Nat.lt_or_ge r.os.serial cid with hlt | hge
          · exact .unborn hlt
          -- the connection that has been accepted is the one in question
          · obtain rfl : r.os.serial = cid := Nat.le_antisymm h hge
            refine .live _ _ (Function.update_self ..) rfl (.fresh hnew ?_ ?_)
            · rw [← hsends rfl]
              simp [Os.incoming, Os.epollAdd, Os.epollCtl, Reactor.acceptedOs, Os.alloc, Os.log]
            · simp [Os.epollAdd, Os.epollCtl]
      | live fd c hc hcid hserved =>
          have hown := (hsound.owns hcr fd c hc).1
          have hlt := hrest.numbered.lt fd c hc
          -- its descriptor is open, so the new connection has another
          have hne : fd ≠ r.os.fds.pick a.hint := by
            rintro rfl
            obtain ⟨bs, hsock⟩ := hown.sock
            rw [(hrest.orderly hcr _ c hc).1, r.os.fds.pick_free] at hsock
            cases hsock
          refine .live fd c ((Function.update_of_ne hne ..).trans hc) hcid
            (hserved.of_others hown (hsame c hlt) (congrFun hhist c.cid) (fun he => ?_))
          exact (he.accepted hlt a).epollCtl _ _ _
      | gone hlt hno hfin =>
          refine .gone (Nat.lt_succ_of_lt hlt) (fun fd d hd => ?_) (hfin.of_history (congrFun hhist cid))
          rcases eq_or_ne fd (r.os.fds.pick a.hint) with rfl | hne
          · simp only [Function.update_self, Option.some.injEq] at hd
            subst hd
            exact Nat.ne_of_gt hlt
          · exact hno fd d ((Function.update_of_ne hne ..).symm.trans hd)
      | fault h0 => exact absurd hcr h0

theorem Accepted.serial {a : AcceptRes} (hacc : Accepted r a r') :
    r'.os.serial = r.os.serial + 1 := by
  cases hacc with
  | refused => rfl
  | welcomed => rfl

/-- The loop of `reactor_accept`, in which connection `cid` may be accepted. -/
theorem reactorAccept_stands {os₀ : Os} (accepts : List AcceptRes)
    (hsends : r.os.serial ≤ cid → ∀ a ∈ accepts[cid - r.os.serial]?, a.incoming = stream)
    (hcr : r.crashed = none) (hrest : AtRest r) (hfol : Followed site r) (hsound : Sound os₀ r)
    (h : Stands site stream cid r) : Stands site stream cid (reactorAccept r accepts) := by
  induction accepts generalizing r with
  | nil => exact h
  | cons a accepts ih =>
      have hacc := acceptOne_accepted r a
      have hserial := hacc.serial
      refine ih (fun hle b hb => ?_) (hacc.crashed.trans hcr)
        ⟨hacc.orderly hcr hrest.orderly, hacc.numbered hrest.numbered⟩ (hacc.followed hcr hfol)
        (hacc.sound hcr hrest hfol hsound) (hacc.stands h (fun heq => ?_) hsound hfol hrest hcr)
      · refine hsends (by omega) b ?_
        obtain ⟨i, hi⟩ : ∃ i, cid - r.os.serial = i + 1 := ⟨cid - r.os.serial - 1, by omega⟩
        rw [hi, List.getElem?_cons_succ]
        rwa [hserial, show cid - (r.os.serial + 1) = i by omega] at hb
      · exact hsends (Nat.le_of_eq heq) a (by rw [heq, Nat.sub_self]; rfl)

/-! ## Runs -/

theorem Step.stands {e : Event} (hstep : Step site r e r') {os₀ : Os} (hrest : AtRest r)
    (hcare : Careful site r e) (hatt : Attends stream cid r e) (hfol : Followed site r)
    (hsound : Sound os₀ r) (h : Stands site stream cid r) : Stands site stream cid r' := by
  have hbegin := h.begin e
  have hn : Numbered (r.begin e) := ⟨hrest.numbered.lt, hrest.numbered.inj⟩
  cases hstep with
  | idle => exact h
  | woken =>
      cases hbegin with
      | unborn h => exact .unborn h
      | live fd c hc hcid hserved => exact .live fd c hc hcid hserved
      | gone hlt hno hfin => exact .gone hlt hno hfin
      | fault hcr hfin hstage => exact .fault hcr hfin hstage
  | ignored => exact hbegin
  | accepted hcr hfd =>
      exact reactorAccept_stands e.accepts hatt.sends hcr ⟨hrest.orderly.begin e, hn⟩ (hfol.begin e)
        (hsound.begin e) hbegin
  | @hangup c hgo hcr hc hfd hwait herr =>
      have hcid : c.cid ≠ cid := by
        intro h0
        cases herr.symm.trans (hatt.benign c hc h0).2
      -- a connection hung up before its first response would not be in a careful run
      have hans : Answered r.os c := by
        by_contra hnot
        cases herr.symm.trans (hcare hgo hcr c hc hnot).1
      have hown := ((hsound.begin e).owns hcr _ c hc).1
      rw [← hfd] at hc
      refine hbegin.others (hsound.begin e) (hfol.begin e) hn hcr hcid
        ⟨fun P hP hos => hown.connClose_stable hans hP hos,
          fun i _ => congrFun (history_connClose _ c) i⟩ (serial_connClose ..).ge
        (fun k i he => he.connClose c) (fun k hk => connClose_conns _ c hk) hc (fun k d hd => ?_)
      rcases eq_or_ne k c.fd with rfl | hne
      · cases (connClose_gone (r.begin e) c).symm.trans hd
      · exact ⟨d, (connClose_conns _ c hne).symm.trans hd, rfl⟩
  | @handled c r' ref hgo hcr hc hfd hwait herr hin hout =>
      obtain ⟨hown, hbuf⟩ := hsound.owns hcr _ c hc
      have hmem : c ∈ r.conns e.fd := hc
      have ht : Tenant site (r.begin e).os c :=
        ⟨(hfol.begin e).attuned hcr _ c hc, ((hsound.begin e).owns hcr _ c hc).2,
          ((hsound.begin e).owns hcr _ c hc).1, hcare.hope hgo hcr hc hfd hwait hin hown hbuf⟩
      rw [← hfd] at hc ⊢
      -- the event is one of its own, or one that acts on what others own
      by_cases hcid : c.cid = cid
      · exact h.own hrest.numbered hcr hc hcid (hatt.benign c hmem hcid).1 hout
      · have hcond := hout.conducted ht
        have hos : (r'.settle c.fd ref).os = r'.os := by cases ref <;> rfl
        refine hbegin.others (hsound.begin e) (hfol.begin e) hn hcr hcid
          ⟨fun P hP hos' => hos ▸ hcond.stable P hP hos', fun i hi => hos ▸ hcond.history i hi⟩
          (hos ▸ hout.serial_le) (fun k i he => hos ▸ hout.enrolled he)
          (fun k hk => hout.settle_of_ne hk) hc (fun k d hd => hout.settle_conns hc hd)

theorem reactorRun_stands (site : Site) (inherited : List Nat) (es : List Event)
    (hes : Along site (fun r e => Careful site r e ∧ Attends stream cid r e)
      (reactorCreate inherited) es) :
    AtRest (reactorRun site (reactorCreate inherited) es) ∧
      Followed site (reactorRun site (reactorCreate inherited) es) ∧
      Stands site stream cid (reactorRun site (reactorCreate inherited) es) := by
  have hstart : Stands site stream cid (reactorCreate inherited) := by
    rcases Nat.lt_or_ge cid (reactorCreate inherited).os.serial with hlt | hge
    · exact .gone hlt (fun fd c hc => by cases hc) (.fresh rfl stream)
    · exact .unborn hge
  have hrun := reactorRun_rule site
    (I := fun r => (Followed site r ∧ Sound (reactorCreate inherited).os r) ∧
      Stands site stream cid r)
    (fun r e r' hrest hG h hstep =>
      ⟨⟨hstep.followed hrest.numbered h.1.1, hstep.sound hrest hG.1 h.1.1 h.1.2⟩,
        hstep.stands hrest hG.1 hG.2 h.1.1 h.1.2 h.2⟩)
    es hes (reactorCreate_atRest inherited)
    ⟨⟨reactorCreate_followed site inherited, reactorCreate_sound inherited⟩, hstart⟩
  exact ⟨hrun.1, hrun.2.1.1, hrun.2.2⟩

/-- The reactor runs, and nothing is left to send on connection `cid`. -/
def Reactor.Quiet (r : Reactor) (cid : Nat) : Prop :=
  r.crashed = none ∧ ∀ fd c, r.conns fd = some c → c.cid = cid → c.unsent r.os = []

/-- What a connection does in any company: it reads a part of what its client sends; the bytes
sent are a prefix of the output of the dialogue over that part, and all of it once nothing is left
to send; and when the dialogue is over the connection is closed then. -/
structure Converses (site : Site) (stream : List UInt8) (cid : Nat) (r : Reactor) : Prop where
  received : r.os.received cid <+: stream
  sent : r.os.sent cid <+: (Transcript.start.run (r.os.received cid)).output site
  complete : r.Quiet cid → r.os.sent cid = (Transcript.start.run (r.os.received cid)).output site
  closes : (Transcript.start.run (r.os.received cid)).stage = .ended → r.Quiet cid →
    ∀ fd c, r.conns fd = some c → c.cid ≠ cid

/-- A connection that is not in the table has done all its dialogue asks for. -/
theorem Finished.converses (h : Finished site stream r.os cid)
    (hno : r.crashed = none → ∀ fd c, r.conns fd = some c → c.cid ≠ cid) :
    Converses site stream cid r where
  received := h.received
  sent := by
    rw [h.dialogue_received, ← h.output]
  complete := fun _ => by
    rw [h.dialogue_received, ← h.output]
  closes := fun _ hq => hno hq.1

theorem Served.converses (h : Served site stream r.os c) (hrest : AtRest r)
    (hc : r.conns fd = some c) : Converses site stream c.cid r := by
  have hout : r.os.sent c.cid <+: (r.os.dialogue c.cid).output site := ⟨_, h.reply.output⟩
  have hquiet : r.Quiet c.cid → c.state = .reading ∧ r.os.parsed c.cid = r.os.received c.cid := by
    intro hq
    have hwait := (hrest.orderly hq.1 fd c hc).2
    exact Serving.reading_of_quiet (r := r.begin ⟨0, ⟨false, false, false⟩, ⟨[], [], [], []⟩, []⟩)
      (h.serving ⟨by simp, by simp, by simp, by simp⟩) (hwait.of_stillOrLost (.inl rfl))
      (hq.2 fd c hc rfl)
  refine ⟨h.intake.received_prefix,
    hout.trans (Transcript.output_prefix site _ h.buffered.parsed_prefix), fun hq => ?_,
    fun hover hq => ?_⟩
  · obtain ⟨hs, heq⟩ := hquiet hq
    rw [← heq]
    exact h.reply.sent_of_reading hs
  · obtain ⟨hs, heq⟩ := hquiet hq
    have hstage := h.attuned.reading hs
    rw [← heq] at hover
    rw [Os.dialogue, hover] at hstage
    cases hstage

theorem Stands.converses (h : Stands site stream cid r) (hrest : AtRest r) (hfol : Followed site r) :
    Converses site stream cid r := by
  cases h with
  | unborn h =>
      refine Finished.converses (.fresh (hfol.unborn cid h) stream) (fun _ fd c hc => ?_)
      have := hrest.numbered.lt fd c hc
      omega
  | live fd c hc hcid hserved =>
      subst hcid
      exact hserved.converses hrest hc
  | gone _ hno hfin => exact hfin.converses (fun _ => hno)
  | fault hcr hfin => exact hfin.converses (fun h0 => absurd h0 hcr)

/-- **The output does not depend on the company.** Take two runs of the reactor, with any other
connections, and in each a connection whose client sends `stream` and whose own events meet no
failure. Each keeps to the dialogue over what it has read; what one of them has sent is a prefix of
what the other has sent, and they have sent the same once they have read the same and have nothing
left to send. -/
theorem output_independent_of_company (site : Site) (stream : List UInt8)
    (inherited₁ inherited₂ : List Nat) (es₁ es₂ : List Event) (cid₁ cid₂ : Nat)
    (h₁ : Along site (fun r e => Careful site r e ∧ Attends stream cid₁ r e)
      (reactorCreate inherited₁) es₁)
    (h₂ : Along site (fun r e => Careful site r e ∧ Attends stream cid₂ r e)
      (reactorCreate inherited₂) es₂) :
    Converses site stream cid₁ (reactorRun site (reactorCreate inherited₁) es₁) ∧
    Converses site stream cid₂ (reactorRun site (reactorCreate inherited₂) es₂) ∧
    ((reactorRun site (reactorCreate inherited₁) es₁).os.sent cid₁ <+:
        (reactorRun site (reactorCreate inherited₂) es₂).os.sent cid₂ ∨
      (reactorRun site (reactorCreate inherited₂) es₂).os.sent cid₂ <+:
        (reactorRun site (reactorCreate inherited₁) es₁).os.sent cid₁) ∧
    ((reactorRun site (reactorCreate inherited₁) es₁).os.received cid₁ =
        (reactorRun site (reactorCreate inherited₂) es₂).os.received cid₂ →
      (reactorRun site (reactorCreate inherited₁) es₁).Quiet cid₁ →
      (reactorRun site (reactorCreate inherited₂) es₂).Quiet cid₂ →
      (reactorRun site (reactorCreate inherited₁) es₁).os.sent cid₁ =
        (reactorRun site (reactorCreate inherited₂) es₂).os.sent cid₂) := by
  obtain ⟨hrest₁, hfol₁, hstands₁⟩ := reactorRun_stands site inherited₁ es₁ h₁
  obtain ⟨hrest₂, hfol₂, hstands₂⟩ := reactorRun_stands site inherited₂ es₂ h₂
  have hconv₁ := hstands₁.converses hrest₁ hfol₁
  have hconv₂ := hstands₂.converses hrest₂ hfol₂
  refine ⟨hconv₁, hconv₂, ?_, fun heq hq₁ hq₂ => ?_⟩
  · exact List.prefix_or_prefix_of_prefix
      (hconv₁.sent.trans (Transcript.output_prefix site _ hconv₁.received))
      (hconv₂.sent.trans (Transcript.output_prefix site _ hconv₂.received))
  · rw [hconv₁.complete hq₁, hconv₂.complete hq₂, heq]

/-! A request that is read in two parts while another connection is accepted, answered and broken
off; and the same request on a connection that is alone. -/

instance (s : Sched) : Decidable s.Benign :=
  decidable_of_iff (.fail ∉ s.reads ∧ (.fail ∉ s.writes ∧ .bytes 0 ∉ s.writes) ∧ none ∉ s.opens ∧
    false ∉ s.mallocs)
    ⟨fun h => ⟨h.1, h.2.1, h.2.2.1, h.2.2.2⟩, fun h => ⟨h.reads, h.writes, h.opens, h.mallocs⟩⟩

instance (r : Reactor) (e : Event) : Decidable (Attends stream cid r e) :=
  decidable_of_iff ((r.os.serial ≤ cid → ∀ a ∈ e.accepts[cid - r.os.serial]?, a.incoming = stream) ∧
    ∀ c ∈ r.conns e.fd, c.cid = cid → e.sched.Benign ∧ e.evs.err = false)
    ⟨fun h => ⟨h.1, h.2⟩, fun h => ⟨h.sends, h.benign⟩⟩

def companyEvents : List Event :=
  [⟨5, ⟨true, false, false⟩, ⟨[], [], [], []⟩, [⟨6, sampleStream, true⟩]⟩,
    ⟨6, ⟨true, false, false⟩, ⟨[.bytes 5, .again], [], [], []⟩, []⟩,
    ⟨5, ⟨true, false, false⟩, ⟨[], [], [], []⟩, [⟨7, ascii "GET /b a\n\nGET /", true⟩]⟩,
    ⟨7, ⟨true, false, false⟩, ⟨[.bytes 99], [.bytes 9, .fail], [], []⟩, []⟩,
    ⟨6, ⟨true, false, false⟩, ⟨[.bytes 99], [.bytes 999], [], []⟩, []⟩]

def aloneEvents : List Event :=
  [⟨5, ⟨true, false, false⟩, ⟨[], [], [], []⟩, [⟨6, sampleStream, true⟩]⟩,
    ⟨6, ⟨true, false, false⟩, ⟨[.bytes 99], [.bytes 999], [], []⟩, []⟩]

/-- A reactor without connections has nothing left to send. -/
theorem Sound.quiet {os₀ : Os} (h : Sound os₀ r) (hcr : r.crashed = none) (hzero : r.activeConns = 0)
    (cid : Nat) : r.Quiet cid := by
  refine ⟨hcr, fun fd c hc _ => ?_⟩
  have hcard : r.live.card = 0 := by
    have := h.count
    omega
  have hmem : fd ∈ r.live := Reactor.mem_live.mpr ⟨h.below fd c hc, c, hc⟩
  rw [Finset.card_eq_zero.mp hcard] at hmem
  cases hmem

theorem companyEvents_careful :
    Along emptySite (Careful emptySite) (reactorCreate [0, 1, 2]) companyEvents := by
  refine ⟨?_, ?_, ?_, ?_, ?_, trivial⟩
  · decide +kernel
  · decide +kernel
  · decide +kernel
  · decide +kernel
  · decide +kernel

theorem aloneEvents_careful :
    Along emptySite (Careful emptySite) (reactorCreate [0, 1, 2]) aloneEvents := by
  refine ⟨?_, ?_, trivial⟩
  · decide +kernel
  · decide +kernel

theorem output_independent_of_company_sample :
    (reactorRun emptySite (reactorCreate [0, 1, 2]) companyEvents).os.sent 4 =
        (reactorRun emptySite (reactorCreate [0, 1, 2]) aloneEvents).os.sent 4 ∧
      (reactorRun emptySite (reactorCreate [0, 1, 2]) companyEvents).os.sent 4 =
        simpleReply .notFound (ascii "404 Not Found\n") false ∧
      (reactorRun emptySite (reactorCreate [0, 1, 2]) companyEvents).os.sent 5 ≠ [] := by
  have hcompany : Along emptySite (Attends sampleStream 4) (reactorCreate [0, 1, 2]) companyEvents := by
    refine ⟨?_, ?_, ?_, ?_, ?_, trivial⟩
    · decide +kernel
    · decide +kernel
    · decide +kernel
    · decide +kernel
    · decide +kernel
  have halone : Along emptySite (Attends sampleStream 4) (reactorCreate [0, 1, 2]) aloneEvents := by
    refine ⟨?_, ?_, trivial⟩
    · decide +kernel
    · decide +kernel
  have hboth := output_independent_of_company emptySite sampleStream [0, 1, 2] [0, 1, 2] companyEvents
    aloneEvents 4 4 (companyEvents_careful.and hcompany) (aloneEvents_careful.and halone)
  refine ⟨hboth.2.2.2 ?_ ?_ ?_, ?_, ?_⟩
  · decide +kernel
  · exact (reactorRun_sound emptySite _ _ companyEvents_careful).2.quiet (by decide +kernel)
      (by decide +kernel) 4
  · exact (reactorRun_sound emptySite _ _ aloneEvents_careful).2.quiet (by decide +kernel)
      (by decide +kernel) 4
  · decide +kernel
  · decide +kernel

end HttpServer
