import HttpServer.Lib.Run
import HttpServer.Reactor.Batch
import HttpServer.Reactor.Company
import HttpServer.Reactor.Oversize

set_option autoImplicit false

/-! # A connection is drained

A connection with a part of its response left waits to be told that its socket is writable. Every
time it is, and the socket takes a byte, it sends more than it had. As all it ever sends is the
output of its dialogue, this happens no more often than there are bytes in the output, whatever the
other connections do in between (`drained`): it cannot go on being told of its socket without
coming to the end of its responses.
-/

namespace HttpServer

open CLib

variable {site : Site} {stream : List UInt8} {cid : Nat} {os os' : Os} {r r' : Reactor}
  {c c' : Conn} {ref : ConnRef}

/-! ## What has been sent stays sent -/

theorem sent_of_history (h : os'.history cid = os.history cid) : os'.sent cid = os.sent cid :=
  congrArg History.sent h

theorem sent_robust (cid : Nat) (s : List UInt8) : Robust fun os => s <+: os.sent cid where
  sched := fun _ _ h => h
  log := fun os e h => by
    rw [Os.sent, Os.log, List.flatMap_append]
    exact h.trans (List.prefix_append ..)
  openFile := fun site os i path h => by
    rw [sent_of_history (congrFun (os.history_openFile site i path) cid)]
    exact h
  consume := fun os fd n h => by
    rw [consume_eq]
    exact h
  close := fun os by_ fd h => by
    rw [sent_of_history (congrFun (os.history_close by_ fd) cid)]
    exact h
  epollMod := fun os fd i h => by
    unfold Os.epollMod
    split
    · exact h
    · exact h
  hangUp := fun os by_ fd h => by
    rw [sent_of_history (congrFun ((os.epollDel fd).history_close by_ fd) cid)]
    exact h

theorem Step.sent_kept {e : Event} (hstep : Step site r e r') (cid : Nat) :
    r.os.sent cid <+: r'.os.sent cid := by
  cases hstep with
  | idle => exact List.prefix_rfl
  | woken => exact List.prefix_rfl
  | ignored => exact List.prefix_rfl
  | accepted hcr =>
      refine reactorAccept_rule (I := fun r₁ => r.os.sent cid <+: r₁.os.sent cid)
        (fun r₁ a r₂ _ hacc h => ?_) e.accepts hcr List.prefix_rfl
      have hhist : r₂.os.history = r₁.os.history := by
        cases hacc with
        | refused => exact (Os.history_close ..).trans (history_acceptedOs r₁ a)
        | welcomed => exact history_acceptedOs r₁ a
      rw [sent_of_history (congrFun hhist cid)]
      exact h
  | hangup =>
      rw [sent_of_history (congrFun (history_connClose ..) cid)]
      exact List.prefix_rfl
  | @handled c r' ref hgo hcr hc hfd hwait herr hin hout =>
      have hsent := hout.robust (sent_robust cid (r.os.sent cid)) List.prefix_rfl
      cases ref with
      | live => exact hsent
      | closed => exact hsent
      | crashed => exact hsent

/-! ## A call that takes a byte -/

theorem writeLoop_more {todo : Conn → Bool} {call : Reactor → Conn → WriteRes → Reactor × Flush}
    {finish : Reactor → Conn → Reactor × Flush} {w : WriteRes} {ws : List WriteRes}
    (htodo : todo c = true) (hcall : call (r.setWrites ws) c w = (r', .more c')) :
    writeLoop todo call finish r c (w :: ws) = writeLoop todo call finish r' c' ws := by
  rw [writeLoop, if_pos htodo, hcall]

theorem flush_sendfile (r : Reactor) (h : c.phase = .sendfile) : flush r c = flushFile r c := by
  rw [flush, if_neg (by simp [h])]
  exact if_pos h

/-- The connection has sent `bs` more, and goes on with the answers it had before. -/
structure Sent (r : Reactor) (c : Conn) (bs : List UInt8) (r' : Reactor) (c' : Conn) : Prop where
  sent : r'.os.sent c.cid = r.os.sent c.cid ++ bs
  state : c'.state = .writing
  inbuf : c'.inbuf = c.inbuf
  inHead : c'.inHead = c.inHead
  enterable : Enterable c'
  flush : flush r c = flush r' c'

/-- The reactor after a call that has taken `bs`, with the answers `ws` left. -/
def Reactor.wrote (r : Reactor) (c : Conn) (bs : List UInt8) (ws : List WriteRes) : Reactor :=
  { r.setWrites ws with os := (r.setWrites ws).os.log (.wrote c.cid bs) }

theorem sent_wrote (r : Reactor) (c : Conn) (bs : List UInt8) (ws : List WriteRes) :
    (r.wrote c bs ws).os.sent c.cid = r.os.sent c.cid ++ bs := by
  have hlog : (r.wrote c bs ws).os.trace = r.os.trace ++ [.wrote c.cid bs] := rfl
  simp [Os.sent, hlog, Ev.sent]

/-- One turn of the loop over the head ... -/
theorem flush_head_more {w : WriteRes} {ws : List WriteRes} (hhead : c.phase = .head)
    (hhead' : c'.phase = .head) (hlt : c.headOff < c.head.length)
    (hw : r.os.sched.writes = w :: ws) (hw' : r'.os.sched.writes = ws)
    (hcall : headCall (r.setWrites ws) c w = (r', .more c')) : flush r c = flush r' c' := by
  have hloop : flushHead r c = flushHead r' c' := by
    rw [flushHead, flushHead, hw, hw']
    exact writeLoop_more (decide_eq_true hlt) hcall
  rw [flush, flush, if_pos hhead, if_pos hhead', hloop]

/-- ... and of that over the file. -/
theorem flush_file_more {w : WriteRes} {ws : List WriteRes} (hsend : c.phase = .sendfile)
    (hsend' : c'.phase = .sendfile) (hlt : c.fileOff < c.fileLen)
    (hw : r.os.sched.writes = w :: ws) (hw' : r'.os.sched.writes = ws)
    (hcall : fileCall (r.setWrites ws) c w = (r', .more c')) : flush r c = flush r' c' := by
  have hloop : flushFile r c = flushFile r' c' := by
    rw [flushFile, flushFile, hw, hw']
    exact writeLoop_more (decide_eq_true hlt) hcall
  rw [flush_sendfile r hsend, flush_sendfile r' hsend', hloop]

/-- The file that is being sent is open. -/
theorem InPhase.opened (hphase : InPhase c) (hfile : FileOk r.os c) (hsend : c.phase = .sendfile) :
    ∃ content, c.fileFd.bind r.os.content = some content ∧ c.fileLen = content.length := by
  obtain ⟨k, hk⟩ := Option.isSome_iff_exists.mp (hphase.sendfile hsend).2
  obtain ⟨_, content, hcontent, hlen, _⟩ := hfile k hk
  refine ⟨content, ?_, hlen⟩
  rw [hk]
  exact hcontent

/-- The first call of `conn_write` takes a byte if its answer is not 0. -/
theorem flush_bytes {n : Nat} {ws : List WriteRes} (hs : c.state = .writing) (hleft : Unfinished c)
    (hfile : FileOk r.os c) (hphase : InPhase c) (hsock : (r.os.incoming c.fd).isSome)
    (hw : r.os.sched.writes = .bytes (n + 1) :: ws) :
    ∃ bs r' c', bs ≠ [] ∧ Sent r c bs r' c' := by
  obtain ⟨incoming, hincoming⟩ := Option.isSome_iff_exists.mp hsock
  have hsame : (r.setWrites ws).os.incoming c.fd = some incoming := hincoming
  -- a part of the head is left, or all of the head is gone and a part of the file is left
  rcases hleft with ⟨hhead, hlt⟩ | ⟨hsend, hoff, hlt⟩
  · let bs := (c.head.drop c.headOff).take (n + 1)
    have hbs : bs ≠ [] := by
      intro hnil
      rcases List.take_eq_nil_iff.mp hnil with h0 | h0
      · cases h0
      · rw [List.drop_eq_nil_iff] at h0
        omega
    have hcall : headCall (r.setWrites ws) c (.bytes (n + 1)) =
        (r.wrote c bs ws, .more { c with headOff := c.headOff + bs.length }) := by
      rw [headCall, hsame]
      exact if_neg hbs
    exact ⟨bs, r.wrote c bs ws, { c with headOff := c.headOff + bs.length }, hbs,
      ⟨sent_wrote r c bs ws, hs, rfl, rfl, .inl hhead,
        flush_head_more hhead hhead hlt hw rfl hcall⟩⟩
  · obtain ⟨content, hopen, hlen⟩ := hphase.opened hfile hsend
    -- the kernel is asked for what is left of the file, and for no more than it takes at once
    let count := min (n + 1) (min (c.fileLen - c.fileOff) sendfileMax)
    let bs := (content.drop c.fileOff).take count
    have hbs : bs ≠ [] := by
      intro hnil
      rcases List.take_eq_nil_iff.mp hnil with h0 | h0
      · have hmax : 0 < sendfileMax := by decide
        omega
      · rw [List.drop_eq_nil_iff] at h0
        omega
    have hcall : fileCall (r.setWrites ws) c (.bytes (n + 1)) =
        (r.wrote c bs ws, .more { c with fileOff := c.fileOff + bs.length }) := by
      rw [fileCall, show c.fileFd.bind (r.setWrites ws).os.content = some content from hopen, hsame]
      rfl
    exact ⟨bs, r.wrote c bs ws, { c with fileOff := c.fileOff + bs.length }, hbs,
      ⟨sent_wrote r c bs ws, hs, rfl, rfl, .inr hoff,
        flush_file_more hsend hsend hlt hw rfl hcall⟩⟩

/-- A call that fails with `EINTR` is made again. -/
theorem flush_intr {ws : List WriteRes} (hleft : Unfinished c) (hfile : FileOk r.os c)
    (hphase : InPhase c) (hsock : (r.os.incoming c.fd).isSome)
    (hw : r.os.sched.writes = .intr :: ws) : flush r c = flush (r.setWrites ws) c := by
  obtain ⟨incoming, hincoming⟩ := Option.isSome_iff_exists.mp hsock
  have hsame : (r.setWrites ws).os.incoming c.fd = some incoming := hincoming
  rcases hleft with ⟨hhead, hlt⟩ | ⟨hsend, hoff, hlt⟩
  · have hcall : headCall (r.setWrites ws) c .intr = (r.setWrites ws, .more c) := by
      rw [headCall, hsame]
    exact flush_head_more hhead hhead hlt hw rfl hcall
  · obtain ⟨content, hopen, -⟩ := hphase.opened hfile hsend
    have hcall : fileCall (r.setWrites ws) c .intr = (r.setWrites ws, .more c) := by
      rw [fileCall, show c.fileFd.bind (r.setWrites ws).os.content = some content from hopen, hsame]
    exact flush_file_more hsend hsend hlt hw rfl hcall

/-- Of the answers of the kernel, the first that is not `EINTR` takes a byte. -/
def takesByte : List WriteRes → Bool
  | .bytes (_ + 1) :: _ => true
  | .intr :: ws => takesByte ws
  | _ => false

/-- Then `conn_write` sends something before it does anything else. -/
theorem flush_sent (hs : c.state = .writing) (hleft : Unfinished c) (hfile : FileOk r.os c)
    (hphase : InPhase c) (hsock : (r.os.incoming c.fd).isSome)
    (htakes : takesByte r.os.sched.writes = true) :
    ∃ bs r' c', bs ≠ [] ∧ Sent r c bs r' c' := by
  generalize hw : r.os.sched.writes = answers at htakes
  -- by induction on the answers: those before the first byte change nothing but the schedule
  induction answers generalizing r with
  | nil => cases htakes
  | cons w ws ih =>
      cases w with
      | again => cases htakes
      | fail => cases htakes
      | intr =>
          obtain ⟨bs, r', c', hne, hsent⟩ := ih (r := r.setWrites ws) hfile hsock rfl htakes
          refine ⟨bs, r', c', hne, ?_⟩
          exact { hsent with flush := (flush_intr hleft hfile hphase hsock hw).trans hsent.flush }
      | bytes n =>
          cases n with
          | zero => cases htakes
          | succ n => exact flush_bytes hs hleft hfile hphase hsock hw

theorem Sent.connWrite {bs : List UInt8} (h : Sent r c bs r' c') (site : Site) :
    connWrite site r c = connWrite site r' c' := by
  rw [HttpServer.connWrite, HttpServer.connWrite, h.inbuf, h.inHead, connWriteN, connWriteN, h.flush]

/-- What `conn_write` does where the socket takes a byte: it sends more than there was. -/
theorem connWrite_grows (site : Site) (hs : c.state = .writing) (hleft : Unfinished c)
    (hin : c.inHead ≤ c.inbuf.length) (hfile : FileOk r.os c) (hphase : InPhase c)
    (hsock : (r.os.incoming c.fd).isSome) (htakes : takesByte r.os.sched.writes = true) :
    (r.os.sent c.cid).length < ((connWrite site r c).1.os.sent c.cid).length := by
  obtain ⟨bs, r₁, c₁, hne, hsent⟩ := flush_sent hs hleft hfile hphase hsock htakes
  have hout := connWrite_outcome site r₁ hsent.state (by rw [hsent.inHead, hsent.inbuf]; exact hin)
    hsent.enterable
  have hgrow := (hout.robust (sent_robust c.cid (r₁.os.sent c.cid)) List.prefix_rfl).length_le
  rw [hsent.connWrite site]
  calc (r.os.sent c.cid).length
      < (r.os.sent c.cid).length + bs.length := Nat.lt_add_of_pos_right (List.length_pos_of_ne_nil hne)
    _ = (r₁.os.sent c.cid).length := by rw [hsent.sent, List.length_append]
    _ ≤ _ := hgrow

/-! ## Events -/

/-- The event says that the socket of connection `cid` is writable, which has a response to send;
and the socket takes a byte. -/
def pushes (cid : Nat) (r : Reactor) (e : Event) : Bool :=
  !r.stop && r.crashed.isNone && e.evs.output && takesByte e.sched.writes &&
    (r.conns e.fd).any fun c => decide (c.cid = cid) && decide (c.state = .writing)

theorem pushes_iff {e : Event} : pushes cid r e = true ↔ r.stop = false ∧ r.crashed = none ∧
    e.evs.output = true ∧ takesByte e.sched.writes = true ∧
    ∃ c, r.conns e.fd = some c ∧ c.cid = cid ∧ c.state = .writing := by
  simp [pushes, and_assoc, Option.any_eq_true]

/-- What is known of the reactor and of connection `cid` between two events. -/
structure Tended (site : Site) (stream : List UInt8) (cid : Nat) (os₀ : Os) (r : Reactor) : Prop where
  regular : Regular site os₀ r
  stands : Stands site stream cid r

theorem Tended.next {os₀ : Os} (h : Tended site stream cid os₀ r) {e : Event}
    (hcare : Careful site r e) (hatt : Attends stream cid r e) :
    Tended site stream cid os₀ (dispatch site r e) :=
  ⟨h.regular.dispatch hcare, (dispatch_step site h.regular.rest.orderly e).stands h.regular.rest
    hcare hatt h.regular.followed h.regular.sound h.stands⟩

/-- A connection with a response to send waits for its socket. -/
theorem Tended.waits {os₀ : Os} (h : Tended site stream cid os₀ r) (hcr : r.crashed = none)
    {fd : Nat} (hc : r.conns fd = some c) (hcid : c.cid = cid) (hs : c.state = .writing) :
    r.os.interest fd = some .output ∧ Unfinished c ∧ c.inHead ≤ c.inbuf.length := by
  obtain ⟨hfd, hwait⟩ := h.regular.rest.orderly hcr fd c hc
  have harmed := (h.stands.served h.regular.rest.numbered hcr hc hcid).intake.armed
  cases hwait with
  | input hread => cases hs.symm.trans hread
  | output _ hin hleft hint =>
      refine ⟨?_, hleft, hin⟩
      rw [hfd] at hint harmed
      exact hint.resolve_right fun hnone => by
        rw [hnone] at harmed
        cases harmed

theorem Tended.push {os₀ : Os} (h : Tended site stream cid os₀ r) {e : Event}
    (hatt : Attends stream cid r e) (hpush : pushes cid r e = true) :
    (r.os.sent cid).length < ((dispatch site r e).os.sent cid).length := by
  obtain ⟨hgo, hcr, hev, htakes, c, hc, hcid, hs⟩ := pushes_iff.mp hpush
  obtain ⟨hint, hleft, hin⟩ := h.waits hcr hc hcid hs
  have hfd := (h.regular.rest.orderly hcr e.fd c hc).1
  have hserved := h.stands.served h.regular.rest.numbered hcr hc hcid
  have herr : e.evs.err = false := (hatt.benign c hc hcid).2
  -- it is registered for output, which the reactor's own descriptors are not
  have hother : ∀ k, k = r.wakeupFd ∨ k = r.listenFd → e.fd ≠ k := by
    rintro k hk rfl
    obtain ⟨_, _, _, hinput⟩ := h.regular.rostered.own _ hk
    cases hint.symm.trans hinput
  have hevent : connEvent site (r.begin e) c (e.evs.report .output) =
      connWrite site (r.begin e) c := by
    simp [connEvent, Evs.report, herr, hev]
  have hsock : ((r.begin e).os.incoming c.fd).isSome := by
    obtain ⟨rest, hrest, _⟩ := hserved.intake.sock
    exact Option.isSome_iff_exists.mpr ⟨rest, hrest⟩
  have hgrow := connWrite_grows site (r := r.begin e) hs hleft hin (hserved.reply.file hs)
    (hserved.reply.phase hs) hsock htakes
  rw [dispatch_conn site (by simp [hgo, hcr]) hint (hother _ (.inl rfl)) (hother _ (.inr rfl)) hc
    hevent]
  rw [hcid] at hgrow
  generalize connWrite site (r.begin e) c = out at hgrow ⊢
  obtain ⟨r', ref⟩ := out
  cases ref with
  | live => exact hgrow
  | closed => exact hgrow
  | crashed => exact hgrow

/-! ## Runs -/

/-- The event makes connection `cid` send more than it had sent, if it pushes. -/
def Advances (site : Site) (cid : Nat) (r : Reactor) (e : Event) : Prop :=
  pushes cid r e = true → ∃ bs, bs ≠ [] ∧ (dispatch site r e).os.sent cid = r.os.sent cid ++ bs

theorem Tended.advances {os₀ : Os} (h : Tended site stream cid os₀ r) {e : Event}
    (hatt : Attends stream cid r e) : Advances site cid r e := by
  intro hpush
  obtain ⟨bs, hbs⟩ := (dispatch_step site h.regular.rest.orderly e).sent_kept cid
  refine ⟨bs, ?_, hbs.symm⟩
  rintro rfl
  have hgrow := h.push hatt hpush
  rw [← hbs, List.append_nil] at hgrow
  exact Nat.lt_irrefl _ hgrow

/-- How often connection `cid` is told of its socket in a run and sends. -/
def pushCount (site : Site) (cid : Nat) : Reactor → List Event → Nat :=
  totalCost (dispatch site) fun r e => if pushes cid r e then 1 else 0

/-- Each time there is more that has been sent. -/
theorem Tended.run {os₀ : Os} (h : Tended site stream cid os₀ r) (es : List Event)
    (hes : Along site (fun r e => Careful site r e ∧ Attends stream cid r e) r es) :
    Tended site stream cid os₀ (reactorRun site r es) ∧ Along site (Advances site cid) r es ∧
      pushCount site cid r es + (r.os.sent cid).length ≤
        ((reactorRun site r es).os.sent cid).length := by
  induction es generalizing r with
  | nil => exact ⟨h, trivial, (Nat.zero_add _).le⟩
  | cons e es ih =>
      obtain ⟨hend, hrest, hle⟩ := ih (h.next hes.1.1 hes.1.2) hes.2
      refine ⟨hend, ⟨h.advances hes.1.2, hrest⟩, ?_⟩
      have hgrow : (if pushes cid r e then 1 else 0) + (r.os.sent cid).length ≤
          ((dispatch site r e).os.sent cid).length := by
        split
        · rename_i hpush
          have := h.push hes.1.2 hpush
          omega
        · have hkept := ((dispatch_step site h.regular.rest.orderly e).sent_kept cid).length_le
          omega
      calc pushCount site cid r (e :: es) + (r.os.sent cid).length
          = pushCount site cid (HttpServer.dispatch site r e) es +
              ((if pushes cid r e then 1 else 0) + (r.os.sent cid).length) := by
            rw [pushCount, totalCost]
            omega
        _ ≤ pushCount site cid (HttpServer.dispatch site r e) es +
              ((HttpServer.dispatch site r e).os.sent cid).length := Nat.add_le_add_left hgrow _
        _ ≤ ((reactorRun site r (e :: es)).os.sent cid).length := hle

theorem reactorCreate_tended (site : Site) (stream : List UInt8) (cid : Nat) (inherited : List Nat) :
    Tended site stream cid (reactorCreate inherited).os (reactorCreate inherited) := by
  refine ⟨reactorCreate_regular site inherited, ?_⟩
  rcases Nat.lt_or_ge cid (reactorCreate inherited).os.serial with hlt | hge
  · exact .gone hlt (fun fd c hc => by cases hc) (.fresh rfl stream)
  · exact .unborn hge

/-- **A connection is drained.** In any run, with any other connections, in which no connection is
closed before its first response is set up, take a connection whose client sends `stream` and whose
own events meet no failure. Whenever it is told that its socket is writable, and the socket takes a
byte, it sends more than it had sent; so this happens at most as many times as there are bytes in
the output of the dialogue over `stream`. And as long as it has something left to send it is
registered to be told. -/
theorem drained (site : Site) (stream : List UInt8) (cid : Nat) (inherited : List Nat)
    (es : List Event) (hes : Along site (fun r e => Careful site r e ∧ Attends stream cid r e)
      (reactorCreate inherited) es) :
    Along site (Advances site cid) (reactorCreate inherited) es ∧
      pushCount site cid (reactorCreate inherited) es ≤
        ((Transcript.start.run stream).output site).length ∧
      ((reactorRun site (reactorCreate inherited) es).crashed = none → ∀ fd c,
        (reactorRun site (reactorCreate inherited) es).conns fd = some c → c.cid = cid →
        c.unsent (reactorRun site (reactorCreate inherited) es).os ≠ [] →
        (reactorRun site (reactorCreate inherited) es).os.interest fd = some .output) := by
  obtain ⟨hend, hgrows, hle⟩ := (reactorCreate_tended site stream cid inherited).run es hes
  refine ⟨hgrows, ?_⟩
  generalize reactorRun site (reactorCreate inherited) es = r at hend hle ⊢
  have hconv := hend.stands.converses hend.regular.rest hend.regular.followed
  have hsent := (hconv.sent.trans (Transcript.output_prefix site _ hconv.received)).length_le
  refine ⟨by omega, fun hcr fd c hc hcid hleft => ?_⟩
  have hs : c.state = .writing := by
    by_contra hread
    exact hleft (if_neg hread)
  exact (hend.waits hcr hc hcid hs).1

/-! A response that goes out in three parts, the second after an interrupted call, with another
connection in between. -/

def partEvents : List Event :=
  [⟨5, ⟨true, false, false⟩, ⟨[], [], [], []⟩,
      [⟨6, sampleStream, true⟩, ⟨7, sampleStream, true⟩]⟩,
    ⟨6, ⟨true, true, false⟩, ⟨[.bytes 99], [.bytes 10, .again], [], []⟩, []⟩,
    ⟨7, ⟨true, false, false⟩, ⟨[.bytes 99], [.fail], [], []⟩, []⟩,
    ⟨6, ⟨true, true, false⟩, ⟨[], [.intr, .bytes 20, .again], [], []⟩, []⟩,
    ⟨6, ⟨false, true, false⟩, ⟨[], [.bytes 999], [], []⟩, []⟩]

theorem drained_parts :
    pushCount emptySite 4 (reactorCreate [0, 1, 2]) partEvents = 2 ∧
      Along emptySite (Advances emptySite 4) (reactorCreate [0, 1, 2]) partEvents ∧
      pushCount emptySite 4 (reactorCreate [0, 1, 2]) partEvents ≤
        ((Transcript.start.run sampleStream).output emptySite).length ∧
      (reactorRun emptySite (reactorCreate [0, 1, 2]) partEvents).os.sent 4 =
        (Transcript.start.run sampleStream).output emptySite := by
  have hcare : Along emptySite (Careful emptySite) (reactorCreate [0, 1, 2]) partEvents := by
    refine ⟨?_, ?_, ?_, ?_, ?_, trivial⟩
    · decide +kernel
    · decide +kernel
    · decide +kernel
    · decide +kernel
    · decide +kernel
  have hatt : Along emptySite (Attends sampleStream 4) (reactorCreate [0, 1, 2]) partEvents := by
    refine ⟨?_, ?_, ?_, ?_, ?_, trivial⟩
    · decide +kernel
    · decide +kernel
    · decide +kernel
    · decide +kernel
    · decide +kernel
  have hdrained := drained emptySite sampleStream 4 [0, 1, 2] partEvents (hcare.and hatt)
  refine ⟨?_, hdrained.1, hdrained.2.1, ?_⟩
  · decide +kernel
  · decide +kernel

end HttpServer
