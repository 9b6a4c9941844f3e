import HttpServer.Reactor.Step

set_option autoImplicit false

/-! # The calls on a connection's socket

What an edge-triggered `epoll` depends on: the registrations of a connection's socket and the
calls that read from it and write to it, in the order the handlers make them. The functions of
this file follow those of `Reactor/Conn.lean` and `Reactor/Loop.lean` branch by branch, and use
them for the states in between.
-/

namespace HttpServer

open CLib

variable {site : Site} {r r' : Reactor} {c c' : Conn}

/-- A call, or another step of a handler that counts here: `EPOLL_CTL_ADD` or `EPOLL_CTL_MOD`;
`conn_read` is entered; `read` asks for a number of bytes; `write` or `sendfile`; `conn_write`
returns because the phase is not `RSP_DONE`. -/
inductive SockCall
  | armed (i : Interest)
  | reading (state : ConnState)
  | read (count : Nat) (answer : ReadRes)
  | write (answer : WriteRes)
  | early
  deriving DecidableEq, Repr

/-! ## Reading -/

/-- What `read` of at most `count` bytes returns, when the kernel answers `a`. -/
def readAnswer (r : Reactor) (c : Conn) (count : Nat) (a : ReadRes) : ReadRes :=
  match r.os.incoming c.fd with
  | none => .fail
  | some incoming =>
      match a with
      | .bytes n => if incoming.take (min n count) = [] then .again else .bytes n
      | a => a

/-- One turn of the loop of `conn_read`. -/
def readTurnCalls (r : Reactor) (c : Conn) (a : ReadRes) : List SockCall :=
  let c := compact c
  let count := bufferSize - c.inbuf.length
  if c.inbuf.length = bufferSize then [] else [.read count (readAnswer r c count a)]

def connReadCalls (site : Site) (r : Reactor) (c : Conn) : List ReadRes → List SockCall
  | [] => readTurnCalls r c .again
  | a :: rest =>
      readTurnCalls r c a ++
        match readTurn site r c a rest with
        | (r, .more c) => connReadCalls site r c rest
        | (_, .stop _) => []

/-! ## Writing -/

/-- One turn of an output loop whose descriptors are open, or are not. -/
def sendCalls (isOpen : Bool) (w : WriteRes) : List SockCall :=
  if isOpen then
    match w with
    | .again => [.write .again, .armed .output]
    | w => [.write w]
  else [.write .fail]

def headCallCalls (r : Reactor) (c : Conn) (w : WriteRes) : List SockCall :=
  sendCalls (r.os.incoming c.fd).isSome w

def fileCallCalls (r : Reactor) (c : Conn) (w : WriteRes) : List SockCall :=
  sendCalls ((c.fileFd.bind r.os.content).isSome && (r.os.incoming c.fd).isSome) w

def writeLoopCalls (todo : Conn → Bool) (call : Reactor → Conn → WriteRes → Reactor × Flush)
    (calls : Reactor → Conn → WriteRes → List SockCall) (r : Reactor) (c : Conn) :
    List WriteRes → List SockCall
  | [] => if todo c then calls (r.setWrites []) c .again else []
  | w :: ws =>
      if todo c then
        calls (r.setWrites ws) c w ++
          match call (r.setWrites ws) c w with
          | (r, .more c) => writeLoopCalls todo call calls r c ws
          | _ => []
      else []

def flushHeadCalls (r : Reactor) (c : Conn) : List SockCall :=
  writeLoopCalls (fun c => decide (c.headOff < c.head.length)) headCall headCallCalls r c
    r.os.sched.writes

def flushFileCalls (r : Reactor) (c : Conn) : List SockCall :=
  writeLoopCalls (fun c => decide (c.fileOff < c.fileLen)) fileCall fileCallCalls r c
    r.os.sched.writes

def flushCalls (r : Reactor) (c : Conn) : List SockCall :=
  (if c.phase = .head then flushHeadCalls r c else []) ++
    match if c.phase = .head then flushHead r c else (r, .sent c) with
    | (r, .sent c) => if c.phase = .sendfile then flushFileCalls r c else []
    | _ => []

def connWriteNCalls (site : Site) : Nat → Reactor → Conn → List SockCall
  | 0, _, _ => []
  | n + 1, r, c =>
      flushCalls r c ++
        match flush r c with
        | (r, .sent c) =>
            if c.phase ≠ .done then [.early]
            else if c.keepAlive = false then []
            else
              match connProcessInput site r.os
                  { c with state := .reading, parser := httpParserInit } with
              | (_, .error _) => []
              | (os, .ok c) =>
                  if c.state = .writing then
                    connWriteNCalls site n { r with os := os } { c with phase := .head, headOff := 0 }
                  else [.armed .input]
        | _ => []

def connWriteCalls (site : Site) (r : Reactor) (c : Conn) : List SockCall :=
  connWriteNCalls site (c.inbuf.length - c.inHead + 1) r c

/-! ## Events -/

def onInputCalls (site : Site) (r : Reactor) (c : Conn) : List SockCall :=
  .reading c.state :: connReadCalls site r c r.os.sched.reads ++
    match connRead site r c r.os.sched.reads with
    | (r, .live c) => if c.state = .writing then connWriteCalls site r c else []
    | _ => []

def connEventCalls (site : Site) (r : Reactor) (c : Conn) (evs : Evs) : List SockCall :=
  if evs.err then []
  else
    (if evs.input then onInputCalls site r c else []) ++
      match if evs.input then onInput site r c else (r, .live c) with
      | (r, .live c) => if evs.output then connWriteCalls site r c else []
      | _ => []

/-- `reactor_accept` registers each connection it sets up. -/
def reactorAcceptCalls (r : Reactor) : List AcceptRes → List (Nat × SockCall)
  | [] => []
  | a :: accepts =>
      (if connMax ≤ r.os.fds.pick a.hint ∨ a.calloc = false then []
        else [(r.os.serial, .armed .input)]) ++
        reactorAcceptCalls (acceptOne r a) accepts

/-- The calls while an event is handled, each with the number of its connection. -/
def dispatchCalls (site : Site) (r : Reactor) (e : Event) : List (Nat × SockCall) :=
  if r.stop ∨ r.crashed.isSome then []
  else
    match r.os.interest e.fd with
    | none => []
    | some i =>
        if e.fd = r.wakeupFd then []
        else if e.fd = r.listenFd then reactorAcceptCalls (r.begin e) e.accepts
        else
          match r.conns e.fd with
          | none => []
          | some c => (connEventCalls site (r.begin e) c (e.evs.report i)).map fun s => (c.cid, s)

/-- The calls of a run. -/
def runCalls (site : Site) : Reactor → List Event → List (Nat × SockCall)
  | _, [] => []
  | r, e :: es => dispatchCalls site r e ++ runCalls site (dispatch site r e) es

/-- The calls while an event is handled, whatever `epoll_ctl` has answered. -/
def dispatchCtlCalls (site : Site) (r : Reactor) (e : Event) : List (Nat × SockCall) :=
  if r.stop ∨ r.crashed.isSome then []
  else
    match r.registration e.fd with
    | none => []
    | some i =>
        if e.fd = r.wakeupFd then []
        else if e.fd = r.listenFd then reactorAcceptCalls (r.begin e) e.accepts
        else
          match r.conns e.fd with
          | none => []
          | some c => (connEventCalls site (r.begin e) c (e.evs.report i)).map fun s => (c.cid, s)

/-- The calls of such a run. -/
def runCtlCalls (site : Site) : Reactor → List Event → List (Nat × SockCall)
  | _, [] => []
  | r, e :: es => dispatchCtlCalls site r e ++ runCtlCalls site (dispatchCtl site r e) es

/-- The calls on connection `cid`. -/
def callsOf (cid : Nat) (log : List (Nat × SockCall)) : List SockCall :=
  (log.filter fun call => call.1 = cid).map Prod.snd

/-! ## What the handlers leave -/

/-- No call is out of place: `conn_read` runs on a reading connection, `read` asks for more than
no bytes, and `conn_write` does not return early. -/
def SockCall.Sane : SockCall → Prop
  | .armed _ => True
  | .reading state => state = .reading
  | .read count _ => 0 < count
  | .write _ => True
  | .early => False

/-- How the calls of a handler end that leaves the connection `c` in the state `c'`: the socket
is drained; it is registered for input; or it is full and registered for output. -/
inductive EndsWell (c : Conn) (calls : List SockCall) (c' : Conn) : Prop
  | drained (hs : c.state = .reading) (hs' : c'.state = .reading) (hcalm : ∀ i, .armed i ∉ calls)
      (hlast : ∃ count, calls.getLast? = some (.read count .again))
  | listening (hs' : c'.state = .reading) (hlast : calls.getLast? = some (.armed .input))
  | parked (hs' : c'.state = .writing)
      (hlast : ∃ before, calls = before ++ [.write .again, .armed .output])

theorem readTurnCalls_eq {i : Option Interest} (h : Drained r c i) (a : ReadRes) :
    readTurnCalls r c a = [.read bufferSize (readAnswer r c bufferSize a)] := by
  have hcomp : compact c = { c with inbuf := [], inHead := 0 } := if_pos h.inHead
  simp [readTurnCalls, hcomp, bufferSize, readAnswer]

/-- The loop of `conn_read` stops on a reading connection only when the socket is drained. -/
theorem readTurn_live {i : Option Interest} (h : Drained r c i) {a : ReadRes}
    {rest : List ReadRes} (hstop : readTurn site r c a rest = (r', .stop (.live c')))
    (hs : c'.state = .reading) : readAnswer r c bufferSize a = .again := by
  have hcomp : compact c = { c with inbuf := [], inHead := 0 } := if_pos h.inHead
  unfold readTurn at hstop
  simp only [hcomp, List.length_nil, bufferSize, Nat.reduceEqDiff, if_false, Nat.sub_zero]
    at hstop
  unfold readAnswer
  cases hsock : r.os.incoming c.fd with
  | none =>
      rw [hsock] at hstop
      cases (Prod.mk.inj hstop).2
  | some incoming =>
      rw [hsock] at hstop
      -- any other answer closes the connection, makes the loop go on or sets up a response
      cases a with
      | again => rfl
      | intr => cases (Prod.mk.inj hstop).2
      | eof => cases (Prod.mk.inj hstop).2
      | fail => cases (Prod.mk.inj hstop).2
      | bytes n =>
          simp only at hstop ⊢
          split at hstop
          · rename_i hempty
            exact if_pos hempty
          · generalize connProcessInput site _ _ = out at hstop
            obtain ⟨os, res⟩ := out
            cases res with
            | error f => cases (Prod.mk.inj hstop).2
            | ok c₁ =>
                simp only at hstop
                split at hstop
                · rename_i hw
                  cases (Prod.mk.inj hstop).2
                  cases hw.symm.trans hs
                · cases (Prod.mk.inj hstop).2

theorem connReadCalls_spec (site : Site) (answers : List ReadRes) {i : Option Interest} (r : Reactor)
    (c : Conn) (hreads : r.os.sched.reads = answers) (h : Drained r c i) :
    (∀ s ∈ connReadCalls site r c answers, s.Sane ∧ ∀ i, s ≠ .armed i) ∧
    ∀ r' c', connRead site r c answers = (r', .live c') → c'.state = .reading →
      ∃ count, (connReadCalls site r c answers).getLast? = some (.read count .again) := by
  -- one `read`
  have hone : ∀ (r : Reactor) (c : Conn) (a : ReadRes) (i : Option Interest), Drained r c i →
      ∀ s ∈ readTurnCalls r c a, s.Sane ∧ ∀ i, s ≠ .armed i := by
    intro r c a i h s hs
    rw [readTurnCalls_eq h, List.mem_singleton] at hs
    subst hs
    exact ⟨Nat.succ_pos _, by simp⟩
  -- by induction on the answers: before each turn everything read has been parsed
  induction answers generalizing r c i with
  | nil =>
      refine ⟨hone r c .again i h, fun r' c' hread hs => ?_⟩
      rw [connRead] at hread
      have hturn := readTurn_outcome site h .again [] (.inr rfl)
      cases hout : readTurn site r c .again [] with
      | mk r₁ t =>
          rw [hout] at hread hturn
          cases t with
          | more c₁ =>
              -- after `EAGAIN` the loop does not go on
              exfalso
              have hcomp : compact c = { c with inbuf := [], inHead := 0 } := if_pos h.inHead
              unfold readTurn at hout
              simp only [hcomp, List.length_nil, bufferSize, Nat.reduceEqDiff, if_false] at hout
              split at hout
              · cases (Prod.mk.inj hout).2
              · cases (Prod.mk.inj hout).2
          | stop ref =>
              obtain ⟨rfl, rfl⟩ := Prod.mk.inj hread
              refine ⟨bufferSize, ?_⟩
              rw [connReadCalls, readTurnCalls_eq h, readTurn_live h hout hs]
              rfl
  | cons a rest ih =>
      have hturn := readTurn_outcome site h a rest (.inl hreads)
      rw [connReadCalls, connRead]
      cases hout : readTurn site r c a rest with
      | mk r₁ t =>
          rw [hout] at hturn
          cases t with
          | stop ref =>
              simp only [List.append_nil]
              refine ⟨hone r c a i h, fun r' c' hread hs => ?_⟩
              obtain ⟨rfl, rfl⟩ := Prod.mk.inj hread
              refine ⟨bufferSize, ?_⟩
              rw [readTurnCalls_eq h, readTurn_live h hout hs]
              rfl
          | more c₁ =>
              obtain ⟨_, hdrain, hrest⟩ := hturn
              obtain ⟨hsane, hlast⟩ := ih r₁ c₁ hrest hdrain
              simp only
              refine ⟨fun s hs => ?_, fun r' c' hread hs => ?_⟩
              · rcases List.mem_append.mp hs with hs | hs
                · exact hone r c a i h s hs
                · exact hsane s hs
              · obtain ⟨count, hget⟩ := hlast r' c' hread hs
                exact ⟨count, by rw [List.getLast?_append, hget]; rfl⟩

theorem sendCalls_sane (isOpen : Bool) (w : WriteRes) : ∀ s ∈ sendCalls isOpen w, s.Sane := by
  intro s hs
  unfold sendCalls at hs
  split at hs
  · cases w with
    | again =>
        rcases List.mem_cons.mp hs with rfl | hs
        · exact trivial
        · rw [List.mem_singleton.mp hs]
          exact trivial
    | _ =>
        rw [List.mem_singleton.mp hs]
        exact trivial
  · rw [List.mem_singleton.mp hs]
    exact trivial

/-- The calls of a loop end with a refused one and the registration if the loop waits. -/
def Parks (calls : List SockCall) (out : Reactor × Flush) : Prop :=
  ∀ r' c', out = (r', .parked c') → ∃ before, calls = before ++ [.write .again, .armed .output]

theorem headCall_parks (r : Reactor) (c : Conn) (w : WriteRes) :
    Parks (headCallCalls r c w) (headCall r c w) := by
  intro r' c' hout
  unfold headCall at hout
  unfold headCallCalls sendCalls
  cases hsock : r.os.incoming c.fd with
  | none =>
      rw [hsock] at hout
      cases (Prod.mk.inj hout).2
  | some incoming =>
      rw [hsock] at hout
      cases w with
      | again => exact ⟨[], rfl⟩
      | intr => cases (Prod.mk.inj hout).2
      | fail => cases (Prod.mk.inj hout).2
      | bytes n =>
          simp only at hout
          split at hout
          · cases (Prod.mk.inj hout).2
          · cases (Prod.mk.inj hout).2

theorem fileCall_parks (r : Reactor) (c : Conn) (w : WriteRes) :
    Parks (fileCallCalls r c w) (fileCall r c w) := by
  intro r' c' hout
  unfold fileCall at hout
  unfold fileCallCalls sendCalls
  split at hout
  · rename_i content incoming hfile hsock
    rw [hfile, hsock]
    cases w with
    | again => exact ⟨[], rfl⟩
    | intr => cases (Prod.mk.inj hout).2
    | fail => cases (Prod.mk.inj hout).2
    | bytes n => cases (Prod.mk.inj hout).2
  · cases (Prod.mk.inj hout).2

theorem writeLoopCalls_spec {todo : Conn → Bool}
    {call : Reactor → Conn → WriteRes → Reactor × Flush}
    {finish : Reactor → Conn → Reactor × Flush}
    {calls : Reactor → Conn → WriteRes → List SockCall}
    (hsane : ∀ r c w, ∀ s ∈ calls r c w, s.Sane) (hparks : ∀ r c w, Parks (calls r c w) (call r c w))
    (hfinish : ∀ r c r' c', finish r c ≠ (r', .parked c')) (ws : List WriteRes) (r : Reactor)
    (c : Conn) :
    (∀ s ∈ writeLoopCalls todo call calls r c ws, s.Sane) ∧
      Parks (writeLoopCalls todo call calls r c ws) (writeLoop todo call finish r c ws) := by
  -- by induction on the answers, along with the loop
  induction ws generalizing r c with
  | nil =>
      rw [writeLoopCalls, writeLoop]
      split
      · exact ⟨hsane _ c .again, hparks _ c .again⟩
      · exact ⟨by simp, fun r' c' hout => absurd hout (hfinish _ c r' c')⟩
  | cons w ws ih =>
      rw [writeLoopCalls, writeLoop]
      split
      · have hpark := hparks (r.setWrites ws) c w
        generalize call (r.setWrites ws) c w = out at hpark ⊢
        obtain ⟨r₁, f⟩ := out
        cases f with
        | more c₁ =>
            obtain ⟨hsane', hparks'⟩ := ih r₁ c₁
            refine ⟨fun s hs => ?_, fun r' c' hout => ?_⟩
            · rcases List.mem_append.mp hs with hs | hs
              · exact hsane _ c w s hs
              · exact hsane' s hs
            · obtain ⟨before, hbefore⟩ := hparks' r' c' hout
              exact ⟨calls (r.setWrites ws) c w ++ before, by simp only [hbefore, List.append_assoc]⟩
        | sent c₁ => simpa using ⟨hsane _ c w, hpark⟩
        | parked c₁ => simpa using ⟨hsane _ c w, hpark⟩
        | closed => simpa using ⟨hsane _ c w, hpark⟩
      · exact ⟨by simp, fun r' c' hout => absurd hout (hfinish _ c r' c')⟩

theorem flushHeadCalls_spec (r : Reactor) (c : Conn) :
    (∀ s ∈ flushHeadCalls r c, s.Sane) ∧ Parks (flushHeadCalls r c) (flushHead r c) :=
  writeLoopCalls_spec (fun _ _ _ => sendCalls_sane _ _) headCall_parks
    (fun _ _ _ _ h => by cases (Prod.mk.inj h).2) _ r c

theorem flushFileCalls_spec (r : Reactor) (c : Conn) :
    (∀ s ∈ flushFileCalls r c, s.Sane) ∧ Parks (flushFileCalls r c) (flushFile r c) :=
  writeLoopCalls_spec (fun _ _ _ => sendCalls_sane _ _) fileCall_parks
    (fun _ _ _ _ h => by cases (Prod.mk.inj h).2) _ r c

theorem flushCalls_spec (r : Reactor) (c : Conn) :
    (∀ s ∈ flushCalls r c, s.Sane) ∧ Parks (flushCalls r c) (flush r c) := by
  -- the second phase, after the calls of the first
  have hbody : ∀ (calls : List SockCall) (r₁ : Reactor) (c₁ : Conn), (∀ s ∈ calls, s.Sane) →
      (∀ s ∈ calls ++ (if c₁.phase = .sendfile then flushFileCalls r₁ c₁ else []), s.Sane) ∧
        Parks (calls ++ if c₁.phase = .sendfile then flushFileCalls r₁ c₁ else [])
          (if c₁.phase = .sendfile then flushFile r₁ c₁ else (r₁, .sent c₁)) := by
    intro calls r₁ c₁ hcalls
    split
    · obtain ⟨hsane, hparks⟩ := flushFileCalls_spec r₁ c₁
      refine ⟨fun s hs => ?_, fun r' c' hout => ?_⟩
      · rcases List.mem_append.mp hs with hs | hs
        · exact hcalls s hs
        · exact hsane s hs
      · obtain ⟨before, hbefore⟩ := hparks r' c' hout
        exact ⟨calls ++ before, by rw [hbefore, List.append_assoc]⟩
    · rw [List.append_nil]
      exact ⟨hcalls, fun r' c' hout => by cases (Prod.mk.inj hout).2⟩
  unfold flushCalls flush
  by_cases hphase : c.phase = .head
  · simp only [if_pos hphase]
    obtain ⟨hsane, hparks⟩ := flushHeadCalls_spec r c
    generalize flushHead r c = out at hparks ⊢
    obtain ⟨r₁, f⟩ := out
    cases f with
    | sent c₁ => exact hbody _ r₁ c₁ hsane
    | more c₁ => simpa using ⟨hsane, hparks⟩
    | parked c₁ => simpa using ⟨hsane, hparks⟩
    | closed => simpa using ⟨hsane, hparks⟩
  · simp only [if_neg hphase]
    exact hbody [] r c (by simp)

/-- How the calls of `conn_write` end when the connection is left there. -/
def Left (calls : List SockCall) (out : Reactor × ConnRef) : Prop :=
  ∀ r' c', out = (r', .live c') →
    (c'.state = .reading ∧ calls.getLast? = some (.armed .input)) ∨
      (c'.state = .writing ∧ ∃ before, calls = before ++ [.write .again, .armed .output])

theorem Left.append {calls : List SockCall} {out : Reactor × ConnRef} (h : Left calls out)
    (before : List SockCall) : Left (before ++ calls) out := by
  intro r' c' hout
  rcases h r' c' hout with ⟨hs, hlast⟩ | ⟨hs, mid, hlast⟩
  · exact .inl ⟨hs, by rw [List.getLast?_append, hlast]; rfl⟩
  · exact .inr ⟨hs, before ++ mid, by rw [hlast, List.append_assoc]⟩

theorem connWriteNCalls_spec (n : Nat) (r : Reactor) (c : Conn) (hs : c.state = .writing)
    (hin : c.inHead ≤ c.inbuf.length) (henter : Enterable c)
    (hn : c.inbuf.length - c.inHead < n) :
    (∀ s ∈ connWriteNCalls site n r c, s.Sane) ∧
      Left (connWriteNCalls site n r c) (connWriteN site n r c) := by
  induction n generalizing r c with
  -- by induction on the depth: every nested call has parsed a byte more
  | zero => omega
  | succ n ih =>
      have hflush : FlushOutcome site (fun c' => c'.headOff = 0 ∧ c'.phase = .done) r c
        (flush r c).1 (flush r c).2 := flush_outcome hs henter
      obtain ⟨hsane, hparks⟩ := flushCalls_spec r c
      rw [connWriteNCalls, connWriteN]
      generalize flush r c = out at hflush hparks ⊢
      obtain ⟨r₁, f⟩ := out
      cases f with
      | more c₁ => exact hflush.elim
      | closed => simpa using ⟨hsane, fun r' c' hout => by cases (Prod.mk.inj hout).2⟩
      | parked c₁ =>
          simp only [List.append_nil]
          refine ⟨hsane, fun r' c' hout => .inr ?_⟩
          cases (Prod.mk.inj hout).2
          exact ⟨hflush.2.1.state, hparks r₁ c₁ rfl⟩
      | sent c₁ =>
          obtain ⟨hacts, hsend, hoff, hphase⟩ := hflush
          simp only [if_neg (not_not_intro hphase)]
          by_cases hka : c₁.keepAlive = false
          · simp only [if_pos hka, List.append_nil]
            exact ⟨hsane, fun r' c' hout => by cases (Prod.mk.inj hout).2⟩
          · simp only [if_neg hka]
            have hproc := connProcessInput_outcome site r₁
              { c₁ with state := .reading, parser := httpParserInit } rfl (by
                rw [hsend.inHead, hsend.inbuf]
                exact hin)
            generalize connProcessInput site r₁.os _ = out at hproc ⊢
            obtain ⟨os₂, res⟩ := out
            cases res with
            | error f =>
                simp only [List.append_nil]
                exact ⟨hsane, fun r' c' hout => by cases (Prod.mk.inj hout).2⟩
            | ok c₂ =>
                -- the buffer is used up and the call waits for input, or another head was
                -- complete in it
                obtain ⟨_, hbuf, hin₂, hoff₂, hstop⟩ := hproc
                rcases hstop with ⟨hs₂, hdr, _⟩ | ⟨hs₂, hlt⟩
                · simp only [hs₂, reduceCtorEq, if_false]
                  refine ⟨fun s hmem => ?_, Left.append (fun r' c' hout => .inl ?_) _⟩
                  · rcases List.mem_append.mp hmem with hmem | hmem
                    · exact hsane s hmem
                    · rw [List.mem_singleton.mp hmem]
                      exact trivial
                  · cases (Prod.mk.inj hout).2
                    exact ⟨hs₂, rfl⟩
                · simp only [if_pos hs₂]
                  have hbuf' : c₂.inbuf = c.inbuf := hbuf.trans hsend.inbuf
                  have hlt' : c.inHead < c₂.inHead := by rw [← hsend.inHead]; exact hlt
                  obtain ⟨hsane', hleft⟩ := ih { r₁ with os := os₂ }
                    { c₂ with phase := .head, headOff := 0 } hs₂ hin₂ (.inl rfl) (by
                      rw [hbuf'] at hin₂
                      simp only [hbuf']
                      omega)
                  refine ⟨fun s hmem => ?_, hleft.append _⟩
                  rcases List.mem_append.mp hmem with hmem | hmem
                  · exact hsane s hmem
                  · exact hsane' s hmem

theorem connWriteCalls_spec (r : Reactor) (hs : c.state = .writing)
    (hin : c.inHead ≤ c.inbuf.length) (henter : Enterable c) :
    (∀ s ∈ connWriteCalls site r c, s.Sane) ∧
      Left (connWriteCalls site r c) (connWrite site r c) :=
  connWriteNCalls_spec _ r c hs hin henter (Nat.lt_succ_self _)

theorem Left.endsWell {calls : List SockCall} {out : Reactor × ConnRef} (h : Left calls out)
    (hout : out = (r', .live c')) : EndsWell c calls c' := by
  rcases h r' c' hout with ⟨hs, hlast⟩ | ⟨hs, hlast⟩
  · exact .listening hs hlast
  · exact .parked hs hlast

theorem onInputCalls_spec (site : Site) (h : Drained r c (some .input)) :
    (∀ s ∈ onInputCalls site r c, s.Sane) ∧
      ∀ r' c', onInput site r c = (r', .live c') → EndsWell c (onInputCalls site r c) c' := by
  have hread := connRead_outcome site r.os.sched.reads r c rfl h
  obtain ⟨hsane, hlast⟩ := connReadCalls_spec site r.os.sched.reads r c rfl h
  have hsane' : ∀ s ∈ .reading c.state :: connReadCalls site r c r.os.sched.reads,
      s.Sane ∧ ∀ i, s ≠ .armed i := by
    intro s hs
    rcases List.mem_cons.mp hs with rfl | hs
    · exact ⟨h.state, by simp⟩
    · exact hsane s hs
  unfold onInputCalls onInput
  generalize connRead site r c r.os.sched.reads = out at hread hlast ⊢
  obtain ⟨r₁, ref⟩ := out
  cases ref with
  | closed =>
      rw [List.append_nil]
      exact ⟨fun s hs => (hsane' s hs).1, fun r' c' hout => by cases (Prod.mk.inj hout).2⟩
  | crashed f =>
      rw [List.append_nil]
      exact ⟨fun s hs => (hsane' s hs).1, fun r' c' hout => by cases (Prod.mk.inj hout).2⟩
  | live c₁ =>
      -- everything read is parsed and nothing is asked for, or a response has been set up
      obtain ⟨_, hdrain | hans⟩ := hread
      · simp only [hdrain.state, reduceCtorEq, if_false, List.append_nil]
        refine ⟨fun s hs => (hsane' s hs).1, fun r' c' hout => ?_⟩
        cases (Prod.mk.inj hout).2
        obtain ⟨count, hget⟩ := hlast r₁ c₁ rfl hdrain.state
        refine .drained h.state hdrain.state (fun i hi => (hsane' _ hi).2 i rfl) ⟨count, ?_⟩
        rw [List.getLast?_cons, hget]
        rfl
      · simp only [hans.state, if_true]
        obtain ⟨hsane₂, hleft⟩ := connWriteCalls_spec r₁ hans.state hans.inHead
          (.inr hans.headOff)
        refine ⟨fun s hs => ?_, fun r' c' hout => (hleft.append _).endsWell hout⟩
        rcases List.mem_append.mp hs with hs | hs
        · exact (hsane' s hs).1
        · exact hsane₂ s hs

/-- The calls of an event: there are none and nothing changes, or they end properly. -/
theorem connEventCalls_spec (site : Site) (hwait : Waiting r c) {i : Interest}
    (hi : r.os.interest c.fd = some i) (evs : Evs) :
    (∀ s ∈ connEventCalls site r c (evs.report i), s.Sane) ∧
      ∀ r' c', connEvent site r c (evs.report i) = (r', .live c') →
        (connEventCalls site r c (evs.report i) = [] ∧ c' = c) ∨
          EndsWell c (connEventCalls site r c (evs.report i)) c' := by
  unfold connEventCalls connEvent Evs.report
  cases herr : evs.err with
  | true => exact ⟨by simp, fun r' c' hout => by cases (Prod.mk.inj hout).2⟩
  | false =>
      have hidle : ∀ r' c', (r, ConnRef.live c) = (r', .live c') → c' = c := by
        intro r' c' hout
        cases (Prod.mk.inj hout).2
        rfl
      simp only [Bool.false_eq_true, if_false]
      -- what is reported is what the connection waits for
      rcases hwait.registered hi with ⟨rfl, hdrained⟩ | ⟨rfl, hs, hin, henter⟩
      · obtain ⟨hsane, hleaves⟩ := onInputCalls_spec site hdrained
        cases evs.input with
        | false =>
            simp only [Bool.false_and, Bool.false_eq_true, if_false, reduceCtorEq, decide_false,
              Bool.and_false, List.append_nil]
            exact ⟨by simp, fun r' c' hout => .inl ⟨trivial, hidle r' c' hout⟩⟩
        | true =>
            simp only [decide_true, Bool.and_self, if_true, reduceCtorEq, decide_false,
              Bool.and_false, Bool.false_eq_true, if_false]
            generalize onInput site r c = out at hleaves ⊢
            obtain ⟨r₁, ref⟩ := out
            cases ref with
            | live c₁ => simpa using ⟨hsane, Or.inr (hleaves r₁ c₁ rfl)⟩
            | closed => simpa using hsane
            | crashed f => simpa using hsane
      · obtain ⟨hsane, hleft⟩ := connWriteCalls_spec r hs hin henter
        cases evs.output with
        | false =>
            simp only [Bool.false_and, Bool.false_eq_true, if_false, reduceCtorEq, decide_false,
              Bool.and_false, List.append_nil]
            exact ⟨by simp, fun r' c' hout => .inl ⟨trivial, hidle r' c' hout⟩⟩
        | true =>
            simp only [decide_true, Bool.and_self, if_true, reduceCtorEq, decide_false,
              Bool.and_false, Bool.false_eq_true, if_false, List.nil_append]
            exact ⟨hsane, fun r' c' hout => .inr (hleft.endsWell hout)⟩

end HttpServer
