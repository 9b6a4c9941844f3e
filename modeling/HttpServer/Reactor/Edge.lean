import HttpServer.Reactor.Calls
import HttpServer.Reactor.Ledger

set_option autoImplicit false

/-! # No connection is stuck

With edge-triggered `epoll` an event is reported once. A connection that waits for input must
have read until `EAGAIN` since it was registered, and one that waits for output must have been
refused right before it was (`Primed`). A handler ends with the calls that make it so
(`connEventCalls_spec`), and a registration is lost with its socket only (`Enrolled`). So every live
connection is attended to whenever the reactor waits for events (`reactorRun_alert`).
-/

namespace HttpServer

open CLib

variable {site : Site} {os os' : Os} {r r' : Reactor} {c c' : Conn} {ref : ConnRef} {fd cid : Nat}
  {log : List (Nat × SockCall)}

/-! ## The registration -/

/-- The socket that was accepted for connection `cid` is open at `fd`. -/
def Os.SocketOpen (os : Os) (fd cid : Nat) : Prop :=
  ∃ bs, os.fds.get fd = some ⟨cid, some cid, .socket bs⟩

/-- It is registered if it is open. -/
def Enrolled (os : Os) (fd cid : Nat) : Prop :=
  os.SocketOpen fd cid → (os.interest fd).isSome

/-- Nothing is opened at `fd`, and no registration there is lost but by a close. -/
theorem Enrolled.of_same (h : Enrolled os fd cid)
    (hget : os'.SocketOpen fd cid → os.SocketOpen fd cid)
    (hint : (os.interest fd).isSome → (os'.interest fd).isSome) : Enrolled os' fd cid :=
  fun hopen => hint (h (hget hopen))

theorem Os.SocketOpen.of_get (h : os'.SocketOpen fd cid) (hget : os'.fds.get fd = os.fds.get fd) :
    os.SocketOpen fd cid := by
  obtain ⟨bs, hbs⟩ := h
  exact ⟨bs, hget.symm.trans hbs⟩

theorem Enrolled.close (h : Enrolled os fd cid) (by_ : Option Nat) (k : Nat) :
    Enrolled (os.close by_ k) fd cid := by
  rintro ⟨bs, hbs⟩
  rcases eq_or_ne fd k with rfl | hne
  · simp [Os.close] at hbs
  · have hopen : os.SocketOpen fd cid := ⟨bs, (os.fds.get_erase_of_ne hne).symm.trans hbs⟩
    have hint : (os.close by_ k).interest fd = os.interest fd := Function.update_of_ne hne ..
    rw [hint]
    exact h hopen

theorem Enrolled.mallocs (h : Enrolled os fd cid) (hm : Mallocs os os') : Enrolled os' fd cid := by
  obtain ⟨_, _, rfl⟩ := hm
  exact h

theorem Enrolled.openFile (h : Enrolled os fd cid) (site : Site) (i : Nat) (path : List UInt8) :
    Enrolled (os.openFile site i path).2 fd cid := by
  have hint := congrFun (interest_openFile site os i path) fd
  refine h.of_same (fun hopen => ?_) (by rw [hint]; exact id)
  cases hout : os.openFile site i path with
  | mk k os₁ =>
      rw [hout] at hopen
      cases k with
      | none => exact hopen.of_get (by rw [openFile_none hout])
      | some k =>
          obtain ⟨_, bs, hfds⟩ := openFile_some hout
          rcases eq_or_ne fd k with rfl | hne
          · obtain ⟨bs', hbs'⟩ := hopen
            simp only [hfds, FdTable.get_insert_self] at hbs'
            cases hbs'
          · refine hopen.of_get ?_
            simp only [hfds]
            exact os.fds.get_insert_of_ne _ hne

theorem Enrolled.built (h : Enrolled os fd cid) (hb : Built site os c os' c') :
    Enrolled os' fd cid := by
  have hopened := h.openFile site c.cid (c.req.pathname site)
  cases hb with
  | plain _ hm _ => exact h.mallocs hm
  | unopened _ hopen hm _ =>
      rw [hopen] at hopened
      exact hopened.mallocs hm
  | aborted _ hopen hfail hm _ =>
      rw [hopen] at hopened
      exact ((hopened.mallocs (Mallocs.of_malloc hfail)).close _ _).mallocs hm
  | headOnly _ hopen hm =>
      rw [hopen] at hopened
      exact (hopened.mallocs hm).close _ _
  | withFile _ hopen hm =>
      rw [hopen] at hopened
      exact hopened.mallocs hm

theorem Enrolled.closeFile (h : Enrolled os fd cid) (c : Conn) : Enrolled (closeFile os c) fd cid := by
  unfold HttpServer.closeFile
  split
  · exact h.close _ _
  · exact h

theorem Enrolled.epollCtl (h : Enrolled os fd cid) (k : Nat) (i : Interest) (ok : Bool) :
    Enrolled (os.epollCtl k i ok) fd cid := by
  refine h.of_same id (fun hold => ?_)
  rcases eq_or_ne fd k with rfl | hne
  · simp [Os.epollCtl]
  · rw [show (os.epollCtl k i ok).interest fd = os.interest fd from Function.update_of_ne hne ..]
    exact hold

theorem Enrolled.modEvents (h : Enrolled r.os fd cid) (c : Conn) (i : Interest) :
    Enrolled (modEvents r c i).os fd cid := by
  unfold HttpServer.modEvents Os.epollMod
  simp only
  split
  · exact h.epollCtl _ _ _
  · exact h

theorem Enrolled.consume (h : Enrolled os fd cid) (k n : Nat) : Enrolled (os.consume k n) fd cid := by
  refine h.of_same (fun hopen => ?_) (by rw [consume_eq]; exact id)
  rcases eq_or_ne fd k with rfl | hne
  · obtain ⟨bs, hbs⟩ := hopen
    unfold Os.consume at hbs
    split at hbs
    · rename_i s o bs' hget
      rw [FdTable.get_insert_self] at hbs
      cases hbs
      exact ⟨bs', hget⟩
    · exact ⟨bs, hbs⟩
  · exact hopen.of_get (get_consume_of_ne os n hne)

/-- No action loses the registration of an open socket, whosever it is. -/
theorem Action.enrolled (h : Action site (r, c) (r', c')) (he : Enrolled r.os fd cid) :
    Enrolled r'.os fd cid := by
  cases h with
  | @receive _ _ n rest incoming bs =>
      have hnow : Enrolled (r.os.setReads rest) fd cid := he
      exact hnow.consume c.fd bs.length
  | @request _ _ b _ req _ _ _ _ _ hbuild =>
      have hnow : Enrolled ((r.os.log (.parsed c.cid b)).log (.request c.cid req)) fd cid := he
      exact hnow.built (buildResponse_built site hbuild)
  | @reject _ _ b _ _ _ _ _ _ _ hbuild =>
      have hnow : Enrolled (r.os.log (.parsed c.cid b)) fd cid := he
      exact hnow.mallocs (buildErrorResponse_plain hbuild).1
  | bodySent => exact he.closeFile c
  | park => exact he.modEvents _ _
  | listen => exact he.modEvents _ _
  | _ => exact he

theorem Actions.enrolled (h : Actions site (r, c) (r', c')) (he : Enrolled r.os fd cid) :
    Enrolled r'.os fd cid :=
  Actions.rule (I := fun r _ => Enrolled r.os fd cid) (fun _ _ _ _ hact hI => hact.enrolled hI) h he

theorem Enrolled.connClose (h : Enrolled r.os fd cid) (c : Conn) :
    Enrolled (connClose r c).os fd cid := by
  have hclosed : Enrolled ((r.os.epollDel c.fd).close (some c.cid) c.fd) fd cid := by
    rintro ⟨bs, hbs⟩
    rcases eq_or_ne fd c.fd with rfl | hne
    · simp [Os.close] at hbs
    · have hleft : Enrolled (r.os.epollDel c.fd) fd cid := by
        refine h.of_same id (fun hold => ?_)
        rw [show (r.os.epollDel c.fd).interest fd = r.os.interest fd from
          Function.update_of_ne hne ..]
        exact hold
      exact hleft.close _ _ ⟨bs, hbs⟩
  exact hclosed.closeFile c

theorem Outcome.enrolled (h : Outcome site r c r' ref) (he : Enrolled r.os fd cid) :
    Enrolled r'.os fd cid := by
  cases h with
  | live hacts => exact hacts.enrolled he
  | closed hacts => exact (hacts.enrolled he).connClose _
  | closedFile hacts => exact Enrolled.connClose ((hacts.enrolled he).closeFile _) _
  | crashed hacts => exact hacts.enrolled he

theorem Outcome.cid_eq (h : Outcome site r c r' (.live c')) : c'.cid = c.cid := by
  cases h with
  | live hacts => exact hacts.confined.cid

/-! ## The response head -/

/-- There is a head buffer only while the head is sent. -/
def Bare (c : Conn) : Prop := c.state = .reading ∨ c.phase ≠ .head → c.head = []

theorem Plain.head {spares : Bool} (h : Plain spares c c') : c'.phase = .head ∨ c'.head = c.head := by
  cases spares with
  | false =>
      rw [show c' = c from h]
      exact .inr rfl
  | true =>
      obtain ⟨head, rfl⟩ := h
      exact .inl rfl

theorem Built.head (h : Built site os c os' c') : c'.phase = .head ∨ c'.head = c.head := by
  cases h with
  | plain _ _ hc => exact hc.head
  | unopened _ _ _ hc => exact hc.head
  | aborted _ _ _ _ hc => exact hc.head
  | headOnly => exact .inl rfl
  | withFile => exact .inl rfl

theorem Action.bare (h : Action site (r, c) (r', c')) (hb : Bare c) : Bare c' := by
  -- a response is set up on a connection that reads
  have hnew : ∀ {c₁ : Conn}, c.state = .reading → (c₁.phase = .head ∨ c₁.head = c.head) →
      Bare { c₁ with state := .writing } := by
    intro c₁ hs hhead h0
    rcases h0 with h0 | h0
    · cases h0
    · rw [← hb (.inl hs)]
      exact hhead.resolve_left h0
  cases h with
  | request hs _ _ hbuild => exact hnew hs (buildResponse_built site hbuild).head
  | reject hs _ _ hbuild => exact hnew hs (buildErrorResponse_plain hbuild).2.head
  | sendHead _ hs => exact hb
  | headSent => exact fun _ => rfl
  | sendBody => exact hb
  | bodySent _ hphase => exact fun _ => hb (.inr (by simp [hphase]))
  | next _ hphase => exact fun _ => hb (.inr (by simp [hphase]))
  | restart hs =>
      intro h0
      rcases h0 with h0 | h0
      · cases hs.symm.trans h0
      · exact absurd rfl h0
  | _ => exact hb

theorem Outcome.bare (h : Outcome site r c r' (.live c')) (hb : Bare c) : Bare c' := by
  cases h with
  | live hacts =>
      exact Actions.rule (I := fun _ c => Bare c) (fun _ _ _ _ hact hI => hact.bare hI) hacts hb

/-! ## The calls so far -/

/-- A connection waits for an event it will be told of, as far as the calls on its socket go: it
reads, and since the socket was registered for input it has not been touched or has been read
until `EAGAIN`; or it writes, and the last call was refused right before the socket was registered
for output. -/
inductive Primed (calls : List SockCall) (c : Conn) : Prop
  | input (hs : c.state = .reading) (hsince : ∃ before since,
      calls = before ++ .armed .input :: since ∧ (∀ i, .armed i ∉ since) ∧
        (since = [] ∨ ∃ count, since.getLast? = some (.read count .again)))
  | output (hs : c.state = .writing)
      (hlast : ∃ before, calls = before ++ [.write .again, .armed .output])

theorem Primed.endsWell {calls more : List SockCall} (h : Primed calls c) (hl : EndsWell c more c') :
    Primed (calls ++ more) c' := by
  cases hl with
  | drained hs hs' hcalm hlast =>
      cases h with
      | input _ hsince =>
          obtain ⟨before, since, rfl, hno, _⟩ := hsince
          obtain ⟨count, hget⟩ := hlast
          refine .input hs' ⟨before, since ++ more, by simp, fun i hi => ?_, .inr ⟨count, ?_⟩⟩
          · rcases List.mem_append.mp hi with hi | hi
            · exact hno i hi
            · exact hcalm i hi
          · rw [List.getLast?_append, hget]
            rfl
      | output hw => cases hs.symm.trans hw
  | listening hs' hlast =>
      obtain ⟨front, rfl⟩ := List.getLast?_eq_some_iff.mp hlast
      exact .input hs' ⟨calls ++ front, [], by simp, by simp, .inl rfl⟩
  | parked hs' hlast =>
      obtain ⟨before, rfl⟩ := hlast
      exact .output hs' ⟨calls ++ before, by simp⟩

/-- A live connection of the reactor, with the calls made so far. -/
structure Attended (os : Os) (fd : Nat) (calls : List SockCall) (c : Conn) : Prop where
  bare : Bare c
  enrolled : Enrolled os fd c.cid
  primed : Primed calls c

/-- The reactor, with the calls made so far. -/
structure Alert (r : Reactor) (log : List (Nat × SockCall)) : Prop where
  sane : ∀ call ∈ log, call.2.Sane
  live : r.crashed = none → ∀ fd c, r.conns fd = some c → Attended r.os fd (callsOf c.cid log) c

theorem callsOf_append (cid : Nat) (log more : List (Nat × SockCall)) :
    callsOf cid (log ++ more) = callsOf cid log ++ callsOf cid more := by
  simp [callsOf]

theorem callsOf_map_self (cid : Nat) (calls : List SockCall) :
    callsOf cid (calls.map fun s => (cid, s)) = calls := by
  simp [callsOf, List.filter_map, Function.comp_def]

theorem callsOf_map_of_ne {i : Nat} (h : i ≠ cid) (calls : List SockCall) :
    callsOf cid (calls.map fun s => (i, s)) = [] := by
  simp [callsOf, List.filter_map, Function.comp_def, h]

/-- An event of the connection `c`, whatever the handlers make of it. -/
theorem Alert.event (h : Alert r log) (hn : Numbered r) (hcr : r.crashed = none)
    (hc : r.conns c.fd = some c) {calls : List SockCall} (hsane : ∀ s ∈ calls, s.Sane)
    (hothers : ∀ k, k ≠ c.fd → r'.conns k = r.conns k)
    (henrolled : ∀ k i, Enrolled r.os k i → Enrolled r'.os k i)
    (hself : r'.crashed = none → ∀ d, r'.conns c.fd = some d →
      d.cid = c.cid ∧ Bare d ∧ ((calls = [] ∧ d = c) ∨ EndsWell c calls d)) :
    Alert r' (log ++ calls.map fun s => (c.cid, s)) := by
  refine ⟨fun call hmem => ?_, fun hcr' k d hd => ?_⟩
  · rcases List.mem_append.mp hmem with hmem | hmem
    · exact h.sane call hmem
    · obtain ⟨s, hs, rfl⟩ := List.mem_map.mp hmem
      exact hsane s hs
  -- the calls are those of one connection, and count for no other
  · rcases eq_or_ne k c.fd with rfl | hne
    · obtain ⟨hcid, hbare, hend⟩ := hself hcr' d hd
      have hold := h.live hcr _ c hc
      refine ⟨hbare, ?_, ?_⟩
      · rw [hcid]
        exact henrolled _ _ hold.enrolled
      · rw [hcid, callsOf_append, callsOf_map_self]
        rcases hend with ⟨rfl, rfl⟩ | hl
        · rw [List.append_nil]
          exact hold.primed
        · exact hold.primed.endsWell hl
    · rw [hothers k hne] at hd
      have hold := h.live hcr k d hd
      have hcid : c.cid ≠ d.cid := fun heq => hne (hn.inj _ _ _ _ hd hc heq.symm)
      refine ⟨hold.bare, henrolled _ _ hold.enrolled, ?_⟩
      rw [callsOf_append, callsOf_map_of_ne hcid, List.append_nil]
      exact hold.primed

/-! ## Runs -/

/-- A socket that is accepted is not that of an earlier connection. -/
theorem Enrolled.accepted (h : Enrolled r.os fd cid) (hlt : cid < r.os.serial) (a : AcceptRes) :
    Enrolled (r.acceptedOs a) fd cid := by
  refine h.of_same (fun hopen => ?_) id
  rcases eq_or_ne fd (r.os.fds.pick a.hint) with rfl | hne
  · obtain ⟨bs, hbs⟩ := hopen
    have hself : (r.acceptedOs a).fds.get (r.os.fds.pick a.hint) =
        some ⟨r.os.serial, some r.os.serial, .socket a.incoming⟩ := FdTable.get_insert_self ..
    cases hself.symm.trans hbs
    exact absurd hlt (Nat.lt_irrefl _)
  · exact hopen.of_get (r.os.fds.get_insert_of_ne _ hne)

theorem acceptOne_alert (hn : Numbered r) (hcr : r.crashed = none) (h : Alert r log)
    (a : AcceptRes) :
    Alert (acceptOne r a) (log ++ if connMax ≤ r.os.fds.pick a.hint ∨ a.calloc = false then []
      else [(r.os.serial, .armed .input)]) := by
  -- a connection that is refused leaves no call and no registration
  have hrefused : Alert { r with os := (r.acceptedOs a).close none (r.os.fds.pick a.hint) } log := by
    refine ⟨h.sane, fun _ k d hd => ?_⟩
    obtain ⟨hbare, henrolled, hprimed⟩ := h.live hcr k d hd
    exact ⟨hbare, (henrolled.accepted (hn.lt k d hd) a).close _ _, hprimed⟩
  unfold acceptOne Os.alloc
  simp only
  by_cases hlarge : connMax ≤ r.os.fds.pick a.hint
  · rw [if_pos hlarge, if_pos (.inl hlarge), List.append_nil]
    exact hrefused
  · rw [if_neg hlarge]
    by_cases hcalloc : a.calloc = false
    · rw [if_pos hcalloc, if_pos (.inr hcalloc), List.append_nil]
      exact hrefused
    · rw [if_neg hcalloc, if_neg (not_or_intro hlarge hcalloc)]
      refine ⟨fun call hmem => ?_, fun _ k d hd => ?_⟩
      · rcases List.mem_append.mp hmem with hmem | hmem
        · exact h.sane call hmem
        · rw [List.mem_singleton.mp hmem]
          exact trivial
      · rcases eq_or_ne k (r.os.fds.pick a.hint) with rfl | hne
        -- the new connection has just been added, and its socket is untouched
        · simp only [Function.update_self, Option.some.injEq] at hd
          subst hd
          refine ⟨fun _ => rfl, fun _ => ?_, .input rfl ⟨callsOf r.os.serial log, [], ?_, by simp, .inl rfl⟩⟩
          · simp [Os.epollAdd, Os.epollCtl]
          · rw [callsOf_append]
            exact congrArg _ (callsOf_map_self r.os.serial [.armed .input])
        · have hd' : r.conns k = some d := (Function.update_of_ne hne ..).symm.trans hd
          obtain ⟨hbare, henrolled, hprimed⟩ := h.live hcr k d hd'
          have hlt := hn.lt k d hd'
          refine ⟨hbare, (henrolled.accepted hlt a).epollCtl _ _ _, ?_⟩
          have hnone : callsOf d.cid [(r.os.serial, .armed .input)] = [] :=
            callsOf_map_of_ne hlt.ne' [.armed .input]
          rw [callsOf_append, hnone, List.append_nil]
          exact hprimed

theorem reactorAccept_alert (accepts : List AcceptRes) (hn : Numbered r) (hcr : r.crashed = none)
    (h : Alert r log) : Alert (reactorAccept r accepts) (log ++ reactorAcceptCalls r accepts) := by
  induction accepts generalizing r log with
  | nil =>
      rw [reactorAcceptCalls, List.append_nil]
      exact h
  | cons a accepts ih =>
      have hacc := acceptOne_accepted r a
      rw [reactorAcceptCalls, ← List.append_assoc]
      exact ih (hacc.numbered hn) (hacc.crashed.trans hcr) (acceptOne_alert hn hcr h a)

theorem Alert.begin (h : Alert r log) (e : Event) : Alert (r.begin e) log := by
  refine ⟨h.sane, fun hcr k d hd => ?_⟩
  obtain ⟨hbare, henrolled, hprimed⟩ := h.live hcr k d hd
  exact ⟨hbare, henrolled, hprimed⟩

theorem dispatch_alert (site : Site) (hrest : AtRest r) (h : Alert r log) (e : Event) :
    Alert (dispatch site r e) (log ++ dispatchCalls site r e) := by
  have hstill : Alert (r.begin e) (log ++ []) := by
    rw [List.append_nil]
    exact h.begin e
  unfold dispatch dispatchCalls
  -- the calls branch as the handler does, so one case split serves both
  by_cases hgo : r.stop ∨ r.crashed.isSome
  · rw [if_pos hgo, if_pos hgo, List.append_nil]
    exact h
  · rw [if_neg hgo, if_neg hgo]
    obtain ⟨hstop, hcr⟩ : r.stop = false ∧ r.crashed = none := by
      simpa [not_or, Option.isSome_iff_ne_none] using hgo
    cases hint : r.os.interest e.fd with
    | none =>
        simp only [List.append_nil]
        exact h
    | some i =>
        simp only
        by_cases hwake : e.fd = r.wakeupFd
        · rw [if_pos hwake, if_pos hwake]
          exact ⟨hstill.sane, hstill.live⟩
        · rw [if_neg hwake, if_neg hwake]
          by_cases hlisten : e.fd = r.listenFd
          · rw [if_pos hlisten, if_pos hlisten]
            have hn : Numbered (r.begin e) := ⟨hrest.numbered.lt, hrest.numbered.inj⟩
            exact reactorAccept_alert e.accepts hn hcr (h.begin e)
          · rw [if_neg hlisten, if_neg hlisten]
            cases hc : r.conns e.fd with
            | none => exact hstill
            | some c =>
                -- the connection waits, so the calls of the handlers have their specification
                obtain ⟨hfd, hwait⟩ := hrest.orderly hcr e.fd c hc
                have hi : (r.begin e).os.interest c.fd = some i := by rw [hfd]; exact hint
                have hwait' : Waiting (r.begin e) c := hwait.of_stillOrLost (.inl rfl)
                have hn : Numbered (r.begin e) := ⟨hrest.numbered.lt, hrest.numbered.inj⟩
                have hc' : (r.begin e).conns c.fd = some c := by rw [hfd]; exact hc
                have hbare := ((h.begin e).live hcr _ c hc').bare
                obtain ⟨hsane, hends⟩ := connEventCalls_spec site hwait' hi e.evs
                change Alert ((connEvent site (r.begin e) c (e.evs.report i)).1.settle e.fd
                  (connEvent site (r.begin e) c (e.evs.report i)).2) _
                rw [← hfd]
                cases herr : e.evs.err with
                | true =>
                    -- after an error or a hangup the connection is gone
                    rw [connEvent_err site _ c i herr]
                    refine (h.begin e).event hn hcr hc' hsane (fun k hk => connClose_conns _ _ hk)
                      (fun k j he => he.connClose c) (fun _ d hd => ?_)
                    cases (connClose_gone (r.begin e) c).symm.trans hd
                | false =>
                    have hout := connEvent_outcome site hwait' hi herr
                    generalize connEvent site (r.begin e) c (e.evs.report i) = out at hout hends ⊢
                    obtain ⟨r₁, ref⟩ := out
                    refine (h.begin e).event hn hcr hc' hsane (fun k hk => hout.settle_of_ne hk)
                      (fun k j he => ?_) (fun hcr' d hd => ?_)
                    · have hkept : Enrolled r₁.os k j := hout.enrolled he
                      cases ref with
                      | live c' => exact hkept
                      | closed => exact hkept
                      | crashed f => exact hkept
                    · cases ref with
                      -- the record is written back: it is the one the handler has left
                      | live c' =>
                          simp only [Reactor.settle, Function.update_self, Option.some.injEq] at hd
                          subst hd
                          exact ⟨hout.cid_eq, hout.bare hbare, hends r₁ c' rfl⟩
                      | closed => cases hout.gone.symm.trans hd
                      | crashed f => cases hcr'

/-- The calls that follow are those of the events that follow. -/
theorem reactorRun_alert (site : Site) (es : List Event) (hrest : AtRest r) (h : Alert r log) :
    AtRest (reactorRun site r es) ∧ Alert (reactorRun site r es) (log ++ runCalls site r es) := by
  induction es generalizing r log with
  | nil =>
      rw [runCalls, List.append_nil]
      exact ⟨hrest, h⟩
  | cons e es ih =>
      rw [runCalls, ← List.append_assoc]
      exact ih (dispatch_atRest site hrest e) (dispatch_alert site hrest h e)

end HttpServer
