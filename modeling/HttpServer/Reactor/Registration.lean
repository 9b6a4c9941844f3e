import HttpServer.Reactor.Batch

set_option autoImplicit false

/-! # Registrations that fail

The source looks at no result of `epoll_ctl`, and the record of a new connection names descriptor
`0` for its file, so that `conn_close` closes the epoll instance if it has that descriptor. A
connection that could not be added, and every connection once the epoll instance is closed, waits
for events that never come (`not_unstuck`).

As long as no `epoll_ctl` fails the kernel has taken up what the program has asked for (`Synced`),
whatever calls are made. The epoll instance stays open as long as no connection names its
descriptor: because it is not `0` (`EpollApart`, kept by every action), or because no connection is
closed before its first response is set up (`Sound`). Then the loop with the answers of `epoll_ctl`
is the loop without them (`reactorRunCtl_eq`), whose connections are attended to
(`reactorRun_alert`).
-/

namespace HttpServer

open CLib

variable {site : Site} {os os' os₀ : Os} {r r' : Reactor} {c c' : Conn} {ref : ConnRef} {e : Event}
  {k : Nat}

/-! ## What the kernel has taken up -/

/-- No `epoll_ctl` has failed or will fail. -/
structure Synced (os : Os) : Prop where
  granted : ∀ ok ∈ os.ctls, ok = true
  agree : os.registered = os.interest

theorem Synced.headD (h : Synced os) : os.ctls.headD true = true := by
  cases hctls : os.ctls with
  | nil => rfl
  | cons ok rest => exact h.granted ok (by rw [hctls]; exact List.mem_cons_self)

theorem Synced.epollCtl (h : Synced os) (fd : Nat) (i : Interest) {ok : Bool} (hok : ok = true) :
    Synced (os.epollCtl fd i ok) := by
  subst hok
  exact ⟨fun b hb => h.granted b (List.mem_of_mem_tail hb),
    congrArg (fun f : Nat → Option Interest => Function.update f fd (some i)) h.agree⟩

theorem Synced.epollMod (h : Synced os) (fd : Nat) (i : Interest) : Synced (os.epollMod fd i) := by
  unfold Os.epollMod
  split
  · rename_i hsome
    exact h.epollCtl fd i (by rw [h.headD, h.agree, hsome]; rfl)
  · exact h

theorem Synced.close (h : Synced os) (by_ : Option Nat) (fd : Nat) : Synced (os.close by_ fd) :=
  ⟨h.granted, congrArg (fun f : Nat → Option Interest => Function.update f fd none) h.agree⟩

theorem Synced.epollDel (h : Synced os) (fd : Nat) : Synced (os.epollDel fd) :=
  ⟨h.granted, congrArg (fun f : Nat → Option Interest => Function.update f fd none) h.agree⟩

theorem Synced.openFile (h : Synced os) (site : Site) (cid : Nat) (path : List UInt8) :
    Synced (os.openFile site cid path).2 := by
  unfold Os.openFile
  simp only
  split
  · exact ⟨h.granted, h.agree⟩
  · exact ⟨h.granted, h.agree⟩

theorem synced_robust : Robust Synced where
  sched := fun _ _ h => ⟨h.granted, h.agree⟩
  log := fun _ _ h => ⟨h.granted, h.agree⟩
  openFile := fun site _ cid path h => h.openFile site cid path
  consume := fun os fd n h => by
    rw [consume_eq]
    exact ⟨h.granted, h.agree⟩
  close := fun _ by_ fd h => h.close by_ fd
  epollMod := fun _ fd i h => h.epollMod fd i
  hangUp := fun _ by_ fd h => (h.epollDel fd).close by_ fd

theorem Accepted.synced {a : AcceptRes} (hacc : Accepted r a r') (h : Synced r.os) :
    Synced r'.os := by
  have hnow : Synced (r.acceptedOs a) := ⟨h.granted, h.agree⟩
  cases hacc with
  | refused => exact hnow.close _ _
  | welcomed => exact hnow.epollCtl _ _ hnow.headD

theorem Step.synced (hstep : Step site r e r') (h : Synced r.os) : Synced r'.os := by
  have hbegin : Synced (r.begin e).os := ⟨h.granted, h.agree⟩
  cases hstep with
  | idle => exact h
  | woken => exact hbegin
  | accepted hcr =>
      exact reactorAccept_rule (I := fun r => Synced r.os) (fun _ _ _ _ hacc hI => hacc.synced hI)
        e.accepts hcr hbegin
  | ignored => exact hbegin
  | @hangup c => exact synced_robust.connClose c hbegin
  | @handled c r₁ ref _ _ _ _ _ _ _ hout =>
      have hkept : Synced r₁.os := hout.robust synced_robust hbegin
      cases ref with
      | live c' => exact hkept
      | closed => exact hkept
      | crashed f => exact hkept

/-! ## The descriptor of the epoll instance -/

/-- Descriptor `k` is open for the reactor itself. -/
def Os.OwnAt (os : Os) (k : Nat) : Prop := ∃ s, os.fds.get k = some ⟨s, none, .other⟩

theorem Os.OwnAt.of_get (h : os.OwnAt k) (hget : os'.fds.get k = os.fds.get k) : os'.OwnAt k := by
  obtain ⟨s, hs⟩ := h
  exact ⟨s, hget.trans hs⟩

theorem Os.OwnAt.alloc (h : os.OwnAt k) (hint : Nat) (owner : Option Nat) (res : Resource) :
    (os.alloc hint owner res).2.OwnAt k := by
  refine h.of_get (os.fds.get_insert_of_ne _ ?_)
  rintro rfl
  obtain ⟨s, hs⟩ := h
  cases (os.fds.pick_free hint).symm.trans hs

theorem Os.OwnAt.close (h : os.OwnAt k) (by_ : Option Nat) {fd : Nat} (hne : k ≠ fd) :
    (os.close by_ fd).OwnAt k :=
  h.of_get (os.fds.get_erase_of_ne hne)

theorem Os.OwnAt.closeFile (h : os.OwnAt k) (hfile : c.fileFd ≠ some k) :
    (closeFile os c).OwnAt k := by
  unfold HttpServer.closeFile
  split
  · rename_i j hj
    exact h.close _ (fun heq => hfile (heq ▸ hj))
  · exact h

theorem Os.OwnAt.mallocs (h : os.OwnAt k) (hm : Mallocs os os') : os'.OwnAt k := by
  obtain ⟨_, _, rfl⟩ := hm
  exact h

/-- `open` returns another descriptor. -/
theorem Os.OwnAt.openFile (h : os.OwnAt k) {cid : Nat} {path : List UInt8} {fd : Option Nat}
    (hopen : os.openFile site cid path = (fd, os')) : os'.OwnAt k ∧ fd ≠ some k := by
  cases fd with
  | none => exact ⟨h.of_get (by rw [openFile_none hopen]), by simp⟩
  | some j =>
      obtain ⟨hfree, bs, hfds⟩ := openFile_some hopen
      have hne : k ≠ j := by
        rintro rfl
        obtain ⟨s, hs⟩ := h
        cases hfree.symm.trans hs
      refine ⟨h.of_get ?_, fun heq => hne (Option.some.inj heq).symm⟩
      rw [hfds]
      exact os.fds.get_insert_of_ne _ hne

theorem Plain.file_ne {spares : Bool} (h : Plain spares c c') (hfile : c.fileFd ≠ some k) :
    c'.fileFd ≠ some k := by
  cases spares with
  | false =>
      rw [show c' = c from h]
      exact hfile
  | true =>
      obtain ⟨head, rfl⟩ := h
      simp

theorem Built.ownAt (h : Built site os c os' c') (hown : os.OwnAt k) (hfile : c.fileFd ≠ some k) :
    os'.OwnAt k ∧ c'.fileFd ≠ some k := by
  cases h with
  | plain _ hm hc => exact ⟨hown.mallocs hm, hc.file_ne hfile⟩
  | unopened _ hopen hm hc => exact ⟨(hown.openFile hopen).1.mallocs hm, hc.file_ne hfile⟩
  | aborted _ hopen hfail hm hc =>
      obtain ⟨hnow, hne⟩ := hown.openFile hopen
      have hleft := (hnow.mallocs (Mallocs.of_malloc hfail)).close (some c.cid)
        (fun heq => hne (heq ▸ rfl))
      exact ⟨hleft.mallocs hm, hc.file_ne hfile⟩
  | headOnly _ hopen hm =>
      obtain ⟨hnow, hne⟩ := hown.openFile hopen
      exact ⟨(hnow.mallocs hm).close _ (fun heq => hne (heq ▸ rfl)), by simp⟩
  | withFile _ hopen hm =>
      obtain ⟨hnow, hne⟩ := hown.openFile hopen
      exact ⟨hnow.mallocs hm, hne⟩

/-- Descriptor `k` is open for the reactor, and the connection does not name it. -/
structure Spares (k : Nat) (os : Os) (c : Conn) : Prop where
  own : os.OwnAt k
  sock : c.fd ≠ k
  file : c.fileFd ≠ some k

theorem Spares.connClose (h : Spares k r.os c) : (connClose r c).os.OwnAt k := by
  have hclosed : ((r.os.epollDel c.fd).close (some c.cid) c.fd).OwnAt k :=
    h.own.of_get (r.os.fds.get_erase_of_ne h.sock.symm)
  exact hclosed.closeFile h.file

theorem Action.spares (h : Action site (r, c) (r', c')) (hs : Spares k r.os c) :
    Spares k r'.os c' := by
  have hsock : c'.fd ≠ k := by
    rw [h.confined.fd]
    exact hs.sock
  have hown := hs.own
  have hfile := hs.file
  have hmod : ∀ i, (modEvents r c i).os.OwnAt k :=
    fun i => hown.of_get (by rw [fds_modEvents])
  cases h with
  | @receive _ _ n rest incoming bs =>
      exact ⟨hown.of_get (get_consume_of_ne (r.os.setReads rest) _ hsock.symm), hsock, hfile⟩
  | request _ _ _ hbuild =>
      obtain ⟨hown', hfile'⟩ := (buildResponse_built site hbuild).ownAt hown hfile
      exact ⟨hown', hsock, hfile'⟩
  | @reject _ _ b _ _ _ _ _ _ _ hbuild =>
      obtain ⟨hm, hc⟩ := buildErrorResponse_plain hbuild
      have hlog : (r.os.log (.parsed c.cid b)).OwnAt k := hown
      exact ⟨hlog.mallocs hm, hsock, hc.file_ne hfile⟩
  | bodySent => exact ⟨hown.closeFile hfile, hsock, by simp⟩
  | park => exact ⟨hmod _, hsock, hfile⟩
  | listen => exact ⟨hmod _, hsock, hfile⟩
  | _ => exact ⟨hown, hsock, hfile⟩

theorem Actions.spares (h : Actions site (r, c) (r', c')) (hs : Spares k r.os c) :
    Spares k r'.os c' :=
  Actions.rule (I := fun r c => Spares k r.os c) (fun _ _ _ _ hact hI => hact.spares hI) h hs

theorem Outcome.spares (h : Outcome site r c r' ref) (hs : Spares k r.os c) :
    r'.os.OwnAt k ∧ ∀ c', ref = .live c' → Spares k r'.os c' := by
  cases h with
  | live hacts =>
      have hkept := hacts.spares hs
      refine ⟨hkept.own, fun c' heq => ?_⟩
      cases heq
      exact hkept
  | closed hacts => exact ⟨(hacts.spares hs).connClose, by simp⟩
  | @closedFile r₁ c₁ hacts =>
      have hkept := hacts.spares hs
      have hclosed : Spares k (closeFile r₁.os c₁) { c₁ with fileFd := none } :=
        ⟨hkept.own.closeFile hkept.file, hkept.sock, by simp⟩
      exact ⟨Spares.connClose (r := { r₁ with os := closeFile r₁.os c₁ }) hclosed, by simp⟩
  | crashed hacts => exact ⟨(hacts.spares hs).own, by simp⟩

/-- The epoll instance is open, and no connection names its descriptor, which is not `0`. -/
structure EpollApart (r : Reactor) : Prop where
  nonzero : r.epfd ≠ 0
  own : r.os.OwnAt r.epfd
  apart : r.crashed = none → ∀ fd c, r.conns fd = some c → c.fd ≠ r.epfd ∧ c.fileFd ≠ some r.epfd

theorem Accepted.epollApart {a : AcceptRes} (hacc : Accepted r a r') (hcr : r.crashed = none)
    (h : EpollApart r) : EpollApart r' := by
  have hown : (r.acceptedOs a).OwnAt r.epfd := h.own.alloc ..
  have hne : r.epfd ≠ r.os.fds.pick a.hint := by
    intro heq
    obtain ⟨s, hs⟩ := h.own
    rw [heq] at hs
    cases (r.os.fds.pick_free a.hint).symm.trans hs
  cases hacc with
  | refused => exact ⟨h.nonzero, hown.close _ hne, h.apart⟩
  | welcomed =>
      refine ⟨h.nonzero, hown, fun _ k d hd => ?_⟩
      rcases eq_or_ne k (r.os.fds.pick a.hint) with rfl | hk
      · simp only [Function.update_self, Option.some.injEq] at hd
        subst hd
        -- the record of a new connection names descriptor `0`
        exact ⟨hne.symm, fun h0 => h.nonzero (Option.some.inj h0).symm⟩
      · exact h.apart hcr k d ((Function.update_of_ne hk ..).symm.trans hd)

theorem Step.epfd (hstep : Step site r e r') : r'.epfd = r.epfd := by
  cases hstep with
  | idle => rfl
  | woken => rfl
  | accepted hcr => exact (reactorAccept_fixed (r := r.begin e) e.accepts hcr).epoll
  | ignored => rfl
  | hangup => rfl
  | handled _ _ _ _ _ _ _ hout => exact (hout.fixed e.fd).epoll

theorem Step.epollApart (hstep : Step site r e r') (h : EpollApart r) : EpollApart r' := by
  have hbegin : EpollApart (r.begin e) := ⟨h.nonzero, h.own, h.apart⟩
  have hepfd := hstep.epfd
  cases hstep with
  | idle => exact h
  | woken => exact ⟨h.nonzero, h.own, h.apart⟩
  | accepted hcr =>
      exact reactorAccept_rule (I := EpollApart) (fun _ _ _ hcr' hacc hI => hacc.epollApart hcr' hI)
        e.accepts hcr hbegin
  | ignored => exact hbegin
  | @hangup c _ hcr hc =>
      obtain ⟨hsock, hfile⟩ := h.apart hcr e.fd c hc
      have hs : Spares r.epfd (r.begin e).os c := ⟨h.own, hsock, hfile⟩
      exact ⟨h.nonzero, hs.connClose, fun _ k d hd => h.apart hcr k d (conns_of_connClose hd).1⟩
  | @handled c r₁ ref _ hcr hc hfd _ _ _ hout =>
      obtain ⟨hsock, hfile⟩ := h.apart hcr e.fd c hc
      have hs : Spares r.epfd (r.begin e).os c := ⟨h.own, hsock, hfile⟩
      -- the handler acts on the socket and the file of its connection, neither of which is `epfd`
      obtain ⟨hown, hlive⟩ := hout.spares hs
      rw [← hfd] at hepfd ⊢
      refine ⟨hepfd ▸ h.nonzero, ?_, fun hcr' k d hd => ?_⟩
      · rw [hepfd]
        cases ref with
        | live c' => exact hown
        | closed => exact hown
        | crashed f => exact hown
      · rw [hepfd]
        rcases eq_or_ne k c.fd with rfl | hne
        · cases ref with
          | live c' =>
              simp only [Reactor.settle, Function.update_self, Option.some.injEq] at hd
              subst hd
              exact ⟨(hlive c' rfl).sock, (hlive c' rfl).file⟩
          | closed => cases hout.gone.symm.trans hd
          | crashed f => cases hcr'
        · rw [hout.settle_of_ne hne] at hd
          exact h.apart hcr k d hd

/-! ## The two loops -/

/-- The event does not close the epoll instance: its descriptor is not `0`, or no connection is
closed before its first response is set up. -/
def KeepsEpoll (site : Site) (r : Reactor) (e : Event) : Prop := r.epfd ≠ 0 ∨ Careful site r e

/-- The condition `G` holds at every step of the run of `es` from `r`. -/
def AlongCtl (site : Site) (G : Reactor → Event → Prop) : Reactor → List Event → Prop
  | _, [] => True
  | r, e :: es => G r e ∧ AlongCtl site G (dispatchCtl site r e) es

/-- The epoll instance is open and has taken up what it was asked for. -/
structure Guarded (site : Site) (os₀ : Os) (r : Reactor) : Prop where
  rest : AtRest r
  synced : Synced r.os
  kept : EpollApart r ∨ (r.epfd = 0 ∧ Followed site r ∧ Sound os₀ r ∧ os₀.OwnAt r.epfd)

theorem Guarded.registration (h : Guarded site os₀ r) : r.registration = r.os.interest := by
  have hown : r.os.OwnAt r.epfd := by
    rcases h.kept with hw | ⟨_, _, hsound, s, hs⟩
    · exact hw.own
    · exact ⟨s, (hsound.reserved _ _ rfl).mpr hs⟩
  obtain ⟨s, hs⟩ := hown
  have hopen : r.epollOpen = true := by
    rw [Reactor.epollOpen, hs]
  funext fd
  rw [Reactor.registration, if_pos hopen, h.synced.agree]

theorem Guarded.dispatch (h : Guarded site os₀ r) (hkeep : KeepsEpoll site r e) :
    Guarded site os₀ (dispatch site r e) := by
  have hstep := dispatch_step site h.rest.orderly e
  refine ⟨dispatch_atRest site h.rest e, hstep.synced h.synced, ?_⟩
  rcases h.kept with hw | ⟨hzero, hfol, hsound, hown⟩
  · exact .inl (hstep.epollApart hw)
  · have hcare : Careful site r e := hkeep.resolve_left fun hne => hne hzero
    refine .inr ⟨hstep.epfd.trans hzero, hstep.followed h.rest.numbered hfol,
      hstep.sound h.rest hcare hfol hsound, ?_⟩
    rw [hstep.epfd]
    exact hown

theorem Guarded.dispatchCtl_eq (h : Guarded site os₀ r) (e : Event) :
    dispatchCtl site r e = HttpServer.dispatch site r e ∧
      dispatchCtlCalls site r e = dispatchCalls site r e := by
  unfold dispatchCtl dispatchCtlCalls HttpServer.dispatch dispatchCalls
  rw [h.registration]
  exact ⟨rfl, rfl⟩

/-- **The loop with the answers of `epoll_ctl` is the loop without them**, as long as they are
good and the epoll instance stays open. -/
theorem reactorRunCtl_eq (es : List Event) (h : Guarded site os₀ r)
    (hes : AlongCtl site (KeepsEpoll site) r es) :
    Guarded site os₀ (reactorRunCtl site r es) ∧ reactorRunCtl site r es = reactorRun site r es ∧
      runCtlCalls site r es = runCalls site r es := by
  induction es generalizing r with
  | nil => exact ⟨h, rfl, rfl⟩
  | cons e es ih =>
      obtain ⟨hstep, hcalls⟩ := h.dispatchCtl_eq e
      obtain ⟨hkeep, hrest⟩ := hes
      rw [hstep] at hrest
      obtain ⟨hend, hrun, hlog⟩ := ih (h.dispatch hkeep) hrest
      have hctl : reactorRunCtl site r (e :: es) =
          reactorRunCtl site (HttpServer.dispatch site r e) es := by
        rw [← hstep]
        rfl
      refine ⟨hctl ▸ hend, hctl.trans hrun, ?_⟩
      rw [runCtlCalls, runCalls, hcalls, hstep, hlog]

theorem reactorCreateCtl_own (inherited : List Nat) (ctls : List Bool) :
    (reactorCreateCtl inherited ctls).os.OwnAt (reactorCreateCtl inherited ctls).epfd := by
  have hfirst : ((bootCtl inherited ctls).alloc 0 none .other).2.OwnAt
      ((bootCtl inherited ctls).fds.pick 0) := ⟨_, FdTable.get_insert_self ..⟩
  exact (hfirst.alloc 0 none .other).alloc 0 none .other

theorem reactorCreateCtl_guarded (site : Site) (inherited : List Nat) {ctls : List Bool}
    (hctls : ∀ ok ∈ ctls, ok = true) :
    Guarded site (reactorCreateCtl inherited ctls).os (reactorCreateCtl inherited ctls) := by
  have hboot : Synced (bootCtl inherited ctls) := ⟨hctls, rfl⟩
  refine ⟨reactorCreateCtl_atRest inherited ctls, ?_, ?_⟩
  · -- the eventfd and the listening socket are added
    have hready : Synced ((((bootCtl inherited ctls).alloc 0 none .other).2.alloc 0 none
        .other).2.alloc 0 none .other).2 := ⟨hboot.granted, hboot.agree⟩
    have hadded := hready.epollCtl
      ((((bootCtl inherited ctls).alloc 0 none .other).2.alloc 0 none .other).1) .input hready.headD
    exact hadded.epollCtl _ .input hadded.headD
  · by_cases hzero : (reactorCreateCtl inherited ctls).epfd = 0
    · exact .inr ⟨hzero, reactorCreateCtl_followed site inherited ctls,
        reactorCreateCtl_sound inherited ctls, reactorCreateCtl_own inherited ctls⟩
    · exact .inl ⟨hzero, reactorCreateCtl_own inherited ctls, fun _ fd c hc => by cases hc⟩

/-! ## Waiting connections -/

/-- The connection `c` will be told of what it waits for: it reads, with everything parsed and no
head buffer, and is registered for input; or it writes, with something left to send, and is
registered for output. -/
inductive Poised (r : Reactor) (calls : List SockCall) (c : Conn) : Prop
  | input (hs : c.state = .reading) (hin : c.inHead = c.inbuf.length) (hhead : c.head = [])
      (hint : r.registration c.fd = some .input) (hsince : ∃ before since,
        calls = before ++ .armed .input :: since ∧ (∀ i, .armed i ∉ since) ∧
          (since = [] ∨ ∃ count, since.getLast? = some (.read count .again)))
  | output (hs : c.state = .writing) (hleft : Unfinished c)
      (hint : r.registration c.fd = some .output)
      (hlast : ∃ before, calls = before ++ [.write .again, .armed .output])

theorem Attended.poised {calls : List SockCall} (h : Attended r.os c.fd calls c)
    (hwait : Waiting r c) (hopen : r.os.SocketOpen c.fd c.cid)
    (hreg : r.registration = r.os.interest) : Poised r calls c := by
  have hsome := h.enrolled hopen
  cases hwait with
  | input hs hin _ hint =>
      cases h.primed with
      | input _ hsince =>
          refine .input hs hin (h.bare (.inl hs)) ?_ hsince
          rw [hreg]
          refine hint.resolve_right fun hnone => ?_
          rw [hnone] at hsome
          cases hsome
      | output hs' => cases hs.symm.trans hs'
  | output hs _ hleft hint =>
      cases h.primed with
      | input hs' => cases hs.symm.trans hs'
      | output _ hlast =>
          refine .output hs hleft ?_ hlast
          rw [hreg]
          refine hint.resolve_right fun hnone => ?_
          rw [hnone] at hsome
          cases hsome

/-- Every live connection whose socket is open is poised for the next event. -/
def Unstuck (r : Reactor) (log : List (Nat × SockCall)) : Prop :=
  r.crashed = none → ∀ fd c, r.conns fd = some c → r.os.SocketOpen fd c.cid →
    Poised r (callsOf c.cid log) c

/-- **No connection is stuck** where no `epoll_ctl` fails and the epoll instance stays open. After
any events, whatever the other calls have answered, every live connection whose socket is open is
poised for the next event. On the way `conn_read` has run on reading connections only, `read` has
always asked for more than no bytes, and `conn_write` has never returned early. -/
theorem never_stuck (site : Site) (inherited : List Nat) (ctls : List Bool) (es : List Event)
    (hctls : ∀ ok ∈ ctls, ok = true)
    (hes : AlongCtl site (KeepsEpoll site) (reactorCreateCtl inherited ctls) es) :
    (∀ call ∈ runCtlCalls site (reactorCreateCtl inherited ctls) es, call.2.Sane) ∧
    Unstuck (reactorRunCtl site (reactorCreateCtl inherited ctls) es)
      (runCtlCalls site (reactorCreateCtl inherited ctls) es) := by
  obtain ⟨hend, hrun, hcalls⟩ :=
    reactorRunCtl_eq es (reactorCreateCtl_guarded site inherited hctls) hes
  have hfresh : Alert (reactorCreateCtl inherited ctls) [] :=
    ⟨by simp, fun _ fd c hc => by cases hc⟩
  obtain ⟨hrest, halert⟩ :=
    reactorRun_alert site es (reactorCreateCtl_atRest inherited ctls) hfresh
  rw [List.nil_append, ← hcalls, ← hrun] at halert
  rw [← hrun] at hrest
  refine ⟨halert.sane, fun hcr fd c hc hopen => ?_⟩
  obtain ⟨rfl, hwait⟩ := hrest.orderly hcr fd c hc
  exact (halert.live hcr _ c hc).poised hwait hopen hend.registration

/-! A connection whose response does not fit the socket at once; one that is not added; and one
that is left when another has closed descriptor `0`, which was the epoll instance. -/

def fullSite : Site := ⟨ascii "www", fun _ => .absent, fun _ _ => rfl⟩

def fullEvents : List Event :=
  [⟨5, ⟨true, false, false⟩, ⟨[], [], [], []⟩, [⟨6, ascii "GET /a HTTP/1.0\n\n", true⟩]⟩,
   ⟨6, ⟨true, false, false⟩, ⟨[.bytes 5, .again], [], [], []⟩, []⟩,
   ⟨6, ⟨true, false, false⟩, ⟨[.bytes 100], [.bytes 10, .again], [], []⟩, []⟩]

theorem never_stuck_sample :
    ∃ c, (reactorRunCtl fullSite (reactorCreateCtl [0, 1, 2] [true, true]) fullEvents).conns 6 =
        some c ∧ c.state = .writing ∧
      Poised (reactorRunCtl fullSite (reactorCreateCtl [0, 1, 2] [true, true]) fullEvents)
        (callsOf c.cid (runCtlCalls fullSite (reactorCreateCtl [0, 1, 2] [true, true]) fullEvents))
        c := by
  have hstate : ((reactorRunCtl fullSite (reactorCreateCtl [0, 1, 2] [true, true]) fullEvents).conns
      6).map (fun c => (c.cid, c.state)) = some (4, .writing) := by decide +kernel
  obtain ⟨c, hc, heq⟩ := Option.map_eq_some_iff.mp hstate
  obtain ⟨hcid, hs⟩ := Prod.mk.inj heq
  have hes : AlongCtl fullSite (KeepsEpoll fullSite) (reactorCreateCtl [0, 1, 2] [true, true])
      fullEvents :=
    ⟨.inl (by decide +kernel), .inl (by decide +kernel), .inl (by decide +kernel), trivial⟩
  refine ⟨c, hc, hs, (never_stuck fullSite [0, 1, 2] [true, true] fullEvents (by decide) hes).2
    (by decide +kernel) 6 c hc ?_⟩
  rw [hcid]
  exact ⟨[], by decide +kernel⟩

theorem Poised.registered {calls : List SockCall} (h : Poised r calls c) :
    r.registration c.fd ≠ none := by
  cases h with
  | input _ _ _ hint => simp [hint]
  | output _ _ hint => simp [hint]

def loneEvents : List Event :=
  [⟨5, ⟨true, false, false⟩, ⟨[], [], [], []⟩, [⟨6, [], true⟩]⟩]

def zeroEvents : List Event :=
  [⟨4, ⟨true, false, false⟩, ⟨[], [], [], []⟩, [⟨5, [], true⟩, ⟨6, [], true⟩]⟩,
   ⟨5, ⟨true, false, false⟩, ⟨[.eof], [], [], []⟩, []⟩]

theorem not_unstuck :
    ¬ Unstuck (reactorRunCtl fullSite (reactorCreateCtl [0, 1, 2] [true, true, false]) loneEvents)
      (runCtlCalls fullSite (reactorCreateCtl [0, 1, 2] [true, true, false]) loneEvents) ∧
    ¬ Unstuck (reactorRunCtl fullSite (reactorCreateCtl [1, 2] []) zeroEvents)
      (runCtlCalls fullSite (reactorCreateCtl [1, 2] []) zeroEvents) := by
  constructor
  · intro h
    have hstate : ((reactorRunCtl fullSite (reactorCreateCtl [0, 1, 2] [true, true, false])
        loneEvents).conns 6).map (fun c => (c.cid, c.fd)) = some (4, 6) := by decide +kernel
    obtain ⟨c, hc, heq⟩ := Option.map_eq_some_iff.mp hstate
    obtain ⟨hcid, hfd⟩ := Prod.mk.inj heq
    refine (h (by decide +kernel) 6 c hc ?_).registered ?_
    · rw [hcid]
      exact ⟨[], by decide +kernel⟩
    · rw [hfd]
      decide +kernel
  · intro h
    have hstate : ((reactorRunCtl fullSite (reactorCreateCtl [1, 2] []) zeroEvents).conns 6).map
        (fun c => (c.cid, c.fd)) = some (5, 6) := by decide +kernel
    obtain ⟨c, hc, heq⟩ := Option.map_eq_some_iff.mp hstate
    obtain ⟨hcid, hfd⟩ := Prod.mk.inj heq
    refine (h (by decide +kernel) 6 c hc ?_).registered ?_
    · rw [hcid]
      exact ⟨[], by decide +kernel⟩
    · rw [hfd]
      decide +kernel

end HttpServer
