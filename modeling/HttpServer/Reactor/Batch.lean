import HttpServer.Reactor.Descriptors
import HttpServer.Reactor.Edge

set_option autoImplicit false

/-! # Batches of events

`epoll_wait` returns several events at once. What they say was true when it returned; by the time
the loop of `reactor_run` gets to one of them others have been handled. `reactorLoop` is that loop
as it stands, with its batches and without a second look at what a descriptor is registered for.

As long as connections close only what is theirs no event is stale when it is handled: the
descriptor is registered as it was, and the connection there is the one it was reported for. So the
loop does what `reactorRun` does with the events one by one (`reactorLoop_eq`).
-/

namespace HttpServer

open CLib

variable {site : Site} {os os' : Os} {r r' : Reactor} {c c' : Conn} {ref : ConnRef}

/-! ## The loop of `reactor_run` -/

/-- What `epoll_wait` returns when something has happened on the descriptors of `ready`: what each
of them is registered for. -/
def Reactor.epollWait (r : Reactor) (ready : List Event) : List Event :=
  ready.filterMap fun e =>
    match r.os.interest e.fd with
    | none => none
    | some i =>
        let evs := e.evs.report i
        if evs.input || evs.output || evs.err then some { e with evs := evs } else none

/-- An event that is not one of the eventfd. -/
def handleEvent (site : Site) (r : Reactor) (e : Event) : Reactor :=
  if e.fd = r.listenFd then reactorAccept (r.begin e) e.accepts
  else
    match r.conns e.fd with
    | none => r.begin e
    | some c =>
        let (r, ref) := connEvent site (r.begin e) c e.evs
        r.settle e.fd ref

/-- The loop over `events`. After a crash nothing more happens. -/
def handleBatch (site : Site) (r : Reactor) : List Event → Reactor
  | [] => r
  | e :: es =>
      if r.crashed.isSome then r
      else if e.fd = r.wakeupFd then { r.begin e with stop := true }
      else handleBatch site (handleEvent site r e) es

/-- `reactor_run`, by what is ready at each call of `epoll_wait`. -/
def reactorLoop (site : Site) (r : Reactor) : List (List Event) → Reactor
  | [] => r
  | ready :: rest =>
      if r.stop ∨ r.crashed.isSome then r
      else reactorLoop site (handleBatch site r (r.epollWait ready)) rest

/-- The events the loop is told of. -/
def loopEvents (site : Site) (r : Reactor) : List (List Event) → List Event
  | [] => []
  | ready :: rest =>
      if r.stop ∨ r.crashed.isSome then []
      else r.epollWait ready ++ loopEvents site (handleBatch site r (r.epollWait ready)) rest

/-! ## What every call keeps -/

/-- Every call of the system a handler makes keeps `P`, whatever it is made on. -/
structure Robust (P : Os → Prop) : Prop where
  sched : ∀ os s, P os → P { os with sched := s }
  log : ∀ os e, P os → P (os.log e)
  openFile : ∀ site os cid path, P os → P (os.openFile site cid path).2
  consume : ∀ os fd n, P os → P (os.consume fd n)
  close : ∀ os by_ fd, P os → P (os.close by_ fd)
  epollMod : ∀ os fd i, P os → P (os.epollMod fd i)
  hangUp : ∀ os by_ fd, P os → P ((os.epollDel fd).close by_ fd)

section robust

variable {P : Os → Prop}

theorem Robust.mallocs (hP : Robust P) (h : Mallocs os os') (hos : P os) : P os' := by
  obtain ⟨_, _, rfl⟩ := h
  exact hP.sched _ _ hos

theorem Robust.closeFile (hP : Robust P) (c : Conn) (hos : P os) : P (closeFile os c) := by
  unfold HttpServer.closeFile
  split
  · exact hP.close _ _ _ hos
  · exact hos

theorem Robust.modEvents (hP : Robust P) (c : Conn) (i : Interest) (hos : P r.os) :
    P (modEvents r c i).os :=
  hP.epollMod _ _ _ hos

theorem Robust.connClose (hP : Robust P) (c : Conn) (hos : P r.os) : P (connClose r c).os :=
  hP.closeFile c (hP.hangUp _ _ _ hos)

theorem Built.robust (h : Built site os c os' c') (hP : Robust P) (hos : P os) : P os' := by
  have hopened := hP.openFile site os c.cid (c.req.pathname site) hos
  cases h with
  | plain _ hm _ => exact hP.mallocs hm hos
  | unopened _ hopen hm _ =>
      rw [hopen] at hopened
      exact hP.mallocs hm hopened
  | aborted _ hopen hfail hm _ =>
      rw [hopen] at hopened
      exact hP.mallocs hm (hP.close _ _ _ (hP.mallocs (Mallocs.of_malloc hfail) hopened))
  | headOnly _ hopen hm =>
      rw [hopen] at hopened
      exact hP.close _ _ _ (hP.mallocs hm hopened)
  | withFile _ hopen hm =>
      rw [hopen] at hopened
      exact hP.mallocs hm hopened

theorem Action.robust (h : Action site (r, c) (r', c')) (hP : Robust P) (hos : P r.os) : P r'.os := by
  cases h with
  | receive => exact hP.log _ _ (hP.consume _ _ _ (hP.sched _ _ hos))
  | retry => exact hP.sched _ _ hos
  | parse => exact hP.log _ _ hos
  | request _ _ _ hbuild =>
      exact (buildResponse_built site hbuild).robust hP (hP.log _ _ (hP.log _ _ hos))
  | reject _ _ _ hbuild =>
      exact hP.mallocs (buildErrorResponse_plain hbuild).1 (hP.log _ _ hos)
  | answers => exact hP.sched _ _ hos
  | sendHead => exact hP.log _ _ hos
  | sendBody => exact hP.log _ _ hos
  | bodySent => exact hP.closeFile c hos
  | park => exact hP.modEvents _ _ hos
  | listen => exact hP.modEvents _ _ hos
  | _ => exact hos

theorem Actions.robust (h : Actions site (r, c) (r', c')) (hP : Robust P) (hos : P r.os) : P r'.os :=
  Actions.rule (I := fun r _ => P r.os) (fun _ _ _ _ hact hI => hact.robust hP hI) h hos

theorem Outcome.robust (h : Outcome site r c r' ref) (hP : Robust P) (hos : P r.os) : P r'.os := by
  cases h with
  | live hacts => exact hacts.robust hP hos
  | closed hacts => exact hP.connClose _ (hacts.robust hP hos)
  | @closedFile r₁ c₁ hacts =>
      have hclosed : P (HttpServer.closeFile r₁.os c₁) := hP.closeFile c₁ (hacts.robust hP hos)
      exact hP.connClose (r := { r₁ with os := HttpServer.closeFile r₁.os c₁ }) _ hclosed
  | crashed hacts => exact hP.log _ _ (hacts.robust hP hos)

end robust

/-! ## The descriptors of the reactor -/

/-- A descriptor that is open for no connection is registered, if it was. -/
def Reserved (k : Nat) (os : Os) : Prop :=
  ∀ d, os.fds.get k = some d → d.owner = none → (os.interest k).isSome

theorem Reserved.close {k : Nat} (h : Reserved k os) (by_ : Option Nat) (fd : Nat) :
    Reserved k (os.close by_ fd) := by
  intro d hget hd
  obtain ⟨hget, hne⟩ := get_close hget
  rw [show (os.close by_ fd).interest k = os.interest k from Function.update_of_ne hne ..]
  exact h d hget hd

theorem reserved_robust (k : Nat) : Robust (Reserved k) where
  sched := fun _ _ h => h
  log := fun _ _ h => h
  -- what `open` returns was free, and is not what was reserved
  openFile := by
    intro site os cid path h d hget hd
    rw [interest_openFile]
    cases hout : os.openFile site cid path with
    | mk res os₁ =>
        rw [hout] at hget
        cases res with
        | none =>
            rw [openFile_none hout] at hget
            exact h d hget hd
        | some j =>
            obtain ⟨_, bs, hfds⟩ := openFile_some hout
            simp only [hfds] at hget
            rcases eq_or_ne k j with rfl | hne
            · rw [FdTable.get_insert_self] at hget
              cases hget
              cases hd
            · rw [os.fds.get_insert_of_ne _ hne] at hget
              exact h d hget hd
  consume := by
    intro os fd n h d hget hd
    rw [consume_eq]
    rcases eq_or_ne k fd with rfl | hne
    · unfold Os.consume at hget
      split at hget
      · rename_i s o bs hold
        rw [FdTable.get_insert_self] at hget
        cases hget
        exact h _ hold hd
      · exact h d hget hd
    · rw [get_consume_of_ne os n hne] at hget
      exact h d hget hd
  close := fun _ _ _ h => h.close _ _
  epollMod := by
    intro os fd i h
    unfold Os.epollMod
    split
    · intro d hget hd
      rcases eq_or_ne k fd with rfl | hne
      · simp [Os.epollCtl]
      · rw [show (os.epollCtl fd i _).interest k = os.interest k from Function.update_of_ne hne ..]
        exact h d hget hd
    · exact h
  hangUp := by
    intro os by_ fd h d hget hd
    obtain ⟨hget', hne⟩ := get_close hget
    have hsame : ((os.epollDel fd).close by_ fd).interest k = os.interest k :=
      (Function.update_of_ne hne ..).trans (Function.update_of_ne hne ..)
    rw [hsame]
    exact h d hget' hd

/-- What is registered: the eventfd, the listening socket and the sockets of connections. The first
two are open, for no connection, and registered for input. -/
structure Rostered (r : Reactor) : Prop where
  known : ∀ k i, r.os.interest k = some i → k = r.wakeupFd ∨ k = r.listenFd ∨ ∃ c, r.conns k = some c
  own : ∀ k, k = r.wakeupFd ∨ k = r.listenFd → ∃ d, r.os.fds.get k = some d ∧ d.owner = none ∧
    r.os.interest k = some .input

theorem Owns.ne_reserved {k : Nat} {d : Desc} (h : Owns os c) (hget : os.fds.get k = some d)
    (hd : d.owner = none) : k ≠ c.fd := by
  rintro rfl
  obtain ⟨bs, hsock⟩ := h.sock
  rw [hsock] at hget
  cases hget
  cases hd

/-- What is registered is open. -/
theorem Rostered.open_ {os₀ : Os} (h : Rostered r) (hsound : Sound os₀ r) (hrest : AtRest r)
    (hcr : r.crashed = none) {k : Nat} {i : Interest} (hint : r.os.interest k = some i) :
    r.os.fds.get k ≠ none := by
  intro hnone
  rcases h.known k i hint with hk | hk | ⟨c, hc⟩
  · obtain ⟨d, hget, _⟩ := h.own k (.inl hk)
    cases hnone.symm.trans hget
  · obtain ⟨d, hget, _⟩ := h.own k (.inr hk)
    cases hnone.symm.trans hget
  · obtain ⟨bs, hsock⟩ := (hsound.owns hcr k c hc).1.sock
    rw [(hrest.orderly hcr k c hc).1, hnone] at hsock
    cases hsock

/-! ## Steps -/

/-- From `r` to `r'` nothing changes at descriptor `k`: neither the registration nor the
connection. -/
def SameAt (k : Nat) (r r' : Reactor) : Prop :=
  r'.conns k = r.conns k ∧ r'.os.interest k = r.os.interest k

/-- An open descriptor keeps its registration when something is accepted. -/
theorem Accepted.sameAt {a : AcceptRes} (hacc : Accepted r a r') {k : Nat}
    (hopen : r.os.fds.get k ≠ none) : SameAt k r r' := by
  have hne : k ≠ r.os.fds.pick a.hint := by
    rintro rfl
    exact hopen (r.os.fds.pick_free a.hint)
  cases hacc with
  | refused => exact ⟨rfl, Function.update_of_ne hne ..⟩
  | welcomed => exact ⟨Function.update_of_ne hne .., Function.update_of_ne hne ..⟩

theorem Accepted.rostered {a : AcceptRes} (hacc : Accepted r a r') (h : Rostered r)
    (hreg : ∀ k i, r.os.interest k = some i → r.os.fds.get k ≠ none) : Rostered r' := by
  -- the descriptors of the reactor itself are open, so `accept` returns another
  have hsame : ∀ k, k = r.wakeupFd ∨ k = r.listenFd → SameAt k r r' ∧
      r'.os.fds.get k = r.os.fds.get k := by
    intro k hk
    obtain ⟨d, hget, _⟩ := h.own k hk
    have hopen : r.os.fds.get k ≠ none := by rw [hget]; simp
    refine ⟨hacc.sameAt hopen, ?_⟩
    have hne : k ≠ r.os.fds.pick a.hint := by
      rintro rfl
      exact hopen (r.os.fds.pick_free a.hint)
    cases hacc with
    | refused => exact (FdTable.get_erase_of_ne _ hne).trans (FdTable.get_insert_of_ne _ _ hne)
    | welcomed => exact FdTable.get_insert_of_ne _ _ hne
  have hfds : r'.wakeupFd = r.wakeupFd ∧ r'.listenFd = r.listenFd := by
    cases hacc with
    | refused => exact ⟨rfl, rfl⟩
    | welcomed => exact ⟨rfl, rfl⟩
  refine ⟨fun k i hint => ?_, fun k hk => ?_⟩
  · rw [hfds.1, hfds.2]
    rcases eq_or_ne k (r.os.fds.pick a.hint) with rfl | hne
    · cases hacc with
      | refused => simp [Os.close] at hint
      | welcomed => exact .inr (.inr ⟨_, Function.update_self ..⟩)
    · have hold : r'.os.interest k = r.os.interest k := by
        cases hacc with
        | refused => exact Function.update_of_ne hne ..
        | welcomed => exact Function.update_of_ne hne ..
      rw [hold] at hint
      rw [(hacc.sameAt (hreg k i hint)).1]
      exact h.known k i hint
  · rw [hfds.1, hfds.2] at hk
    obtain ⟨d, hget, hd, hint⟩ := h.own k hk
    obtain ⟨hat, hget'⟩ := hsame k hk
    exact ⟨d, hget'.trans hget, hd, hat.2.trans hint⟩

/-- What the loop of `reactor_accept` keeps, with all that is known between two events. -/
theorem reactorAccept_sameAt {os₀ : Os} (accepts : List AcceptRes) (hcr : r.crashed = none)
    (hrest : AtRest r) (hfol : Followed site r) (hsound : Sound os₀ r) (h : Rostered r) :
    Rostered (reactorAccept r accepts) ∧
      ∀ k i, r.os.interest k = some i → SameAt k r (reactorAccept r accepts) := by
  have hall := reactorAccept_rule
    (I := fun r₁ => (AtRest r₁ ∧ Followed site r₁ ∧ Sound os₀ r₁) ∧ Rostered r₁ ∧
      ∀ k i, r.os.interest k = some i → SameAt k r r₁)
    (fun r₁ a r₂ hcr₁ hacc hI => by
      obtain ⟨⟨hrest₁, hfol₁, hsound₁⟩, hros₁, hsame⟩ := hI
      refine ⟨⟨⟨hacc.orderly hcr₁ hrest₁.orderly, hacc.numbered hrest₁.numbered⟩,
        hacc.followed hcr₁ hfol₁, hacc.sound hcr₁ hrest₁ hfol₁ hsound₁⟩,
        hacc.rostered hros₁ (fun k i => hros₁.open_ hsound₁ hrest₁ hcr₁), fun k i hint => ?_⟩
      obtain ⟨hconns, hold⟩ := hsame k i hint
      have hnow := hacc.sameAt (hros₁.open_ hsound₁ hrest₁ hcr₁ (hold.trans hint))
      exact ⟨hnow.1.trans hconns, hnow.2.trans hold⟩)
    accepts hcr ⟨⟨hrest, hfol, hsound⟩, h, fun k i _ => ⟨rfl, rfl⟩⟩
  exact hall.2

theorem interest_connClose_self (r : Reactor) (c : Conn) :
    (connClose r c).os.interest c.fd = none := by
  have hdel : ((r.os.epollDel c.fd).close (some c.cid) c.fd).interest c.fd = none :=
    Function.update_self ..
  rcases stillOrLost_closeFile ((r.os.epollDel c.fd).close (some c.cid) c.fd) c c.fd with h | h
  · exact h.trans hdel
  · exact h

/-- What an event of connection `c` leaves to the others. -/
structure Apart (site : Site) (c : Conn) (r r' : Reactor) : Prop where
  conducted : Conducted site c r r'
  conns : ∀ k, k ≠ c.fd → r'.conns k = r.conns k
  still : ∀ k, k ≠ c.fd → StillOrLost r.os r'.os k
  enrolled : ∀ k i, Enrolled r.os k i → Enrolled r'.os k i
  reserved : ∀ k, Reserved k r.os → Reserved k r'.os

/-- What is registered for others stays so. -/
theorem Apart.sameAt {os₀ : Os} (ha : Apart site c r r') (hsound : Sound os₀ r) (hrest : AtRest r)
    (hcr : r.crashed = none) (h : Rostered r) (hc : r.conns c.fd = some c) {k : Nat} {i : Interest}
    (hk : k ≠ c.fd) (hint : r.os.interest k = some i) : SameAt k r r' := by
  have hsome : (r.os.interest k).isSome := by rw [hint]; rfl
  refine ⟨ha.conns k hk, (ha.still k hk).resolve_right fun hlost => ?_⟩
  have hown : ¬ (k = r.wakeupFd ∨ k = r.listenFd) := by
    intro hself
    obtain ⟨d, hget, hd, _⟩ := h.own k hself
    have hopen := (ha.conducted.sameOwned (o := none) (by simp) k d hd).mpr hget
    have hkeep := ha.reserved k (fun _ _ _ => hsome) d hopen hd
    rw [hlost] at hkeep
    cases hkeep
  rcases h.known k i hint with hself | hself | ⟨c', hc'⟩
  · exact hown (.inl hself)
  · exact hown (.inr hself)
  · obtain ⟨bs, hsock⟩ := (hsound.owns hcr k c' hc').1.sock
    rw [(hrest.orderly hcr k c' hc').1] at hsock
    have hne : some c'.cid ≠ some c.cid :=
      fun heq => hk (hrest.numbered.inj k c.fd c' c hc' hc (Option.some.inj heq))
    have hopen : r'.os.SocketOpen k c'.cid := ⟨bs, (ha.conducted.sameOwned hne k _ rfl).mpr hsock⟩
    have hkeep := ha.enrolled k c'.cid (fun _ => hsome) hopen
    rw [hlost] at hkeep
    cases hkeep

/-- What of the reactor an event leaves alone. -/
structure Fixed (r r' : Reactor) : Prop where
  epoll : r'.epfd = r.epfd
  wakeup : r'.wakeupFd = r.wakeupFd
  listen : r'.listenFd = r.listenFd
  stop : r'.stop = r.stop

theorem Actions.fixed (h : Actions site (r, c) (r', c')) : Fixed r r' := by
  rw [h.confined.reactor]
  exact ⟨rfl, rfl, rfl, rfl⟩

theorem Outcome.fixed (h : Outcome site r c r' ref) (fd : Nat) : Fixed r (r'.settle fd ref) := by
  cases h with
  | live hacts => exact ⟨hacts.fixed.epoll, hacts.fixed.wakeup, hacts.fixed.listen, hacts.fixed.stop⟩
  | closed hacts => exact ⟨hacts.fixed.epoll, hacts.fixed.wakeup, hacts.fixed.listen, hacts.fixed.stop⟩
  | closedFile hacts => exact ⟨hacts.fixed.epoll, hacts.fixed.wakeup, hacts.fixed.listen, hacts.fixed.stop⟩
  | crashed hacts => exact ⟨hacts.fixed.epoll, hacts.fixed.wakeup, hacts.fixed.listen, hacts.fixed.stop⟩

theorem reactorAccept_fixed (accepts : List AcceptRes) (hcr : r.crashed = none) :
    Fixed r (reactorAccept r accepts) := by
  refine reactorAccept_rule (I := fun r₁ => Fixed r r₁) (fun r₁ a r₂ _ hacc h => ?_) accepts hcr
    ⟨rfl, rfl, rfl, rfl⟩
  cases hacc with
  | refused => exact ⟨h.epoll, h.wakeup, h.listen, h.stop⟩
  | welcomed => exact ⟨h.epoll, h.wakeup, h.listen, h.stop⟩

theorem Apart.rostered {os₀ : Os} (ha : Apart site c r r') (hsound : Sound os₀ r) (hrest : AtRest r)
    (hcr : r.crashed = none) (h : Rostered r) (hc : r.conns c.fd = some c) (hfixed : Fixed r r')
    (hself : ∀ i, r'.os.interest c.fd = some i → ∃ d, r'.conns c.fd = some d) : Rostered r' := by
  refine ⟨fun k i hint => ?_, fun k hk => ?_⟩
  · rw [hfixed.wakeup, hfixed.listen]
    rcases eq_or_ne k c.fd with rfl | hne
    · exact .inr (.inr (hself i hint))
    · have hold : r.os.interest k = some i := by
        rcases ha.still k hne with heq | hlost
        · exact heq.symm.trans hint
        · cases hlost.symm.trans hint
      rw [ha.conns k hne]
      exact h.known k i hold
  · rw [hfixed.wakeup, hfixed.listen] at hk
    obtain ⟨d, hget, hd, hint⟩ := h.own k hk
    have hne : k ≠ c.fd := (hsound.owns hcr _ c hc).1.ne_reserved hget hd
    have hsame := ha.sameAt hsound hrest hcr h hc hne hint
    exact ⟨d, (ha.conducted.sameOwned (by simp) k d hd).mpr hget, hd, hsame.2.trans hint⟩

theorem Apart.hangup (hown : Owns r.os c) (hans : Answered r.os c) :
    Apart site c r (connClose r c) where
  conducted := ⟨fun _ hP hos => hown.connClose_stable hans hP hos,
    fun i _ => congrFun (history_connClose r c) i⟩
  conns := fun _ hk => connClose_conns r c hk
  still := fun k _ => stillOrLost_connClose r c k
  enrolled := fun _ _ he => he.connClose c
  reserved := fun k hk => (reserved_robust k).connClose c hk

theorem Outcome.apart (h : Outcome site r c r' ref) (ht : Tenant site r.os c) :
    Apart site c r (r'.settle c.fd ref) := by
  have hcond := h.conducted ht
  have hos : (r'.settle c.fd ref).os = r'.os := by cases ref <;> rfl
  exact ⟨⟨fun P hP hos' => hos ▸ hcond.stable P hP hos', fun i hi => hos ▸ hcond.history i hi⟩,
    fun k hk => h.settle_of_ne hk, fun k hk => hos ▸ h.stillOrLost hk,
    fun k i he => hos ▸ h.enrolled he, fun k hk => hos ▸ h.robust (reserved_robust k) hk⟩

/-- After an event a connection is registered only if it is in the table. -/
theorem Outcome.listed (h : Outcome site r c r' ref) (hc : r.conns c.fd = some c) (i : Interest)
    (hint : (r'.settle c.fd ref).os.interest c.fd = some i) :
    ∃ d, (r'.settle c.fd ref).conns c.fd = some d := by
  cases ref with
  | live c' => exact ⟨c', Function.update_self ..⟩
  | crashed f => exact ⟨c, (congrFun (h.table_open (by simp)).1 c.fd).trans hc⟩
  | closed =>
      have hnone : r'.os.interest c.fd = none := by
        cases h with
        | @closed r₁ c₁ hacts =>
            rw [← hacts.confined.fd]
            exact interest_connClose_self r₁ c₁
        | closedFile hacts =>
            rw [← hacts.confined.fd]
            exact interest_connClose_self _ _
      cases hnone.symm.trans hint

/-- A step changes nothing at the descriptors of others. -/
theorem Step.sameAt {os₀ : Os} {e : Event} (hstep : Step site r e r') (hrest : AtRest r)
    (hcare : Careful site r e) (hfol : Followed site r) (hsound : Sound os₀ r) (h : Rostered r) :
    Rostered r' ∧ ∀ k i, k ≠ e.fd → r.os.interest k = some i → SameAt k r r' := by
  have hros : Rostered (r.begin e) := ⟨h.known, h.own⟩
  have hrest' : AtRest (r.begin e) :=
    ⟨hrest.orderly.begin e, ⟨hrest.numbered.lt, hrest.numbered.inj⟩⟩
  cases hstep with
  | idle => exact ⟨h, fun k i _ _ => ⟨rfl, rfl⟩⟩
  | woken => exact ⟨⟨h.known, h.own⟩, fun k i _ _ => ⟨rfl, rfl⟩⟩
  | ignored => exact ⟨hros, fun k i _ _ => ⟨rfl, rfl⟩⟩
  | accepted hcr hfd =>
      obtain ⟨hros', hsame⟩ := reactorAccept_sameAt (r := r.begin e) e.accepts hcr hrest'
        (hfol.begin e) (hsound.begin e) hros
      exact ⟨hros', fun k i _ hint => hsame k i hint⟩
  | @hangup c hgo hcr hc hfd hwait herr =>
      have hans : Answered r.os c := by
        by_contra hnot
        cases herr.symm.trans (hcare hgo hcr c hc hnot).1
      -- closing touches nothing but what the connection owns
      have ha : Apart site c (r.begin e) (connClose (r.begin e) c) :=
        .hangup ((hsound.begin e).owns hcr _ c hc).1 hans
      rw [← hfd] at hc ⊢
      refine ⟨ha.rostered (hsound.begin e) hrest' hcr hros hc ⟨rfl, rfl, rfl, rfl⟩ (fun i hint => ?_),
        fun k i hk hint => ha.sameAt (hsound.begin e) hrest' hcr hros hc hk hint⟩
      cases (interest_connClose_self (r.begin e) c).symm.trans hint
  | @handled c r' ref hgo hcr hc hfd hwait herr hin hout =>
      obtain ⟨hown, hbuf⟩ := hsound.owns hcr _ c hc
      have ht : Tenant site (r.begin e).os c :=
        ⟨(hfol.begin e).attuned hcr _ c hc, ((hsound.begin e).owns hcr _ c hc).2,
          ((hsound.begin e).owns hcr _ c hc).1, hcare.hope hgo hcr hc hfd hwait hin hown hbuf⟩
      rw [← hfd] at hc ⊢
      have ha := hout.apart ht
      exact ⟨ha.rostered (hsound.begin e) hrest' hcr hros hc (hout.fixed c.fd) (hout.listed hc),
        fun k i hk hint => ha.sameAt (hsound.begin e) hrest' hcr hros hc hk hint⟩

/-! ## Batches -/

/-- What is known of the reactor between two events. -/
structure Regular (site : Site) (os₀ : Os) (r : Reactor) : Prop where
  rest : AtRest r
  followed : Followed site r
  sound : Sound os₀ r
  rostered : Rostered r

theorem Regular.dispatch {os₀ : Os} (h : Regular site os₀ r) {e : Event}
    (hcare : Careful site r e) : Regular site os₀ (dispatch site r e) := by
  have hstep := dispatch_step site h.rest.orderly e
  exact ⟨dispatch_atRest site h.rest e, hstep.followed h.rest.numbered h.followed,
    hstep.sound h.rest hcare h.followed h.sound,
    (hstep.sameAt h.rest hcare h.followed h.sound h.rostered).1⟩

theorem reactorRun_over (site : Site) (h : r.stop ∨ r.crashed.isSome) (es : List Event) :
    reactorRun site r es = r := by
  induction es with
  | nil => rfl
  | cons e es ih =>
      have hidle : dispatch site r e = r := by rw [dispatch, if_pos h]
      rw [reactorRun, List.foldl_cons, hidle]
      exact ih

/-- The event `e` says what its descriptor is registered for. -/
def Current (r : Reactor) (e : Event) : Prop :=
  ∃ i, r.os.interest e.fd = some i ∧ e.evs.report i = e.evs

theorem Evs.report_idem (evs : Evs) (i : Interest) : (evs.report i).report i = evs.report i := by
  simp [Evs.report]

theorem epollWait_current {ready : List Event} {e : Event} (h : e ∈ r.epollWait ready) :
    Current r e := by
  obtain ⟨e₀, _, hsome⟩ := List.mem_filterMap.mp h
  cases hint : r.os.interest e₀.fd with
  | none => simp [hint] at hsome
  | some i =>
      simp only [hint, Option.ite_none_right_eq_some, Option.some.injEq] at hsome
      obtain ⟨_, rfl⟩ := hsome
      exact ⟨i, hint, e₀.evs.report_idem i⟩

/-- One descriptor is in a batch once. -/
theorem epollWait_nodup {ready : List Event} (h : (ready.map Event.fd).Nodup) :
    ((r.epollWait ready).map Event.fd).Nodup := by
  refine List.Nodup.sublist ?_ h
  induction ready with
  | nil => exact .slnil
  | cons e ready ih =>
      have ih := ih (List.nodup_cons.mp h).2
      rw [Reactor.epollWait, List.filterMap_cons]
      split
      · exact ih.cons _
      · rename_i e' hsome
        have hfd : e'.fd = e.fd := by
          cases hint : r.os.interest e.fd with
          | none => simp [hint] at hsome
          | some i =>
              simp only [hint, Option.ite_none_right_eq_some, Option.some.injEq] at hsome
              rw [← hsome.2]
        rw [List.map_cons, List.map_cons, hfd]
        exact ih.cons_cons _

/-- A current event is handled as it is when it comes alone. -/
theorem handleEvent_eq (site : Site) {e : Event} (hgo : r.stop = false) (hcr : r.crashed = none)
    (hcur : Current r e) (hw : e.fd ≠ r.wakeupFd) : handleEvent site r e = dispatch site r e := by
  obtain ⟨i, hint, hrep⟩ := hcur
  rw [dispatch, if_neg (by simp [hgo, hcr]), hint]
  simp only [if_neg hw, hrep]
  rfl

theorem handleEvent_fixed (site : Site) {e : Event} (h : Orderly r) (hcr : r.crashed = none)
    (hcur : Current r e) : Fixed r (handleEvent site r e) := by
  unfold handleEvent
  split
  · have hfixed := reactorAccept_fixed (r := r.begin e) e.accepts hcr
    exact ⟨hfixed.epoll, hfixed.wakeup, hfixed.listen, hfixed.stop⟩
  · cases hc : r.conns e.fd with
    | none => exact ⟨rfl, rfl, rfl, rfl⟩
    | some c =>
        obtain ⟨i, hint, hrep⟩ := hcur
        obtain ⟨hfd, hwait⟩ := h hcr e.fd c hc
        have hi : (r.begin e).os.interest c.fd = some i := by rw [hfd]; exact hint
        rw [← hrep]
        cases herr : e.evs.err with
        | true =>
            simp only [connEvent_err site _ c i herr]
            exact ⟨rfl, rfl, rfl, rfl⟩
        | false =>
            have hbegun : Waiting (r.begin e) c := hwait.of_stillOrLost (.inl rfl)
            have hfixed := (connEvent_outcome site hbegun hi herr).fixed e.fd
            exact ⟨hfixed.epoll, hfixed.wakeup, hfixed.listen, hfixed.stop⟩

/-- The events of a batch do what they do one by one. -/
theorem handleBatch_eq {os₀ : Os} (es : List Event) (h : Regular site os₀ r) (hgo : r.stop = false)
    (hnodup : (es.map Event.fd).Nodup) (hcur : ∀ e ∈ es, Current r e)
    (hcare : Along site (Careful site) r es) : handleBatch site r es = reactorRun site r es := by
  induction es generalizing r with
  | nil => rfl
  | cons e es ih =>
      rw [handleBatch]
      split
      · rename_i hcr
        exact (reactorRun_over site (.inr hcr) _).symm
      · rename_i hcr
        have hcr : r.crashed = none := by simpa using hcr
        have hcure := hcur e List.mem_cons_self
        rw [reactorRun, List.foldl_cons]
        split
        · rename_i hw
          obtain ⟨i, hint, _⟩ := hcure
          -- the loop stops here, and the events behind this one are dropped
          have hwoken : dispatch site r e = { r.begin e with stop := true } := by
            rw [dispatch, if_neg (by simp [hgo, hcr]), hint]
            simp only [if_pos hw]
            rfl
          rw [hwoken]
          exact (reactorRun_over site (.inl rfl) es).symm
        · rename_i hw
          obtain ⟨hnew, hrest⟩ := List.nodup_cons.mp hnodup
          have hstep := dispatch_step site h.rest.orderly e
          have hsame := (hstep.sameAt h.rest hcare.1 h.followed h.sound h.rostered).2
          have hfixed := handleEvent_fixed site h.rest.orderly hcr hcure
          have heq := handleEvent_eq site hgo hcr hcure hw
          rw [heq] at hfixed ⊢
          refine ih (h.dispatch hcare.1) (hfixed.stop.trans hgo) hrest (fun e' he' => ?_) hcare.2
          obtain ⟨i, hint, hrep⟩ := hcur e' (List.mem_cons_of_mem e he')
          -- `epoll_wait` reports a descriptor once, so the others are still current
          have hne : e'.fd ≠ e.fd := by
            intro heq
            exact hnew (heq ▸ List.mem_map_of_mem he')
          exact ⟨i, (hsame _ i hne hint).2.trans hint, hrep⟩

/-! ## The loop -/

theorem reactorCreate_rostered (inherited : List Nat) : Rostered (reactorCreate inherited) := by
  -- three descriptors that were free, one after the other
  let os₀ := bootOs inherited
  let os₁ := (os₀.alloc 0 none .other).2
  let os₂ := (os₁.alloc 0 none .other).2
  have hne : os₁.fds.pick 0 ≠ os₂.fds.pick 0 := by
    intro heq
    have hfree := os₂.fds.pick_free 0
    rw [← heq] at hfree
    cases hfree.symm.trans (FdTable.get_insert_self ..)
  refine ⟨fun k i hint => ?_, fun k hk => ?_⟩
  · rcases eq_or_ne k (os₂.fds.pick 0) with hk | hk
    · exact .inr (.inl hk)
    · rcases eq_or_ne k (os₁.fds.pick 0) with hk' | hk'
      · exact .inl hk'
      · have hnone : (reactorCreate inherited).os.interest k = none :=
          (Function.update_of_ne hk ..).trans (Function.update_of_ne hk' ..)
        cases hnone.symm.trans hint
  · rcases hk with rfl | rfl
    · refine ⟨_, (FdTable.get_insert_of_ne _ _ hne).trans (FdTable.get_insert_self ..), rfl, ?_⟩
      exact (Function.update_of_ne hne ..).trans (Function.update_self ..)
    · exact ⟨_, FdTable.get_insert_self .., rfl, Function.update_self ..⟩

theorem reactorCreate_regular (site : Site) (inherited : List Nat) :
    Regular site (reactorCreate inherited).os (reactorCreate inherited) :=
  ⟨reactorCreate_atRest inherited, reactorCreate_followed site inherited,
    reactorCreate_sound inherited, reactorCreate_rostered inherited⟩

theorem Regular.run {os₀ : Os} (h : Regular site os₀ r) (es : List Event)
    (hcare : Along site (Careful site) r es) : Regular site os₀ (reactorRun site r es) := by
  induction es generalizing r with
  | nil => exact h
  | cons e es ih => exact ih (h.dispatch hcare.1) hcare.2

/-- Events of others change nothing at a descriptor. -/
theorem Regular.sameAt_run {os₀ : Os} (h : Regular site os₀ r) (es : List Event)
    (hcare : Along site (Careful site) r es) {k : Nat} {i : Interest} (hk : k ∉ es.map Event.fd)
    (hint : r.os.interest k = some i) : SameAt k r (reactorRun site r es) := by
  induction es generalizing r with
  | nil => exact ⟨rfl, rfl⟩
  | cons e es ih =>
      rw [List.map_cons, List.mem_cons, not_or] at hk
      obtain ⟨hne, hk⟩ := hk
      have hstep := dispatch_step site h.rest.orderly e
      have hsame := (hstep.sameAt h.rest hcare.1 h.followed h.sound h.rostered).2 k i hne hint
      have hlast := ih (h.dispatch hcare.1) hcare.2 hk (hsame.2.trans hint)
      exact ⟨hlast.1.trans hsame.1, hlast.2.trans hsame.2⟩

theorem along_append {G : Reactor → Event → Prop} (es es' : List Event) :
    Along site G r (es ++ es') ↔ Along site G r es ∧ Along site G (reactorRun site r es) es' := by
  induction es generalizing r with
  | nil => simp [Along, reactorRun]
  | cons e es ih =>
      rw [List.cons_append, Along, Along, ih, and_assoc]
      rfl

/-- When an event of the batch has its turn its descriptor is registered as it was when
`epoll_wait` returned, and belongs to the same connection. -/
def Timely (site : Site) (r : Reactor) (batch : List Event) : Prop :=
  ∀ before e after, batch = before ++ e :: after → SameAt e.fd r (handleBatch site r before)

theorem Regular.timely {os₀ : Os} (h : Regular site os₀ r) (hgo : r.stop = false)
    (batch : List Event) (hnodup : (batch.map Event.fd).Nodup) (hcur : ∀ e ∈ batch, Current r e)
    (hcare : Along site (Careful site) r batch) : Timely site r batch := by
  rintro before e after rfl
  rw [List.map_append, List.map_cons] at hnodup
  have hnotin : e.fd ∉ before.map Event.fd := by
    intro hmem
    exact (List.nodup_append.mp hnodup).2.2 _ hmem _ List.mem_cons_self rfl
  have hcare' := ((along_append ..).mp hcare).1
  obtain ⟨i, hint, _⟩ := hcur e (by simp)
  rw [handleBatch_eq before h hgo (List.nodup_append.mp hnodup).1
    (fun e' he' => hcur e' (List.mem_append_left _ he')) hcare']
  exact h.sameAt_run before hcare' hnotin hint

/-- A batch that `epoll_wait` has returned. -/
theorem Regular.batch {os₀ : Os} (h : Regular site os₀ r) (hgo : r.stop = false) {ready : List Event}
    (hnodup : (ready.map Event.fd).Nodup)
    (hcare : Along site (Careful site) r (r.epollWait ready)) :
    handleBatch site r (r.epollWait ready) = reactorRun site r (r.epollWait ready) ∧
      Timely site r (r.epollWait ready) := by
  have hnodup' := epollWait_nodup (r := r) hnodup
  exact ⟨handleBatch_eq _ h hgo hnodup' (fun _ => epollWait_current) hcare,
    h.timely hgo _ hnodup' (fun _ => epollWait_current) hcare⟩

theorem Regular.loop {os₀ : Os} (h : Regular site os₀ r) (batches : List (List Event))
    (hnodup : ∀ ready ∈ batches, (ready.map Event.fd).Nodup)
    (hcare : Along site (Careful site) r (loopEvents site r batches)) :
    reactorLoop site r batches = reactorRun site r (loopEvents site r batches) ∧
      ∀ before ready after, batches = before ++ ready :: after →
        (reactorLoop site r before).stop = false → (reactorLoop site r before).crashed = none →
        Timely site (reactorLoop site r before)
          ((reactorLoop site r before).epollWait ready) := by
  induction batches generalizing r with
  | nil => exact ⟨rfl, fun before ready after heq => by simp at heq⟩
  | cons ready rest ih =>
      rw [reactorLoop, loopEvents]
      by_cases hover : r.stop ∨ r.crashed.isSome
      · refine ⟨by rw [if_pos hover, if_pos hover]; rfl, fun before ready' after heq hgo hcr => ?_⟩
        have hsame : reactorLoop site r before = r := by
          cases before with
          | nil => rfl
          | cons => rw [reactorLoop, if_pos hover]
        rw [hsame] at hgo hcr
        simp [hgo, hcr] at hover
      · rw [loopEvents, if_neg hover] at hcare
        rw [if_neg hover, if_neg hover]
        have hgo : r.stop = false := by
          cases hstop : r.stop with
          | false => rfl
          | true => exact absurd (.inl hstop) hover
        obtain ⟨hcare₁, hcare₂⟩ := (along_append ..).mp hcare
        -- the first batch does what its events do one at a time, and leaves a regular reactor
        obtain ⟨heq, htimely⟩ := h.batch hgo (hnodup ready List.mem_cons_self) hcare₁
        rw [heq] at hcare₂ ⊢
        obtain ⟨hrun, hlater⟩ := ih (h.run _ hcare₁)
          (fun ready' hmem => hnodup ready' (List.mem_cons_of_mem ready hmem)) hcare₂
        refine ⟨?_, fun before ready' after hsplit hgo' hcr' => ?_⟩
        · rw [hrun, reactorRun, reactorRun, reactorRun, List.foldl_append]
        · cases before with
          | nil =>
              cases hsplit
              exact htimely
          | cons first before =>
              cases hsplit
              rw [reactorLoop, if_neg hover, heq] at hgo' hcr' ⊢
              exact hlater before ready' after rfl hgo' hcr'

/-- **No event is stale.** As long as no connection is closed before its first response is set up,
the loop over batches does what the events do one by one: whatever has happened since `epoll_wait`
returned, an event finds its descriptor registered as it was and in the hands of the same
connection. -/
theorem reactorLoop_eq (site : Site) (inherited : List Nat) (batches : List (List Event))
    (hnodup : ∀ ready ∈ batches, (ready.map Event.fd).Nodup)
    (hcare : Along site (Careful site) (reactorCreate inherited)
      (loopEvents site (reactorCreate inherited) batches)) :
    reactorLoop site (reactorCreate inherited) batches =
        reactorRun site (reactorCreate inherited)
          (loopEvents site (reactorCreate inherited) batches) ∧
      ∀ before ready after, batches = before ++ ready :: after →
        (reactorLoop site (reactorCreate inherited) before).stop = false →
        (reactorLoop site (reactorCreate inherited) before).crashed = none →
        Timely site (reactorLoop site (reactorCreate inherited) before)
          ((reactorLoop site (reactorCreate inherited) before).epollWait ready) :=
  (reactorCreate_regular site inherited).loop batches hnodup hcare

/-! Two connections that are ready at once. The first is closed, and its descriptor is given to a
third before the second has its turn. -/

def readyEvents : List (List Event) :=
  [[⟨5, ⟨true, false, false⟩, ⟨[], [], [], []⟩,
      [⟨6, ascii "GET /q a\n\n", true⟩, ⟨7, ascii "GET /q a\n\n", true⟩]⟩],
    [⟨6, ⟨true, true, false⟩, ⟨[.bytes 99], [.bytes 999], [], []⟩, []⟩,
      ⟨5, ⟨true, false, false⟩, ⟨[], [], [], []⟩, [⟨6, [], true⟩]⟩,
      ⟨7, ⟨true, false, false⟩, ⟨[.bytes 3], [], [], []⟩, []⟩],
    [⟨4, ⟨true, false, false⟩, ⟨[], [], [], []⟩, []⟩,
      ⟨7, ⟨true, false, false⟩, ⟨[.bytes 99], [], [], []⟩, []⟩]]

theorem reactorLoop_eq_ready :
    reactorLoop pageSite (reactorCreate [0, 1, 2]) readyEvents =
        reactorRun pageSite (reactorCreate [0, 1, 2])
          (loopEvents pageSite (reactorCreate [0, 1, 2]) readyEvents) ∧
      (loopEvents pageSite (reactorCreate [0, 1, 2]) readyEvents).map Event.fd =
        [5, 6, 5, 7, 4, 7] ∧
      (reactorLoop pageSite (reactorCreate [0, 1, 2]) readyEvents).stop = true ∧
      (reactorLoop pageSite (reactorCreate [0, 1, 2]) readyEvents).os.received 5 =
        ascii "GET" := by
  have hevents : loopEvents pageSite (reactorCreate [0, 1, 2]) readyEvents =
      [⟨5, ⟨true, false, false⟩, ⟨[], [], [], []⟩,
          [⟨6, ascii "GET /q a\n\n", true⟩, ⟨7, ascii "GET /q a\n\n", true⟩]⟩,
        ⟨6, ⟨true, false, false⟩, ⟨[.bytes 99], [.bytes 999], [], []⟩, []⟩,
        ⟨5, ⟨true, false, false⟩, ⟨[], [], [], []⟩, [⟨6, [], true⟩]⟩,
        ⟨7, ⟨true, false, false⟩, ⟨[.bytes 3], [], [], []⟩, []⟩,
        ⟨4, ⟨true, false, false⟩, ⟨[], [], [], []⟩, []⟩,
        ⟨7, ⟨true, false, false⟩, ⟨[.bytes 99], [], [], []⟩, []⟩] := by
    decide +kernel
  have hcare : Along pageSite (Careful pageSite) (reactorCreate [0, 1, 2])
      (loopEvents pageSite (reactorCreate [0, 1, 2]) readyEvents) := by
    rw [hevents]
    refine ⟨?_, ?_, ?_, ?_, ?_, ?_, trivial⟩
    · decide +kernel
    · decide +kernel
    · decide +kernel
    · decide +kernel
    · decide +kernel
    · decide +kernel
  have hloop := reactorLoop_eq pageSite [0, 1, 2] readyEvents (by decide) hcare
  refine ⟨hloop.1, by rw [hevents]; rfl, ?_, ?_⟩
  · decide +kernel
  · decide +kernel

end HttpServer
