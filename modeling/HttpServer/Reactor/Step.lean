import HttpServer.Reactor.Handler

set_option autoImplicit false

/-! # Steps and runs of the reactor

`Step` lists what the handling of one event can be; `dispatch_step` shows that there is nothing
else as long as every connection waits for its next event, and `dispatch_orderly` that this stays
so. An invariant of all runs is shown for the steps (`reactorRun_rule`).

Steps are about one connection each, so what has to be said of the others is that they are left
alone: their registration stays as it is or is lost (`StillOrLost`), which happens when another
connection closes their descriptor by mistake. Connections are told apart by a serial number that
only grows (`Numbered`), so that a descriptor number used again is not mistaken for its last
owner. A condition on a run may speak of the state each event finds (`Along`).
-/

namespace HttpServer

open CLib

variable {site : Site} {r r' : Reactor} {c c' : Conn} {ref : ConnRef}

/-! ## Registrations -/

/-- From `r` to `r'` the registration of `k` stays as it is or is lost. -/
def StillOrLost (os os' : Os) (k : Nat) : Prop :=
  os'.interest k = os.interest k ∨ os'.interest k = none

theorem StillOrLost.trans {os os₁ os₂ : Os} {k : Nat} (h₁ : StillOrLost os os₁ k)
    (h₂ : StillOrLost os₁ os₂ k) : StillOrLost os os₂ k := by
  rcases h₂ with h₂ | h₂
  · rcases h₁ with h₁ | h₁
    · exact .inl (h₂.trans h₁)
    · exact .inr (h₂.trans h₁)
  · exact .inr h₂

theorem stillOrLost_close (os : Os) (by_ : Option Nat) (fd k : Nat) :
    StillOrLost os (os.close by_ fd) k := by
  rcases eq_or_ne k fd with rfl | hne
  · exact .inr (Function.update_self ..)
  · exact .inl (Function.update_of_ne hne ..)

theorem stillOrLost_closeFile (os : Os) (c : Conn) (k : Nat) :
    StillOrLost os (closeFile os c) k := by
  unfold closeFile
  split
  · exact stillOrLost_close ..
  · exact .inl rfl

theorem interest_openFile (site : Site) (os : Os) (cid : Nat) (path : List UInt8) :
    (os.openFile site cid path).2.interest = os.interest := by
  unfold Os.openFile
  simp only
  split
  · rfl
  · rfl

theorem Mallocs.interest {os os' : Os} (h : Mallocs os os') : os'.interest = os.interest := by
  obtain ⟨_, _, rfl⟩ := h
  rfl

theorem Built.stillOrLost {os os' : Os} (h : Built site os c os' c') (k : Nat) :
    StillOrLost os os' k := by
  have hopened := interest_openFile site os c.cid (c.req.pathname site)
  cases h with
  | plain _ hm _ => exact .inl (congrFun hm.interest k)
  | unopened _ hopen hm _ =>
      rw [hopen] at hopened
      exact .inl (congrFun (hm.interest.trans hopened) k)
  | @aborted os₁ os₂ _ _ j _ hopen hfail hm _ =>
      have hm₁ := Mallocs.of_malloc hfail
      rw [hopen] at hopened
      have hclose := stillOrLost_close os₂ (some c.cid) j k
      rw [StillOrLost, ← hm.interest, hm₁.interest, hopened] at hclose
      exact hclose
  | @headOnly os₁ os₂ j _ _ hopen hm =>
      rw [hopen] at hopened
      have hclose := stillOrLost_close os₂ (some c.cid) j k
      rw [StillOrLost, hm.interest, hopened] at hclose
      exact hclose
  | withFile _ hopen hm =>
      rw [hopen] at hopened
      exact .inl (congrFun (hm.interest.trans hopened) k)

theorem stillOrLost_modEvents (r : Reactor) (c : Conn) (i : Interest) {k : Nat} (hk : k ≠ c.fd) :
    StillOrLost r.os (modEvents r c i).os k := by
  unfold modEvents Os.epollMod
  simp only
  split
  · exact .inl (Function.update_of_ne hk ..)
  · exact .inl rfl

/-- An action leaves the registrations of the other connections alone, or loses them. -/
theorem Action.stillOrLost (h : Action site (r, c) (r', c')) {k : Nat} (hk : k ≠ c.fd) :
    StillOrLost r.os r'.os k := by
  cases h with
  | receive => exact .inl (by rw [consume_eq]; rfl)
  | request hs hget hfeed hbuild => exact (buildResponse_built site hbuild).stillOrLost k
  | reject hs hget hfeed hbuild =>
      exact .inl (congrFun (buildErrorResponse_plain hbuild).1.interest k)
  | bodySent => exact stillOrLost_closeFile _ _ k
  | park => exact stillOrLost_modEvents _ _ _ hk
  | listen => exact stillOrLost_modEvents _ _ _ hk
  | _ => exact .inl rfl

theorem Actions.stillOrLost (h : Actions site (r, c) (r', c')) {k : Nat} (hk : k ≠ c.fd) :
    StillOrLost r.os r'.os k := by
  refine (Actions.rule (I := fun r' c' => StillOrLost r.os r'.os k ∧ c'.fd = c.fd) ?_ h
    ⟨.inl rfl, rfl⟩).1
  intro r₁ c₁ r₂ c₂ hact hI
  have hk' : k ≠ c₁.fd := by rw [hI.2]; exact hk
  exact ⟨hI.1.trans (hact.stillOrLost hk'), hact.confined.fd.trans hI.2⟩

theorem stillOrLost_connClose (r : Reactor) (c : Conn) (k : Nat) :
    StillOrLost r.os (connClose r c).os k := by
  have hdel : StillOrLost r.os (r.os.epollDel c.fd) k := by
    rcases eq_or_ne k c.fd with rfl | hne
    · exact .inr (Function.update_self ..)
    · exact .inl (Function.update_of_ne hne ..)
  exact hdel.trans ((stillOrLost_close _ _ _ k).trans (stillOrLost_closeFile _ _ k))

theorem Outcome.stillOrLost (h : Outcome site r c r' ref) {k : Nat} (hk : k ≠ c.fd) :
    StillOrLost r.os r'.os k := by
  cases h with
  | live hacts => exact hacts.stillOrLost hk
  | crashed hacts => exact hacts.stillOrLost hk
  | closed hacts => exact (hacts.stillOrLost hk).trans (stillOrLost_connClose _ _ k)
  | closedFile hacts =>
      exact (hacts.stillOrLost hk).trans ((stillOrLost_closeFile _ _ k).trans
        (stillOrLost_connClose _ _ k))

/-! ## Order -/

/-- Every connection is filed under its descriptor and waits for its next event. -/
def Orderly (r : Reactor) : Prop :=
  r.crashed = none → ∀ fd c, r.conns fd = some c → c.fd = fd ∧ Waiting r c

theorem Waiting.of_stillOrLost (h : Waiting r c) (hint : StillOrLost r.os r'.os c.fd) :
    Waiting r' c := by
  cases h with
  | input hs hin hoff hi =>
      refine .input hs hin hoff ?_
      rcases hint with hint | hint
      · rw [hint]; exact hi
      · exact .inr hint
  | output hs hin hleft hi =>
      refine .output hs hin hleft ?_
      rcases hint with hint | hint
      · rw [hint]; exact hi
      · exact .inr hint

/-- The reactor as it starts on an event. -/
def Reactor.begin (r : Reactor) (e : Event) : Reactor :=
  { r with os := { r.os with sched := e.sched } }

/-- What the handling of an event can be. -/
inductive Step (site : Site) (r : Reactor) (e : Event) : Reactor → Prop
  | idle : Step site r e r
  | woken : Step site r e { r with os := (r.begin e).os, stop := true }
  | accepted (hcr : r.crashed = none) (hfd : e.fd = r.listenFd) :
      Step site r e (reactorAccept (r.begin e) e.accepts)
  | ignored : Step site r e (r.begin e)
  | hangup {c : Conn} (hgo : r.stop = false) (hcr : r.crashed = none)
      (hc : r.conns e.fd = some c) (hfd : c.fd = e.fd) (hwait : Waiting r c)
      (herr : e.evs.err = true) :
      Step site r e (connClose (r.begin e) c)
  | handled {c : Conn} {r' : Reactor} {ref : ConnRef} (hgo : r.stop = false)
      (hcr : r.crashed = none) (hc : r.conns e.fd = some c) (hfd : c.fd = e.fd)
      (hwait : Waiting r c) (herr : e.evs.err = false)
      (hin : c.state = .reading → e.evs.input = true)
      (hout : Outcome site (r.begin e) c r' ref) :
      Step site r e (r'.settle e.fd ref)

/-- A connection that waits for input is left alone as long as there is none. -/
theorem connEvent_idle (site : Site) (hwait : Waiting r c) (hs : c.state = .reading) {i : Interest}
    (hi : r.os.interest c.fd = some i) {evs : Evs} (herr : evs.err = false)
    (hin : evs.input = false) : connEvent site r c (evs.report i) = (r, .live c) := by
  rcases hwait.registered hi with ⟨rfl, _⟩ | ⟨rfl, hs', _⟩
  · simp [connEvent, Evs.report, herr, hin]
  · cases hs.symm.trans hs'

theorem dispatch_step (site : Site) (h : Orderly r) (e : Event) :
    Step site r e (dispatch site r e) := by
  unfold dispatch
  split
  · exact .idle
  · rename_i hgo
    obtain ⟨hstop, hcr⟩ : r.stop = false ∧ r.crashed = none := by
      simpa [not_or, Option.isSome_iff_ne_none] using hgo
    cases hint : r.os.interest e.fd with
    | none => exact .idle
    | some i =>
        simp only
        split
        · exact .woken
        · split
          · rename_i hfd
            exact .accepted hcr hfd
          · cases hc : r.conns e.fd with
            | none => exact .ignored
            | some c =>
                -- a connection in the table waits, so its handler has an outcome
                obtain ⟨hfd, hwait⟩ := h hcr e.fd c hc
                have hi : (r.begin e).os.interest c.fd = some i := by rw [hfd]; exact hint
                have hwait' : Waiting (r.begin e) c := hwait.of_stillOrLost (.inl rfl)
                change Step site r e ((connEvent site (r.begin e) c (e.evs.report i)).1.settle
                  e.fd (connEvent site (r.begin e) c (e.evs.report i)).2)
                cases herr : e.evs.err with
                | true =>
                    rw [connEvent_err site _ c i herr]
                    exact .hangup hstop hcr hc hfd hwait herr
                | false =>
                    by_cases hidle : c.state = .reading ∧ e.evs.input = false
                    -- a connection that reads was told of something else than input
                    · rw [connEvent_idle site hwait' hidle.1 hi herr hidle.2]
                      have hconns : Function.update r.conns e.fd (some c) = r.conns := by
                        rw [← hc]
                        exact Function.update_eq_self ..
                      have hsame : (r.begin e).settle e.fd (.live c) = r.begin e := by
                        simp only [Reactor.settle, Reactor.begin, hconns]
                      rw [hsame]
                      exact .ignored
                    · exact .handled hstop hcr hc hfd hwait herr
                        (fun hs => by simpa [hs] using hidle)
                        (connEvent_outcome site hwait' hi herr)

/-! ## Accepting -/

/-- The system right after `accept` has returned. -/
def Reactor.acceptedOs (r : Reactor) (a : AcceptRes) : Os :=
  (r.os.alloc a.hint (some r.os.serial) (.socket a.incoming)).2.log
    (.accepted r.os.serial (r.os.fds.pick a.hint))

/-- What a turn of `reactor_accept` can do: close the socket at once, or set up a connection. -/
inductive Accepted (r : Reactor) (a : AcceptRes) : Reactor → Prop
  | refused : Accepted r a { r with os := (r.acceptedOs a).close none (r.os.fds.pick a.hint) }
  | welcomed (hbelow : r.os.fds.pick a.hint < connMax) :
      Accepted r a { r with
        os := (r.acceptedOs a).epollAdd (r.os.fds.pick a.hint) .input
        conns := Function.update r.conns (r.os.fds.pick a.hint)
          (some (Conn.calloc (r.os.fds.pick a.hint) r.os.serial))
        activeConns := r.activeConns + 1 }

theorem acceptOne_accepted (r : Reactor) (a : AcceptRes) : Accepted r a (acceptOne r a) := by
  unfold acceptOne Os.alloc
  simp only
  split
  · exact .refused
  · rename_i hbelow
    split
    · exact .refused
    · exact .welcomed (Nat.lt_of_not_le hbelow)

theorem Accepted.crashed {a : AcceptRes} (h : Accepted r a r') : r'.crashed = r.crashed := by
  cases h with
  | refused => rfl
  | welcomed => rfl

/-- What every `accept` keeps, the loop keeps. -/
theorem reactorAccept_rule {I : Reactor → Prop}
    (hstep : ∀ r a r', r.crashed = none → Accepted r a r' → I r → I r') (accepts : List AcceptRes)
    (hcr : r.crashed = none) (hI : I r) : I (reactorAccept r accepts) := by
  induction accepts generalizing r with
  | nil => exact hI
  | cons a rest ih =>
      have hacc := acceptOne_accepted r a
      exact ih (hacc.crashed.trans hcr) (hstep r a _ hcr hacc hI)

/-! ## Keeping order -/

theorem Orderly.others (h : Orderly r) (hcr : r.crashed = none) {fd : Nat}
    (hconns : ∀ k, k ≠ fd → r'.conns k = r.conns k)
    (hint : ∀ k, k ≠ fd → StillOrLost r.os r'.os k)
    (hself : ∀ c, r'.conns fd = some c → c.fd = fd ∧ Waiting r' c) : Orderly r' := by
  intro _ k c hc
  rcases eq_or_ne k fd with rfl | hne
  · exact hself c hc
  · rw [hconns k hne] at hc
    obtain ⟨hfd, hwait⟩ := h hcr k c hc
    exact ⟨hfd, hwait.of_stillOrLost (by rw [hfd]; exact hint k hne)⟩

theorem Accepted.orderly {a : AcceptRes} (hacc : Accepted r a r') (hcr : r.crashed = none)
    (h : Orderly r) : Orderly r' := by
  cases hacc with
  | refused =>
      intro _ k c hc
      obtain ⟨hfd, hwait⟩ := h hcr k c hc
      exact ⟨hfd, hwait.of_stillOrLost (stillOrLost_close (r.acceptedOs a) none _ c.fd)⟩
  | welcomed =>
      refine h.others hcr (fun k hk => Function.update_of_ne hk ..)
        (fun k hk => .inl (Function.update_of_ne hk ..)) (fun c hc => ?_)
      simp only [Function.update_self, Option.some.injEq] at hc
      subst hc
      exact ⟨rfl, .input rfl rfl rfl (.inl (Function.update_self ..))⟩

theorem Orderly.begin (h : Orderly r) (e : Event) : Orderly (r.begin e) := by
  intro hcr fd c hc
  obtain ⟨hfd, hwait⟩ := h hcr fd c hc
  exact ⟨hfd, hwait.of_stillOrLost (.inl rfl)⟩

theorem settle_orderly (h : Orderly r) (hcr : r.crashed = none) (hout : Outcome site r c r' ref) :
    Orderly (r'.settle c.fd ref) := by
  cases ref with
  | live c' =>
      cases hout with
      | live hacts hwait =>
          refine h.others hcr (fun k hk => ?_) (fun k hk => hacts.stillOrLost hk) ?_
          · rw [Reactor.settle, hacts.confined.reactor]
            exact Function.update_of_ne hk ..
          · intro c₁ hc₁
            simp only [Reactor.settle, Function.update_self, Option.some.injEq] at hc₁
            subst hc₁
            exact ⟨hacts.confined.fd, hwait.of_stillOrLost (.inl rfl)⟩
  | crashed f => intro hcr'; cases hcr'
  | closed =>
      refine h.others hcr (fun k hk => hout.others hk) (fun k hk => hout.stillOrLost hk) ?_
      intro c' hc'
      rw [Reactor.settle, hout.gone] at hc'
      cases hc'

theorem dispatch_orderly (site : Site) (h : Orderly r) (e : Event) :
    Orderly (dispatch site r e) := by
  have hstep := dispatch_step site h e
  generalize dispatch site r e = r' at hstep ⊢
  cases hstep with
  | idle => exact h
  | woken =>
      intro hcr fd c hc
      obtain ⟨hfd, hwait⟩ := h.begin e hcr fd c hc
      exact ⟨hfd, hwait.of_stillOrLost (.inl rfl)⟩
  | accepted hcr =>
      exact reactorAccept_rule (fun _ _ _ hcr' hacc hI => hacc.orderly hcr' hI) e.accepts hcr
        (h.begin e)
  | ignored => exact h.begin e
  | hangup _ hcr hc hfd =>
      refine (h.begin e).others hcr (fun k (hk : k ≠ e.fd) => ?_)
        (fun k _ => stillOrLost_connClose _ _ k) (fun c' hc' => ?_)
      · exact connClose_conns _ _ (by rw [hfd]; exact hk)
      · rw [← hfd, connClose_gone] at hc'
        cases hc'
  | handled _ hcr hc hfd _ _ _ hout =>
      rw [← hfd]
      exact settle_orderly (h.begin e) hcr hout

/-! ## Numbers -/

theorem serial_openFile (site : Site) (os : Os) (cid : Nat) (path : List UInt8) :
    os.serial ≤ (os.openFile site cid path).2.serial := by
  unfold Os.openFile
  simp only
  split
  · exact Nat.le_succ _
  · exact Nat.le_refl _

theorem Mallocs.serial {os os' : Os} (h : Mallocs os os') : os'.serial = os.serial := by
  obtain ⟨_, _, rfl⟩ := h
  rfl

theorem Built.serial_le {os os' : Os} (h : Built site os c os' c') : os.serial ≤ os'.serial := by
  have hopened := serial_openFile site os c.cid (c.req.pathname site)
  cases h with
  | plain _ hm _ => exact hm.serial.ge
  | unopened _ hopen hm _ => rw [hopen] at hopened; exact hopened.trans hm.serial.ge
  | aborted _ hopen hfail hm _ =>
      have hm₁ := Mallocs.of_malloc hfail
      rw [hopen] at hopened
      calc os.serial
          ≤ _ := hopened
        _ = _ := hm₁.serial.symm
        _ = os'.serial := hm.serial.symm
  | headOnly _ hopen hm => rw [hopen] at hopened; exact hopened.trans hm.serial.ge
  | withFile _ hopen hm => rw [hopen] at hopened; exact hopened.trans hm.serial.ge

theorem serial_closeFile (os : Os) (c : Conn) : (closeFile os c).serial = os.serial := by
  unfold closeFile
  split
  · rfl
  · rfl

theorem serial_modEvents (r : Reactor) (c : Conn) (i : Interest) :
    (modEvents r c i).os.serial = r.os.serial := by
  unfold modEvents Os.epollMod
  simp only
  split
  · rfl
  · rfl

theorem Action.serial_le (h : Action site (r, c) (r', c')) : r.os.serial ≤ r'.os.serial := by
  cases h with
  | receive => rw [consume_eq]; exact Nat.le_refl _
  | request hs hget hfeed hbuild => exact (buildResponse_built site hbuild).serial_le
  | reject hs hget hfeed hbuild => exact (buildErrorResponse_plain hbuild).1.serial.ge
  | bodySent => exact (serial_closeFile ..).ge
  | park => exact (serial_modEvents ..).ge
  | listen => exact (serial_modEvents ..).ge
  | _ => exact Nat.le_refl _

theorem Actions.serial_le (h : Actions site (r, c) (r', c')) : r.os.serial ≤ r'.os.serial :=
  Actions.rule (I := fun r' _ => r.os.serial ≤ r'.os.serial)
    (fun _ _ _ _ hact hle => hle.trans hact.serial_le) h (Nat.le_refl _)

theorem serial_connClose (r : Reactor) (c : Conn) : (connClose r c).os.serial = r.os.serial := by
  rw [connClose]
  simp only [serial_closeFile]
  rfl

theorem Outcome.serial_le (h : Outcome site r c r' ref) : r.os.serial ≤ r'.os.serial := by
  cases h with
  | live hacts => exact hacts.serial_le
  | crashed hacts => exact hacts.serial_le
  | closed hacts => rw [serial_connClose]; exact hacts.serial_le
  | closedFile hacts => rw [serial_connClose, serial_closeFile]; exact hacts.serial_le

/-- No two connections have the same number, and the next one is new. -/
structure Numbered (r : Reactor) : Prop where
  lt : ∀ fd c, r.conns fd = some c → c.cid < r.os.serial
  inj : ∀ fd fd' c c', r.conns fd = some c → r.conns fd' = some c' → c.cid = c'.cid → fd = fd'

theorem Outcome.settle_of_ne (h : Outcome site r c r' ref) {k : Nat} (hk : k ≠ c.fd) :
    (r'.settle c.fd ref).conns k = r.conns k := by
  rw [← h.others hk]
  cases ref with
  | live c' => exact Function.update_of_ne hk ..
  | closed => rfl
  | crashed f => rfl

/-- The connections after an event are among those before it. -/
theorem Outcome.settle_conns (h : Outcome site r c r' ref) (hc : r.conns c.fd = some c)
    {k : Nat} {d : Conn} (hd : (r'.settle c.fd ref).conns k = some d) :
    ∃ d₀, r.conns k = some d₀ ∧ d.cid = d₀.cid := by
  rcases eq_or_ne k c.fd with rfl | hne
  · refine ⟨c, hc, ?_⟩
    cases ref with
    | live c' =>
        cases h with
        | live hacts =>
            simp only [Reactor.settle, Function.update_self, Option.some.injEq] at hd
            rw [← hd]
            exact hacts.confined.cid
    | closed =>
        rw [Reactor.settle, h.gone] at hd
        cases hd
    | crashed f =>
        cases h with
        | crashed hacts =>
            rw [Reactor.settle, hacts.confined.reactor] at hd
            cases hc.symm.trans hd
            rfl
  · rw [h.settle_of_ne hne] at hd
    exact ⟨d, hd, rfl⟩

theorem Numbered.of_conns (h : Numbered r) (hle : r.os.serial ≤ r'.os.serial)
    (hconns : ∀ k d, r'.conns k = some d → ∃ d₀, r.conns k = some d₀ ∧ d.cid = d₀.cid) :
    Numbered r' := by
  refine ⟨fun k d hd => ?_, fun k k' d d' hd hd' heq => ?_⟩
  · obtain ⟨d₀, hd₀, hcid⟩ := hconns k d hd
    rw [hcid]
    exact (h.lt k d₀ hd₀).trans_le hle
  · obtain ⟨d₀, hd₀, hcid⟩ := hconns k d hd
    obtain ⟨d₁, hd₁, hcid'⟩ := hconns k' d' hd'
    exact h.inj k k' d₀ d₁ hd₀ hd₁ (by rw [← hcid, ← hcid', heq])

theorem Accepted.numbered {a : AcceptRes} (hacc : Accepted r a r') (h : Numbered r) :
    Numbered r' := by
  cases hacc with
  | refused => exact h.of_conns (Nat.le_succ _) (fun k d hd => ⟨d, hd, rfl⟩)
  | welcomed =>
      have hcases : ∀ k d, Function.update r.conns (r.os.fds.pick a.hint)
          (some (Conn.calloc (r.os.fds.pick a.hint) r.os.serial)) k = some d →
          (k = r.os.fds.pick a.hint ∧ d.cid = r.os.serial) ∨ r.conns k = some d := by
        intro k d hd
        rcases eq_or_ne k (r.os.fds.pick a.hint) with rfl | hne
        · rw [Function.update_self, Option.some.injEq] at hd
          rw [← hd]
          exact .inl ⟨rfl, rfl⟩
        · rw [Function.update_of_ne hne] at hd
          exact .inr hd
      refine ⟨fun k d hd => ?_, fun k k' d d' hd hd' heq => ?_⟩
      · rcases hcases k d hd with ⟨_, hcid⟩ | hold
        · rw [hcid]
          exact Nat.lt_succ_self _
        · exact (h.lt k d hold).trans (Nat.lt_succ_self _)
      · rcases hcases k d hd with ⟨hk, hcid⟩ | hold
        · rcases hcases k' d' hd' with ⟨hk', _⟩ | hold'
          · rw [hk, hk']
          · exact absurd (h.lt k' d' hold') (by omega)
        · rcases hcases k' d' hd' with ⟨_, hcid'⟩ | hold'
          · exact absurd (h.lt k d hold) (by omega)
          · exact h.inj k k' d d' hold hold' heq

theorem Step.numbered {e : Event} (hstep : Step site r e r') (h : Numbered r) : Numbered r' := by
  have hsame : ∀ r' : Reactor, r'.os.serial = r.os.serial → r'.conns = r.conns → Numbered r' := by
    intro r' hser hconns
    exact h.of_conns hser.ge (fun k d hd => ⟨d, hconns ▸ hd, rfl⟩)
  cases hstep with
  | idle => exact h
  | woken => exact hsame _ rfl rfl
  | ignored => exact hsame _ rfl rfl
  | accepted hcr _ =>
      exact reactorAccept_rule (fun _ _ _ _ hacc hI => hacc.numbered hI) e.accepts hcr
        (hsame _ rfl rfl)
  | hangup =>
      exact h.of_conns (by rw [serial_connClose]; exact Nat.le_refl _)
        (fun k d hd => ⟨d, (conns_of_connClose hd).1, rfl⟩)
  | @handled c r' ref hgo hcr hc hfd hwait herr hin hout =>
      rw [← hfd] at hc ⊢
      refine h.of_conns ?_ (fun k d hd => hout.settle_conns hc hd)
      cases ref with
      | live c' => exact hout.serial_le
      | closed => exact hout.serial_le
      | crashed f => exact hout.serial_le

/-! ## Runs -/

/-- The condition `G` holds at every step of the run of `es` from `r`. -/
def Along (site : Site) (G : Reactor → Event → Prop) : Reactor → List Event → Prop
  | _, [] => True
  | r, e :: es => G r e ∧ Along site G (dispatch site r e) es

/-- A condition on the events alone. -/
theorem along_of_forall {G : Event → Prop} {es : List Event} (h : ∀ e ∈ es, G e) (r : Reactor) :
    Along site (fun _ e => G e) r es := by
  induction es generalizing r with
  | nil => exact trivial
  | cons e es ih =>
      exact ⟨h e List.mem_cons_self, ih (fun e' he' => h e' (List.mem_cons_of_mem e he')) _⟩

theorem Along.and {G H : Reactor → Event → Prop} {es : List Event} (hG : Along site G r es)
    (hH : Along site H r es) : Along site (fun r e => G r e ∧ H r e) r es := by
  induction es generalizing r with
  | nil => exact trivial
  | cons e es ih => exact ⟨⟨hG.1, hH.1⟩, ih hG.2 hH.2⟩

/-- Between two events: every connection waits, under a number of its own. -/
structure AtRest (r : Reactor) : Prop where
  orderly : Orderly r
  numbered : Numbered r

theorem dispatch_atRest (site : Site) (h : AtRest r) (e : Event) : AtRest (dispatch site r e) :=
  ⟨dispatch_orderly site h.orderly e, (dispatch_step site h.orderly e).numbered h.numbered⟩

/-- **The rule for runs.** What every step keeps holds after every run. -/
theorem reactorRun_rule (site : Site) {I : Reactor → Prop} {G : Reactor → Event → Prop}
    (hstep : ∀ r e r', AtRest r → G r e → I r → Step site r e r' → I r') (es : List Event)
    (hes : Along site G r es) (h : AtRest r) (hI : I r) :
    AtRest (reactorRun site r es) ∧ I (reactorRun site r es) := by
  induction es generalizing r with
  | nil => exact ⟨h, hI⟩
  | cons e es ih =>
      exact ih hes.2 (dispatch_atRest site h e)
        (hstep r e _ h hes.1 hI (dispatch_step site h.orderly e))

theorem reactorCreateCtl_atRest (inherited : List Nat) (ctls : List Bool) :
    AtRest (reactorCreateCtl inherited ctls) where
  orderly := fun _ fd c hc => by cases hc
  numbered := ⟨fun fd c hc => (by cases hc), fun fd fd' c c' hc => (by cases hc)⟩

theorem reactorCreate_atRest (inherited : List Nat) : AtRest (reactorCreate inherited) :=
  reactorCreateCtl_atRest inherited []

end HttpServer
