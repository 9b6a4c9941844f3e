import HttpServer.ThreadPool.Pool
import HttpServer.Reactor.Descriptors
import HttpServer.Reactor.Stream
import HttpServer.Lib.Run

set_option autoImplicit false

/-! # Retiring a worker (`src/thread_pool.c`, `src/reactor.c`)

The monitor retires a worker in four steps: it finds that the worker has no connections,
writes to its eventfd, joins its thread and destroys its reactor. The worker goes on in the
meantime. Between them are the count of connections, which the monitor reads, and the
eventfd. A run is any interleaving of the steps of both; a step that cannot be made is
skipped. The worker accepts in two steps, as it counts a connection only after `accept` has
returned it; every other change of the count ends the handling of an event.
-/

namespace HttpServer

open CLib

/-! ## The two parties -/

/-- Where the monitor is in `retire_idle_worker`. -/
inductive MonitorAt
  | watching
  | decided
  | told
  | joined
  | ended
  deriving DecidableEq, Repr

/-- The worker and the monitor. `arriving` is a connection that `accept` has returned and that
is not counted yet; `told` says that the eventfd has been written, and `exited` that
`reactor_run` has returned. -/
structure Retirement where
  worker : Reactor
  arriving : Option AcceptRes
  told : Bool
  exited : Bool
  monitor : MonitorAt

inductive RetireAct
  | accept (a : AcceptRes)
  | count
  | event (e : Event)
  | leave
  | check
  | stop
  | join
  | destroy
  deriving DecidableEq, Repr

/-- One step of the worker (the first four) or of the monitor. The events of the listening
socket are the `accept` and `count` steps, and the eventfd is readable once it is written. -/
def retireStep (site : Site) (s : Retirement) : RetireAct → Retirement
  | .accept a =>
      if s.exited = false ∧ s.worker.stop = false ∧ s.worker.crashed = none ∧ s.arriving = none then
        { s with arriving := some a }
      else s
  | .count =>
      match s.arriving with
      | some a => { s with worker := acceptOne s.worker a, arriving := none }
      | none => s
  | .event e =>
      if s.exited = true ∨ s.arriving ≠ none ∨ e.fd = s.worker.listenFd ∨
          (e.fd = s.worker.wakeupFd ∧ s.told = false) then s
      else { s with worker := dispatch site s.worker e }
  | .leave => if s.worker.stop = true ∧ s.arriving = none then { s with exited := true } else s
  | .check =>
      if s.monitor = .watching ∧ s.worker.activeConns = 0 then { s with monitor := .decided } else s
  | .stop => if s.monitor = .decided then { s with told := true, monitor := .told } else s
  | .join => if s.monitor = .told ∧ s.exited = true then { s with monitor := .joined } else s
  | .destroy =>
      if s.monitor = .joined then
        { s with worker := { s.worker with os := reactorDestroy s.worker }, monitor := .ended }
      else s

/-- A worker that has just been started, and the monitor. -/
def startRetirement (inherited : List Nat) : Retirement :=
  ⟨reactorCreate inherited, none, false, false, .watching⟩

def retireRun (site : Site) (s : Retirement) (acts : List RetireAct) : Retirement :=
  acts.foldl (retireStep site) s

/-! ## What must not be lost -/

/-- The connection has a response that is not finished, or bytes of a request that is not
answered: read and parsed in part, or not read yet. -/
def Outstanding (os : Os) (c : Conn) : Prop :=
  c.state = .writing ∨ (os.dialogue c.cid).partialHead ≠ [] ∨ os.incoming c.fd ≠ some []

instance (os : Os) (c : Conn) : Decidable (Outstanding os c) :=
  inferInstanceAs (Decidable (_ ∨ _ ∨ _))

/-- The monitor is about to call `reactor_destroy`, which will close the connection `c` in the
middle of an exchange. -/
def CutsOff (s : Retirement) (c : Conn) : Prop :=
  s.monitor = .joined ∧ (c.fd < connMax ∧ s.worker.conns c.fd = some c) ∧
    Outstanding s.worker.os c

/-- The worker is found idle at no moment at which it has a connection it has not counted, and
after that it accepts none. -/
def Undisturbed (s : Retirement) : RetireAct → Prop
  | .check => s.worker.activeConns = 0 → s.arriving = none
  | .accept _ => s.monitor = .watching
  | _ => True

instance (s : Retirement) (act : RetireAct) : Decidable (Undisturbed s act) :=
  match act with
  | .check => inferInstanceAs (Decidable (_ → _))
  | .accept _ => inferInstanceAs (Decidable (_ = _))
  | .count | .event _ | .leave | .stop | .join | .destroy => .isTrue trivial

/-! ## Counting connections -/

variable {site : Site} {r r' : Reactor} {s : Retirement} {c : Conn}

/-- There are no more connections than are counted. -/
structure Counted (r : Reactor) : Prop where
  below : ∀ fd c, r.conns fd = some c → fd < connMax
  count : (r.live.card : Int) ≤ r.activeConns

/-- Without connections in the count there are none in the table. -/
theorem Counted.none_of_zero (h : Counted r) (hzero : r.activeConns = 0) (fd : Nat) :
    r.conns fd = none := by
  have hcard : r.live.card = 0 := by
    have := h.count
    omega
  cases hc : r.conns fd with
  | none => rfl
  | some c =>
      have hmem : fd ∈ r.live := Reactor.mem_live.mpr ⟨h.below fd c hc, c, hc⟩
      rw [Finset.card_eq_zero.mp hcard] at hmem
      cases hmem

theorem Counted.closed (h : Counted r) (hc : r.conns c.fd = some c)
    (hconns : r'.conns = Function.update r.conns c.fd none)
    (hactive : r'.activeConns = r.activeConns - 1) : Counted r' := by
  have hcard := live_close (h.below _ c hc) hc hconns
  have hcount := h.count
  refine ⟨fun fd d hd => ?_, by rw [hactive]; omega⟩
  rw [hconns] at hd
  rcases eq_or_ne fd c.fd with rfl | hne
  · simp at hd
  · rw [Function.update_of_ne hne] at hd
    exact h.below fd d hd

theorem Counted.same (h : Counted r) (hconns : ∀ k, (r'.conns k).isSome = (r.conns k).isSome)
    (hactive : r'.activeConns = r.activeConns) : Counted r' := by
  refine ⟨fun fd d hd => ?_, by rw [live_same hconns, hactive]; exact h.count⟩
  have hsome : (r.conns fd).isSome := by rw [← hconns, hd]; rfl
  obtain ⟨d', hd'⟩ := Option.isSome_iff_exists.mp hsome
  exact h.below fd d' hd'

/-- A connection that is accepted is counted, even at a descriptor that is still in use. -/
theorem Accepted.counted {a : AcceptRes} (hacc : Accepted r a r') (h : Counted r) :
    Counted r' := by
  cases hacc with
  | refused => exact h.same (fun _ => rfl) rfl
  | welcomed hbelow =>
      refine ⟨fun fd d hd => ?_, ?_⟩
      · rcases eq_or_ne fd (r.os.fds.pick a.hint) with rfl | hne
        · exact hbelow
        · simp only [Function.update_of_ne hne] at hd
          exact h.below fd d hd
      · have hsub : ({ r with
            os := (r.acceptedOs a).epollAdd (r.os.fds.pick a.hint) .input
            conns := Function.update r.conns (r.os.fds.pick a.hint)
              (some (Conn.calloc (r.os.fds.pick a.hint) r.os.serial))
            activeConns := r.activeConns + 1 } : Reactor).live ⊆
            insert (r.os.fds.pick a.hint) r.live := by
          intro k hk
          rw [Finset.mem_insert, Reactor.mem_live]
          obtain ⟨hlt, d, hd⟩ := Reactor.mem_live.mp hk
          rcases eq_or_ne k (r.os.fds.pick a.hint) with rfl | hne
          · exact .inl rfl
          · simp only [Function.update_of_ne hne] at hd
            exact .inr ⟨hlt, d, hd⟩
        have hcard := (Finset.card_le_card hsub).trans (Finset.card_insert_le _ _)
        have hcount := h.count
        simp only at hcard ⊢
        omega

theorem Step.counted {e : Event} (hstep : Step site r e r') (h : Counted r) : Counted r' := by
  have hbegin : Counted (r.begin e) := h.same (fun _ => rfl) rfl
  cases hstep with
  | idle => exact h
  | woken => exact h.same (fun _ => rfl) rfl
  | accepted hcr =>
      exact reactorAccept_rule (fun _ _ _ _ hacc hI => hacc.counted hI) e.accepts hcr hbegin
  | ignored => exact hbegin
  | hangup _ _ hc hfd =>
      rw [← hfd] at hc
      exact hbegin.closed hc rfl rfl
  | @handled c r₁ ref _ _ hc hfd _ _ _ hout =>
      rw [← hfd] at hc ⊢
      cases ref with
      | live c' =>
          obtain ⟨hconns, hactive⟩ := hout.table_open (by simp)
          refine hbegin.same (fun k => ?_) hactive
          rcases eq_or_ne k c.fd with rfl | hne
          · simp [Reactor.settle, Reactor.begin, hc]
          · rw [hout.settle_of_ne hne]
      | closed =>
          obtain ⟨hconns, hactive⟩ := hout.table_closed
          exact hbegin.closed hc hconns hactive
      | crashed f =>
          obtain ⟨hconns, hactive⟩ := hout.table_open (by simp)
          exact hbegin.same (fun k => by rw [Reactor.settle, hconns]) hactive

/-- Where there are no connections, only the listening socket brings one. -/
theorem Step.still_none {e : Event} (hstep : Step site r e r') (hfd : e.fd ≠ r.listenFd)
    (h : ∀ fd, r.conns fd = none) (fd : Nat) : r'.conns fd = none := by
  cases hstep with
  | idle => exact h fd
  | woken => exact h fd
  | accepted _ hlisten => exact absurd hlisten hfd
  | ignored => exact h fd
  | hangup _ _ hc => cases (h e.fd).symm.trans hc
  | handled _ _ hc => cases (h e.fd).symm.trans hc

/-! ## The invariant -/

/-- Once the monitor has decided to retire the worker, it has no connection. -/
structure Relieved (s : Retirement) : Prop where
  orderly : Orderly s.worker
  counted : Counted s.worker
  idle : s.monitor ≠ .watching → s.arriving = none ∧ ∀ fd, s.worker.conns fd = none

theorem acceptOne_orderly (h : Orderly r) (a : AcceptRes) : Orderly (acceptOne r a) := by
  intro hcr
  have hacc := acceptOne_accepted r a
  exact hacc.orderly (hacc.crashed.symm.trans hcr) h hcr

/-- There is nothing left that `reactor_destroy` could take away. -/
theorem Relieved.destroyed (h : Relieved s) (hmon : s.monitor = .joined) (os : Os) :
    Relieved { s with worker := { s.worker with os := os }, monitor := .ended } := by
  have hidle := h.idle (by rw [hmon]; simp)
  refine ⟨fun _ fd c hc => ?_, h.counted.same (fun _ => rfl) rfl, fun _ => hidle⟩
  cases (hidle.2 fd).symm.trans hc

theorem Relieved.step (h : Relieved s) {act : RetireAct} (hact : Undisturbed s act) :
    Relieved (retireStep site s act) := by
  cases act with
  | accept a =>
      rw [retireStep]
      split
      · exact ⟨h.orderly, h.counted, fun hmon => absurd hact hmon⟩
      · exact h
  | count =>
      rw [retireStep]
      cases harr : s.arriving with
      | none => exact h
      | some a =>
          refine ⟨acceptOne_orderly h.orderly a, (acceptOne_accepted _ a).counted h.counted,
            fun hmon => ?_⟩
          cases harr.symm.trans (h.idle hmon).1
  | event e =>
      rw [retireStep]
      split
      · exact h
      · rename_i hnot
        -- an event of a connection or the eventfd brings in no connection
        have hfd : e.fd ≠ s.worker.listenFd := fun h0 => hnot (.inr (.inr (.inl h0)))
        have hstep := dispatch_step site h.orderly e
        exact ⟨dispatch_orderly site h.orderly e, hstep.counted h.counted,
          fun hmon => ⟨(h.idle hmon).1, hstep.still_none hfd (h.idle hmon).2⟩⟩
  | leave =>
      rw [retireStep]
      split
      · exact ⟨h.orderly, h.counted, h.idle⟩
      · exact h
  | check =>
      rw [retireStep]
      split
      · rename_i hidle
        exact ⟨h.orderly, h.counted, fun _ => ⟨hact hidle.2, h.counted.none_of_zero hidle.2⟩⟩
      · exact h
  | stop =>
      rw [retireStep]
      split
      · rename_i hmon
        exact ⟨h.orderly, h.counted, fun _ => h.idle (by rw [hmon]; simp)⟩
      · exact h
  | join =>
      rw [retireStep]
      split
      · rename_i hmon
        exact ⟨h.orderly, h.counted, fun _ => h.idle (by rw [hmon.1]; simp)⟩
      · exact h
  | destroy =>
      rw [retireStep]
      split
      · rename_i hmon
        exact h.destroyed hmon _
      · exact h

theorem startRetirement_relieved (inherited : List Nat) : Relieved (startRetirement inherited) where
  orderly := (reactorCreate_atRest inherited).orderly
  counted := by
    refine ⟨fun fd c hc => (by cases hc), ?_⟩
    have hlive : (startRetirement inherited).worker.live = ∅ :=
      Finset.filter_eq_empty_iff.mpr (fun k _ => by simp [startRetirement, reactorCreate, reactorCreateCtl])
    rw [hlive]
    exact Int.le_refl 0
  idle := fun h => absurd rfl h

/-- **A worker that is left alone is retired without loss.** In every run in which the worker
is found idle at no moment between an `accept` and its count, and accepts no connection after
that, `reactor_destroy` closes no connection in the middle of an exchange. -/
theorem retirement_cuts_none (site : Site) (inherited : List Nat) (acts : List RetireAct)
    (h : CLib.Along (retireStep site) Undisturbed (startRetirement inherited) acts) (c : Conn) :
    ¬ CutsOff (retireRun site (startRetirement inherited) acts) c := by
  have hend : Relieved (retireRun site (startRetirement inherited) acts) :=
    CLib.Along.invariant (fun _ _ hI hact => hI.step hact) acts (startRetirement_relieved inherited) h
  rintro ⟨hmon, ⟨_, hc⟩, _⟩
  cases ((hend.idle (by rw [hmon]; simp)).2 c.fd).symm.trans hc

/-! A worker that serves one connection and is retired after it; and one that accepts a
connection, and reads a part of its request, after it was found idle. -/

def servedActs : List RetireAct :=
  [.accept ⟨6, sampleStream, true⟩, .count,
   .event ⟨6, ⟨true, false, false⟩, ⟨[.bytes 100], [.bytes 1000], [], []⟩, []⟩,
   .check, .stop, .event ⟨4, ⟨true, false, false⟩, ⟨[], [], [], []⟩, []⟩, .leave, .join]

def racingActs : List RetireAct :=
  [.check, .accept ⟨6, sampleStream, true⟩, .count,
   .event ⟨6, ⟨true, false, false⟩, ⟨[.bytes 5], [], [], []⟩, []⟩,
   .stop, .event ⟨4, ⟨true, false, false⟩, ⟨[], [], [], []⟩, []⟩, .leave, .join]

theorem retirement_cuts_none_served :
    (retireRun emptySite (startRetirement [0, 1, 2]) servedActs).monitor = .joined ∧
      ∀ c, ¬ CutsOff (retireRun emptySite (startRetirement [0, 1, 2]) servedActs) c :=
  ⟨by decide +kernel, retirement_cuts_none emptySite [0, 1, 2] servedActs (by decide +kernel)⟩

theorem cutsOff_racing :
    ∃ c, CutsOff (retireRun emptySite (startRetirement [0, 1, 2]) racingActs) c := by
  have hlast : (retireRun emptySite (startRetirement [0, 1, 2]) racingActs).monitor = .joined := by
    decide +kernel
  have hconn : ((retireRun emptySite (startRetirement [0, 1, 2]) racingActs).worker.conns 6).any
      (fun c => decide (c.fd = 6 ∧ Outstanding
        (retireRun emptySite (startRetirement [0, 1, 2]) racingActs).worker.os c)) = true := by
    decide +kernel
  obtain ⟨c, hc, hout⟩ := (Option.any_eq_true _ _).mp hconn
  obtain ⟨hfd, hout⟩ := of_decide_eq_true hout
  exact ⟨c, hlast, ⟨by rw [hfd]; decide, by rw [hfd]; exact hc⟩, hout⟩

end HttpServer
