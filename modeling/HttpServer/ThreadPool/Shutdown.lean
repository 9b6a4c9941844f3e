import HttpServer.ThreadPool.Roster
import HttpServer.Lib.Run

set_option autoImplicit false

/-! # Shutting the pool down (`src/thread_pool.c`)

`pool_destroy` runs beside the monitor and the workers. It sets `stop` under the lock and wakes
the monitor, joins the monitor, then stops, joins and destroys the workers, again under the lock.
The monitor waits for its next turn on the condition variable, which gives the lock back, and
tunes the pool under the lock; to retire a worker it joins the worker's thread while it holds it.

A run is any interleaving of the steps of all threads. What the lock protects changes as in
`tuneRun` and `poolDestroy`, no reactor is destroyed before its thread has left it, and once
`stop` is set the threads come to an end.
-/

namespace HttpServer

/-! ## The threads -/

inductive Party
  | monitor
  | destroyer
  deriving DecidableEq

/-- Where the monitor is in `monitor_fn`. `checking`, `awake` and `deciding` are the tests of
`stop` in the loop of the wait, behind the wait and behind the loop; in `retiring` it joins the
thread of the worker in slot `i`. -/
inductive MonitorPc
  | preparing
  | checking
  | waiting
  | waking (timedOut : Bool)
  | awake (timedOut : Bool)
  | deciding
  | retiring (sample : Sample) (i : Nat)
  | ended

/-- Where the caller of `pool_destroy` is: before the call, before and behind the first
`pthread_mutex_lock`, at the join of the monitor, at the second lock, in one of the three loops
over the workers, or behind the call. -/
inductive DestroyerPc
  | absent
  | entering
  | stopping
  | joining
  | reentering
  | telling (i : Nat)
  | parting (i : Nat)
  | clearing (i : Nat)
  | done
  deriving DecidableEq

/-- The pool and its threads. `running` are the reactors whose thread is in `reactor_run`, `told`
those whose eventfd has been written; `freed` counts the calls of `reactor_destroy` on the reactors
of workers, and `tuned` has what the monitor has met in `tune_pool` so far. -/
structure Shutdown where
  pool : ThreadPool
  lock : Option Party
  stop : Bool
  monitor : MonitorPc
  destroyer : DestroyerPc
  running : List Nat
  told : Nat → Bool
  freed : Nat → Nat
  tuned : List Sample

/-- A step of the monitor, which meets the sample if it tunes the pool; the end of its wait, with
a timeout or without a reason; the call of `pool_destroy` and its steps; and a worker that leaves
`reactor_run`, because it was told or because `epoll_wait` failed. All that a worker does before it
leaves is no step of its own here: that a handler can keep it from `epoll_wait` for ever is not
looked at. -/
inductive ShutAct
  | monitor (sample : Sample)
  | wake (timedOut : Bool)
  | call
  | destroy
  | leave (k : Nat)
  | fail (k : Nat)

/-! ## Steps -/

namespace Shutdown

/-- The reactor in slot `i`. -/
def slot (s : Shutdown) (i : Nat) : Nat := (s.pool.workers i).reactor

def tell (s : Shutdown) (k : Nat) : Shutdown := { s with told := Function.update s.told k true }

def free (s : Shutdown) (k : Nat) : Shutdown :=
  { s with freed := Function.update s.freed k (s.freed k + 1) }

/-- `tune_pool` returns, and the monitor gives the lock back. -/
def tuneTo (s : Shutdown) (pool : ThreadPool) (x : Sample) : Shutdown :=
  { s with pool := pool, lock := none, monitor := .preparing, tuned := s.tuned ++ [x] }

end Shutdown

/-- The slot of the worker that `tune_pool` retires. -/
def retires (pool : ThreadPool) (x : Sample) : Option Nat :=
  let total := ((List.range pool.numWorkers).map x.loads).sum
  if total < pool.cfg.loadLow ∧ total ≤ pool.cfg.loadHigh ∧ pool.cfg.minWorkers < pool.numWorkers then
    (List.range pool.numWorkers).find? (fun i => decide (x.idle i = 0))
  else none

/-- The threads after `tune_pool`, if it started one. -/
def startedThreads (pool pool' : ThreadPool) (running : List Nat) : List Nat :=
  if pool.numWorkers < pool'.numWorkers then (pool'.workers pool.numWorkers).reactor :: running
  else running

def monitorStep (s : Shutdown) (x : Sample) : Option Shutdown :=
  match s.monitor with
  | .preparing =>
      if s.lock = none then some { s with lock := some .monitor, monitor := .checking } else none
  | .checking =>
      if s.stop then some { s with monitor := .deciding }
      else some { s with lock := none, monitor := .waiting }
  | .waiting => none
  | .waking timedOut =>
      if s.lock = none then some { s with lock := some .monitor, monitor := .awake timedOut }
      else none
  | .awake timedOut =>
      if s.stop || timedOut then some { s with monitor := .deciding }
      else some { s with monitor := .checking }
  | .deciding =>
      if s.stop then some { s with lock := none, monitor := .ended }
      else
        match retires s.pool x with
        | some i => some { s.tell (s.slot i) with monitor := .retiring x i }
        | none =>
            let pool := tunePool s.pool x
            some { s.tuneTo pool x with running := startedThreads s.pool pool s.running }
  | .retiring x i =>
      if s.slot i ∈ s.running then none
      else some ((s.free (s.slot i)).tuneTo (retireWorker s.pool i) x)
  | .ended => none

/-- `pthread_cond_broadcast`. -/
def MonitorPc.notify : MonitorPc → MonitorPc
  | .waiting => .waking false
  | pc => pc

def destroyStep (s : Shutdown) : Option Shutdown :=
  match s.destroyer with
  | .absent => none
  | .entering =>
      if s.lock = none then some { s with lock := some .destroyer, destroyer := .stopping } else none
  | .stopping =>
      some { s with
        stop := true
        monitor := s.monitor.notify
        lock := none
        destroyer := .joining }
  | .joining =>
      match s.monitor with
      | .ended => some { s with destroyer := .reentering }
      | _ => none
  | .reentering =>
      if s.lock = none then some { s with lock := some .destroyer, destroyer := .telling 0 } else none
  | .telling i =>
      if i < s.pool.numWorkers then some { s.tell (s.slot i) with destroyer := .telling (i + 1) }
      else some { s with destroyer := .parting 0 }
  | .parting i =>
      if i < s.pool.numWorkers then
        if s.slot i ∈ s.running then none else some { s with destroyer := .parting (i + 1) }
      else some { s with destroyer := .clearing 0 }
  | .clearing i =>
      if i < s.pool.numWorkers then some { s.free (s.slot i) with destroyer := .clearing (i + 1) }
      else some { s with pool := endWorkers s.pool, lock := none, destroyer := .done }
  | .done => none

def shutStep (s : Shutdown) : ShutAct → Option Shutdown
  | .monitor x => monitorStep s x
  | .wake timedOut =>
      match s.monitor with
      | .waiting => some { s with monitor := .waking timedOut }
      | _ => none
  | .call => if s.destroyer = .absent then some { s with destroyer := .entering } else none
  | .destroy => destroyStep s
  | .leave k =>
      if k ∈ s.running ∧ s.told k = true then some { s with running := s.running.erase k } else none
  | .fail k => if k ∈ s.running then some { s with running := s.running.erase k } else none

/-- A run; a step that cannot be made is skipped. -/
def shutRun (s : Shutdown) (acts : List ShutAct) : Shutdown :=
  acts.foldl (fun s a => (shutStep s a).getD s) s

/-- A pool with its threads, right after `pool_create` has returned. -/
def begunShutdown (pool : ThreadPool) : Shutdown where
  pool := pool
  lock := none
  stop := false
  monitor := .preparing
  destroyer := .absent
  running := (List.range pool.numWorkers).map (fun i => (pool.workers i).reactor)
  told := fun _ => false
  freed := fun _ => 0
  tuned := []

/-- The runs looked at are those of a pool whose monitor was started. Without a monitor there is
nothing that tunes the pool beside `pool_destroy`. -/
def startShutdown (pool : ThreadPool) : Option Shutdown :=
  if pool.monitor then some (begunShutdown pool) else none

/-! ## What a step can do -/

variable {s s' : Shutdown} {act : ShutAct}

/-- What a step can do: first the monitor, then the caller of `pool_destroy`, then the workers. -/
inductive Move (s : Shutdown) : ShutAct → Shutdown → Prop
  | locked {x} (hm : s.monitor = .preparing) (hl : s.lock = none) :
      Move s (.monitor x) { s with lock := some .monitor, monitor := .checking }
  | skipped {x} (hm : s.monitor = .checking) (hs : s.stop = true) :
      Move s (.monitor x) { s with monitor := .deciding }
  | slept {x} (hm : s.monitor = .checking) (hs : s.stop = false) :
      Move s (.monitor x) { s with lock := none, monitor := .waiting }
  | relocked {x} {b : Bool} (hm : s.monitor = .waking b) (hl : s.lock = none) :
      Move s (.monitor x) { s with lock := some .monitor, monitor := .awake b }
  | broken {x} {b : Bool} (hm : s.monitor = .awake b) (hb : (s.stop || b) = true) :
      Move s (.monitor x) { s with monitor := .deciding }
  | again {x} {b : Bool} (hm : s.monitor = .awake b) (hb : (s.stop || b) = false) :
      Move s (.monitor x) { s with monitor := .checking }
  | quit {x} (hm : s.monitor = .deciding) (hs : s.stop = true) :
      Move s (.monitor x) { s with lock := none, monitor := .ended }
  | retiring {x} {i : Nat} (hm : s.monitor = .deciding) (hs : s.stop = false)
      (hi : retires s.pool x = some i) :
      Move s (.monitor x) { s.tell (s.slot i) with monitor := .retiring x i }
  | tuned {x} (hm : s.monitor = .deciding) (hs : s.stop = false)
      (hi : retires s.pool x = none) :
      Move s (.monitor x) { s.tuneTo (tunePool s.pool x) x with
        running := startedThreads s.pool (tunePool s.pool x) s.running }
  | retired {y x} {i : Nat} (hm : s.monitor = .retiring x i) (hrun : s.slot i ∉ s.running) :
      Move s (.monitor y) ((s.free (s.slot i)).tuneTo (retireWorker s.pool i) x)
  | woken {b : Bool} (hm : s.monitor = .waiting) :
      Move s (.wake b) { s with monitor := .waking b }
  | called (hd : s.destroyer = .absent) : Move s .call { s with destroyer := .entering }
  | entered (hd : s.destroyer = .entering) (hl : s.lock = none) :
      Move s .destroy { s with lock := some .destroyer, destroyer := .stopping }
  | stopped (hd : s.destroyer = .stopping) :
      Move s .destroy { s with
        stop := true
        monitor := s.monitor.notify
        lock := none
        destroyer := .joining }
  | joined (hd : s.destroyer = .joining) (hm : s.monitor = .ended) :
      Move s .destroy { s with destroyer := .reentering }
  | reentered (hd : s.destroyer = .reentering) (hl : s.lock = none) :
      Move s .destroy { s with lock := some .destroyer, destroyer := .telling 0 }
  | told {i : Nat} (hd : s.destroyer = .telling i) (hi : i < s.pool.numWorkers) :
      Move s .destroy { s.tell (s.slot i) with destroyer := .telling (i + 1) }
  | toldAll {i : Nat} (hd : s.destroyer = .telling i) (hi : s.pool.numWorkers ≤ i) :
      Move s .destroy { s with destroyer := .parting 0 }
  | parted {i : Nat} (hd : s.destroyer = .parting i) (hi : i < s.pool.numWorkers)
      (hrun : s.slot i ∉ s.running) : Move s .destroy { s with destroyer := .parting (i + 1) }
  | partedAll {i : Nat} (hd : s.destroyer = .parting i) (hi : s.pool.numWorkers ≤ i) :
      Move s .destroy { s with destroyer := .clearing 0 }
  | cleared {i : Nat} (hd : s.destroyer = .clearing i) (hi : i < s.pool.numWorkers) :
      Move s .destroy { s.free (s.slot i) with destroyer := .clearing (i + 1) }
  | clearedAll {i : Nat} (hd : s.destroyer = .clearing i) (hi : s.pool.numWorkers ≤ i) :
      Move s .destroy { s with pool := endWorkers s.pool, lock := none, destroyer := .done }
  | left {k : Nat} (hk : k ∈ s.running) (htold : s.told k = true) :
      Move s (.leave k) { s with running := s.running.erase k }
  | failed {k : Nat} (hk : k ∈ s.running) :
      Move s (.fail k) { s with running := s.running.erase k }

theorem monitorStep_move {x : Sample} (h : monitorStep s x = some s') :
    Move s (.monitor x) s' := by
  unfold monitorStep at h
  cases hm : s.monitor with
  | preparing =>
      simp only [hm, Option.ite_none_right_eq_some, Option.some.injEq] at h
      obtain ⟨hl, rfl⟩ := h
      exact .locked hm hl
  | checking =>
      simp only [hm] at h
      split at h
      · cases h
        exact .skipped hm ‹_›
      · cases h
        exact .slept hm (eq_false_of_ne_true ‹_›)
  | waiting => simp [hm] at h
  | waking b =>
      simp only [hm, Option.ite_none_right_eq_some, Option.some.injEq] at h
      obtain ⟨hl, rfl⟩ := h
      exact .relocked hm hl
  | awake b =>
      simp only [hm] at h
      split at h
      · cases h
        exact .broken hm ‹_›
      · cases h
        exact .again hm (eq_false_of_ne_true ‹_›)
  -- the flag is looked at again before a worker is hired or retired
  | deciding =>
      simp only [hm] at h
      split at h
      · cases h
        exact .quit hm ‹_›
      · have hs : s.stop = false := eq_false_of_ne_true ‹_›
        cases hi : retires s.pool x with
        | none =>
            simp only [hi, Option.some.injEq] at h
            subst h
            exact .tuned hm hs hi
        | some i =>
            simp only [hi, Option.some.injEq] at h
            subst h
            exact .retiring hm hs hi
  | retiring y i =>
      simp only [hm, Option.ite_none_left_eq_some, Option.some.injEq] at h
      obtain ⟨hrun, rfl⟩ := h
      exact .retired hm hrun
  | ended => simp [hm] at h

theorem destroyStep_move (h : destroyStep s = some s') : Move s .destroy s' := by
  unfold destroyStep at h
  cases hd : s.destroyer with
  | absent => simp [hd] at h
  | entering =>
      simp only [hd, Option.ite_none_right_eq_some, Option.some.injEq] at h
      obtain ⟨hl, rfl⟩ := h
      exact .entered hd hl
  | stopping =>
      simp only [hd, Option.some.injEq] at h
      subst h
      exact .stopped hd
  | joining =>
      simp only [hd] at h
      split at h
      · rename_i hm
        cases h
        exact .joined hd hm
      · cases h
  | reentering =>
      simp only [hd, Option.ite_none_right_eq_some, Option.some.injEq] at h
      obtain ⟨hl, rfl⟩ := h
      exact .reentered hd hl
  | telling i =>
      simp only [hd] at h
      split at h
      · cases h
        exact .told hd ‹_›
      · cases h
        exact .toldAll hd (by omega)
  -- the join waits until the worker no longer runs
  | parting i =>
      simp only [hd] at h
      split at h
      · simp only [Option.ite_none_left_eq_some, Option.some.injEq] at h
        obtain ⟨hrun, rfl⟩ := h
        exact .parted hd ‹_› hrun
      · cases h
        exact .partedAll hd (by omega)
  | clearing i =>
      simp only [hd] at h
      split at h
      · cases h
        exact .cleared hd ‹_›
      · cases h
        exact .clearedAll hd (by omega)
  | done => simp [hd] at h

theorem shutStep_move (h : shutStep s act = some s') : Move s act s' := by
  cases act with
  | monitor x => exact monitorStep_move h
  | wake b =>
      cases hm : s.monitor with
      | waiting =>
          simp only [shutStep, hm, Option.some.injEq] at h
          subst h
          exact .woken hm
      | preparing | checking | waking | awake | deciding | retiring | ended =>
          simp [shutStep, hm] at h
  | call =>
      simp only [shutStep, Option.ite_none_right_eq_some, Option.some.injEq] at h
      obtain ⟨hd, rfl⟩ := h
      exact .called hd
  | destroy => exact destroyStep_move h
  | leave k =>
      simp only [shutStep, Option.ite_none_right_eq_some, Option.some.injEq] at h
      obtain ⟨⟨hk, htold⟩, rfl⟩ := h
      exact .left hk htold
  | fail k =>
      simp only [shutStep, Option.ite_none_right_eq_some, Option.some.injEq] at h
      obtain ⟨hk, rfl⟩ := h
      exact .failed hk

/-- What every step keeps holds after every run. -/
theorem shutRun_rule {I : Shutdown → Prop} (hstep : ∀ s act s', Move s act s' → I s → I s')
    (acts : List ShutAct) (hI : I s) : I (shutRun s acts) := by
  refine List.foldlRecOn acts _ hI (fun s h act _ => ?_)
  cases hs : shutStep s act with
  | none => exact h
  | some s' => exact hstep s act s' (shutStep_move hs) h

end HttpServer
