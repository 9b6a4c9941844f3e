import HttpServer.ThreadPool.Shutdown
import HttpServer.Lib.Mutex

set_option autoImplicit false

/-! # The end of the pool

The invariants of a run in which the pool is tuned and shut down: who holds the lock and what
`stop` tells about the program counters (`Control`), which threads run (`Threads`), which reactors
have been destroyed (`Frees`), and how far the monitor and `pool_destroy` are in saying goodbye to
the workers (`Dismissal`, `Goodbye`).
-/

namespace HttpServer

open CLib

variable {pool pool₀ : ThreadPool} {s s' : Shutdown} {act : ShutAct}

/-! ## The lock and `stop` -/

def MonitorPc.holds : MonitorPc → Bool
  | .checking | .awake _ | .deciding | .retiring .. => true
  | .preparing | .waiting | .waking _ | .ended => false

def DestroyerPc.holds : DestroyerPc → Bool
  | .stopping | .telling _ | .parting _ | .clearing _ => true
  | .absent | .entering | .joining | .reentering | .done => false

def Shutdown.holds (s : Shutdown) : Party → Bool
  | .monitor => s.monitor.holds
  | .destroyer => s.destroyer.holds

/-- `stop` has been set. -/
def DestroyerPc.hasStopped : DestroyerPc → Bool
  | .absent | .entering | .stopping => false
  | .joining | .reentering | .telling _ | .parting _ | .clearing _ | .done => true

/-- The monitor has been joined. -/
def DestroyerPc.alone : DestroyerPc → Bool
  | .absent | .entering | .stopping | .joining => false
  | .reentering | .telling _ | .parting _ | .clearing _ | .done => true

/-- The monitor is on its way out, if `stop` is set. -/
def MonitorPc.leaves : MonitorPc → Bool
  | .waiting | .retiring .. => false
  | .preparing | .checking | .waking _ | .awake _ | .deciding | .ended => true

/-- Who holds the lock is told by the program counters; `stop` has been set when `pool_destroy` is
behind that, and only then does the monitor end, but then it does no more than that. -/
structure Control (s : Shutdown) : Prop where
  lock : HeldBy s.lock s.holds
  stop : s.stop = s.destroyer.hasStopped
  ended : s.monitor = .ended → s.stop = true
  leaves : s.stop = true → s.monitor.leaves = true
  alone : s.destroyer.alone = true → s.monitor = .ended

/-- A step of the monitor. -/
theorem Control.monitorStep (h : Control s) (hm : s.monitor ≠ .ended)
    (hlock : LockStep Party.monitor s.lock s.monitor.holds s'.lock s'.monitor.holds)
    (hd : s'.destroyer = s.destroyer) (hstop : s'.stop = s.stop)
    (hended : s'.monitor = .ended → s.stop = true)
    (hleaves : s.stop = true → s'.monitor.leaves = true) : Control s' where
  lock := h.lock.step hlock (fun u hu => by
    cases u with
    | monitor => exact absurd rfl hu
    | destroyer => exact congrArg DestroyerPc.holds hd)
  stop := by rw [hstop, hd, h.stop]
  ended := by
    rw [hstop]
    exact hended
  leaves := by
    rw [hstop]
    exact hleaves
  alone := by
    rw [hd]
    exact fun halone => absurd (h.alone halone) hm

/-- A step of `pool_destroy`, but the one that sets `stop`. -/
theorem Control.destroyStep (h : Control s)
    (hlock : LockStep Party.destroyer s.lock s.destroyer.holds s'.lock s'.destroyer.holds)
    (hm : s'.monitor = s.monitor) (hstop : s'.stop = s.stop)
    (hd : s'.destroyer.hasStopped = s.destroyer.hasStopped)
    (halone : s'.destroyer.alone = true → s.monitor = .ended) : Control s' where
  lock := h.lock.step hlock (fun u hu => by
    cases u with
    | monitor => exact congrArg MonitorPc.holds hm
    | destroyer => exact absurd rfl hu)
  stop := by rw [hstop, hd, h.stop]
  ended := by
    rw [hstop, hm]
    exact h.ended
  leaves := by
    rw [hstop, hm]
    exact h.leaves
  alone := by
    rw [hm]
    exact halone

/-- `stop` is set under the lock, so the monitor retires no worker then; and it is woken. -/
theorem Control.stopped (h : Control s) (hd : s.destroyer = .stopping) :
    Control { s with
      stop := true
      monitor := s.monitor.notify
      lock := none
      destroyer := .joining } := by
  have hheld : s.holds .destroyer = true := by rw [Shutdown.holds, hd]; rfl
  have hnot : s.monitor.holds = false :=
    eq_false_of_ne_true (fun h0 => by cases h.lock.eq hheld (show s.holds .monitor = true from h0))
  have hgoes : s.monitor.notify.holds = false ∧ s.monitor.notify.leaves = true := by
    cases hm : s.monitor with
    | preparing => exact ⟨rfl, rfl⟩
    | waiting => exact ⟨rfl, rfl⟩
    | waking => exact ⟨rfl, rfl⟩
    | ended => exact ⟨rfl, rfl⟩
    | checking => rw [hm] at hnot; cases hnot
    | awake => rw [hm] at hnot; cases hnot
    | deciding => rw [hm] at hnot; cases hnot
    | retiring => rw [hm] at hnot; cases hnot
  refine ⟨h.lock.step (t := .destroyer) (by rw [hheld]; exact .given rfl) (fun u hu => ?_), rfl,
    fun _ => rfl, fun _ => hgoes.2, fun halone => by cases halone⟩
  cases u with
  | monitor => exact hgoes.1.trans hnot.symm
  | destroyer => exact absurd rfl hu

theorem Move.control (h : Move s act s') (hc : Control s) : Control s' := by
  -- the monitor's moves first, then those of the caller of `pool_destroy`
  cases h with
  | locked hm hl =>
      exact hc.monitorStep (by rw [hm]; simp) (.taken hl) rfl rfl (fun h0 => by cases h0) (fun _ => rfl)
  | skipped hm hs =>
      exact hc.monitorStep (by rw [hm]; simp) (by rw [hm]; exact .kept) rfl rfl (fun h0 => by cases h0)
        (fun _ => rfl)
  | slept hm hs =>
      exact hc.monitorStep (by rw [hm]; simp) (by rw [hm]; exact .given rfl) rfl rfl
        (fun h0 => by cases h0) (fun h0 => by rw [hs] at h0; cases h0)
  | relocked hm hl =>
      exact hc.monitorStep (by rw [hm]; simp) (.taken hl) rfl rfl (fun h0 => by cases h0) (fun _ => rfl)
  | broken hm hb =>
      exact hc.monitorStep (by rw [hm]; simp) (by rw [hm]; exact .kept) rfl rfl (fun h0 => by cases h0)
        (fun _ => rfl)
  | again hm hb =>
      exact hc.monitorStep (by rw [hm]; simp) (by rw [hm]; exact .kept) rfl rfl (fun h0 => by cases h0)
        (fun _ => rfl)
  | quit hm hs =>
      exact hc.monitorStep (by rw [hm]; simp) (by rw [hm]; exact .given rfl) rfl rfl (fun _ => hs)
        (fun _ => rfl)
  | retiring hm hs =>
      exact hc.monitorStep (by rw [hm]; simp) (by rw [hm]; exact .kept) rfl rfl (fun h0 => by cases h0)
        (fun h0 => by rw [hs] at h0; cases h0)
  | tuned hm hs =>
      exact hc.monitorStep (by rw [hm]; simp) (by rw [hm]; exact .given rfl) rfl rfl
        (fun h0 => by cases h0) (fun _ => rfl)
  | retired hm =>
      exact hc.monitorStep (by rw [hm]; simp) (by rw [hm]; exact .given rfl) rfl rfl
        (fun h0 => by cases h0) (fun _ => rfl)
  | woken hm =>
      exact hc.monitorStep (by rw [hm]; simp) (by rw [hm]; exact .kept) rfl rfl (fun h0 => by cases h0)
        (fun _ => rfl)
  | called hd =>
      exact hc.destroyStep (by rw [hd]; exact .kept) rfl rfl (by rw [hd]; rfl) (fun h0 => by cases h0)
  | entered hd hl => exact hc.destroyStep (.taken hl) rfl rfl (by rw [hd]; rfl) (fun h0 => by cases h0)
  | stopped hd => exact hc.stopped hd
  | joined hd hm => exact hc.destroyStep (by rw [hd]; exact .kept) rfl rfl (by rw [hd]; rfl) (fun _ => hm)
  | reentered hd hl =>
      exact hc.destroyStep (.taken hl) rfl rfl (by rw [hd]; rfl) (fun _ => hc.alone (by rw [hd]; rfl))
  | told hd | toldAll hd | parted hd | partedAll hd | cleared hd =>
      exact hc.destroyStep (by rw [hd]; exact .kept) rfl rfl (by rw [hd]; rfl)
        (fun _ => hc.alone (by rw [hd]; rfl))
  | clearedAll hd =>
      exact hc.destroyStep (by rw [hd]; exact .given rfl) rfl rfl (by rw [hd]; rfl)
        (fun _ => hc.alone (by rw [hd]; rfl))
  | left => exact ⟨hc.lock, hc.stop, hc.ended, hc.leaves, hc.alone⟩
  | failed => exact ⟨hc.lock, hc.stop, hc.ended, hc.leaves, hc.alone⟩

/-! ## What a call of `tune_pool` does to the array -/

theorem retires_some {x : Sample} {i : Nat} (h : retires pool x = some i) :
    i < pool.numWorkers ∧ tunePool pool x = retireWorker pool i := by
  simp only [retires, Option.ite_none_right_eq_some] at h
  obtain ⟨⟨hlow, hhigh, hmin⟩, hfind⟩ := h
  refine ⟨List.mem_range.mp (List.mem_of_find?_eq_some hfind), ?_⟩
  rw [tunePool, if_neg (not_lt.mpr hhigh), if_pos hlow, retireIdleWorker, if_neg (not_le.mpr hmin),
    hfind]

/-- The pool has at most one reactor more, and with it at most one worker. -/
inductive Grown (pool : ThreadPool) : ThreadPool → Prop
  | same : Grown pool pool
  | noThread : Grown pool (pool.hire.log [.destroyed pool.nextReactor])
  | started : Grown pool pool.hire.employ

theorem Spawned.grown {res : SpawnRes} {pool' : ThreadPool} (h : Spawned pool res pool') :
    Grown pool pool' := by
  cases h with
  | full => exact .same
  | noReactor => exact .same
  | noThread => exact .noThread
  | started => exact .started

theorem retires_none {x : Sample} (h : retires pool x = none) : Grown pool (tunePool pool x) := by
  unfold tunePool
  simp only
  split
  · exact (spawnWorker_spawned pool x.spawn).grown
  · rename_i hhigh
    split
    · rename_i hlow
      unfold retireIdleWorker
      split
      · exact .same
      · rename_i hmin
        rw [retires, if_pos ⟨hlow, not_lt.mp hhigh, not_le.mp hmin⟩] at h
        rw [h]
        exact .same
    · exact .same

theorem hire_workers_lt {i : Nat} (hi : i < pool.numWorkers) :
    pool.hire.workers i = pool.workers i := Function.update_of_ne (Nat.ne_of_lt hi) ..

theorem employ_workers_lt {i : Nat} (hi : i < pool.numWorkers) :
    pool.hire.employ.workers i = pool.workers i :=
  (Function.update_of_ne (Nat.ne_of_lt hi) ..).trans (hire_workers_lt hi)

theorem employ_reactor_last : (pool.hire.employ.workers pool.numWorkers).reactor = pool.nextReactor := by
  simp [ThreadPool.employ, ThreadPool.hire]

/-! ## The threads of the workers -/

/-- Only threads of workers in the array run, and each once. -/
structure Threads (pool : ThreadPool) (running : List Nat) : Prop where
  nodup : running.Nodup
  listed : ∀ k ∈ running, ∃ i < pool.numWorkers, (pool.workers i).reactor = k

theorem Threads.erase {running : List Nat} (h : Threads pool running) (k : Nat) :
    Threads pool (running.erase k) :=
  ⟨h.nodup.erase k, fun j hj => h.listed j (List.mem_of_mem_erase hj)⟩

theorem Threads.grown {pool' : ThreadPool} {running : List Nat} (h : Threads pool running)
    (hst : Staffed pool) (hg : Grown pool pool') :
    Threads pool' (startedThreads pool pool' running) := by
  cases hg with
  | same =>
      rw [startedThreads, if_neg (Nat.lt_irrefl _)]
      exact h
  | noThread =>
      have hsame : startedThreads pool (pool.hire.log [.destroyed pool.nextReactor]) running = running :=
        if_neg (Nat.lt_irrefl pool.numWorkers)
      rw [hsame]
      refine ⟨h.nodup, fun k hk => ?_⟩
      obtain ⟨i, hi, hw⟩ := h.listed k hk
      refine ⟨i, hi, ?_⟩
      rw [← hw]
      exact congrArg Worker.reactor (hire_workers_lt hi)
  | started =>
      -- the new thread runs on the reactor just created
      have hmore : startedThreads pool pool.hire.employ running = pool.nextReactor :: running := by
        rw [← employ_reactor_last]
        exact if_pos (Nat.lt_succ_self pool.numWorkers)
      rw [hmore]
      refine ⟨List.nodup_cons.mpr ⟨fun hmem => ?_, h.nodup⟩, fun k hk => ?_⟩
      · obtain ⟨i, hi, hw⟩ := h.listed _ hmem
        exact absurd hw (Nat.ne_of_lt (hst.reactor_lt hi))
      · rcases List.mem_cons.mp hk with rfl | hk
        · exact ⟨pool.numWorkers, Nat.lt_succ_self _, employ_reactor_last⟩
        · obtain ⟨i, hi, hw⟩ := h.listed k hk
          exact ⟨i, Nat.lt_succ_of_lt hi, by rw [employ_workers_lt hi, hw]⟩

/-- Where the worker in slot `j` is when the one in slot `i` has been retired. -/
theorem retireWorker_keeps {i j : Nat} (hi : i < pool.numWorkers) (hj : j < pool.numWorkers) (hne : j ≠ i) :
    ∃ m < (retireWorker pool i).numWorkers,
      ((retireWorker pool i).workers m).reactor = (pool.workers j).reactor := by
  by_cases hlast : j = pool.numWorkers - 1
  · refine ⟨i, by change i < pool.numWorkers - 1; omega, ?_⟩
    rw [(retireWorker_slot pool i i).1, cameFrom, if_pos rfl, hlast]
  · refine ⟨j, by change j < pool.numWorkers - 1; omega, ?_⟩
    rw [(retireWorker_slot pool i j).1, cameFrom, if_neg hne]

theorem Threads.retired {running : List Nat} {i : Nat} (h : Threads pool running)
    (hi : i < pool.numWorkers) (hrun : (pool.workers i).reactor ∉ running) :
    Threads (retireWorker pool i) running := by
  refine ⟨h.nodup, fun k hk => ?_⟩
  obtain ⟨j, hj, rfl⟩ := h.listed k hk
  have hne : j ≠ i := by
    rintro rfl
    exact hrun hk
  exact retireWorker_keeps hi hj hne

theorem Threads.none {running : List Nat} (h : Threads pool running)
    (hrun : ∀ i < pool.numWorkers, (pool.workers i).reactor ∉ running) : running = [] := by
  refine List.eq_nil_iff_forall_not_mem.mpr (fun k hk => ?_)
  obtain ⟨i, hi, rfl⟩ := h.listed k hk
  exact hrun i hi hk

theorem Threads.length_le {running : List Nat} (h : Threads pool running) :
    running.length ≤ pool.numWorkers := by
  have hsub : running ⊆ (List.range pool.numWorkers).map (fun i => (pool.workers i).reactor) := by
    intro k hk
    obtain ⟨i, hi, hw⟩ := h.listed k hk
    exact List.mem_map.mpr ⟨i, List.mem_range.mpr hi, hw⟩
  simpa using (h.nodup.subperm hsub).length_le

/-! ## The reactors that are destroyed -/

/-- No reactor has been destroyed twice, and the ones that have been are those of the workers that
are not in the array from slot `j` on. -/
structure Frees (pool : ThreadPool) (freed : Nat → Nat) (j : Nat) : Prop where
  once : ∀ k, freed k ≤ 1
  kept : ∀ i, j ≤ i → i < pool.numWorkers → freed (pool.workers i).reactor = 0
  unborn : ∀ k, pool.nextReactor ≤ k → freed k = 0
  gone : ∀ k t, .started k t ∈ pool.trace →
    (∃ i, j ≤ i ∧ i < pool.numWorkers ∧ (pool.workers i).reactor = k) ∨ freed k = 1

theorem Frees.grown {pool' : ThreadPool} {freed : Nat → Nat} (h : Frees pool freed 0)
    (hg : Grown pool pool') : Frees pool' freed 0 := by
  cases hg with
  | same => exact h
  | noThread =>
      refine ⟨h.once, fun i _ hi => ?_, fun k hk => h.unborn k (Nat.le_of_succ_le hk),
        fun k t hmem => ?_⟩
      · have hslot : pool.hire.workers i = pool.workers i := hire_workers_lt hi
        exact (congrArg (fun w => freed w.reactor) hslot).trans (h.kept i (Nat.zero_le i) hi)
      -- no worker has been started, so the threads are those from before
      · have hold : .started k t ∈ pool.trace := by
          simpa [ThreadPool.log, ThreadPool.hire] using hmem
        rcases h.gone k t hold with ⟨i, hle, hi, hw⟩ | hone
        · exact .inl ⟨i, hle, hi, (congrArg Worker.reactor (hire_workers_lt hi)).trans hw⟩
        · exact .inr hone
  | started =>
      refine ⟨h.once, fun i _ hi => ?_, fun k hk => h.unborn k (Nat.le_of_succ_le hk),
        fun k t hmem => ?_⟩
      · have hcases : i < pool.numWorkers ∨ i = pool.numWorkers := Nat.lt_succ_iff_lt_or_eq.mp hi
        rcases hcases with hlt | rfl
        · rw [employ_workers_lt hlt]
          exact h.kept i (Nat.zero_le i) hlt
        · rw [employ_reactor_last]
          exact h.unborn _ (Nat.le_refl _)
      -- a started worker is an old one, or the one in the new slot
      · have hcases : .started k t ∈ pool.trace ∨ k = pool.nextReactor := by
          simp only [ThreadPool.employ, ThreadPool.hire, List.mem_append, List.mem_cons,
            List.not_mem_nil, or_false, Function.update_self, PoolEv.started.injEq] at hmem
          rcases hmem with (hmem | hmem) | hmem
          · exact .inl hmem
          · cases hmem
          · exact .inr hmem.1
        rcases hcases with hold | rfl
        · rcases h.gone k t hold with ⟨i, hle, hi, hw⟩ | hone
          · exact .inl ⟨i, hle, Nat.lt_succ_of_lt hi, by rw [employ_workers_lt hi, hw]⟩
          · exact .inr hone
        · exact .inl ⟨pool.numWorkers, Nat.zero_le _, Nat.lt_succ_self _, employ_reactor_last⟩

/-- The reactor in slot `i` is destroyed. -/
theorem Frees.once_more {freed : Nat → Nat} {j i : Nat} (h : Frees pool freed j) (hle : j ≤ i)
    (hi : i < pool.numWorkers) (k : Nat) :
    Function.update freed (pool.workers i).reactor (freed (pool.workers i).reactor + 1) k ≤ 1 := by
  rcases eq_or_ne k (pool.workers i).reactor with rfl | hne
  · simp [h.kept i hle hi]
  · simpa [hne] using h.once k

theorem Frees.retired {freed : Nat → Nat} {i : Nat} (h : Frees pool freed 0) (hst : Staffed pool)
    (hi : i < pool.numWorkers) : Frees (retireWorker pool i)
      (Function.update freed (pool.workers i).reactor (freed (pool.workers i).reactor + 1)) 0 := by
  refine ⟨h.once_more (Nat.zero_le i) hi, fun j _ hj => ?_, fun k hk => ?_, fun k t hmem => ?_⟩
  · obtain ⟨hlt, hne⟩ := cameFrom_lt hi hj
    rw [(retireWorker_slot pool i j).1,
      Function.update_of_ne (fun h0 => hne (hst.inj _ hlt i hi h0))]
    exact h.kept _ (Nat.zero_le _) hlt
  · have hne : k ≠ (pool.workers i).reactor := Nat.ne_of_gt (Nat.lt_of_lt_of_le (hst.reactor_lt hi) hk)
    rw [Function.update_of_ne hne]
    exact h.unborn k hk
  · have hold : .started k t ∈ pool.trace := by simpa [retireWorker] using hmem
    rcases eq_or_ne k (pool.workers i).reactor with rfl | hne
    · exact .inr (by simp [h.kept i (Nat.zero_le i) hi])
    · rw [Function.update_of_ne hne]
      rcases h.gone k t hold with ⟨m, _, hm, rfl⟩ | hone
      · obtain ⟨m', hm', hw⟩ := retireWorker_keeps hi hm (fun h0 => hne (by rw [h0]))
        exact .inl ⟨m', Nat.zero_le _, hm', hw⟩
      · exact .inr hone

theorem Frees.cleared {freed : Nat → Nat} {i : Nat} (h : Frees pool freed i) (hst : Staffed pool)
    (hi : i < pool.numWorkers) : Frees pool
      (Function.update freed (pool.workers i).reactor (freed (pool.workers i).reactor + 1)) (i + 1) := by
  refine ⟨h.once_more (Nat.le_refl i) hi, fun j hle hj => ?_, fun k hk => ?_, fun k t hmem => ?_⟩
  · rw [Function.update_of_ne (fun h0 => by have := hst.inj j hj i hi h0; omega)]
    exact h.kept j (Nat.le_of_succ_le hle) hj
  · have hne : k ≠ (pool.workers i).reactor := Nat.ne_of_gt (Nat.lt_of_lt_of_le (hst.reactor_lt hi) hk)
    rw [Function.update_of_ne hne]
    exact h.unborn k hk
  · rcases eq_or_ne k (pool.workers i).reactor with rfl | hne
    · exact .inr (by simp [h.kept i (Nat.le_refl i) hi])
    · rw [Function.update_of_ne hne]
      rcases h.gone k t hmem with ⟨m, hle, hm, hw⟩ | hone
      · refine .inl ⟨m, Nat.lt_of_le_of_ne hle ?_, hm, hw⟩
        rintro rfl
        exact hne hw.symm
      · exact .inr hone

theorem Frees.ended {freed : Nat → Nat} {i : Nat} (h : Frees pool freed i)
    (hi : pool.numWorkers ≤ i) : Frees (endWorkers pool) freed 0 := by
  refine ⟨h.once, fun j _ hj => absurd hj (Nat.not_lt_zero j), h.unborn, fun k t hmem => ?_⟩
  have hold : .started k t ∈ pool.trace := by simpa [endWorkers] using hmem
  rcases h.gone k t hold with ⟨m, hle, hm, _⟩ | hone
  · exact absurd hm (Nat.not_lt.mpr (Nat.le_trans hi hle))
  · exact .inr hone

end HttpServer
