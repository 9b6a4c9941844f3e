import HttpServer.ThreadPool.Ending

set_option autoImplicit false

/-! # Runs of the pool with its threads

In every run the pool is the one `tuneRun` and `poolDestroy` compute, and no reactor is destroyed
while its thread runs (`shutdown_safe`). Once `stop` is set the run is bounded, and it ends with
the return of `pool_destroy` (`shutdown_ends`).

`Payroll` is the invariant, one field for each thing that is kept along a move: the pool, the
threads that run, the workers that have been told to stop and the reactors that are gone. The
bound is a weight that every move lowers once `stop` is set (`Move.weight_lt`): each worker has
to be told, to leave and to be cleared, and the monitor cannot start another turn. That the run
does not get stuck before the end is `Payroll.canGo`, by cases on where the destroyer stands.
-/

namespace HttpServer

open CLib

variable {pool pool₀ : ThreadPool} {cfg : PoolConfig} {env : StartUp} {s s' : Shutdown} {act : ShutAct}

/-! ## The pool -/

/-- The pool is what `tune_pool` has made of it, and what `pool_destroy` has left. -/
def Shutdown.Tunes (pool₀ : ThreadPool) (s : Shutdown) : Prop :=
  s.pool = if s.destroyer = .done then endWorkers (tuneRun pool₀ s.tuned) else tuneRun pool₀ s.tuned

theorem Shutdown.Tunes.eq (h : s.Tunes pool₀) (hd : s.destroyer ≠ .done) :
    s.pool = tuneRun pool₀ s.tuned := h.trans (if_neg hd)

theorem Shutdown.Tunes.of_eq (h : s.pool = tuneRun pool₀ s.tuned) (hd : s.destroyer ≠ .done) :
    s.Tunes pool₀ := h.trans (if_neg hd).symm

theorem tuneRun_concat (pool : ThreadPool) (samples : List Sample) (x : Sample) :
    tuneRun pool (samples ++ [x]) = tunePool (tuneRun pool samples) x := by
  rw [tuneRun, List.foldl_append]
  rfl

/-- While the monitor runs, `pool_destroy` has not joined it. -/
theorem Control.not_alone (h : Control s) (hm : s.monitor ≠ .ended) : s.destroyer.alone = false :=
  eq_false_of_ne_true (fun h0 => hm (h.alone h0))

theorem DestroyerPc.ne_done {d : DestroyerPc} (h : d.alone = false) : d ≠ .done := by
  rintro rfl
  cases h

/-- The monitor joins the worker that `tune_pool` retires, and has told it to stop. -/
def Dismissal (s : Shutdown) : Prop :=
  ∀ x i, s.monitor = .retiring x i → retires s.pool x = some i ∧ s.told (s.slot i) = true

theorem Move.tunes (h : Move s act s') (hc : Control s) (hdis : Dismissal s) (ht : s.Tunes pool₀) :
    s'.Tunes pool₀ := by
  cases h with
  | locked | skipped | slept | relocked | broken | again | quit | retiring | woken | left | failed =>
      exact ht
  | tuned hm =>
      have hd : s.destroyer ≠ .done := DestroyerPc.ne_done (hc.not_alone (by rw [hm]; simp))
      refine .of_eq ?_ hd
      change tunePool s.pool _ = tuneRun pool₀ (s.tuned ++ [_])
      rw [tuneRun_concat, ht.eq hd]
  | retired hm =>
      have hd : s.destroyer ≠ .done := DestroyerPc.ne_done (hc.not_alone (by rw [hm]; simp))
      refine .of_eq ?_ hd
      change retireWorker s.pool _ = tuneRun pool₀ (s.tuned ++ [_])
      rw [tuneRun_concat, ← ht.eq hd, (retires_some (hdis _ _ hm).1).2]
  | called hd | entered hd | stopped hd | joined hd | reentered hd | told hd | toldAll hd | parted hd
  | partedAll hd | cleared hd =>
      exact .of_eq (ht.eq (by rw [hd]; simp)) (by simp)
  | clearedAll hd =>
      have hpool := ht.eq (by rw [hd]; simp)
      exact (congrArg endWorkers hpool).trans (if_pos rfl).symm

/-! ## Threads and reactors -/

theorem Move.threads (h : Move s act s') (hst : s.destroyer ≠ .done → Staffed s.pool)
    (hc : Control s) (hdis : Dismissal s) (hrun : ∀ i, s.destroyer = .clearing i → s.running = [])
    (ht : Threads s.pool s.running) : Threads s'.pool s'.running := by
  cases h with
  | locked | skipped | slept | relocked | broken | again | quit | retiring | woken => exact ht
  | tuned hm _ hi =>
      have hd : s.destroyer ≠ .done := DestroyerPc.ne_done (hc.not_alone (by rw [hm]; simp))
      exact ht.grown (hst hd) (retires_none hi)
  | retired hm hnot => exact ht.retired (retires_some (hdis _ _ hm).1).1 hnot
  | called | entered | stopped | joined | reentered | told | toldAll | parted | partedAll | cleared =>
      exact ht
  | clearedAll hd =>
      change Threads _ s.running
      rw [hrun _ hd]
      exact ⟨List.nodup_nil, fun k hk => by cases hk⟩
  | left => exact ht.erase _
  | failed => exact ht.erase _

/-- The slots whose reactors `pool_destroy` has destroyed. -/
def DestroyerPc.cleared : DestroyerPc → Nat
  | .clearing i => i
  | _ => 0

theorem DestroyerPc.cleared_eq_zero {d : DestroyerPc} (h : d.alone = false) : d.cleared = 0 := by
  cases d with
  | clearing => cases h
  | absent | entering | stopping | joining | reentering | telling | parting | done => rfl

theorem Move.frees (h : Move s act s') (hst : s.destroyer ≠ .done → Staffed s.pool)
    (hc : Control s) (hdis : Dismissal s) (hf : Frees s.pool s.freed s.destroyer.cleared) :
    Frees s'.pool s'.freed s'.destroyer.cleared := by
  cases h with
  | locked | skipped | slept | relocked | broken | again | quit | retiring | woken | left | failed =>
      exact hf
  | tuned hm _ hi =>
      have hd := hc.not_alone (by rw [hm]; simp)
      change Frees _ _ s.destroyer.cleared
      rw [DestroyerPc.cleared_eq_zero hd] at hf ⊢
      exact hf.grown (retires_none hi)
  | retired hm =>
      have hd := hc.not_alone (by rw [hm]; simp)
      change Frees _ _ s.destroyer.cleared
      rw [DestroyerPc.cleared_eq_zero hd] at hf ⊢
      exact hf.retired (hst (DestroyerPc.ne_done hd)) (retires_some (hdis _ _ hm).1).1
  | called hd | entered hd | stopped hd | joined hd | reentered hd | told hd | toldAll hd | parted hd
  | partedAll hd =>
      rw [hd] at hf
      exact hf
  | cleared hd hi =>
      have hstaffed := hst (by rw [hd]; simp)
      rw [hd] at hf
      exact hf.cleared hstaffed hi
  | clearedAll hd hi =>
      rw [hd] at hf
      exact hf.ended hi

/-! ## Goodbyes -/

theorem Move.dismissal (h : Move s act s') (hc : Control s) (hdis : Dismissal s) : Dismissal s' := by
  cases h with
  | retiring hm hs hi =>
      intro x i h0
      cases h0
      exact ⟨hi, Function.update_self ..⟩
  | locked | skipped | slept | relocked | broken | again | quit | tuned | retired | woken =>
      intro x i h0
      cases h0
  | called | entered | joined | reentered | toldAll | parted | partedAll | left | failed => exact hdis
  | stopped hd =>
      intro x i h0
      cases (hc.stopped hd).leaves rfl |>.symm.trans (congrArg MonitorPc.leaves h0)
  | told hd | cleared hd | clearedAll hd =>
      intro x i h0
      cases (hc.alone (by rw [hd]; rfl)).symm.trans h0

/-- What `pool_destroy` has done so far to end the threads of the workers. -/
def Goodbye (s : Shutdown) : Prop :=
  match s.destroyer with
  | .telling i => ∀ j < i, s.told (s.slot j) = true
  | .parting i =>
      (∀ j < s.pool.numWorkers, s.told (s.slot j) = true) ∧ ∀ j < i, s.slot j ∉ s.running
  | .clearing _ | .done => s.running = []
  | .absent | .entering | .stopping | .joining | .reentering => True

theorem Goodbye.of_not_alone (h : s.destroyer.alone = false) : Goodbye s := by
  unfold Goodbye
  cases hd : s.destroyer with
  | absent | entering | stopping | joining => trivial
  | reentering | telling | parting | clearing | done => rw [hd] at h; cases h

/-- A thread that ends changes nothing of that. -/
theorem Goodbye.erase (h : Goodbye s) (k : Nat) :
    Goodbye { s with running := s.running.erase k } := by
  unfold Goodbye at h ⊢
  cases hd : s.destroyer with
  | absent | entering | stopping | joining | reentering => trivial
  | telling i =>
      rw [hd] at h
      exact h
  | parting i =>
      rw [hd] at h
      exact ⟨h.1, fun j hj hmem => h.2 j hj (List.mem_of_mem_erase hmem)⟩
  | clearing i =>
      rw [hd] at h
      exact (congrArg (List.erase · k) h).trans (List.erase_nil k)
  | done =>
      rw [hd] at h
      exact (congrArg (List.erase · k) h).trans (List.erase_nil k)

theorem Goodbye.parting (h : Goodbye s) {i : Nat} (hd : s.destroyer = .parting i) :
    (∀ j < s.pool.numWorkers, s.told (s.slot j) = true) ∧ ∀ j < i, s.slot j ∉ s.running := by
  rw [Goodbye, hd] at h
  exact h

theorem Goodbye.none (h : Goodbye s) (hd : s.destroyer = .done ∨ ∃ i, s.destroyer = .clearing i) :
    s.running = [] := by
  rcases hd with hd | ⟨i, hd⟩
  · rw [Goodbye, hd] at h
    exact h
  · rw [Goodbye, hd] at h
    exact h

theorem Move.goodbye (h : Move s act s') (hc : Control s) (ht : Threads s.pool s.running)
    (hg : Goodbye s) : Goodbye s' := by
  cases h with
  -- nothing is asked of the workers while the monitor is there
  | locked hm | skipped hm | slept hm | relocked hm | broken hm | again hm | quit hm | retiring hm
  | tuned hm | retired hm | woken hm =>
      exact .of_not_alone (hc.not_alone (by rw [hm]; simp))
  | called | entered | stopped => exact .of_not_alone rfl
  | joined => trivial
  | reentered => exact fun j hj => absurd hj (Nat.not_lt_zero j)
  | @told i hd hi =>
      rw [Goodbye, hd] at hg
      intro j hj
      rcases Nat.lt_succ_iff_lt_or_eq.mp hj with hj | rfl
      · rcases eq_or_ne (s.slot j) (s.slot i) with heq | hne
        · exact (congrArg _ heq).trans (Function.update_self ..)
        · exact (Function.update_of_ne hne ..).trans (hg j hj)
      · exact Function.update_self ..
  -- all have been told, and the joins begin
  | toldAll hd hi =>
      rw [Goodbye, hd] at hg
      exact ⟨fun j hj => hg j (Nat.lt_of_lt_of_le hj hi), fun j hj => absurd hj (Nat.not_lt_zero j)⟩
  | parted hd hi hrun =>
      have hold := hg.parting hd
      refine ⟨hold.1, fun j hj => ?_⟩
      rcases Nat.lt_succ_iff_lt_or_eq.mp hj with hj | rfl
      · exact hold.2 j hj
      · exact hrun
  | partedAll hd hi => exact ht.none (fun j hj => (hg.parting hd).2 j (Nat.lt_of_lt_of_le hj hi))
  | cleared hd => exact hg.none (.inr ⟨_, hd⟩)
  | clearedAll hd => exact hg.none (.inr ⟨_, hd⟩)
  | left => exact hg.erase _
  | failed => exact hg.erase _

/-! ## Safety -/

/-- The invariant of a run. -/
structure Payroll (pool₀ : ThreadPool) (s : Shutdown) : Prop where
  control : Control s
  tunes : s.Tunes pool₀
  threads : Threads s.pool s.running
  frees : Frees s.pool s.freed s.destroyer.cleared
  dismissal : Dismissal s
  goodbye : Goodbye s

theorem Move.payroll (hstaffed : ∀ samples, Staffed (tuneRun pool₀ samples)) (h : Move s act s')
    (hp : Payroll pool₀ s) : Payroll pool₀ s' := by
  have hst : s.destroyer ≠ .done → Staffed s.pool := by
    intro hd
    rw [hp.tunes.eq hd]
    exact hstaffed s.tuned
  exact ⟨h.control hp.control, h.tunes hp.control hp.dismissal hp.tunes,
    h.threads hst hp.control hp.dismissal (fun i hd => hp.goodbye.none (.inr ⟨i, hd⟩)) hp.threads,
    h.frees hst hp.control hp.dismissal hp.frees, h.dismissal hp.control hp.dismissal,
    h.goodbye hp.control hp.threads hp.goodbye⟩

theorem startShutdown_eq {s₀ : Shutdown} (h : startShutdown pool = some s₀) :
    pool.monitor = true ∧ s₀ = begunShutdown pool := by
  simp only [startShutdown, Option.ite_none_right_eq_some, Option.some.injEq] at h
  exact ⟨h.1, h.2.symm⟩

/-- `pool_create` stops no worker, so those it has started are in the array. -/
theorem startedPool_listed (hvalid : cfg.Valid) {k t : Nat}
    (hmem : .started k t ∈ (startedPool cfg env).trace) :
    ∃ i < (startedPool cfg env).numWorkers, ((startedPool cfg env).workers i).reactor = k := by
  have hstaffed := startedPool_staffed cfg env hvalid
  have hstopped : ∀ k, .stopped k ∉ (startedPool cfg env).trace := by
    refine startWorkers_rule (I := fun p => ∀ k, .stopped k ∉ p.trace) env.spawns ?_ _ ?_
    · intro p res p' hs hI k hk
      cases hs with
      | full => exact hI k hk
      | noReactor => exact hI k hk
      | noThread => exact hI k (by simpa [ThreadPool.log, ThreadPool.hire] using hk)
      | started => exact hI k (by simpa [ThreadPool.employ, ThreadPool.hire] using hk)
    · intro k hk
      cases hk
  rcases hstaffed.others k (hstaffed.known _ hmem).1 with hlisted | hgone
  · exact hlisted
  · cases hgone with
    | unstarted hlife =>
        have hin : .started k t ∈ (startedPool cfg env).life k none :=
          List.mem_filter.mpr ⟨hmem, by simp [PoolEv.concerns]⟩
        rw [hlife] at hin
        simp at hin
    | started t' hlife =>
        have hin : .stopped k ∈ (startedPool cfg env).life k (some t') := by
          simp [hlife, ThreadPool.retired]
        exact absurd (List.mem_filter.mp hin).1 (hstopped k)

theorem begunShutdown_payroll (hvalid : cfg.Valid) :
    Payroll (startedPool cfg env) (begunShutdown (startedPool cfg env)) where
  control :=
    { lock := fun u => by cases u with
        | monitor => simp [begunShutdown, Shutdown.holds, MonitorPc.holds]
        | destroyer => simp [begunShutdown, Shutdown.holds, DestroyerPc.holds]
      stop := rfl
      ended := fun h => by cases h
      leaves := fun h => by cases h
      alone := fun h => by cases h }
  tunes := (if_neg (by simp [begunShutdown])).symm
  threads := by
    have hstaffed := startedPool_staffed cfg env hvalid
    refine ⟨?_, fun k hk => ?_⟩
    · refine List.Nodup.map_on (fun i hi j hj heq => ?_) List.nodup_range
      exact hstaffed.inj i (List.mem_range.mp hi) j (List.mem_range.mp hj) heq
    · obtain ⟨i, hi, hw⟩ := List.mem_map.mp hk
      exact ⟨i, List.mem_range.mp hi, hw⟩
  frees :=
    { once := fun _ => Nat.zero_le 1
      kept := fun _ _ _ => rfl
      unborn := fun _ _ => rfl
      gone := fun k t hmem => by
        obtain ⟨i, hi, hw⟩ := startedPool_listed hvalid hmem
        exact .inl ⟨i, Nat.zero_le i, hi, hw⟩ }
  dismissal := fun x i h => by cases h
  goodbye := trivial

theorem run_payroll {s₀ : Shutdown} (h : poolCreate cfg env = some pool)
    (hs : startShutdown pool = some s₀) (acts : List ShutAct) : Payroll pool (shutRun s₀ acts) := by
  obtain ⟨hvalid, rfl⟩ := poolCreate_eq h
  obtain ⟨_, rfl⟩ := startShutdown_eq hs
  have hstaffed : ∀ samples, Staffed (tuneRun (startedPool cfg env) samples) := fun samples =>
    tuneRun_rule (fun _ _ ht hI => ht.staffed hI) samples (startedPool_staffed cfg env hvalid)
  exact shutRun_rule (fun _ _ _ hmove hI => hmove.payroll hstaffed hI) acts
    (begunShutdown_payroll hvalid)

/-- What is asked of every state of a run: no reactor whose thread runs has been destroyed and none
has been destroyed twice, the pool is the one the monitor has tuned, and when `pool_destroy` has
returned no thread is left, each worker that was ever started has been destroyed, and the pool is
what `poolDestroy` makes of it. -/
structure SafeShutdown (pool₀ : ThreadPool) (s : Shutdown) : Prop where
  alive : ∀ k ∈ s.running, s.freed k = 0
  once : ∀ k, s.freed k ≤ 1
  tuned : s.destroyer ≠ .done → s.pool = tuneRun pool₀ s.tuned
  returned : s.destroyer = .done →
    s.monitor = .ended ∧ s.running = [] ∧ s.lock = none ∧
      (∀ k t, .started k t ∈ s.pool.trace → s.freed k = 1) ∧
      poolDestroy (tuneRun pool₀ s.tuned) = s.pool

/-- **The pool is shut down safely.** However the steps of the monitor, of the caller of
`pool_destroy` and of the workers are interleaved, no thread runs on a reactor that has been
destroyed, no reactor is destroyed twice, and all is as if the monitor had tuned the pool a number
of times and then `pool_destroy` had run alone. -/
theorem shutdown_safe (cfg : PoolConfig) (env : StartUp) (pool : ThreadPool) (s₀ : Shutdown)
    (h : poolCreate cfg env = some pool) (hs : startShutdown pool = some s₀)
    (acts : List ShutAct) : SafeShutdown pool (shutRun s₀ acts) := by
  have hp := run_payroll h hs acts
  generalize shutRun s₀ acts = s at hp
  refine ⟨fun k hk => ?_, hp.frees.once, hp.tunes.eq, fun hd => ?_⟩
  · obtain ⟨i, hi, rfl⟩ := hp.threads.listed k hk
    refine hp.frees.kept i ?_ hi
    -- in the last loop of `pool_destroy` no thread is left
    cases hd : s.destroyer with
    | clearing j =>
        rw [hp.goodbye.none (.inr ⟨j, hd⟩)] at hk
        cases hk
    | absent | entering | stopping | joining | reentering | telling | parting | done =>
        exact Nat.zero_le i
  · have halone := hp.control.alone (by rw [hd]; rfl)
    have hpool : s.pool = endWorkers (tuneRun pool s.tuned) := hp.tunes.trans (if_pos hd)
    refine ⟨halone, hp.goodbye.none (.inl hd), ?_, fun k t hmem => ?_, ?_⟩
    · cases hl : s.lock with
      | none => rfl
      | some u =>
          have hheld := (hp.control.lock u).mp hl
          cases u with
          | monitor => rw [Shutdown.holds, halone] at hheld; cases hheld
          | destroyer => rw [Shutdown.holds, hd] at hheld; cases hheld
    · rcases hp.frees.gone k t hmem with ⟨i, _, hi, _⟩ | hone
      · rw [hpool] at hi
        exact absurd hi (Nat.not_lt_zero i)
      · exact hone
    · exact hpool.symm

/-! A pool of two workers that is shut down while the monitor retires the third. -/

def shutdownActs : List ShutAct :=
  [.monitor busySample, .monitor busySample, .wake true, .monitor busySample, .monitor busySample,
   .monitor busySample,
   .monitor calmSample, .monitor calmSample, .wake true, .monitor calmSample, .monitor calmSample,
   .monitor calmSample, .call, .destroy, .leave 1, .monitor calmSample, .destroy, .destroy,
   .monitor calmSample, .monitor calmSample, .monitor calmSample, .destroy, .destroy,
   .destroy, .destroy, .destroy, .leave 2, .leave 0, .destroy, .destroy, .destroy,
   .destroy, .destroy, .destroy]

theorem shutdown_safe_small :
    SafeShutdown (startedPool smallConfig goodStart)
        (shutRun (begunShutdown (startedPool smallConfig goodStart)) shutdownActs) ∧
      (shutRun (begunShutdown (startedPool smallConfig goodStart)) shutdownActs).destroyer = .done ∧
      (shutRun (begunShutdown (startedPool smallConfig goodStart)) shutdownActs).tuned.length = 2 :=
  ⟨shutdown_safe smallConfig goodStart _ _ rfl rfl shutdownActs, by decide +kernel, by decide +kernel⟩

/-! ## The way to the end -/

/-- The step is one of a thread of the pool that the others wait for: not the end of a wait, a
failure or the call itself. -/
def ShutAct.own : ShutAct → Bool
  | .monitor _ | .destroy | .leave _ => true
  | .wake _ | .call | .fail _ => false

/-- Some thread can make its next step. -/
def CanGo (s : Shutdown) : Prop := ∃ act, act.own = true ∧ (shutStep s act).isSome = true

theorem CanGo.destroy (h : (destroyStep s).isSome = true) : CanGo s := ⟨.destroy, rfl, h⟩

/-- A worker that has been told to stop leaves `reactor_run`, so its thread can be joined. -/
theorem CanGo.leave {k : Nat} (hrun : k ∈ s.running) (htold : s.told k = true) : CanGo s :=
  ⟨.leave k, rfl, by simp [shutStep, hrun, htold]⟩

/-- The monitor goes on while it holds the lock; it waits for a worker that it has told to stop. -/
theorem CanGo.monitor (hdis : Dismissal s) (hm : s.monitor.holds = true) : CanGo s := by
  cases hpc : s.monitor with
  | preparing | waiting | waking | ended => rw [hpc] at hm; cases hm
  | checking =>
      refine ⟨.monitor calmSample, rfl, ?_⟩
      cases hs : s.stop <;> simp [shutStep, monitorStep, hpc, hs]
  | awake b =>
      refine ⟨.monitor calmSample, rfl, ?_⟩
      cases hs : s.stop || b <;> simp [shutStep, monitorStep, hpc, hs]
  | deciding =>
      refine ⟨.monitor calmSample, rfl, ?_⟩
      cases hs : s.stop with
      | true => simp [shutStep, monitorStep, hpc, hs]
      | false => cases hr : retires s.pool calmSample <;> simp [shutStep, monitorStep, hpc, hs, hr]
  | retiring x i =>
      by_cases hrun : s.slot i ∈ s.running
      · exact .leave hrun (hdis x i hpc).2
      · exact ⟨.monitor calmSample, rfl, by simp [shutStep, monitorStep, hpc, hrun]⟩

/-- The monitor takes the lock, if it is free, to find that `stop` is set. -/
theorem CanGo.enters (hlock : s.lock = none) (hm : s.monitor.holds = false)
    (hleaves : s.monitor.leaves = true) (hend : s.monitor ≠ .ended) : CanGo s := by
  refine ⟨.monitor calmSample, rfl, ?_⟩
  cases hpc : s.monitor with
  | preparing => simp [shutStep, monitorStep, hpc, hlock]
  | waking => simp [shutStep, monitorStep, hpc, hlock]
  | waiting => rw [hpc] at hleaves; cases hleaves
  | ended => exact absurd hpc hend
  | checking | awake | deciding | retiring => rw [hpc] at hm; cases hm

theorem Payroll.canGo (h : Payroll pool₀ s) (hcalled : s.destroyer ≠ .absent)
    (hnot : s.destroyer ≠ .done) : CanGo s := by
  cases hm : s.monitor.holds with
  | true => exact .monitor h.dismissal hm
  | false =>
      -- where `pool_destroy` does not hold the lock either, the lock is free
      have hfree : s.destroyer.holds = false → s.lock = none := by
        intro hd
        cases hl : s.lock with
        | none => rfl
        | some u =>
            have hheld := (h.control.lock u).mp hl
            cases u with
            | monitor => cases hm.symm.trans hheld
            | destroyer => cases hd.symm.trans hheld
      cases hd : s.destroyer with
      | absent => exact absurd hd hcalled
      | done => exact absurd hd hnot
      | entering => exact .destroy (by simp [destroyStep, hd, hfree (by rw [hd]; rfl)])
      | reentering => exact .destroy (by simp [destroyStep, hd, hfree (by rw [hd]; rfl)])
      | stopping => exact .destroy (by simp [destroyStep, hd])
      | joining =>
          have hleaves := h.control.leaves (by rw [h.control.stop, hd]; rfl)
          by_cases hend : s.monitor = .ended
          · exact .destroy (by simp [destroyStep, hd, hend])
          · exact .enters (hfree (by rw [hd]; rfl)) hm hleaves hend
      | telling i =>
          refine .destroy ?_
          by_cases hi : i < s.pool.numWorkers <;> simp [destroyStep, hd, hi]
      | clearing i =>
          refine .destroy ?_
          by_cases hi : i < s.pool.numWorkers <;> simp [destroyStep, hd, hi]
      | parting i =>
          by_cases hi : i < s.pool.numWorkers
          · by_cases hrun : s.slot i ∈ s.running
            · exact .leave hrun ((h.goodbye.parting hd).1 i hi)
            · exact .destroy (by simp [destroyStep, hd, hi, hrun])
          · exact .destroy (by simp [destroyStep, hd, hi])

/-- The steps the monitor has before it when `stop` is set. -/
def MonitorPc.weight : MonitorPc → Nat
  | .preparing | .waking _ => 3
  | .checking | .awake _ => 2
  | .deciding => 1
  | .waiting | .retiring .. | .ended => 0

/-- The steps `pool_destroy` has before it once it has set `stop`, with `n` workers. -/
def DestroyerPc.weight (n : Nat) : DestroyerPc → Nat
  | .absent | .entering | .stopping | .done => 0
  | .joining => 3 * n + 5
  | .reentering => 3 * n + 4
  | .telling i => (n - i) + 2 * n + 3
  | .parting i => (n - i) + n + 2
  | .clearing i => (n - i) + 1

def Shutdown.weight (s : Shutdown) : Nat :=
  s.monitor.weight + s.destroyer.weight s.pool.numWorkers + s.running.length

/-- Every step made with `stop` set brings the end nearer. -/
theorem Move.weight_lt (h : Move s act s') (hc : Control s) (hs : s.stop = true) :
    s'.stop = true ∧ s'.weight < s.weight := by
  have hstop : s.destroyer.hasStopped = true := hc.stop.symm.trans hs
  cases h with
  | locked hm | skipped hm | relocked hm | broken hm | quit hm =>
      refine ⟨hs, ?_⟩
      simp only [Shutdown.weight, hm, MonitorPc.weight]
      omega
  | slept _ h0 | retiring _ h0 | tuned _ h0 => cases h0.symm.trans hs
  | again _ h0 => rw [hs] at h0; cases h0
  | retired hm | woken hm =>
      have hleaves := hc.leaves hs
      rw [hm] at hleaves
      cases hleaves
  | called hd | entered hd | stopped hd => rw [hd] at hstop; cases hstop
  | joined hd | reentered hd | told hd | toldAll hd | parted hd | partedAll hd | cleared hd
  | clearedAll hd =>
      refine ⟨hs, ?_⟩
      simp only [Shutdown.weight, hd, DestroyerPc.weight, Shutdown.tell, Shutdown.free]
      omega
  | left hk | failed hk =>
      refine ⟨hs, ?_⟩
      have hpos := List.length_pos_of_mem hk
      simp only [Shutdown.weight, List.length_erase_of_mem hk]
      omega

theorem Payroll.weight_le (h : Payroll pool₀ s) : s.weight ≤ 4 * s.pool.numWorkers + 8 := by
  have hrunning := h.threads.length_le
  have hmonitor : s.monitor.weight ≤ 3 := by cases s.monitor <;> simp [MonitorPc.weight]
  have hdestroyer : s.destroyer.weight s.pool.numWorkers ≤ 3 * s.pool.numWorkers + 5 := by
    cases s.destroyer <;> simp only [DestroyerPc.weight] <;> omega
  unfold Shutdown.weight
  omega

/-- **The pool does come to its end, if its workers leave `reactor_run`.** From the call of
`pool_destroy` to its return there is always a thread of the pool that can go on, where a worker
that has been told to stop goes on by leaving `reactor_run`; and once `stop` is set every run has
at most `4 * n + 8` steps left, where `n` is the number of workers. -/
theorem shutdown_ends (cfg : PoolConfig) (env : StartUp) (pool : ThreadPool) (s₀ : Shutdown)
    (h : poolCreate cfg env = some pool) (hs : startShutdown pool = some s₀)
    (acts : List ShutAct) :
    ((shutRun s₀ acts).destroyer ≠ .absent → (shutRun s₀ acts).destroyer ≠ .done →
      ∃ act, act.own = true ∧ (shutStep (shutRun s₀ acts) act).isSome = true) ∧
    ((shutRun s₀ acts).stop = true → ∀ (more : List ShutAct) (s' : Shutdown),
      more.foldlM shutStep (shutRun s₀ acts) = some s' →
      more.length ≤ 4 * (shutRun s₀ acts).pool.numWorkers + 8) := by
  have hp := run_payroll h hs acts
  generalize shutRun s₀ acts = s at hp
  refine ⟨hp.canGo, fun hstop more s' hrun => ?_⟩
  have hle := length_le_of_decreasing (I := fun t => Control t ∧ t.stop = true) Shutdown.weight
    (fun t act t' ht hstep => by
      obtain ⟨hs', hlt⟩ := (shutStep_move hstep).weight_lt ht.1 ht.2
      exact ⟨⟨(shutStep_move hstep).control ht.1, hs'⟩, hlt⟩) more ⟨hp.control, hstop⟩ hrun
  have hweight := hp.weight_le
  omega

/-- The steps of `shutdownActs` up to the one that sets `stop`, and the rest. -/
theorem shutdown_ends_small :
    (shutRun (begunShutdown (startedPool smallConfig goodStart)) (shutdownActs.take 18)).stop = true ∧
      ∃ act, act.own = true ∧
        (shutStep (shutRun (begunShutdown (startedPool smallConfig goodStart)) (shutdownActs.take 18))
          act).isSome = true :=
  ⟨by decide +kernel, (shutdown_ends smallConfig goodStart _ _ rfl rfl (shutdownActs.take 18)).1
    (by decide +kernel) (by decide +kernel)⟩

end HttpServer
