import HttpServer.ThreadPool.Pool
import Mathlib.Data.List.Range
import Mathlib.Data.List.Count

set_option autoImplicit false

/-! # The number of workers

`Spawned` and `Tuned` say what a call of `spawn_worker` and of `tune_pool` can do; invariants
of the pool are shown for these (`startWorkers_rule`, `tuneRun_rule`). The first of them: the
number of workers stays within its bounds, and starts there exactly when no spawn of
`pool_create` fails.
-/

namespace HttpServer

variable {pool pool' : ThreadPool} {cfg : PoolConfig} {env : StartUp}

/-! ## What the calls can do -/

/-- What `spawn_worker` can do. -/
inductive Spawned (pool : ThreadPool) (res : SpawnRes) : ThreadPool → Prop
  | full (h : pool.cfg.maxWorkers ≤ pool.numWorkers) : Spawned pool res pool
  | noReactor (h : res = .noReactor) : Spawned pool res pool
  | noThread (hroom : (pool.numWorkers : Int) < pool.cfg.maxWorkers) (h : res = .noThread) :
      Spawned pool res (pool.hire.log [.destroyed pool.nextReactor])
  | started (hroom : (pool.numWorkers : Int) < pool.cfg.maxWorkers) (h : res = .started) :
      Spawned pool res pool.hire.employ

theorem spawnWorker_spawned (pool : ThreadPool) (res : SpawnRes) :
    Spawned pool res (spawnWorker pool res) := by
  unfold spawnWorker
  split
  · rename_i hfull
    exact .full hfull
  · rename_i hroom
    cases res with
    | noReactor => exact .noReactor rfl
    | noThread => exact .noThread (by omega) rfl
    | started => exact .started (by omega) rfl

/-- What `tune_pool` can do. -/
inductive Tuned (pool : ThreadPool) : ThreadPool → Prop
  | same : Tuned pool pool
  | spawned {res : SpawnRes} {pool' : ThreadPool} (h : Spawned pool res pool') : Tuned pool pool'
  | retired {i : Nat} (hmin : pool.cfg.minWorkers < pool.numWorkers) (hi : i < pool.numWorkers) :
      Tuned pool (retireWorker pool i)

theorem tunePool_tuned (pool : ThreadPool) (s : Sample) : Tuned pool (tunePool pool s) := by
  unfold tunePool
  simp only
  split
  · exact .spawned (spawnWorker_spawned pool s.spawn)
  · split
    · unfold retireIdleWorker
      split
      · exact .same
      · rename_i hmin
        split
        · exact .same
        · rename_i i hfind
          exact .retired (by omega) (List.mem_range.mp (List.mem_of_find?_eq_some hfind))
    · exact .same

/-- What the spawns keep, the loop of `pool_create` keeps. -/
theorem startWorkers_rule {I : ThreadPool → Prop} (spawns : Nat → SpawnRes)
    (hstep : ∀ pool res pool', Spawned pool res pool' → I pool → I pool') (n : Nat)
    (hI : I pool) : I (startWorkers pool spawns n) :=
  List.foldlRecOn (List.range n) _ hI
    (fun pool h i _ => hstep _ _ _ (spawnWorker_spawned pool (spawns i)) h)

/-- What every tuning step keeps holds after every run of the monitor. -/
theorem tuneRun_rule {I : ThreadPool → Prop}
    (hstep : ∀ pool pool', Tuned pool pool' → I pool → I pool') (samples : List Sample)
    (hI : I pool) : I (tuneRun pool samples) :=
  List.foldlRecOn samples _ hI (fun pool h s _ => hstep _ _ (tunePool_tuned pool s) h)

/-- The pool that `pool_create` returns. -/
def startedPool (cfg : PoolConfig) (env : StartUp) : ThreadPool :=
  { startWorkers (emptyPool cfg (poolPort cfg env)) env.spawns cfg.minWorkers.toNat with
    monitor := env.monitor }

theorem poolCreate_eq (h : poolCreate cfg env = some pool) :
    cfg.Valid ∧ pool = startedPool cfg env := by
  unfold poolCreate at h
  split at h
  · cases h
  · rename_i hvalid
    split at h
    · cases h
    · split at h
      · cases h
      · split at h
        · cases h
        · exact ⟨not_not.mp hvalid, (Option.some.inj h).symm⟩

/-! ## The number of workers -/

theorem Spawned.cfg_eq {res : SpawnRes} (h : Spawned pool res pool') : pool'.cfg = pool.cfg := by
  cases h with
  | full => rfl
  | noReactor => rfl
  | noThread => rfl
  | started => rfl

theorem Tuned.cfg_eq (h : Tuned pool pool') : pool'.cfg = pool.cfg := by
  cases h with
  | same => rfl
  | spawned h => exact h.cfg_eq
  | retired => rfl

/-- A spawn that succeeds adds a worker, if there is room for it. -/
theorem Spawned.numWorkers {res : SpawnRes} (h : Spawned pool res pool')
    (hroom : (pool.numWorkers : Int) < pool.cfg.maxWorkers) :
    pool'.numWorkers = pool.numWorkers + if res = .started then 1 else 0 := by
  cases h with
  | full h => omega
  | noReactor h => rw [h]; rfl
  | noThread _ h => rw [h]; rfl
  | started _ h => rw [h]; rfl

theorem Tuned.bounds (h : Tuned pool pool') :
    (pool'.numWorkers ≤ pool.numWorkers + 1 ∧ pool.numWorkers ≤ pool'.numWorkers + 1) ∧
    ((pool.numWorkers : Int) ≤ pool.cfg.minWorkers → pool.numWorkers ≤ pool'.numWorkers) ∧
    (pool.cfg.minWorkers ≤ pool.numWorkers → pool.cfg.minWorkers ≤ pool'.numWorkers) ∧
    ((pool.numWorkers : Int) ≤ pool.cfg.maxWorkers →
      (pool'.numWorkers : Int) ≤ pool.cfg.maxWorkers) := by
  cases h with
  | same => omega
  | spawned h =>
      cases h with
      | full => omega
      | noReactor => omega
      | noThread => simp only [ThreadPool.log, ThreadPool.hire]; omega
      | started => simp only [ThreadPool.employ, ThreadPool.hire]; omega
  | retired hmin hi => simp only [retireWorker]; omega

/-- The number of workers is within the bounds of the configuration. -/
def WithinBounds (cfg : PoolConfig) (pool : ThreadPool) : Prop :=
  cfg.minWorkers ≤ pool.numWorkers ∧ (pool.numWorkers : Int) ≤ cfg.maxWorkers

theorem Tuned.withinBounds (h : Tuned pool pool') (hcfg : pool.cfg = cfg)
    (hb : WithinBounds cfg pool) : WithinBounds cfg pool' := by
  obtain ⟨_, _, hmin, hmax⟩ := h.bounds
  rw [hcfg] at hmin hmax
  exact ⟨hmin hb.1, hmax hb.2⟩

/-- During start-up every spawn that succeeds counts: there is always room. -/
theorem startWorkers_numWorkers (cfg : PoolConfig) (port : Int) (spawns : Nat → SpawnRes) (n : Nat)
    (hn : (n : Int) ≤ cfg.maxWorkers) :
    (startWorkers (emptyPool cfg port) spawns n).cfg = cfg ∧
    (startWorkers (emptyPool cfg port) spawns n).numWorkers =
      (List.range n).countP (fun i => decide (spawns i = .started)) := by
  induction n with
  | zero => exact ⟨rfl, rfl⟩
  | succ n ih =>
      obtain ⟨hcfg, hnum⟩ := ih (by omega)
      have hstep := spawnWorker_spawned (startWorkers (emptyPool cfg port) spawns n) (spawns n)
      have hle : (List.range n).countP (fun i => decide (spawns i = .started)) ≤ n := by
        simpa using List.countP_le_length (p := fun i => decide (spawns i = .started))
          (l := List.range n)
      rw [startWorkers, List.range_succ, List.foldl_append]
      refine ⟨hstep.cfg_eq.trans hcfg, ?_⟩
      rw [List.countP_append, ← hnum]
      refine (hstep.numWorkers ?_).trans ?_
      · rw [hcfg, hnum]
        omega
      · simp [List.countP_cons]

/-- **The baseline is there exactly when no spawn has failed.** The pool that `pool_create`
returns keeps the number of its workers within its bounds, whatever the monitor samples, if
and only if each of the first `min_workers` spawns has created its reactor and started its
thread. -/
theorem baseline_kept_iff (cfg : PoolConfig) (env : StartUp) (pool : ThreadPool)
    (h : poolCreate cfg env = some pool) :
    (∀ samples, WithinBounds cfg (tuneRun pool samples)) ↔
      ∀ i < cfg.minWorkers.toNat, env.spawns i = .started := by
  obtain ⟨⟨hmin, hmax⟩, hpool⟩ := poolCreate_eq h
  obtain ⟨hcfg, hnum⟩ : pool.cfg = cfg ∧ pool.numWorkers =
      (List.range cfg.minWorkers.toNat).countP (fun i => decide (env.spawns i = .started)) := by
    rw [hpool]
    exact startWorkers_numWorkers cfg (poolPort cfg env) env.spawns cfg.minWorkers.toNat (by omega)
  constructor
  -- at the start already as many workers are wanted as attempts were made
  · intro hall i hi
    have hstart : cfg.minWorkers ≤ pool.numWorkers := (hall []).1
    rw [hnum] at hstart
    have hle := List.countP_le_length (p := fun i => decide (env.spawns i = .started))
      (l := List.range cfg.minWorkers.toNat)
    rw [List.length_range] at hle
    have hcount := List.countP_eq_length.mp
      ((Nat.le_antisymm hle (by omega)).trans List.length_range.symm)
    simpa using hcount i (List.mem_range.mpr hi)
  · intro hall samples
    have hcount : (List.range cfg.minWorkers.toNat).countP
        (fun i => decide (env.spawns i = .started)) = cfg.minWorkers.toNat := by
      rw [List.countP_eq_length.mpr, List.length_range]
      intro i hi
      simpa using hall i (List.mem_range.mp hi)
    rw [hcount] at hnum
    -- no attempt has failed, and `tune_pool` stays within the bounds
    have hb : WithinBounds cfg pool := by
      simp only [WithinBounds, hnum]
      omega
    exact (tuneRun_rule (I := fun p => p.cfg = cfg ∧ WithinBounds cfg p)
      (fun p p' ht hI => ⟨ht.cfg_eq.trans hI.1, ht.withinBounds hI.1 hI.2⟩) samples ⟨hcfg, hb⟩).2

/-! A pool of two to three workers that is created without failures, and one whose first
reactor cannot be created: it runs with a single worker. -/

def smallConfig : PoolConfig := ⟨8080, none, 2, 3, 10, 5⟩

def goodStart : StartUp := ⟨true, true, 0, fun _ => .started, true⟩

def poorStart : StartUp := ⟨true, true, 0, fun i => if i = 0 then .noReactor else .started, true⟩

theorem baseline_kept_small : poolCreate smallConfig goodStart =
      some (startedPool smallConfig goodStart) ∧
    WithinBounds smallConfig (startedPool smallConfig goodStart) :=
  ⟨rfl, (baseline_kept_iff smallConfig goodStart _ rfl).mpr (fun _ _ => rfl) []⟩

theorem not_withinBounds_poor :
    ¬ ∀ cfg env pool, poolCreate cfg env = some pool →
      ∀ samples, WithinBounds cfg (tuneRun pool samples) := by
  intro h
  have hmin := (h smallConfig poorStart (startedPool smallConfig poorStart) rfl []).1
  have hnum : (startedPool smallConfig poorStart).numWorkers = 1 := by decide
  change (2 : Int) ≤ ((startedPool smallConfig poorStart).numWorkers : Int) at hmin
  rw [hnum] at hmin
  exact absurd hmin (by decide)

end HttpServer
