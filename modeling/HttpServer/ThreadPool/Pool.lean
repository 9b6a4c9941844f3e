import Mathlib.Tactic

set_option autoImplicit false

/-! # The worker pool (`src/thread_pool.c`)

The pool keeps an array of workers, each a reactor with the thread that runs it. `pool_create`
starts the first of them, the monitor calls `tune_pool` from time to time, and `pool_destroy`
ends them all. Every change is made under the lock of the pool, so a run is a sequence of
these calls.

The reactors and the threads are numbered in the order they are made. Which calls of
`calloc`, `reactor_create` and `pthread_create` fail, and the loads the monitor samples, are
inputs. The pool also keeps the list of the calls made on reactors and threads.
-/

namespace HttpServer

/-! ## Data -/

/-- `struct pool_config`, without the interval of the monitor. -/
structure PoolConfig where
  port : Int
  docRoot : Option (List UInt8)
  minWorkers : Int
  maxWorkers : Int
  loadHigh : Int
  loadLow : Int
  deriving DecidableEq, Repr

/-- The part of `struct reactor_config` the pool sets. -/
structure ReactorConfig where
  port : Int
  docRoot : Option (List UInt8)
  reusePort : Bool
  deriving DecidableEq, Repr

/-- `struct worker`. -/
structure Worker where
  id : Nat
  reactor : Nat
  thread : Nat
  deriving DecidableEq, Repr

/-- A call on a reactor or a thread. -/
inductive PoolEv
  | created (reactor : Nat) (rc : ReactorConfig)
  | started (reactor thread : Nat)
  | stopped (reactor : Nat)
  | joined (thread : Nat)
  | destroyed (reactor : Nat)
  deriving DecidableEq, Repr

/-- `struct thread_pool`. `workers` is the array with what is left in it past `numWorkers`;
`monitor` says whether the thread of the monitor runs. -/
structure ThreadPool where
  cfg : PoolConfig
  port : Int
  workers : Nat → Worker
  numWorkers : Nat
  monitor : Bool
  nextReactor : Nat
  nextThread : Nat
  trace : List PoolEv

namespace ThreadPool

def log (pool : ThreadPool) (evs : List PoolEv) : ThreadPool :=
  { pool with trace := pool.trace ++ evs }

/-- The configuration of the reactors of a pool. -/
def reactorConfig (pool : ThreadPool) : ReactorConfig where
  port := pool.port
  docRoot := pool.cfg.docRoot
  reusePort := true

end ThreadPool

/-! ## Starting a worker -/

/-- How the calls of `spawn_worker` go. -/
inductive SpawnRes
  | noReactor
  | noThread
  | started
  deriving DecidableEq, Repr

/-- The pool after `reactor_create`, with the slot of the new worker filled in. -/
def ThreadPool.hire (pool : ThreadPool) : ThreadPool :=
  { pool with
    workers := Function.update pool.workers pool.numWorkers
      ⟨pool.numWorkers, pool.nextReactor, (pool.workers pool.numWorkers).thread⟩
    nextReactor := pool.nextReactor + 1
    trace := pool.trace ++ [.created pool.nextReactor pool.reactorConfig] }

/-- The pool after `pthread_create`, which writes the thread into the slot. -/
def ThreadPool.employ (pool : ThreadPool) : ThreadPool :=
  { pool with
    workers := Function.update pool.workers pool.numWorkers
      { pool.workers pool.numWorkers with thread := pool.nextThread }
    numWorkers := pool.numWorkers + 1
    nextThread := pool.nextThread + 1
    trace := pool.trace ++
      [.started (pool.workers pool.numWorkers).reactor pool.nextThread] }

def spawnWorker (pool : ThreadPool) (res : SpawnRes) : ThreadPool :=
  if pool.cfg.maxWorkers ≤ pool.numWorkers then pool
  else
    match res with
    | .noReactor => pool
    | .noThread => pool.hire.log [.destroyed pool.nextReactor]
    | .started => pool.hire.employ

/-! ## Retiring a worker -/

/-- Stop, join and destroy the worker in slot `i`, and move the last one there. -/
def retireWorker (pool : ThreadPool) (i : Nat) : ThreadPool :=
  { pool with
    workers := Function.update pool.workers i
      { pool.workers (pool.numWorkers - 1) with id := i }
    numWorkers := pool.numWorkers - 1
    trace := pool.trace ++ [.stopped (pool.workers i).reactor, .joined (pool.workers i).thread,
      .destroyed (pool.workers i).reactor] }

/-- `retire_idle_worker`; `loads i` is what `reactor_active_connections` returns for slot `i`. -/
def retireIdleWorker (pool : ThreadPool) (loads : Nat → Int) : ThreadPool :=
  if (pool.numWorkers : Int) ≤ pool.cfg.minWorkers then pool
  else
    match (List.range pool.numWorkers).find? (fun i => decide (loads i = 0)) with
    | none => pool
    | some i => retireWorker pool i

/-! ## Tuning -/

/-- What one call of `tune_pool` meets. The loads are read once for the sum, and again by
`retire_idle_worker`. -/
structure Sample where
  loads : Nat → Int
  idle : Nat → Int
  spawn : SpawnRes

def tunePool (pool : ThreadPool) (s : Sample) : ThreadPool :=
  let total := ((List.range pool.numWorkers).map s.loads).sum
  if pool.cfg.loadHigh < total then spawnWorker pool s.spawn
  else if total < pool.cfg.loadLow then retireIdleWorker pool s.idle
  else pool

/-- The calls of `tune_pool` by the monitor, one after the other. -/
def tuneRun (pool : ThreadPool) (samples : List Sample) : ThreadPool :=
  samples.foldl tunePool pool

/-! ## Creation and destruction -/

/-- What `pool_create` meets: whether its two blocks are allocated, the port
`pick_ephemeral_port` returns, how the spawns go, and whether the monitor is started. -/
structure StartUp where
  callocPool : Bool
  callocWorkers : Bool
  ephemeralPort : Int
  spawns : Nat → SpawnRes
  monitor : Bool

/-- The checks `pool_create` makes on its configuration. -/
def PoolConfig.Valid (cfg : PoolConfig) : Prop :=
  1 ≤ cfg.minWorkers ∧ cfg.minWorkers ≤ cfg.maxWorkers

instance (cfg : PoolConfig) : Decidable cfg.Valid :=
  inferInstanceAs (Decidable (_ ∧ _))

/-- The pool before its first worker. -/
def emptyPool (cfg : PoolConfig) (port : Int) : ThreadPool where
  cfg := cfg
  port := port
  workers := fun _ => ⟨0, 0, 0⟩
  numWorkers := 0
  monitor := false
  nextReactor := 0
  nextThread := 0
  trace := []

/-- The first `n` turns of the loop that starts the baseline workers. -/
def startWorkers (pool : ThreadPool) (spawns : Nat → SpawnRes) (n : Nat) : ThreadPool :=
  (List.range n).foldl (fun pool i => spawnWorker pool (spawns i)) pool

def poolPort (cfg : PoolConfig) (env : StartUp) : Int :=
  if 0 < cfg.port then cfg.port else env.ephemeralPort

/-- `pool_create`; `none` is `NULL`. That the monitor was not started goes unnoticed. -/
def poolCreate (cfg : PoolConfig) (env : StartUp) : Option ThreadPool :=
  if ¬ cfg.Valid then none
  else if env.callocPool = false then none
  else if env.callocWorkers = false then none
  else if poolPort cfg env ≤ 0 then none
  else
    let pool := startWorkers (emptyPool cfg (poolPort cfg env)) env.spawns cfg.minWorkers.toNat
    some { pool with monitor := env.monitor }

/-- The three loops of `pool_destroy` over the workers. -/
def endWorkers (pool : ThreadPool) : ThreadPool :=
  let slots := (List.range pool.numWorkers).map pool.workers
  { pool with
    numWorkers := 0
    trace := pool.trace ++ (slots.map (fun w => PoolEv.stopped w.reactor) ++
      slots.map (fun w => PoolEv.joined w.thread) ++
      slots.map (fun w => PoolEv.destroyed w.reactor)) }

/-- `pool_destroy`. It first joins the monitor; where the thread of the monitor was never started
`pthread_join` returns an error for the zero handle, which goes unnoticed. -/
def poolDestroy (pool : ThreadPool) : ThreadPool := endWorkers pool

end HttpServer
