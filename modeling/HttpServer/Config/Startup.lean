import HttpServer.Config.Load
import HttpServer.ThreadPool.Pool

set_option autoImplicit false

/-! # From the configuration to the pool (`src/main.c`)

Whatever the file holds, each line leaves every field of the configuration in its range, so the
pool that `main` asks for is one that `pool_create` accepts. `configLoad_invariant` is the
induction over the lines. What it asks of a value is only what `strtok` guarantees, a string
without terminator and without equals sign, so the ranges come from the checks in `config_load`
alone.
-/

namespace HttpServer

open CLib

/-! ## Lines keep the ranges -/

/-- What `config_load` keeps, if setting a key to a value keeps it. A value is a C string without
an equals sign in it. -/
theorem configLoad_invariant {P : ServerConfig → Prop} (hdefault : P defaultConfig)
    (hset : ∀ cfg key value, (0 : UInt8) ∉ value → EQUALS ∉ value → P cfg → P (setKey cfg key value))
    (file : Option (List UInt8)) : P (configLoad file) := by
  have htrim : ∀ (l : List UInt8) c, c ∈ trimWhitespace l → c ∈ l := fun l c hc =>
    (List.dropWhile_sublist _).subset ((List.rdropWhile_prefix ..).subset hc)
  cases file with
  | none => exact hdefault
  | some text =>
      refine readLines_invariant (fun cfg buf hcfg => ?_) _ _ _ hdefault
      rw [configLine]
      generalize hline : (if (cstr buf).getLast? = some LF then (cstr buf).dropLast else cstr buf) = line
      -- the line is a part of a C string
      have hzero : (0 : UInt8) ∉ line := by
        intro hmem
        refine zero_not_mem_cstr buf ?_
        rw [← hline] at hmem
        split at hmem
        · exact List.mem_of_mem_dropLast hmem
        · exact hmem
      split
      · exact hcfg
      cases hkey : strtok EQUALS (trimWhitespace line) with
      | none => exact hcfg
      | some kr =>
          obtain ⟨key, rest⟩ := kr
          obtain ⟨-, -, hrest⟩ := strtok_mem hkey
          simp only
          cases hvalue : strtok EQUALS rest with
          | none => exact hcfg
          | some vr =>
              obtain ⟨value, more⟩ := vr
              obtain ⟨hno, hsub, -⟩ := strtok_mem hvalue
              refine hset cfg _ _ (fun hmem => hzero ?_) (fun hmem => hno (htrim _ _ hmem)) hcfg
              exact htrim _ _ (hrest 0 (hsub 0 (htrim _ _ hmem)))

/-- The array of a path field: the string, and zeros behind it. -/
def pathField (path : List UInt8) : List UInt8 :=
  path ++ List.replicate (configPathSize - path.length) 0

/-- A path that ends within its array. -/
structure Terminated (path : List UInt8) : Prop where
  size : (pathField path).length = configPathSize
  zero : ∃ i < configPathSize, (pathField path)[i]? = some 0
  str : cstr (pathField path) = path

theorem terminated_of_lt {path : List UInt8} (hlen : path.length < configPathSize)
    (h0 : (0 : UInt8) ∉ path) : Terminated path := by
  obtain ⟨k, hk⟩ := Nat.exists_eq_add_of_lt hlen
  have hfield : pathField path = path ++ 0 :: List.replicate k 0 := by
    rw [pathField, hk, show path.length + k + 1 - path.length = k + 1 by omega,
      List.replicate_succ]
  refine ⟨?_, ⟨path.length, hlen, ?_⟩, ?_⟩
  · rw [hfield, List.length_append, List.length_cons, List.length_replicate]
    omega
  · rw [hfield, List.getElem?_append_right (Nat.le_refl _), Nat.sub_self]
    rfl
  · rw [hfield, cstr_append_zero, cstr_eq_self h0]

theorem copyPath_terminated {value : List UInt8} (h0 : (0 : UInt8) ∉ value) :
    Terminated (copyPath value) := by
  refine terminated_of_lt ?_ fun hmem => h0 (List.mem_of_mem_take hmem)
  rw [copyPath, List.length_take]
  unfold configPathSize
  omega

/-- Every field is in its range. -/
structure ServerConfig.InRange (cfg : ServerConfig) : Prop where
  port : 1 ≤ cfg.port ∧ cfg.port ≤ 65535
  numThreads : 1 ≤ cfg.numThreads ∧ cfg.numThreads ≤ 128
  timeoutSecs : 1 ≤ cfg.timeoutSecs
  serverRoot : Terminated cfg.serverRoot
  logFile : Terminated cfg.logFile

theorem defaultConfig_inRange : defaultConfig.InRange where
  port := by decide
  numThreads := by decide
  timeoutSecs := by decide
  serverRoot := terminated_of_lt (by decide) (by decide)
  logFile := terminated_of_lt (by decide) (by decide)

/-- A setting out of range falls back to the default, even after a good one. -/
theorem setKey_inRange {cfg : ServerConfig} (h : cfg.InRange) (key : List UInt8) {value : List UInt8}
    (h0 : (0 : UInt8) ∉ value) : (setKey cfg key value).InRange := by
  unfold setKey
  split_ifs with hport hbad hroot hthreads hbad hlog hsecs hbad
  · exact { h with port := defaultConfig_inRange.port }
  · exact { h with port := by dsimp only; omega }
  · exact { h with serverRoot := copyPath_terminated h0 }
  · exact { h with numThreads := defaultConfig_inRange.numThreads }
  · exact { h with numThreads := by dsimp only; omega }
  · exact { h with logFile := copyPath_terminated h0 }
  · exact { h with timeoutSecs := defaultConfig_inRange.timeoutSecs }
  · exact { h with timeoutSecs := by dsimp only; omega }
  · exact h

theorem configLoad_inRange (file : Option (List UInt8)) : (configLoad file).InRange :=
  configLoad_invariant defaultConfig_inRange (fun _ key _ h0 _ h => setKey_inRange h key h0) file

/-! ## The pool -/

/-- The configuration of the pool that `main` fills in. -/
def mainPoolConfig (g : ServerConfig) : PoolConfig where
  port := g.port
  docRoot := some g.serverRoot
  minWorkers := 1
  maxWorkers := if 0 < g.numThreads then g.numThreads else defaultThreads
  loadHigh := (if 0 < g.numThreads then g.numThreads else defaultThreads) * 4
  loadLow := 1

/-- A configuration `pool_create` can start from: only a lack of memory keeps it from a pool. -/
structure PoolConfig.Startable (cfg : PoolConfig) : Prop where
  min : 1 ≤ cfg.minWorkers
  max : cfg.minWorkers ≤ cfg.maxWorkers ∧ cfg.maxWorkers ≤ 128
  load : cfg.loadLow ≤ cfg.loadHigh
  valid : cfg.Valid
  starts : ∀ env : StartUp, env.callocPool = true → env.callocWorkers = true →
    (poolCreate cfg env).isSome

theorem ServerConfig.InRange.startable {g : ServerConfig} (h : g.InRange) :
    (mainPoolConfig g).Startable := by
  obtain ⟨hport, hthreads⟩ := And.intro h.port h.numThreads
  have hmax : (mainPoolConfig g).maxWorkers = g.numThreads := if_pos (by omega)
  have hhigh : (mainPoolConfig g).loadHigh = g.numThreads * 4 := by
    rw [← hmax]
    rfl
  have hlow : (mainPoolConfig g).loadLow = 1 := rfl
  have hmin : (mainPoolConfig g).minWorkers = 1 := rfl
  have hvalid : (mainPoolConfig g).Valid := ⟨by omega, by omega⟩
  refine ⟨by omega, ⟨by omega, by omega⟩, by omega, hvalid, fun env hpool hworkers => ?_⟩
  have hpos : ¬ poolPort (mainPoolConfig g) env ≤ 0 := by
    have hset : poolPort (mainPoolConfig g) env = g.port := if_pos (show 0 < g.port by omega)
    omega
  rw [poolCreate, if_neg (not_not_intro hvalid), if_neg (by rw [hpool]; decide),
    if_neg (by rw [hworkers]; decide), if_neg hpos]
  rfl

/-- **Any configuration file yields a pool that starts**: the fields it leaves are in range, and
so is what `main` makes of them. -/
theorem config_startable (file : Option (List UInt8)) :
    (configLoad file).InRange ∧ (mainPoolConfig (configLoad file)).Startable :=
  ⟨configLoad_inRange file, (configLoad_inRange file).startable⟩

/-- A bad setting after a good one, and numbers that do not fit an `int`. -/
example : (configLoad (some (ascii "num_threads=9\nnum_threads=0\nport = 4294967297"))).numThreads = 4 ∧
    (configLoad (some (ascii "num_threads=9\nnum_threads=0\nport = 4294967297"))).port = 1 := by
  decide +kernel

end HttpServer
