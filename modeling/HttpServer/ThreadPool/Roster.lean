import HttpServer.ThreadPool.Workers

set_option autoImplicit false

/-! # The array of workers

The calls made on a reactor and its thread are its life. `Staffed` is the invariant of the
pool: every worker in the array has been created and started and no more, no reactor is there
twice, and a reactor that is not there has been disposed of (`Disposed`). `pool_destroy`
disposes of the rest, provided it gets past the join of the monitor.
-/

namespace HttpServer

variable {pool pool' : ThreadPool} {cfg : PoolConfig} {env : StartUp} {k t i : Nat}

/-! ## The life of a reactor -/

/-- The call is one on reactor `k`, or on the thread `t` if there is one. -/
def PoolEv.concerns (k : Nat) (t : Option Nat) : PoolEv → Bool
  | .created i _ => decide (i = k)
  | .started i j => decide (i = k) || decide (some j = t)
  | .stopped i => decide (i = k)
  | .joined j => decide (some j = t)
  | .destroyed i => decide (i = k)

/-- The numbers in the call have been given out. -/
def PoolEv.Known (reactors threads : Nat) : PoolEv → Prop
  | .created i _ => i < reactors
  | .started i j => i < reactors ∧ j < threads
  | .stopped i => i < reactors
  | .joined j => j < threads
  | .destroyed i => i < reactors

namespace ThreadPool

/-- The calls on reactor `k` and thread `t`, in order. -/
def life (pool : ThreadPool) (k : Nat) (t : Option Nat) : List PoolEv :=
  pool.trace.filter (PoolEv.concerns k t)

/-- The life of a worker that runs. -/
def running (pool : ThreadPool) (k t : Nat) : List PoolEv :=
  [.created k pool.reactorConfig, .started k t]

/-- The life of a worker that has been retired. -/
def retired (pool : ThreadPool) (k t : Nat) : List PoolEv :=
  [.created k pool.reactorConfig, .started k t, .stopped k, .joined t, .destroyed k]

end ThreadPool

/-- Reactor `k` has been disposed of: it was destroyed at once when its thread could not be
started, or it was stopped, its thread was joined, and then it was destroyed, each once. -/
inductive Disposed (pool : ThreadPool) (k : Nat) : Prop
  | unstarted (h : pool.life k none = [.created k pool.reactorConfig, .destroyed k])
  | started (t : Nat) (h : pool.life k (some t) = pool.retired k t)

/-- The array of workers is in order. -/
structure Staffed (pool : ThreadPool) : Prop where
  bounded : (pool.numWorkers : Int) ≤ pool.cfg.maxWorkers
  ids : ∀ i < pool.numWorkers, (pool.workers i).id = i
  inj : ∀ i < pool.numWorkers, ∀ j < pool.numWorkers,
    (pool.workers i).reactor = (pool.workers j).reactor → i = j
  alive : ∀ i < pool.numWorkers, pool.life (pool.workers i).reactor (pool.workers i).thread =
    pool.running (pool.workers i).reactor (pool.workers i).thread
  others : ∀ k < pool.nextReactor,
    (∃ i < pool.numWorkers, (pool.workers i).reactor = k) ∨ Disposed pool k
  known : ∀ ev ∈ pool.trace, ev.Known pool.nextReactor pool.nextThread

/-! ## Lives are apart -/

theorem PoolEv.Known.mono {ev : PoolEv} {n n' m m' : Nat} (h : ev.Known n m) (hn : n ≤ n')
    (hm : m ≤ m') : ev.Known n' m' := by
  cases ev with
  | created i _ => exact Nat.lt_of_lt_of_le h hn
  | started i j => exact ⟨Nat.lt_of_lt_of_le h.1 hn, Nat.lt_of_lt_of_le h.2 hm⟩
  | stopped i => exact Nat.lt_of_lt_of_le h hn
  | joined j => exact Nat.lt_of_lt_of_le h hm
  | destroyed i => exact Nat.lt_of_lt_of_le h hn

/-- A number that has not been given out occurs in no call. -/
theorem PoolEv.Known.not_concerns {ev : PoolEv} {n m : Nat} (h : ev.Known n m) {t : Option Nat}
    (hk : n ≤ k) (ht : ∀ j, t = some j → m ≤ j) : ev.concerns k t = false := by
  have hthread : ∀ j, j < m → some j ≠ t := by
    rintro j hj rfl
    exact absurd (ht j rfl) (Nat.not_le.mpr hj)
  cases ev with
  | created i _ => exact decide_eq_false (Nat.ne_of_lt (Nat.lt_of_lt_of_le h hk))
  | started i j =>
      have hi : i ≠ k := Nat.ne_of_lt (Nat.lt_of_lt_of_le h.1 hk)
      simp [PoolEv.concerns, hi, hthread j h.2]
  | stopped i => exact decide_eq_false (Nat.ne_of_lt (Nat.lt_of_lt_of_le h hk))
  | joined j => exact decide_eq_false (hthread j h)
  | destroyed i => exact decide_eq_false (Nat.ne_of_lt (Nat.lt_of_lt_of_le h hk))

/-- The life of a new reactor is empty. -/
theorem Staffed.life_new (h : Staffed pool) {t : Option Nat}
    (ht : ∀ j, t = some j → pool.nextThread ≤ j) : pool.life pool.nextReactor t = [] := by
  refine List.filter_eq_nil_iff.mpr (fun ev hev => ?_)
  rw [(h.known ev hev).not_concerns (Nat.le_refl _) ht]
  exact Bool.false_ne_true

/-- A call in the life of a worker that runs made it or started it. -/
theorem Staffed.alive_calls (h : Staffed pool) (hi : i < pool.numWorkers) {ev : PoolEv}
    (hev : ev ∈ pool.trace)
    (hc : ev.concerns (pool.workers i).reactor (pool.workers i).thread = true) :
    ev ∈ pool.running (pool.workers i).reactor (pool.workers i).thread := by
  rw [← h.alive i hi]
  exact List.mem_filter.mpr ⟨hev, hc⟩

theorem Staffed.started_mem (h : Staffed pool) (hi : i < pool.numWorkers) :
    PoolEv.started (pool.workers i).reactor (pool.workers i).thread ∈ pool.trace := by
  have hmem : PoolEv.started (pool.workers i).reactor (pool.workers i).thread ∈
      pool.life (pool.workers i).reactor (pool.workers i).thread := by
    rw [h.alive i hi]
    simp [ThreadPool.running]
  exact (List.mem_filter.mp hmem).1

theorem Staffed.reactor_lt (h : Staffed pool) (hi : i < pool.numWorkers) :
    (pool.workers i).reactor < pool.nextReactor :=
  (h.known _ (h.started_mem hi)).1

theorem Staffed.thread_lt (h : Staffed pool) (hi : i < pool.numWorkers) :
    (pool.workers i).thread < pool.nextThread :=
  (h.known _ (h.started_mem hi)).2

/-- No two workers share a thread. -/
theorem Staffed.thread_inj (h : Staffed pool) (hi : i < pool.numWorkers) {j : Nat}
    (hj : j < pool.numWorkers) (heq : (pool.workers i).thread = (pool.workers j).thread) :
    i = j := by
  have hmem := h.alive_calls hi (h.started_mem hj) (by simp [PoolEv.concerns, heq])
  have hreactor : (pool.workers j).reactor = (pool.workers i).reactor := by
    simpa [ThreadPool.running, heq] using hmem
  exact h.inj i hi j hj hreactor.symm

/-- A reactor that has been disposed of is not in the array, and neither is its thread. -/
theorem Staffed.ne_unstarted (h : Staffed pool) (hi : i < pool.numWorkers)
    (hk : pool.life k none = [.created k pool.reactorConfig, .destroyed k]) :
    (pool.workers i).reactor ≠ k := by
  rintro rfl
  have hmem : PoolEv.started (pool.workers i).reactor (pool.workers i).thread ∈
      pool.life (pool.workers i).reactor none :=
    List.mem_filter.mpr ⟨h.started_mem hi, by simp [PoolEv.concerns]⟩
  rw [hk] at hmem
  simp at hmem

theorem Staffed.ne_retired (h : Staffed pool) (hi : i < pool.numWorkers)
    (hk : pool.life k (some t) = pool.retired k t) :
    (pool.workers i).reactor ≠ k ∧ (pool.workers i).thread ≠ t := by
  have hdestroyed : PoolEv.destroyed k ∈ pool.life k (some t) := by simp [hk, ThreadPool.retired]
  have hjoined : PoolEv.joined t ∈ pool.life k (some t) := by simp [hk, ThreadPool.retired]
  constructor
  · rintro rfl
    have hmem := h.alive_calls hi (List.mem_filter.mp hdestroyed).1 (by simp [PoolEv.concerns])
    simp [ThreadPool.running] at hmem
  · rintro rfl
    have hmem := h.alive_calls hi (List.mem_filter.mp hjoined).1 (by simp [PoolEv.concerns])
    simp [ThreadPool.running] at hmem

/-! ## Spawning -/

theorem life_append {evs : List PoolEv} (h : pool'.trace = pool.trace ++ evs) (k : Nat)
    (t : Option Nat) : pool'.life k t = pool.life k t ++ evs.filter (PoolEv.concerns k t) := by
  rw [ThreadPool.life, h, List.filter_append, ThreadPool.life]

/-- A life to which no call is added. -/
theorem life_same {evs : List PoolEv} (h : pool'.trace = pool.trace ++ evs) {t : Option Nat}
    (hevs : ∀ ev ∈ evs, ev.concerns k t = false) : pool'.life k t = pool.life k t := by
  rw [life_append h, List.filter_eq_nil_iff.mpr (fun ev hev => by rw [hevs ev hev]; simp),
    List.append_nil]

theorem Disposed.of_life (h : Disposed pool k) (hrc : pool'.reactorConfig = pool.reactorConfig)
    (hun : pool.life k none = [.created k pool.reactorConfig, .destroyed k] →
      pool'.life k none = pool.life k none)
    (hst : ∀ t, pool.life k (some t) = pool.retired k t →
      pool'.life k (some t) = pool.life k (some t)) : Disposed pool' k := by
  cases h with
  | unstarted h => exact .unstarted (by rw [hun h, h, hrc])
  | started t h =>
      refine .started t ?_
      rw [hst t h, h, ThreadPool.retired, ThreadPool.retired, hrc]

/-- The calls concern a new reactor and a new thread only. -/
def Newcomer (pool : ThreadPool) (evs : List PoolEv) : Prop :=
  ∀ ev ∈ evs, ∀ k t, k < pool.nextReactor → (∀ j, t = some j → j < pool.nextThread) →
    ev.concerns k t = false

/-- Calls for a newcomer leave the workers and the other reactors as they are. -/
theorem Staffed.newcomer (h : Staffed pool) {evs : List PoolEv} (hnew : Newcomer pool evs)
    (htrace : pool'.trace = pool.trace ++ evs)
    (hrc : pool'.reactorConfig = pool.reactorConfig)
    (hslots : ∀ i < pool.numWorkers, pool'.workers i = pool.workers i) :
    (∀ i < pool.numWorkers, pool'.life (pool'.workers i).reactor (pool'.workers i).thread =
      pool'.running (pool'.workers i).reactor (pool'.workers i).thread) ∧
    ∀ k < pool.nextReactor,
      (∃ i < pool.numWorkers, (pool'.workers i).reactor = k) ∨ Disposed pool' k := by
  constructor
  · intro i hi
    rw [hslots i hi, life_same htrace (fun ev hev => hnew ev hev _ _ (h.reactor_lt hi) ?_),
      h.alive i hi, ThreadPool.running, ThreadPool.running, hrc]
    rintro j hj
    cases hj
    exact h.thread_lt hi
  · intro k hk
    rcases h.others k hk with ⟨i, hi, hw⟩ | hd
    · exact .inl ⟨i, hi, by rw [hslots i hi, hw]⟩
    · refine .inr (hd.of_life hrc (fun _ => ?_) (fun t ht => ?_))
      · exact life_same htrace (fun ev hev => hnew ev hev k none hk (fun j hj => by cases hj))
      · refine life_same htrace (fun ev hev => hnew ev hev k (some t) hk ?_)
        rintro j hj
        cases hj
        have hjoined : PoolEv.joined t ∈ pool.life k (some t) := by
          simp [ht, ThreadPool.retired]
        exact h.known _ (List.mem_filter.mp hjoined).1

theorem Staffed.noThread (h : Staffed pool) (hroom : (pool.numWorkers : Int) < pool.cfg.maxWorkers) :
    Staffed (pool.hire.log [.destroyed pool.nextReactor]) := by
  have htrace : (pool.hire.log [.destroyed pool.nextReactor]).trace = pool.trace ++
      [.created pool.nextReactor pool.reactorConfig, .destroyed pool.nextReactor] :=
    List.append_assoc ..
  -- the slots in use stay as they are
  have hslots : ∀ i < pool.numWorkers,
      (pool.hire.log [.destroyed pool.nextReactor]).workers i = pool.workers i :=
    fun i hi => Function.update_of_ne (Nat.ne_of_lt hi) ..
  have hnew : Newcomer pool
      [.created pool.nextReactor pool.reactorConfig, .destroyed pool.nextReactor] := by
    intro ev hev k t hk _
    have hne : pool.nextReactor ≠ k := Nat.ne_of_gt hk
    simp only [List.mem_cons, List.not_mem_nil, or_false] at hev
    rcases hev with rfl | rfl
    · simp [PoolEv.concerns, hne]
    · simp [PoolEv.concerns, hne]
  obtain ⟨halive, hothers⟩ := h.newcomer hnew htrace rfl hslots
  refine ⟨Int.le_of_lt hroom, fun i hi => ?_, fun i hi j hj => ?_, halive, fun k hk => ?_,
    fun ev hev => ?_⟩
  · rw [hslots i hi]
    exact h.ids i hi
  · rw [hslots i hi, hslots j hj]
    exact h.inj i hi j hj
  · rcases Nat.lt_succ_iff_lt_or_eq.mp hk with hk | rfl
    · exact hothers k hk
    · refine .inr (.unstarted ?_)
      rw [life_append htrace, h.life_new (fun j hj => by cases hj)]
      simp [PoolEv.concerns]
      rfl
  · rw [htrace] at hev
    rcases List.mem_append.mp hev with hev | hev
    · exact (h.known ev hev).mono (Nat.le_succ _) (Nat.le_refl _)
    · simp only [List.mem_cons, List.not_mem_nil, or_false] at hev
      rcases hev with rfl | rfl
      · exact Nat.lt_succ_self _
      · exact Nat.lt_succ_self _

theorem Staffed.started (h : Staffed pool) (hroom : (pool.numWorkers : Int) < pool.cfg.maxWorkers) :
    Staffed pool.hire.employ := by
  -- the last slot holds the new worker, and the others are as they were
  have hlast : pool.hire.employ.workers pool.numWorkers =
      ⟨pool.numWorkers, pool.nextReactor, pool.nextThread⟩ := by
    simp [ThreadPool.hire, ThreadPool.employ]
  have htrace : pool.hire.employ.trace = pool.trace ++
      [.created pool.nextReactor pool.reactorConfig,
        .started pool.nextReactor pool.nextThread] := by
    simp [ThreadPool.hire, ThreadPool.employ]
  have hslots : ∀ i < pool.numWorkers, pool.hire.employ.workers i = pool.workers i := by
    intro i hi
    have hne : i ≠ pool.numWorkers := Nat.ne_of_lt hi
    simp [ThreadPool.hire, ThreadPool.employ, hne]
  have hnew : Newcomer pool [.created pool.nextReactor pool.reactorConfig,
      .started pool.nextReactor pool.nextThread] := by
    intro ev hev k t hk ht
    have hne : pool.nextReactor ≠ k := Nat.ne_of_gt hk
    have hne' : some pool.nextThread ≠ t := by
      rintro rfl
      exact absurd (ht _ rfl) (Nat.lt_irrefl _)
    simp only [List.mem_cons, List.not_mem_nil, or_false] at hev
    rcases hev with rfl | rfl
    · simp [PoolEv.concerns, hne]
    · simp [PoolEv.concerns, hne, hne']
  obtain ⟨halive, hothers⟩ := h.newcomer hnew htrace rfl hslots
  have hcases : ∀ i < pool.numWorkers + 1, i < pool.numWorkers ∨ i = pool.numWorkers :=
    fun i hi => Nat.lt_succ_iff_lt_or_eq.mp hi
  have hold : ∀ i < pool.numWorkers, (pool.workers i).reactor ≠ pool.nextReactor :=
    fun i hi => Nat.ne_of_lt (h.reactor_lt hi)
  refine ⟨?_, fun i hi => ?_, fun i hi j hj heq => ?_, fun i hi => ?_, fun k hk => ?_,
    fun ev hev => ?_⟩
  · change ((pool.numWorkers + 1 : Nat) : Int) ≤ pool.cfg.maxWorkers
    omega
  · rcases hcases i hi with hi | rfl
    · rw [hslots i hi]
      exact h.ids i hi
    · rw [hlast]
  · rcases hcases i hi with hi | rfl
    · rcases hcases j hj with hj | rfl
      · rw [hslots i hi, hslots j hj] at heq
        exact h.inj i hi j hj heq
      · rw [hslots i hi, hlast] at heq
        exact absurd heq (hold i hi)
    · rcases hcases j hj with hj | rfl
      · rw [hslots j hj, hlast] at heq
        exact absurd heq.symm (hold j hj)
      · rfl
  · rcases hcases i hi with hi | rfl
    · exact halive i hi
    · rw [hlast, life_append htrace, h.life_new (fun j hj => by cases hj; exact Nat.le_refl _)]
      simp [PoolEv.concerns, ThreadPool.running]
      rfl
  · rcases Nat.lt_succ_iff_lt_or_eq.mp hk with hk | rfl
    · rcases hothers k hk with ⟨i, hi, hw⟩ | hd
      · exact .inl ⟨i, Nat.lt_succ_of_lt hi, hw⟩
      · exact .inr hd
    · exact .inl ⟨pool.numWorkers, Nat.lt_succ_self _, by rw [hlast]⟩
  · rw [htrace] at hev
    rcases List.mem_append.mp hev with hev | hev
    · exact (h.known ev hev).mono (Nat.le_succ _) (Nat.le_succ _)
    · simp only [List.mem_cons, List.not_mem_nil, or_false] at hev
      rcases hev with rfl | rfl
      · exact Nat.lt_succ_self _
      · exact ⟨Nat.lt_succ_self _, Nat.lt_succ_self _⟩

theorem Spawned.staffed {res : SpawnRes} (hs : Spawned pool res pool') (h : Staffed pool) :
    Staffed pool' := by
  cases hs with
  | full => exact h
  | noReactor => exact h
  | noThread hroom => exact h.noThread hroom
  | started hroom => exact h.started hroom

/-! ## Retiring -/

/-- The slot from which the worker at `j` comes when the one at `i` has been retired. -/
def cameFrom (pool : ThreadPool) (i j : Nat) : Nat := if j = i then pool.numWorkers - 1 else j

theorem cameFrom_lt {j : Nat} (hi : i < pool.numWorkers) (hj : j < pool.numWorkers - 1) :
    cameFrom pool i j < pool.numWorkers ∧ cameFrom pool i j ≠ i := by
  unfold cameFrom
  split
  · omega
  · omega

theorem cameFrom_inj {j j' : Nat} (hj : j < pool.numWorkers - 1) (hj' : j' < pool.numWorkers - 1)
    (h : cameFrom pool i j = cameFrom pool i j') : j = j' := by
  unfold cameFrom at h
  split at h
  · split at h
    · omega
    · omega
  · split at h
    · omega
    · exact h

theorem retireWorker_slot (pool : ThreadPool) (i j : Nat) :
    ((retireWorker pool i).workers j).reactor = (pool.workers (cameFrom pool i j)).reactor ∧
    ((retireWorker pool i).workers j).thread = (pool.workers (cameFrom pool i j)).thread := by
  unfold cameFrom retireWorker
  split
  · rename_i h
    subst h
    simp
  · rename_i h
    simp [h]

/-- The calls that end the worker in slot `i` concern it alone. -/
theorem PoolEv.not_concerns_retired {w : Worker} {t : Option Nat} (hk : w.reactor ≠ k)
    (ht : some w.thread ≠ t) : ∀ ev ∈ [PoolEv.stopped w.reactor, .joined w.thread,
      .destroyed w.reactor], ev.concerns k t = false := by
  intro ev hev
  simp only [List.mem_cons, List.not_mem_nil, or_false] at hev
  rcases hev with rfl | rfl | rfl
  · simp [PoolEv.concerns, hk]
  · simp [PoolEv.concerns, ht]
  · simp [PoolEv.concerns, hk]

theorem Staffed.retire (h : Staffed pool) (hi : i < pool.numWorkers) :
    Staffed (retireWorker pool i) := by
  have htrace : (retireWorker pool i).trace = pool.trace ++
      [.stopped (pool.workers i).reactor, .joined (pool.workers i).thread,
        .destroyed (pool.workers i).reactor] := rfl
  have hbound := h.bounded
  refine ⟨?_, fun j hj => ?_, fun j hj j' hj' heq => ?_, fun j hj => ?_, fun k hk => ?_,
    fun ev hev => ?_⟩
  · change ((pool.numWorkers - 1 : Nat) : Int) ≤ pool.cfg.maxWorkers
    omega
  · rcases eq_or_ne j i with rfl | hne
    · simp [retireWorker]
    · have hlt : j < pool.numWorkers := Nat.lt_of_lt_of_le hj (Nat.sub_le _ _)
      simpa [retireWorker, hne] using h.ids j hlt
  · rw [(retireWorker_slot pool i j).1, (retireWorker_slot pool i j').1] at heq
    exact cameFrom_inj hj hj' (h.inj _ (cameFrom_lt hi hj).1 _ (cameFrom_lt hi hj').1 heq)
  · obtain ⟨hlt, hne⟩ := cameFrom_lt hi hj
    rw [(retireWorker_slot pool i j).1, (retireWorker_slot pool i j).2, life_same htrace]
    · exact h.alive _ hlt
    · refine PoolEv.not_concerns_retired (fun h0 => hne (h.inj i hi _ hlt h0).symm) (fun h0 => ?_)
      exact hne (h.thread_inj hi hlt (Option.some.inj h0)).symm
  · rcases h.others k hk with ⟨m, hm, hw⟩ | hd
    -- the retired worker is disposed of; the last one has moved into its slot
    · rcases eq_or_ne m i with rfl | hne
      · refine .inr (.started (pool.workers m).thread ?_)
        rw [life_append htrace, ← hw, h.alive m hm]
        simp [PoolEv.concerns, ThreadPool.running, ThreadPool.retired]
        rfl
      · refine .inl ?_
        by_cases hlast : m = pool.numWorkers - 1
        · refine ⟨i, by change i < pool.numWorkers - 1; omega, ?_⟩
          rw [(retireWorker_slot pool i i).1, cameFrom, if_pos rfl, ← hlast, hw]
        · refine ⟨m, by change m < pool.numWorkers - 1; omega, ?_⟩
          rw [(retireWorker_slot pool i m).1, cameFrom, if_neg hne, hw]
    · refine .inr (hd.of_life rfl (fun hun => ?_) (fun t hst => ?_))
      · exact life_same htrace (PoolEv.not_concerns_retired (h.ne_unstarted hi hun) (by simp))
      · obtain ⟨hk', ht'⟩ := h.ne_retired hi hst
        exact life_same htrace (PoolEv.not_concerns_retired hk' (by simpa using ht'))
  · rw [htrace] at hev
    rcases List.mem_append.mp hev with hev | hev
    · exact h.known ev hev
    · simp only [List.mem_cons, List.not_mem_nil, or_false] at hev
      rcases hev with rfl | rfl | rfl
      · exact h.reactor_lt hi
      · exact h.thread_lt hi
      · exact h.reactor_lt hi

theorem Tuned.staffed (ht : Tuned pool pool') (h : Staffed pool) : Staffed pool' := by
  cases ht with
  | same => exact h
  | spawned hs => exact hs.staffed h
  | retired _ hi => exact h.retire hi

theorem emptyPool_staffed (cfg : PoolConfig) (port : Int) (h : 0 ≤ cfg.maxWorkers) :
    Staffed (emptyPool cfg port) where
  bounded := h
  ids := fun i hi => absurd hi (Nat.not_lt_zero i)
  inj := fun i hi => absurd hi (Nat.not_lt_zero i)
  alive := fun i hi => absurd hi (Nat.not_lt_zero i)
  others := fun k hk => absurd hk (Nat.not_lt_zero k)
  known := fun ev hev => by cases hev

/-! ## The end -/

/-- Of one call for each slot, those that concern the worker in slot `i`. -/
theorem filter_slots {n : Nat} (f : Nat → PoolEv) (p : PoolEv → Bool) (hi : i < n)
    (h : ∀ j < n, p (f j) = true ↔ j = i) : ((List.range n).map f).filter p = [f i] := by
  have hsame : (List.range n).filter (p ∘ f) = (List.range n).filter (fun j => j == i) := by
    refine List.filter_congr (fun j hj => ?_)
    rw [Bool.eq_iff_iff, Function.comp_apply, h j (List.mem_range.mp hj), beq_iff_eq]
  rw [List.filter_map, hsame, List.filter_beq, List.nodup_range.count,
    if_pos (List.mem_range.mpr hi)]
  rfl

/-- `pool_destroy` disposes of every reactor that is left. -/
theorem Staffed.ended (h : Staffed pool) (hk : k < pool.nextReactor) :
    Disposed (endWorkers pool) k := by
  have htrace : (endWorkers pool).trace = pool.trace ++
      ((List.range pool.numWorkers).map (fun j => PoolEv.stopped (pool.workers j).reactor) ++
      (List.range pool.numWorkers).map (fun j => PoolEv.joined (pool.workers j).thread) ++
      (List.range pool.numWorkers).map (fun j => PoolEv.destroyed (pool.workers j).reactor)) := by
    simp [endWorkers, Function.comp_def]
  rcases h.others k hk with ⟨i, hi, rfl⟩ | hd
  · refine .started (pool.workers i).thread ?_
    -- in each of the three loops exactly one step concerns this worker
    have hreactor : ∀ j < pool.numWorkers,
        (pool.workers j).reactor = (pool.workers i).reactor ↔ j = i :=
      fun j hj => ⟨h.inj j hj i hi, fun h0 => by rw [h0]⟩
    have hthread : ∀ j < pool.numWorkers,
        (pool.workers j).thread = (pool.workers i).thread ↔ j = i :=
      fun j hj => ⟨h.thread_inj hj hi, fun h0 => by rw [h0]⟩
    rw [life_append htrace, List.filter_append, List.filter_append,
      filter_slots _ _ hi (fun j hj => by simpa [PoolEv.concerns] using hreactor j hj),
      filter_slots _ _ hi (fun j hj => by simpa [PoolEv.concerns] using hthread j hj),
      filter_slots _ _ hi (fun j hj => by simpa [PoolEv.concerns] using hreactor j hj),
      h.alive i hi]
    rfl
  -- a worker that was disposed of before has no slot, so no step concerns it
  · have hapart : ∀ t : Option Nat, (∀ j < pool.numWorkers, (pool.workers j).reactor ≠ k ∧
        some (pool.workers j).thread ≠ t) → (endWorkers pool).life k t = pool.life k t := by
      intro t hne
      refine life_same htrace (fun ev hev => ?_)
      simp only [List.mem_append, List.mem_map, List.mem_range] at hev
      rcases hev with (⟨j, hj, rfl⟩ | ⟨j, hj, rfl⟩) | ⟨j, hj, rfl⟩
      · simp [PoolEv.concerns, (hne j hj).1]
      · simp [PoolEv.concerns, (hne j hj).2]
      · simp [PoolEv.concerns, (hne j hj).1]
    refine hd.of_life rfl (fun hun => hapart _ (fun j hj => ?_)) (fun t hst => hapart _ (fun j hj => ?_))
    · exact ⟨h.ne_unstarted hj hun, by simp⟩
    · obtain ⟨hk', ht'⟩ := h.ne_retired hj hst
      exact ⟨hk', by simpa using ht'⟩

/-! ## Runs of a pool -/

/-- The thread of reactor `k` was started, and the reactor has not been destroyed. -/
def InService (pool : ThreadPool) (k : Nat) : Prop :=
  (∃ t, .started k t ∈ pool.trace) ∧ .destroyed k ∉ pool.trace

/-- The first slots of the array hold each reactor in service once, numbered by slot. -/
structure InOrder (pool : ThreadPool) : Prop where
  listed : ∀ k, InService pool k ↔ ∃ i < pool.numWorkers, (pool.workers i).reactor = k
  once : ∀ i < pool.numWorkers, ∀ j < pool.numWorkers,
    (pool.workers i).reactor = (pool.workers j).reactor → i = j
  ids : ∀ i < pool.numWorkers, (pool.workers i).id = i
  bounded : (pool.numWorkers : Int) ≤ pool.cfg.maxWorkers

theorem Staffed.inOrder (h : Staffed pool) : InOrder pool := by
  refine ⟨fun k => ⟨?_, ?_⟩, h.inj, h.ids, h.bounded⟩
  · rintro ⟨⟨t, hstarted⟩, hnot⟩
    rcases h.others k (h.known _ hstarted).1 with hlisted | hd
    · exact hlisted
    · have hgone : PoolEv.destroyed k ∈ pool.trace := by
        cases hd with
        | unstarted hl =>
            have hmem : PoolEv.destroyed k ∈ pool.life k none := by simp [hl]
            exact (List.mem_filter.mp hmem).1
        | started t' hl =>
            have hmem : PoolEv.destroyed k ∈ pool.life k (some t') := by
              simp [hl, ThreadPool.retired]
            exact (List.mem_filter.mp hmem).1
      exact absurd hgone hnot
  · rintro ⟨i, hi, rfl⟩
    refine ⟨⟨_, h.started_mem hi⟩, fun hgone => ?_⟩
    have hmem := h.alive_calls hi hgone (by simp [PoolEv.concerns])
    simp [ThreadPool.running] at hmem

/-- A tuning step changes the number of workers by one at most, and does not lower it at the
minimum or below. -/
def Gradual (pool pool' : ThreadPool) : Prop :=
  (pool'.numWorkers ≤ pool.numWorkers + 1 ∧ pool.numWorkers ≤ pool'.numWorkers + 1) ∧
    ((pool.numWorkers : Int) ≤ pool.cfg.minWorkers → pool.numWorkers ≤ pool'.numWorkers)

/-- What is asked of the run of a pool: the array is in order from the first worker on, the
tuning is gradual, and after `pool_destroy` every reactor has been disposed of. -/
structure WellRun (cfg : PoolConfig) (env : StartUp) (pool : ThreadPool) (samples : List Sample) :
    Prop where
  starting : ∀ n, InOrder (startWorkers (emptyPool cfg (poolPort cfg env)) env.spawns n)
  tuning : ∀ before, before <+: samples → InOrder (tuneRun pool before)
  gradual : ∀ before s, before ++ [s] <+: samples →
    Gradual (tuneRun pool before) (tuneRun pool (before ++ [s]))
  ending : ∀ k rc, .created k rc ∈ (poolDestroy (tuneRun pool samples)).trace →
    Disposed (poolDestroy (tuneRun pool samples)) k

theorem PoolConfig.Valid.max_nonneg (h : cfg.Valid) : 0 ≤ cfg.maxWorkers := by
  have := h.1
  have := h.2
  omega

theorem startedPool_staffed (cfg : PoolConfig) (env : StartUp) (h : cfg.Valid) :
    Staffed (startedPool cfg env) := by
  have hstart := startWorkers_rule env.spawns (fun _ _ _ hs hI => hs.staffed hI)
    cfg.minWorkers.toNat (emptyPool_staffed cfg (poolPort cfg env) h.max_nonneg)
  exact ⟨hstart.bounded, hstart.ids, hstart.inj, hstart.alive,
    fun k hk => (hstart.others k hk).imp id (fun hd => hd.of_life rfl (fun _ => rfl) (fun _ _ => rfl)),
    hstart.known⟩

/-- A call in the trace of the ended pool that creates a reactor was there before. -/
theorem Staffed.created_lt (h : Staffed pool) {rc : ReactorConfig}
    (hmem : PoolEv.created k rc ∈ (endWorkers pool).trace) : k < pool.nextReactor := by
  simp only [endWorkers, List.mem_append, List.mem_map] at hmem
  rcases hmem with hmem | (⟨w, _, h0⟩ | ⟨w, _, h0⟩) | ⟨w, _, h0⟩
  · exact h.known _ hmem
  · cases h0
  · cases h0
  · cases h0

/-- **The workers of a pool are accounted for.** Whatever spawns fail, whatever loads are sampled
and whether or not the monitor could be started, the array of workers is in order in every state
of the pool, the tuning is gradual, and at the end every reactor has been disposed of. -/
theorem pool_wellRun (cfg : PoolConfig) (env : StartUp) (pool : ThreadPool)
    (h : poolCreate cfg env = some pool) (samples : List Sample) : WellRun cfg env pool samples := by
  obtain ⟨hvalid, rfl⟩ := poolCreate_eq h
  have hstaffed : ∀ before, Staffed (tuneRun (startedPool cfg env) before) := fun before =>
    tuneRun_rule (fun _ _ ht hI => ht.staffed hI) before (startedPool_staffed cfg env hvalid)
  constructor
  · intro n
    exact (startWorkers_rule env.spawns (fun _ _ _ hs hI => hs.staffed hI) n
      (emptyPool_staffed cfg _ hvalid.max_nonneg)).inOrder
  · exact fun before _ => (hstaffed before).inOrder
  · intro before s _
    have hstep : tuneRun (startedPool cfg env) (before ++ [s]) =
        tunePool (tuneRun (startedPool cfg env) before) s := by
      rw [tuneRun, List.foldl_append]
      rfl
    rw [hstep]
    exact ⟨(tunePool_tuned _ s).bounds.1, (tunePool_tuned _ s).bounds.2.1⟩
  · intro k rc hmem
    exact (hstaffed samples).ended ((hstaffed samples).created_lt hmem)

/-! A pool that grows by a worker under load and gives one up again; and one whose monitor
could not be started. -/

def busySample : Sample := ⟨fun _ => 10, fun _ => 10, .started⟩

def calmSample : Sample := ⟨fun _ => 0, fun i => if i = 0 then 1 else 0, .started⟩

def unwatchedStart : StartUp := ⟨true, true, 0, fun _ => .started, false⟩

theorem pool_wellRun_small :
    WellRun smallConfig goodStart (startedPool smallConfig goodStart) [busySample, calmSample] ∧
      (tuneRun (startedPool smallConfig goodStart) [busySample]).numWorkers = 3 ∧
      (tuneRun (startedPool smallConfig goodStart) [busySample, calmSample]).numWorkers = 2 ∧
      WellRun smallConfig unwatchedStart (startedPool smallConfig unwatchedStart) [] :=
  ⟨pool_wellRun smallConfig goodStart _ rfl _, by decide, by decide,
    pool_wellRun smallConfig unwatchedStart _ rfl _⟩

end HttpServer
