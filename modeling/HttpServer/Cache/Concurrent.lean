import HttpServer.Lib.Mutex
import HttpServer.Cache.Run

set_option autoImplicit false

/-! # The cache under its mutex (`src/lru_cache.c`)

`lru_cache_get`, `lru_cache_put` and `lru_cache_release` lock the mutex, work on the cache
statement by statement, and unlock the mutex on each of their ways out. Here they are written as
such code, and any number of threads run it step by step. The calls are then those of one
sequence, so that what holds of every sequence of calls holds of threads as well.
-/

namespace HttpServer.LruCache

open CLib HashTable

/-! ## The functions, step by step -/

abbrev LruCode := Code LruCache LruRes

/-- A statement that changes the cache. -/
def exec (f : LruCache → LruCache) (next : LruCode) : LruCode := .step f fun _ => next

/-- A statement that reads the cache. -/
def peek (next : LruCache → LruCode) : LruCode := .step id next

/-- `pthread_mutex_unlock` and `return`. -/
def leaveWith (r : LruRes) : LruCode := .unlock (Code.ret r)

def entryDetachCode (e : Nat) (next : LruCode) : LruCode :=
  exec (fun c => { c with table := (htRemove c.table (c.heap e).key).2 }) <|
  exec (fun c => listUnlink c e) <|
  exec (fun c => { c with currentSize := subSize c.currentSize (c.heap e).size }) <|
  exec (fun c => { c with numEntries := c.numEntries - 1 }) <|
  exec (fun c => c.modify e (fun x => { x with removed := true })) next

def evictLruCode (next : LruCode) : LruCode :=
  peek fun c =>
    if c.tail = 0 then next
    else
      entryDetachCode c.tail <|
      exec (fun c => { c with evictions := c.evictions + 1 }) <|
      exec (fun d => entryMaybeFree d c.tail) next

/-- The loop of `lru_cache_put` that makes room, with `n` turns left. -/
def evictCode (size : Nat) : Nat → LruCode → LruCode
  | 0, next => next
  | n + 1, next =>
      peek fun c =>
        if c.admits size then next
        else if c.tail = 0 then next
        else evictLruCode (evictCode size n next)

def getCode (key : List UInt8) : LruCode :=
  .lock <| peek fun c =>
    let e := htLookup c.table ⟨0, key⟩
    if e ≠ 0 then
      exec (fun c => c.modify e (fun x => { x with refcount := (x.refcount + 1) % refMod })) <|
      exec (fun c => listMoveFront c e) <|
      exec (fun c => { c with hits := c.hits + 1 }) <|
      leaveWith (.entry e)
    else
      exec (fun c => { c with misses := c.misses + 1 }) <|
      leaveWith (.entry 0)

def releaseCode (e : Nat) : LruCode :=
  if e = 0 then .ret .none
  else
    .lock <| peek fun c =>
      if 0 < (c.heap e).refcount then
        exec (fun c => c.modify e (fun x => { x with refcount := x.refcount - 1 })) <|
        exec (fun c => entryMaybeFree c e) <|
        leaveWith .none
      else
        exec (fun c => entryMaybeFree c e) <|
        leaveWith .none

def overwriteCode (old data size : Nat) : LruCode :=
  exec (fun c => { c with currentSize := subSize c.currentSize (c.heap old).size }) <|
  exec (fun c => c.free (.payload (c.heap old).data)) <|
  exec (fun c => c.modify old (fun x => { x with data := data })) <|
  exec (fun c => c.modify old (fun x => { x with size := size })) <|
  exec (fun c => { c with currentSize := (c.currentSize + size) % sizeMod }) <|
  exec (fun c => listMoveFront c old) <|
  leaveWith (.flag true)

/-- What follows the loop of `lru_cache_put`. -/
def insertCode (e data size : Nat) (alloc : Bool) : LruCode :=
  .step (fun c => { c with table := (htInsert c.table (c.heap e).key e alloc).2 }) fun c =>
    if (htInsert c.table (c.heap e).key e alloc).1 = false then
      exec (fun c => c.free (.key (c.heap e).key.addr)) <|
      exec (fun c => c.free (.entry e)) <|
      exec (fun c => c.free (.payload data)) <|
      leaveWith (.flag false)
    else
      exec (fun c => { c with numEntries := c.numEntries + 1 }) <|
      exec (fun c => { c with currentSize := (c.currentSize + size) % sizeMod }) <|
      exec (fun c => listPushFront c e) <|
      leaveWith (.flag true)

def putCode (key : List UInt8) (data size : Nat) (alloc : PutAlloc) : LruCode :=
  .lock <| peek fun c =>
    let old := htLookup c.table ⟨0, key⟩
    if old ≠ 0 then overwriteCode old data size
    else if c.maxSize < size then
      exec (fun c => c.free (.payload data)) <|
      leaveWith (.flag false)
    else if alloc.entry = false then
      exec (fun c => c.free (.payload data)) <|
      leaveWith (.flag false)
    else
      .step (fun c => { c with fresh := c.fresh + 1 }) fun c =>
        let e := c.fresh
        if alloc.key = false then
          exec (fun c => c.free (.entry e)) <|
          exec (fun c => c.free (.payload data)) <|
          leaveWith (.flag false)
        else
          exec (fun c => c.modify e (fun _ => ⟨data, size, ⟨e, cstr key⟩, 0, false, 0, 0⟩)) <|
          peek fun c => evictCode size c.numEntries (insertCode e data size alloc.table)

def opCode : LruOp → LruCode
  | .put key data size alloc => putCode key data size.toNat alloc
  | .get key => getCode key
  | .release e => releaseCode e

variable {c : LruCache} {next : LruCode}

/-! ## The mutex is given back on every way out -/

theorem inside_exec {f : LruCache → LruCache} (h : next.Inside) : (exec f next).Inside := fun _ => h

theorem inside_step {f : LruCache → LruCache} {next : LruCache → LruCode}
    (h : ∀ c, (next c).Inside) : (Code.step f next).Inside := h

theorem inside_peek {next : LruCache → LruCode} (h : ∀ c, (next c).Inside) : (peek next).Inside := h

theorem inside_leaveWith (r : LruRes) : (leaveWith r).Inside := ⟨r, rfl⟩

theorem inside_entryDetachCode (e : Nat) (h : next.Inside) : (entryDetachCode e next).Inside :=
  inside_exec <| inside_exec <| inside_exec <| inside_exec <| inside_exec h

theorem inside_evictLruCode (h : next.Inside) : (evictLruCode next).Inside := by
  refine inside_peek fun c => ?_
  split
  · exact h
  · exact inside_entryDetachCode _ <| inside_exec <| inside_exec h

theorem inside_evictCode (size n : Nat) (h : next.Inside) : (evictCode size n next).Inside := by
  induction n with
  | zero => exact h
  | succ n ih =>
      refine inside_peek fun c => ?_
      split
      · exact h
      · split
        · exact h
        · exact inside_evictLruCode ih

theorem inside_overwriteCode (old data size : Nat) : (overwriteCode old data size).Inside :=
  inside_exec <| inside_exec <| inside_exec <| inside_exec <| inside_exec <| inside_exec <|
    inside_leaveWith _

theorem inside_insertCode (e data size : Nat) (alloc : Bool) :
    (insertCode e data size alloc).Inside := by
  refine inside_step fun c => ?_
  split
  · exact inside_exec <| inside_exec <| inside_exec <| inside_leaveWith _
  · exact inside_exec <| inside_exec <| inside_exec <| inside_leaveWith _

theorem guarded_putCode (key : List UInt8) (data size : Nat) (alloc : PutAlloc) :
    (putCode key data size alloc).Guarded := by
  refine inside_peek fun c => ?_
  simp only
  split
  · exact inside_overwriteCode _ _ _
  · split
    · exact inside_exec <| inside_leaveWith _
    · split
      · exact inside_exec <| inside_leaveWith _
      · refine inside_step fun c => ?_
        split
        · exact inside_exec <| inside_exec <| inside_leaveWith _
        · exact inside_exec <| inside_peek fun c => inside_evictCode _ _ (inside_insertCode _ _ _ _)

theorem guarded_opCode (op : LruOp) : (opCode op).Guarded := by
  cases op with
  | put key data size alloc => exact guarded_putCode key data size.toNat alloc
  | get key =>
      refine inside_peek fun c => ?_
      simp only
      split
      · exact inside_exec <| inside_exec <| inside_exec <| inside_leaveWith _
      · exact inside_exec <| inside_leaveWith _
  | release e =>
      rw [opCode, releaseCode]
      split
      · trivial
      · refine inside_peek fun c => ?_
        split
        · exact inside_exec <| inside_exec <| inside_leaveWith _
        · exact inside_exec <| inside_leaveWith _

/-! ## Alone, the code does what the functions do -/

theorem run_evictLruCode : (evictLruCode next).run c = next.run (evictLru c) := by
  rw [evictLru, evictLruCode, peek, Code.run]
  split
  · rfl
  · rfl

theorem run_evictCode (size n : Nat) :
    (evictCode size n next).run c = next.run (evictLoop size n c) := by
  induction n generalizing c with
  | zero => rfl
  | succ n ih =>
      rw [evictLoop, evictCode, peek, Code.run]
      split
      · rfl
      · split
        · rfl
        · rw [run_evictLruCode, ih]
          rfl

theorem run_insertCode (e data size : Nat) (alloc : Bool) (n : Nat)
    (hn : n = c.numEntries) :
    (evictCode size n (insertCode e data size alloc)).run c =
      (.flag (putInsert c e data size alloc).1, (putInsert c e data size alloc).2) := by
  subst hn
  rw [run_evictCode, putInsert, insertCode, Code.run]
  generalize evictLoop size c.numEntries c = d
  cases hins : htInsert d.table (d.heap e).key e alloc with
  | mk ok table =>
      cases ok with
      | false => simp [exec, leaveWith, Code.run]
      | true => simp [exec, leaveWith, Code.run]

/-- The two assignments to the entry are one. -/
theorem run_overwriteCode (old data size : Nat) :
    (overwriteCode old data size).run c = (.flag true, putOverwrite c old data size) := by
  have hmodify : ∀ c : LruCache, (c.modify old (fun x => { x with data := data })).modify old
      (fun x => { x with size := size }) =
        c.modify old (fun x => { x with data := data, size := size }) := by
    intro c
    simp [modify]
  simp only [overwriteCode, exec, leaveWith, Code.run, hmodify]
  rfl

theorem run_opCode (op : LruOp) (c : LruCache) : (opCode op).run c = lruStep c op := by
  cases op with
  -- the statements, run without a break, are the function
  | put key data size alloc =>
      rw [opCode, putCode, Code.run, peek, Code.run, lruStep, lruCachePut]
      simp only [id]
      split
      · exact run_overwriteCode _ _ _
      · split
        · rfl
        · split
          · rfl
          · rw [Code.run]
            split
            · rfl
            · exact run_insertCode _ _ _ _ _ rfl
  | get key =>
      rw [opCode, getCode, Code.run, peek, Code.run, lruStep, lruCacheGet]
      simp only [id]
      split
      · rfl
      · rfl
  | release e =>
      rw [opCode, releaseCode, lruStep, lruCacheRelease]
      split
      · rfl
      · rw [Code.run, peek, Code.run]
        simp only [id]
        split
        · rfl
        · rfl

/-! ## Any number of threads -/

variable {T : Type} [DecidableEq T]

/-- **The cache is linearizable.** However the statements of any number of threads are
interleaved, the calls of `lru_cache_put`, `lru_cache_get` and `lru_cache_release` are explained
by one sequence of calls that keeps the order of those that do not overlap; and while a call is
in progress, some thread can go on. -/
theorem cache_linearizable (c : LruCache) (ts : List (Turn T LruOp)) :
    (∃ order, Linearizes lruStep c ((World.start c).turns opCode ts) order) ∧
    ∀ t, ((World.start c).turns opCode ts).active t ≠ none →
      ∃ u, ((World.start c).turns opCode ts).CanGo u :=
  ⟨linearizable guarded_opCode run_opCode c ts, fun t => unblocked guarded_opCode c ts t⟩

end HttpServer.LruCache
