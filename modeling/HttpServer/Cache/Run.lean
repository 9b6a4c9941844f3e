import HttpServer.Lib.Run
import HttpServer.Cache.Rep

set_option autoImplicit false

/-! # Runs of the cache

Any sequence of calls on a new cache, with any allocation failures, keeps list, table and
counters together. `Rep.step` collects the refinements of the single functions: a call on the
cache is the call of that name on the shelf, told whether the table could take the entry. A
property of all runs is then one of the shelf, shown for one call and lifted by `run_invariant`,
and is read back through `Rep`. `cache_wellFormed` does this for the structure itself.
-/

namespace HttpServer.LruCache

open CLib HashTable

/-! ## Calls -/

inductive LruOp
  | put (key : List UInt8) (data : Nat) (size : UInt64) (alloc : PutAlloc)
  | get (key : List UInt8)
  | release (e : Nat)
  deriving DecidableEq

inductive LruRes
  | flag (b : Bool)
  | entry (e : Nat)
  | none
  deriving DecidableEq, Repr

def lruStep (c : LruCache) : LruOp → LruRes × LruCache
  | .put key data size alloc =>
      let (b, c) := lruCachePut c key data size.toNat alloc
      (.flag b, c)
  | .get key =>
      let (e, c) := lruCacheGet c key
      (.entry e, c)
  | .release e => (.none, lruCacheRelease c e)

def lruNext (c : LruCache) (op : LruOp) : LruCache := (lruStep c op).2

/-- The cache after a list of calls. -/
def lruRun (c : LruCache) (ops : List LruOp) : LruCache := ops.foldl lruNext c

/-- The same call on a shelf. -/
def shelfStep (s : Shelf) (taken : Bool) : LruOp → LruRes × Shelf
  | .put key data size alloc =>
      let (b, s) := s.put key data size.toNat alloc taken
      (.flag b, s)
  | .get key =>
      let (e, s) := s.get key
      (.entry e, s)
  | .release e => (.none, s.release e)

/-- The table takes the entry of a call, if there is one. -/
def takes (c : LruCache) : LruOp → Bool
  | .put _ _ _ alloc => c.taken alloc.table
  | _ => true

variable {c : LruCache} {s : Shelf}

/-! ## The cache does what the shelf does -/

theorem Rep.step (h : Rep c s) (hs : s.Sound) (op : LruOp) :
    (lruStep c op).1 = (shelfStep s (c.takes op) op).1 ∧
      Rep (lruStep c op).2 (shelfStep s (c.takes op) op).2 := by
  cases op with
  | put key data size alloc =>
      obtain ⟨hflag, hrep⟩ := h.put hs key data size.toNat alloc
      exact ⟨congrArg LruRes.flag hflag, hrep⟩
  | get key =>
      obtain ⟨hentry, hrep⟩ := h.get key
      exact ⟨congrArg LruRes.entry hentry, hrep⟩
  | release e => exact ⟨rfl, h.release e⟩

theorem sound_step (hs : s.Sound) (taken : Bool) (op : LruOp) :
    (shelfStep s taken op).2.Sound := by
  cases op with
  | put key data size alloc => exact hs.put key data size.toNat_lt alloc taken
  | get key => exact hs.get key
  | release e => exact hs.release e

/-- The shelf of a new cache. -/
def emptyShelf (maxSize maxEntries : Nat) : Shelf where
  order := []
  items := fun _ => ⟨0, 0, 0, 0, false⟩
  currentSize := 0
  maxSize := maxSize
  maxEntries := maxEntries
  hits := 0
  misses := 0
  evictions := 0
  fresh := 1
  frees := []

theorem emptyShelf_sound (maxSize maxEntries : Nat) : (emptyShelf maxSize maxEntries).Sound :=
  ⟨List.nodup_nil, Nat.one_pos, fun _ h => (by cases h), fun _ h => (by cases h), fun _ h => (by cases h), rfl⟩

theorem key_hashing : Hashing keyHash keyEq where
  keyEq := .of_part fun k : KeyPtr => cstr k.str
  compat := by
    intro a b h
    have hstr : cstr a.str = cstr b.str := of_decide_eq_true h
    rw [keyHash, keyHash, hstr]

theorem lruCacheInit_rep {maxSize maxEntries : Nat} {alloc : Bool}
    (h : lruCacheInit maxSize maxEntries alloc = some c) : Rep c (emptyShelf maxSize maxEntries) := by
  unfold lruCacheInit at h
  split at h
  · rename_i table htable
    rw [Option.some.injEq] at h
    subst h
    obtain ⟨href, heq⟩ := htInit_refines key_hashing htable
    exact ⟨rfl, ⟨List.nodup_nil, fun h => (by cases h), rfl, rfl, trivial⟩, href, heq, rfl⟩
  · cases h

/-- An invariant of the shelves, kept by every call that meets a condition. -/
theorem run_invariant {P : Shelf → Prop} {Q : LruCache → LruOp → Prop}
    (hstep : ∀ c s op, Rep c s → s.Sound → P s → Q c op → P (shelfStep s (c.takes op) op).2)
    {ops : List LruOp} (h : Rep c s) (hs : s.Sound) (hP : P s) (hops : Along lruNext Q c ops) :
    ∃ s', Rep (lruRun c ops) s' ∧ s'.Sound ∧ P s' := by
  refine Along.invariant (P := fun c => ∃ s, Rep c s ∧ s.Sound ∧ P s) ?_ ops ⟨s, h, hs, hP⟩ hops
  rintro c op ⟨s, h, hs, hP⟩ hop
  exact ⟨_, (h.step hs op).2, sound_step hs _ op, hstep c s op h hs hP hop⟩

theorem Rep.run (h : Rep c s) (hs : s.Sound) (ops : List LruOp) :
    ∃ s', Rep (lruRun c ops) s' ∧ s'.Sound := by
  obtain ⟨s', hrep, hs', -⟩ := run_invariant (P := fun _ => True) (Q := fun _ _ => True)
    (fun _ _ _ _ _ _ _ => trivial) h hs trivial (along_of_forall (fun _ _ => trivial) ops c)
  exact ⟨s', hrep, hs'⟩

/-! ## The representation invariant -/

/-- List, table and counters agree on the entries `l`. -/
structure WellFormed (c : LruCache) (l : List Nat) : Prop where
  list : c.links.IsList l
  table : c.table.entries.Perm (l.map fun e => ((c.heap e).key, e))
  distinct : l.Pairwise fun a b => keyEq (c.heap a).key (c.heap b).key = false
  live : ∀ e ∈ l, (c.heap e).removed = false
  num : c.numEntries = l.length
  count : c.table.count = l.length

/-- The bytes of the entries `l`. -/
def bytes (c : LruCache) (l : List Nat) : Nat := (l.map fun e => (c.heap e).size).sum

theorem Rep.wellFormed (h : Rep c s) (hs : s.Sound) :
    WellFormed c s.order ∧ c.currentSize = c.bytes s.order % sizeMod := by
  have hkey : ∀ e, (c.heap e).key = (s.items e).key := fun e => congrArg Item.key (h.heap e)
  have hremoved : ∀ e, (c.heap e).removed = (s.items e).removed :=
    fun e => congrArg Item.removed (h.heap e)
  have hsize : ∀ e, (c.heap e).size = (s.items e).size := fun e => congrArg Item.size (h.heap e)
  have hdistinct := h.table.distinct
  rw [h.eq, KeyMap.Distinct, List.pairwise_map] at hdistinct
  refine ⟨⟨h.list, ?_, ?_, ?_, h.num, ?_⟩, ?_⟩
  · simp only [hkey]
    exact h.table.perm
  · simp only [hkey]
    exact hdistinct
  · intro e he
    rw [hremoved]
    exact hs.live e he
  · rw [h.table.count, List.length_map]
  · have hcur : c.currentSize = s.currentSize := congrArg Shelf.currentSize h.shelf
    rw [hcur, hs.sized, bytes]
    simp only [hsize]
    rfl

/-- **List, table and counters of the cache agree.** After any calls, with any allocation
failures, the links form one list in both directions, its entries are those of the table, each
under its own key, with distinct keys, none of them removed; both counts are right, and
`current_size` is the sum of the sizes as a `size_t`. -/
theorem cache_wellFormed {maxSize maxEntries : Nat} {alloc : Bool}
    (hinit : lruCacheInit maxSize maxEntries alloc = some c) (ops : List LruOp) :
    ∃ l, WellFormed (lruRun c ops) l ∧
      (lruRun c ops).currentSize = (lruRun c ops).bytes l % sizeMod := by
  obtain ⟨s, hrep, hs⟩ := (lruCacheInit_rep hinit).run (emptyShelf_sound ..) ops
  exact ⟨s.order, hrep.wellFormed hs⟩

def granted : PutAlloc := ⟨true, true, true⟩

/-- The cache of the examples: `lru_cache_init` with this limit, and room for four entries. -/
def sampleCache (maxSize : Nat) : LruCache := (lruCacheInit maxSize 4 true).get rfl

def sampleOps : List LruOp :=
  [.put [97] 1 10 granted, .put [98] 2 20 ⟨true, false, true⟩, .put [99] 3 30 granted, .get [97],
    .put [97] 4 40 granted, .release 1, .put [100] 5 60 granted]

theorem cache_wellFormed_sample :
    lruCacheInit 100 4 true = some (sampleCache 100) ∧
    ∃ l, WellFormed (lruRun (sampleCache 100) sampleOps) l ∧
      (lruRun (sampleCache 100) sampleOps).currentSize =
        (lruRun (sampleCache 100) sampleOps).bytes l % sizeMod :=
  ⟨rfl, cache_wellFormed (show lruCacheInit 100 4 true = some (sampleCache 100) from rfl) sampleOps⟩

/-- Two items of `2 ^ 63` bytes, which the limits admit. -/
def hugeOps : List LruOp := [.put [97] 1 (2 ^ 63) granted, .put [98] 2 (2 ^ 63) granted]

theorem not_sized_huge :
    lruCacheInit (2 ^ 64 - 1) 4 true = some (sampleCache (2 ^ 64 - 1)) ∧
    ¬ ∃ l, WellFormed (lruRun (sampleCache (2 ^ 64 - 1)) hugeOps) l ∧
      (lruRun (sampleCache (2 ^ 64 - 1)) hugeOps).currentSize =
        (lruRun (sampleCache (2 ^ 64 - 1)) hugeOps).bytes l := by
  refine ⟨rfl, ?_⟩
  rintro ⟨l, hl, hsize⟩
  -- the entries of the list are those of the table, which are two
  have hsum : (((lruRun (sampleCache (2 ^ 64 - 1)) hugeOps).table.entries.map fun p =>
      ((lruRun (sampleCache (2 ^ 64 - 1)) hugeOps).heap p.2).size)).sum = 2 ^ 64 := by
    decide +kernel
  have hcur : (lruRun (sampleCache (2 ^ 64 - 1)) hugeOps).currentSize = 0 := by decide +kernel
  generalize lruRun (sampleCache (2 ^ 64 - 1)) hugeOps = c at hl hsize hsum hcur
  rw [(hl.table.map _).sum_eq, List.map_map] at hsum
  have hbytes : c.bytes l = 2 ^ 64 := hsum
  omega

end HttpServer.LruCache
