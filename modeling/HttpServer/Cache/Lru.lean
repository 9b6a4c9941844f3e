import HttpServer.Lib.CString
import HttpServer.HashTable.Table

set_option autoImplicit false

/-! # The LRU cache (`src/lru_cache.c`)

A cache is a list of entries in order of use, most recent first, and a table that finds them
by key. Every public function holds the mutex from its first to its last access, so a run of
any number of threads is a sequence of calls.

Memory is modelled by identities: a block keeps its number when it is freed and no other block
gets it, so that it can be told which block a pointer was meant for. `frees` lists all calls of
`free`. Whether `malloc`, `strdup` and the table's `calloc` succeed is an input of `put`. The
statistics counters do not overflow.
-/

namespace HttpServer

open CLib

/-! ## Data -/

/-- A pointer to a string: the address, and what is there. -/
structure KeyPtr where
  addr : Nat
  str : List UInt8
  deriving DecidableEq, Repr

instance : Zero KeyPtr := ⟨⟨0, []⟩⟩

/-- FNV-1a. -/
def keyHash (key : KeyPtr) : UInt64 :=
  (cstr key.str).foldl (fun h b => (h ^^^ b.toUInt64) * 1099511628211) 1469598103934665603

def keyEq (a b : KeyPtr) : Bool := decide (cstr a.str = cstr b.str)

/-- One more than the largest `unsigned`. -/
def refMod : Nat := 2 ^ 32

/-- `struct lru_entry`. -/
structure LruEntry where
  data : Nat
  size : Nat
  key : KeyPtr
  refcount : Nat
  removed : Bool
  prev : Nat
  next : Nat
  deriving DecidableEq, Repr

/-- What `free` is called for. -/
inductive Block
  | payload (p : Nat)
  | key (addr : Nat)
  | entry (addr : Nat)
  deriving DecidableEq, Repr

/-- `struct lru_cache` and the memory: the entries, the next number for a block, and the
calls of `free`. -/
structure LruCache where
  table : HashTable KeyPtr Nat
  head : Nat
  tail : Nat
  currentSize : Nat
  maxSize : Nat
  numEntries : Nat
  maxEntries : Nat
  hits : UInt64
  misses : UInt64
  evictions : UInt64
  heap : Nat → LruEntry
  fresh : Nat
  frees : List Block

/-- Which allocations of a `put` succeed: the entry, the copy of the key, a larger table. -/
structure PutAlloc where
  entry : Bool
  key : Bool
  table : Bool
  deriving DecidableEq, Repr

def LruCache.modify (c : LruCache) (e : Nat) (f : LruEntry → LruEntry) : LruCache :=
  { c with heap := Function.update c.heap e (f (c.heap e)) }

def LruCache.free (c : LruCache) (b : Block) : LruCache := { c with frees := c.frees ++ [b] }

/-! ## The list -/

/-- The first half of `list_unlink`: what comes before the entry. -/
def listSkipNext (c : LruCache) (e : Nat) : LruCache :=
  if (c.heap e).prev ≠ 0 then
    c.modify (c.heap e).prev (fun x => { x with next := (c.heap e).next })
  else { c with head := (c.heap e).next }

/-- The second half: what comes behind it. -/
def listSkipPrev (c : LruCache) (e : Nat) : LruCache :=
  if (c.heap e).next ≠ 0 then
    c.modify (c.heap e).next (fun x => { x with prev := (c.heap e).prev })
  else { c with tail := (c.heap e).prev }

def listUnlink (c : LruCache) (e : Nat) : LruCache :=
  (listSkipPrev (listSkipNext c e) e).modify e (fun x => { x with prev := 0, next := 0 })

def listPushFront (c : LruCache) (e : Nat) : LruCache :=
  let c := c.modify e (fun x => { x with prev := 0, next := c.head })
  let c := if c.head ≠ 0 then c.modify c.head (fun x => { x with prev := e }) else c
  let c := { c with head := e }
  if c.tail = 0 then { c with tail := e } else c

def listMoveFront (c : LruCache) (e : Nat) : LruCache :=
  if c.head = e then c else listPushFront (listUnlink c e) e

/-! ## Entries -/

def entryFree (c : LruCache) (e : Nat) : LruCache :=
  ((c.free (.payload (c.heap e).data)).free (.key (c.heap e).key.addr)).free (.entry e)

def entryDetach (c : LruCache) (e : Nat) : LruCache :=
  let c := { c with table := (htRemove c.table (c.heap e).key).2 }
  let c := listUnlink c e
  let c := { c with
    currentSize := subSize c.currentSize (c.heap e).size
    numEntries := c.numEntries - 1 }
  c.modify e (fun x => { x with removed := true })

def entryMaybeFree (c : LruCache) (e : Nat) : LruCache :=
  if (c.heap e).removed = true ∧ (c.heap e).refcount = 0 then entryFree c e else c

def evictLru (c : LruCache) : LruCache :=
  if c.tail = 0 then c
  else
    let victim := c.tail
    let c := entryDetach c victim
    let c := { c with evictions := c.evictions + 1 }
    entryMaybeFree c victim

/-! ## The interface -/

/-- `lru_cache_init`; `none` if it returns `false`. -/
def lruCacheInit (maxSize maxEntries : Nat) (alloc : Bool) : Option LruCache :=
  match htInit 0 keyHash keyEq alloc with
  | some (some table) =>
      some
        { table := table
          head := 0
          tail := 0
          currentSize := 0
          maxSize := maxSize
          numEntries := 0
          maxEntries := maxEntries
          hits := 0
          misses := 0
          evictions := 0
          heap := fun _ => ⟨0, 0, 0, 0, false, 0, 0⟩
          fresh := 1
          frees := [] }
  | _ => none

/-- The loop of `lru_cache_destroy`, with `n` turns left. -/
def destroyLoop : Nat → Nat → LruCache → LruCache
  | 0, _, c => c
  | n + 1, e, c =>
      if e = 0 then c
      else
        let next := (c.heap e).next
        destroyLoop n next (entryFree c e)

def lruCacheDestroy (c : LruCache) : LruCache :=
  let c := destroyLoop c.numEntries c.head c
  { c with head := 0, tail := 0, numEntries := 0, currentSize := 0 }

/-- `lru_cache_get`; the entry is `0` on a miss. -/
def lruCacheGet (c : LruCache) (key : List UInt8) : Nat × LruCache :=
  let e := htLookup c.table ⟨0, key⟩
  if e ≠ 0 then
    let c := c.modify e (fun x => { x with refcount := (x.refcount + 1) % refMod })
    let c := listMoveFront c e
    (e, { c with hits := c.hits + 1 })
  else (0, { c with misses := c.misses + 1 })

def lruCacheRelease (c : LruCache) (e : Nat) : LruCache :=
  if e = 0 then c
  else
    let c :=
      if 0 < (c.heap e).refcount then
        c.modify e (fun x => { x with refcount := x.refcount - 1 })
      else c
    entryMaybeFree c e

/-- Both limits leave room for an item of `size` bytes. -/
def LruCache.admits (c : LruCache) (size : Nat) : Bool :=
  decide (c.numEntries < c.maxEntries) &&
    decide ((c.currentSize + size) % sizeMod ≤ c.maxSize)

/-- The loop of `lru_cache_put` that makes room, with `n` turns left. -/
def evictLoop (size : Nat) : Nat → LruCache → LruCache
  | 0, c => c
  | n + 1, c =>
      if c.admits size then c
      else if c.tail = 0 then c
      else evictLoop size n (evictLru c)

/-- Replace the payload of the entry `old`. -/
def putOverwrite (c : LruCache) (old data size : Nat) : LruCache :=
  let c := { c with currentSize := subSize c.currentSize (c.heap old).size }
  -- the old payload is freed even if it is borrowed
  let c := c.free (.payload (c.heap old).data)
  let c := c.modify old (fun x => { x with data := data, size := size })
  let c := { c with currentSize := (c.currentSize + size) % sizeMod }
  listMoveFront c old

/-- Make room for the new entry `e`, which has been filled in, and insert it. -/
def putInsert (c : LruCache) (e data size : Nat) (alloc : Bool) : Bool × LruCache :=
  -- every turn takes an entry off, so `num_entries` turns are enough
  let c := evictLoop size c.numEntries c
  match htInsert c.table (c.heap e).key e alloc with
  | (false, table) =>
      let c := { c with table := table }
      (false, ((c.free (.key (c.heap e).key.addr)).free (.entry e)).free (.payload data))
  | (true, table) =>
      let c := { c with
        table := table
        numEntries := c.numEntries + 1
        currentSize := (c.currentSize + size) % sizeMod }
      (true, listPushFront c e)

def lruCachePut (c : LruCache) (key : List UInt8) (data size : Nat) (alloc : PutAlloc) :
    Bool × LruCache :=
  let old := htLookup c.table ⟨0, key⟩
  -- a key that is there gets the new payload, whatever its size and whoever has borrowed it
  if old ≠ 0 then (true, putOverwrite c old data size)
  else if c.maxSize < size then (false, c.free (.payload data))
  else if alloc.entry = false then (false, c.free (.payload data))
  else
    let e := c.fresh
    let c := { c with fresh := c.fresh + 1 }
    if alloc.key = false then (false, (c.free (.entry e)).free (.payload data))
    else
      let c := c.modify e (fun _ => ⟨data, size, ⟨e, cstr key⟩, 0, false, 0, 0⟩)
      putInsert c e data size alloc.table

end HttpServer
