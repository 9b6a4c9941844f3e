import HttpServer.Lib.Probe
import HttpServer.Lib.KeyMap

set_option autoImplicit false

/-! # The hash table (`src/hash_table.c`)

Open addressing with linear probing and tombstones. Keys and values are pointers the table
never follows, so their types are arbitrary; `0` is `NULL`. Numbers of type `size_t` are
natural numbers, reduced modulo `2 ^ 64` where the source could overflow. The slot array is a
function of which only the slots below `capacity` are used, and `none` stands for the index
`SIZE_MAX`, which is no slot.

Whether an allocation succeeds is an input (`alloc`) of the calls that make one; `calloc`
fails in any case when the size in bytes is no `size_t`.
-/

namespace HttpServer

open CLib

/-! ## Data -/

/-- One more than the largest `size_t`. -/
def sizeMod : Nat := 2 ^ 64

/-- `a - b` of two `size_t`. -/
def subSize (a b : Nat) : Nat := (a + (sizeMod - b)) % sizeMod

/-- `enum ht_slot_state`. -/
inductive SlotState
  | empty
  | used
  | tombstone
  deriving DecidableEq, Repr

/-- `struct ht_slot`. -/
structure HtSlot (K V : Type) where
  key : K
  value : V
  state : SlotState

/-- `struct hash_table`. -/
structure HashTable (K V : Type) where
  slots : Nat → HtSlot K V
  capacity : Nat
  count : Nat
  tombstones : Nat
  hash : K → UInt64
  eq : K → K → Bool

def htDefaultCapacity : Nat := 16
def htMaxLoadNumer : Nat := 7
def htMaxLoadDenom : Nat := 10

/-- `sizeof(struct ht_slot)`. -/
def slotSize : Nat := 24

/-- `calloc(n, size) != NULL`, when the system grants memory as `alloc` says. -/
def callocOk (n size : Nat) (alloc : Bool) : Bool := alloc && decide (n * size < sizeMod)

/-- The loop of `next_power_of_two`, cut off after `fuel` turns. -/
def roundUp (n : Nat) : Nat → Nat → Option Nat
  | 0, _ => none
  | fuel + 1, p => if p < n then roundUp n fuel (p * 2 % sizeMod) else some p

/-- `next_power_of_two`; `none` if it does not return. After 64 shifts `p` is `0` for good. -/
def nextPowerOfTwo (n : Nat) : Option Nat := roundUp n 64 htDefaultCapacity

variable {K V : Type} [Zero K] [Zero V]

/-- An array fresh from `calloc`. -/
def zeroSlots : Nat → HtSlot K V := fun _ => ⟨0, 0, .empty⟩

namespace HashTable

/-! ## Probing -/

def mask (ht : HashTable K V) : Nat := ht.capacity - 1

/-- The slot at which the search for a key starts. -/
def home (ht : HashTable K V) (key : K) : Nat := (ht.hash key).toNat &&& ht.mask

def next (ht : HashTable K V) (i : Nat) : Nat := (i + 1) % sizeMod &&& ht.mask

/-- Store a new entry at slot `pos`. -/
def place (ht : HashTable K V) (pos : Nat) (key : K) (value : V) : HashTable K V :=
  { ht with
    slots := Function.update ht.slots pos ⟨key, value, .used⟩
    count := (ht.count + 1) % sizeMod }

/-- Replace the value at slot `i`. -/
def overwrite (ht : HashTable K V) (i : Nat) (value : V) : HashTable K V :=
  { ht with slots := Function.update ht.slots i { ht.slots i with value := value } }

/-- Turn slot `i` into a tombstone. -/
def bury (ht : HashTable K V) (i : Nat) : HashTable K V :=
  { ht with
    slots := Function.update ht.slots i ⟨0, 0, .tombstone⟩
    count := subSize ht.count 1
    tombstones := (ht.tombstones + 1) % sizeMod }

/-- The loop of `insert_no_resize`, with `n` turns left. -/
def insertLoop (ht : HashTable K V) (key : K) (value : V) :
    Nat → Nat → Option Nat → Bool × HashTable K V
  | 0, _, _ => (false, ht)
  | n + 1, i, firstTomb =>
      match (ht.slots i).state with
      -- `tombstones` is not lowered when the place is a tombstone
      | .empty => (true, ht.place (firstTomb.getD i) key value)
      | .tombstone => insertLoop ht key value n (ht.next i) (firstTomb.or (some i))
      | .used =>
          if ht.eq (ht.slots i).key key then (true, ht.overwrite i value)
          else insertLoop ht key value n (ht.next i) firstTomb

def insertNoResize (ht : HashTable K V) (key : K) (value : V) : Bool × HashTable K V :=
  insertLoop ht key value ht.capacity (ht.home key) none

/-- One turn of the loop of `resize`: move a live entry of the old array to the new one. -/
def rehash (old : Nat → HtSlot K V) (ht : HashTable K V) (i : Nat) : HashTable K V :=
  match (old i).state with
  | .used => (insertNoResize ht (old i).key (old i).value).2
  | _ => ht

def resize (ht : HashTable K V) (newCapacity : Nat) (alloc : Bool) : Bool × HashTable K V :=
  if callocOk newCapacity slotSize alloc then
    (true, (List.range ht.capacity).foldl (rehash ht.slots)
      { ht with slots := zeroSlots, capacity := newCapacity, count := 0, tombstones := 0 })
  else (false, ht)

/-- The loop of `find_key`, with `n` turns left. -/
def findLoop (ht : HashTable K V) (key : K) : Nat → Nat → Option Nat
  | 0, _ => none
  | n + 1, i =>
      match (ht.slots i).state with
      | .empty => none
      | .tombstone => findLoop ht key n (ht.next i)
      | .used => if ht.eq (ht.slots i).key key then some i else findLoop ht key n (ht.next i)

def findKey (ht : HashTable K V) (key : K) : Option Nat :=
  findLoop ht key ht.capacity (ht.home key)

end HashTable

/-! ## The interface -/

/-- `ht_init`; `none` if it does not return, and no table if it returns `false`. -/
def htInit (capacity : Nat) (hash : K → UInt64) (eq : K → K → Bool) (alloc : Bool) :
    Option (Option (HashTable K V)) :=
  match nextPowerOfTwo capacity with
  | none => none
  | some cap =>
      if callocOk cap slotSize alloc then
        some (some ⟨zeroSlots, cap, 0, 0, hash, eq⟩)
      else some none

/-- The load factor, tombstones included, would be too high after one more insertion. -/
def HashTable.loaded (ht : HashTable K V) : Bool :=
  decide (ht.capacity * htMaxLoadNumer % sizeMod <
    (ht.count + ht.tombstones + 1) % sizeMod * htMaxLoadDenom % sizeMod)

def htInsert (ht : HashTable K V) (key : K) (value : V) (alloc : Bool) : Bool × HashTable K V :=
  if ht.loaded then
    match ht.resize (ht.capacity * 2 % sizeMod) alloc with
    | (false, ht) => (false, ht)
    | (true, ht) => ht.insertNoResize key value
  else ht.insertNoResize key value

def htLookup (ht : HashTable K V) (key : K) : V :=
  match ht.findKey key with
  | none => 0
  | some i => (ht.slots i).value

def htContains (ht : HashTable K V) (key : K) : Bool := (ht.findKey key).isSome

def htRemove (ht : HashTable K V) (key : K) : Bool × HashTable K V :=
  match ht.findKey key with
  | none => (false, ht)
  | some i => (true, ht.bury i)

def htSize (ht : HashTable K V) : Nat := ht.count

end HttpServer
