import Mathlib.Data.Nat.Find
import HttpServer.Cache.Run

set_option autoImplicit false

/-! # The cache follows the LRU policy

The reference policy keeps the items in one list, most recent first. For a new item it drops the
shortest suffix such that both limits admit the item. As long as no allocation fails and the
bytes in use are below `2 ^ 64`, the cache does the same.

The comparison goes through the shelf. `Matches s p` says that the items of the policy are the
entries of the shelf in their order, with the same limits and counters; that the cache is a shelf
is known from `Cache.Rep`. The one real difference is in making room: the cache evicts from the
tail, one entry at a time, until the new one fits, and the policy takes a longest prefix at once.
`makeRoom_kept` shows that they agree, by induction on the evictions still allowed. The counters
of the cache are 64 bits wide, so they are compared modulo `2 ^ 64`, and a run of fewer calls
never gets there.
-/

namespace HttpServer

open CLib

/-! ## The policy -/

structure PolicyItem where
  key : List UInt8
  data : Nat
  size : Nat
  deriving DecidableEq, Repr

/-- The items, most recent first, with the limits and what has happened so far. -/
structure Policy where
  items : List PolicyItem
  maxSize : Nat
  maxEntries : Nat
  hits : Nat
  misses : Nat
  inserted : Nat
  evicted : Nat
  deriving DecidableEq, Repr

/-- What a client sees of a call. -/
inductive Answer
  | stored (b : Bool)
  | hit (data size : Nat)
  | miss
  | released
  deriving DecidableEq, Repr

namespace Policy

def bytes (l : List PolicyItem) : Nat := (l.map (·.size)).sum

/-- Both limits admit an item of `size` bytes beside the items `l`. -/
abbrev Admits (p : Policy) (l : List PolicyItem) (size : Nat) : Prop :=
  l.length < p.maxEntries ∧ bytes l + size ≤ p.maxSize

/-- The longest prefix of the items beside which an item of `size` bytes is admitted. -/
def kept (p : Policy) (size : Nat) : List PolicyItem :=
  p.items.take (Nat.findGreatest (fun k => p.Admits (p.items.take k) size) p.items.length)

/-- If the limits admit an item at all, they admit it beside what is kept, and beside no more. -/
theorem kept_longest (p : Policy) {size : Nat} (hmax : 1 ≤ p.maxEntries) (hsize : size ≤ p.maxSize) :
    ∃ k ≤ p.items.length, p.kept size = p.items.take k ∧ p.Admits (p.kept size) size ∧
      ∀ j, k < j → j ≤ p.items.length → ¬ p.Admits (p.items.take j) size := by
  have hzero : p.Admits (p.items.take 0) size := ⟨hmax, by simpa [bytes] using hsize⟩
  refine ⟨_, Nat.findGreatest_le _, rfl, ?_, fun j hlt hle => Nat.findGreatest_is_greatest
    (P := fun k => p.Admits (p.items.take k) size) hlt hle⟩
  exact Nat.findGreatest_spec (P := fun k => p.Admits (p.items.take k) size) (Nat.zero_le _) hzero

def hasKey (key : List UInt8) (x : PolicyItem) : Bool := decide (x.key = key)

def get (p : Policy) (key : List UInt8) : Answer × Policy :=
  match p.items.find? (hasKey key) with
  | some x =>
      (.hit x.data x.size,
        { p with items := x :: p.items.eraseP (hasKey key), hits := p.hits + 1 })
  | none => (.miss, { p with misses := p.misses + 1 })

def put (p : Policy) (key : List UInt8) (data size : Nat) : Answer × Policy :=
  match p.items.find? (hasKey key) with
  | some _ => (.stored true, { p with items := ⟨key, data, size⟩ :: p.items.eraseP (hasKey key) })
  | none =>
      if p.maxSize < size then (.stored false, p)
      else
        (.stored true, { p with
          items := ⟨key, data, size⟩ :: p.kept size
          inserted := p.inserted + 1
          evicted := p.evicted + (p.items.length - (p.kept size).length) })

def step (p : Policy) : LruCache.LruOp → Answer × Policy
  | .put key data size _ => p.put (cstr key) data size.toNat
  | .get key => p.get (cstr key)
  | .release _ => (.released, p)

def run (p : Policy) : List LruCache.LruOp → List Answer × Policy
  | [] => ([], p)
  | op :: ops =>
      let (ans, p) := p.step op
      let (rest, p) := p.run ops
      (ans :: rest, p)

/-- The policy with no items. -/
def empty (maxSize maxEntries : Nat) : Policy := ⟨[], maxSize, maxEntries, 0, 0, 0, 0⟩

end Policy

/-! ## What the cache answers -/

namespace LruCache

/-- What the client sees of a result, when it reads the entry it was given. -/
def answer (c : LruCache) : LruRes → Answer
  | .flag b => .stored b
  | .entry e => if e = 0 then .miss else .hit (c.heap e).data (c.heap e).size
  | .none => .released

def answers (c : LruCache) : List LruOp → List Answer
  | [] => []
  | op :: ops => (lruStep c op).2.answer (lruStep c op).1 :: answers (lruStep c op).2 ops

def isGet : LruOp → Bool
  | .get _ => true
  | _ => false

/-- The allocations of a call succeed, and the bytes in use stay below `2 ^ 64`. -/
def Granted (c : LruCache) : LruOp → Prop
  | .put _ _ size alloc =>
      alloc.entry = true ∧ alloc.key = true ∧ c.taken alloc.table = true ∧
        c.currentSize + size.toNat < sizeMod
  | .get _ => True
  | .release _ => True

instance (c : LruCache) (op : LruOp) : Decidable (Granted c op) :=
  match op with
  | .put _ _ size alloc =>
      inferInstanceAs (Decidable (alloc.entry = true ∧ alloc.key = true ∧
        c.taken alloc.table = true ∧ c.currentSize + size.toNat < sizeMod))
  | .get _ => .isTrue trivial
  | .release _ => .isTrue trivial

end LruCache

/-! ## The shelf follows the policy -/

namespace Shelf

def view (s : Shelf) (e : Nat) : PolicyItem :=
  ⟨cstr (s.items e).key.str, (s.items e).data, (s.items e).size⟩

structure Matches (s : Shelf) (p : Policy) : Prop where
  items : s.order.map s.view = p.items
  maxSize : s.maxSize = p.maxSize
  maxEntries : s.maxEntries = p.maxEntries
  hits : s.hits = UInt64.ofNat p.hits
  misses : s.misses = UInt64.ofNat p.misses
  evicted : s.evictions = UInt64.ofNat p.evicted
  inserted : s.order.length + p.evicted = p.inserted
  small : s.total < sizeMod

variable {s s' : Shelf} {p : Policy}

/-- A counter of 64 bits goes on with what it counts. -/
theorem count_succ {counter : UInt64} {n : Nat} (h : counter = UInt64.ofNat n) :
    counter + 1 = UInt64.ofNat (n + 1) := by
  rw [h, UInt64.ofNat_add]
  rfl

theorem toNat_count {n : Nat} (h : n < 2 ^ 64) : (UInt64.ofNat n).toNat = n :=
  UInt64.toNat_ofNat_of_lt' h

theorem Matches.find (h : Matches s p) (key : List UInt8) :
    p.items.find? (Policy.hasKey (cstr key)) = (s.find key).map s.view := by
  rw [← h.items, List.find?_map]
  rfl

/-- The first entry with a key is the one that is taken out. -/
theorem Matches.erase (h : Matches s p) {key : List UInt8} {e : Nat} (hfind : s.find key = some e) :
    p.items.eraseP (Policy.hasKey (cstr key)) = (s.order.erase e).map s.view := by
  obtain ⟨hkey, a, b, hsplit, hfirst⟩ := List.find?_eq_some_iff_append.mp hfind
  have hea : e ∉ a := by
    intro hmem
    have hno := hfirst e hmem
    rw [hkey] at hno
    cases hno
  have hfun : Policy.hasKey (cstr key) ∘ s.view = s.hasKey key := rfl
  rw [← h.items, List.eraseP_map, hfun, hsplit, List.erase_append_right _ hea,
    List.erase_cons_head, List.eraseP_append_right _ (fun x hx => by simpa using hfirst x hx),
    List.eraseP_cons_of_pos hkey]

theorem Matches.bytes (h : Matches s p) : Policy.bytes p.items = s.total := by
  rw [← h.items, Policy.bytes, List.map_map]
  rfl

theorem get_view (s : Shelf) (key : List UInt8) : (s.get key).2.view = s.view := by
  funext e
  obtain ⟨n, hn⟩ := (get_frame s key).2.2.2 e
  rw [view, view, hn]

theorem Matches.get (h : Matches s p) (key : List UInt8) :
    Matches (s.get key).2 (p.get (cstr key)).2 := by
  have htotal := get_total s key
  have hlen := (get_frame s key).1.length_eq
  have hview := get_view s key
  have hpfind := h.find key
  rw [Policy.get, hpfind]
  rw [Shelf.get] at htotal hlen hview ⊢
  cases hfind : s.find key with
  | none => exact ⟨h.items, h.maxSize, h.maxEntries, h.hits, count_succ h.misses, h.evicted,
      h.inserted, h.small⟩
  | some e =>
      rw [hfind] at htotal hlen hview
      refine ⟨?_, h.maxSize, h.maxEntries, count_succ h.hits, h.misses, h.evicted, ?_,
        htotal.trans_lt h.small⟩
      · simp only [hview, Option.map_some, h.erase hfind]
        rfl
      · rw [← h.inserted]
        exact congrArg (· + p.evicted) hlen

theorem Matches.release (h : Matches s p) (e : Nat) : Matches (s.release e) p := by
  obtain ⟨items, frees, heq, hitems⟩ := release_frame s e
  rw [heq]
  refine ⟨?_, h.maxSize, h.maxEntries, h.hits, h.misses, h.evicted, h.inserted, ?_⟩
  · rw [← h.items]
    refine List.map_congr_left fun u _ => ?_
    obtain ⟨n, hn⟩ := hitems u
    simp [view, hn]
  · have htotal : total { s with items := items, frees := frees } = s.total := by
      refine total_congr (.refl _) fun u _ => ?_
      obtain ⟨n, hn⟩ := hitems u
      simp [hn]
    exact htotal.trans_lt h.small

theorem Matches.overwrite (h : Matches s p) (hs : s.Sound) {key : List UInt8} {e : Nat}
    (hfind : s.find key = some e) (data size : Nat) (hsmall : s.total + size < sizeMod) :
    Matches (s.overwrite e data size)
      { p with items := ⟨cstr key, data, size⟩ :: p.items.eraseP (Policy.hasKey (cstr key)) } := by
  have hmem : e ∈ s.order := List.mem_of_find?_eq_some hfind
  have hhas : s.hasKey key e = true := List.find?_some hfind
  have hkey : cstr (s.items e).key.str = cstr key := of_decide_eq_true hhas
  have htotal := overwrite_total hs hmem data size
  refine ⟨?_, h.maxSize, h.maxEntries, h.hits, h.misses, h.evicted, ?_, by omega⟩
  · have hfront : (s.overwrite e data size).view e = ⟨cstr key, data, size⟩ := by
      simp [view, Shelf.overwrite, touch, modify, free, hkey]
    have hrest : (s.order.erase e).map (s.overwrite e data size).view =
        (s.order.erase e).map s.view := by
      refine List.map_congr_left fun u hu => ?_
      have hne : u ≠ e := (hs.nodup.mem_erase_iff.mp hu).1
      simp [view, Shelf.overwrite, touch, modify, free, hne]
    change (e :: s.order.erase e).map (s.overwrite e data size).view = _
    rw [List.map_cons, hfront, hrest, h.erase hfind]
  · rw [← h.inserted]
    exact congrArg (· + p.evicted) (List.perm_cons_erase hmem).length_eq.symm

/-! ## Making room -/

theorem evict_view (s : Shelf) (v : Nat) : (s.evict v).view = s.view := by
  funext u
  rw [evict_eq]
  rcases eq_or_ne u v with rfl | hne
  · simp [view]
  · simp [view, hne]

theorem admits_iff (hs : s.Sound) {size : Nat} (hsmall : s.total + size < sizeMod)
    (hmax : s.maxSize = p.maxSize) (hmaxn : s.maxEntries = p.maxEntries) :
    s.admits size = true ↔ p.Admits (s.order.map s.view) size := by
  have hbytes : Policy.bytes (s.order.map s.view) = s.total := by
    rw [Policy.bytes, List.map_map]
    rfl
  rw [Shelf.admits, Bool.and_eq_true, decide_eq_true_eq, decide_eq_true_eq, hs.sized,
    Nat.mod_eq_of_lt (show s.total < sizeMod by omega), Nat.mod_eq_of_lt hsmall, Policy.Admits,
    hbytes, List.length_map, hmax, hmaxn]

/-- The evictions stop at the longest prefix that leaves room. -/
theorem makeRoom_kept {size : Nat} (l : List PolicyItem) (n : Nat) :
    ∀ {s : Shelf} {m : Nat}, s.Sound → s.total + size < sizeMod → s.maxSize = p.maxSize →
      s.maxEntries = p.maxEntries → s.order.map s.view = l.take m → s.order.length = m → m ≤ n →
      (s.makeRoom size n).order.map (s.makeRoom size n).view =
        l.take (Nat.findGreatest (fun k => p.Admits (l.take k) size) m) := by
  -- by induction on the bound of the loop; the shelf holds the first `m` items of `l`
  induction n with
  | zero =>
      intro s m _ _ _ _ heq _ hm
      obtain rfl := Nat.le_zero.mp hm
      exact heq
  | succ n ih =>
      intro s m hs hsmall hmax hmaxn heq hlen hm
      have hiff := admits_iff hs hsmall hmax hmaxn
      rw [heq] at hiff
      rw [makeRoom]
      by_cases hadmits : s.admits size = true
      · rw [if_pos hadmits,
          Nat.findGreatest_eq (P := fun k => p.Admits (l.take k) size) (hiff.mp hadmits)]
        exact heq
      -- `m` items are too many: the last one goes, and the search goes on below `m`
      · rw [if_neg hadmits]
        cases hlast : s.order.getLast? with
        | none =>
            have hnil : s.order = [] := List.getLast?_eq_none_iff.mp hlast
            rw [hnil, List.length_nil] at hlen
            subst hlen
            exact heq
        | some v =>
            obtain ⟨m, rfl⟩ : ∃ m', m = m' + 1 := by
              have hpos : 0 < s.order.length :=
                List.length_pos_of_mem (List.mem_of_getLast? hlast)
              exact ⟨m - 1, by omega⟩
            have hlast' : s.order.dropLast.map s.view = l.take m := by
              rw [List.dropLast_eq_take, hlen, Nat.add_sub_cancel, List.map_take, heq,
                List.take_take, Nat.min_eq_left (Nat.le_succ m)]
            rw [Nat.findGreatest_of_not (P := fun k => p.Admits (l.take k) size)
              (fun h0 => hadmits (hiff.mpr h0))]
            have htotal := evict_total hs hlast
            refine ih (hs.evict hlast) (by omega) ?_ ?_ ?_ ?_ (by omega)
            · rw [evict_eq]
              exact hmax
            · rw [evict_eq]
              exact hmaxn
            · rw [evict_view, evict_eq]
              exact hlast'
            · rw [evict_eq]
              simp only [List.length_dropLast]
              omega

theorem alloc_view (hs : s.Sound) (key : List UInt8) (data size : Nat) :
    ∀ e ∈ s.order, (s.alloc key data size).view e = s.view e := by
  intro e he
  have hne : e ≠ s.fresh := fun h0 => hs.new (h0 ▸ he)
  simp [view, alloc, modify, hne]

theorem Matches.insert (h : Matches s p) (hs : s.Sound) (key : List UInt8) (data : Nat) {size : Nat}
    (hsmall : s.total + size < sizeMod) :
    Matches ((s.room key data size).pushed s.fresh size) { p with
      items := ⟨cstr key, data, size⟩ :: p.kept size
      inserted := p.inserted + 1
      evicted := p.evicted + (p.items.length - (p.kept size).length) } := by
  obtain ⟨hnew, _, hitem⟩ := room_new hs key data size
  have halloc := hs.alloc key data size
  have hview := alloc_view hs key data size
  have htotal : (s.alloc key data size).total = s.total := by
    refine total_congr (.refl _) fun e he => ?_
    exact congrArg PolicyItem.size (hview e he)
  have hlen : p.items.length = s.order.length := by rw [← h.items, List.length_map]
  -- the loop that makes room leaves what the policy keeps
  have hkept : (s.room key data size).order.map (s.room key data size).view = p.kept size := by
    refine makeRoom_kept p.items _ halloc (by omega) h.maxSize h.maxEntries ?_ hlen.symm hlen.le
    rw [List.take_length, ← h.items]
    exact List.map_congr_left hview
  have hcount : (p.kept size).length = (s.room key data size).order.length := by
    rw [← hkept, List.length_map]
  have hshort := makeRoom_shortened size s.order.length (s.alloc key data size)
  have hle := makeRoom_total halloc size s.order.length
  change Shortened _ (s.room key data size) at hshort
  change (s.room key data size).total ≤ _ at hle
  have hfront : (s.room key data size).view s.fresh = ⟨cstr key, data, size⟩ := by
    rw [view, hitem]
    simp [cstr_eq_self (zero_not_mem_cstr key)]
  -- and it counts as many evictions as the list has become shorter
  have hevict : (s.room key data size).evictions = s.evictions +
      UInt64.ofNat (s.order.length - (s.room key data size).order.length) := hshort.evictions
  have hshorter : (s.room key data size).order.length ≤ s.order.length := hshort.order.length_le
  refine ⟨?_, hshort.maxSize.trans h.maxSize, hshort.maxEntries.trans h.maxEntries,
    hshort.hits.trans h.hits, hshort.misses.trans h.misses, ?_, ?_, ?_⟩
  · change (s.fresh :: (s.room key data size).order).map (s.room key data size).view = _
    rw [List.map_cons, hfront, hkept]
  · change (s.room key data size).evictions =
      UInt64.ofNat (p.evicted + (p.items.length - (p.kept size).length))
    rw [hcount, hlen, hevict, h.evicted, UInt64.ofNat_add]
  · change (s.room key data size).order.length + 1 +
      (p.evicted + (p.items.length - (p.kept size).length)) = p.inserted + 1
    rw [hcount, hlen, ← h.inserted]
    omega
  · have hsize : ((s.room key data size).items s.fresh).size = size := congrArg Item.size hitem
    rw [pushed_total hsize]
    omega

theorem Matches.put (h : Matches s p) (hs : s.Sound) (key : List UInt8) (data size : Nat)
    {alloc : PutAlloc} (hentry : alloc.entry = true) (hkey : alloc.key = true)
    (hsmall : s.total + size < sizeMod) :
    Answer.stored (s.put key data size alloc true).1 = (p.put (cstr key) data size).1 ∧
      Matches (s.put key data size alloc true).2 (p.put (cstr key) data size).2 := by
  have hpfind := h.find key
  have hend := put_cases s key data size alloc true
  rw [Policy.put, hpfind]
  generalize s.put key data size alloc true = out at hend ⊢
  cases hend with
  | hit hfind =>
      rw [hfind]
      exact ⟨rfl, h.overwrite hs hfind data size hsmall⟩
  | big hfind hsize =>
      rw [hfind]
      simp only [Option.map_none, if_pos (h.maxSize ▸ hsize)]
      exact ⟨trivial, h.items, h.maxSize, h.maxEntries, h.hits, h.misses, h.evicted, h.inserted,
        h.small⟩
  -- all allocations are granted, so the put is not given up
  | noEntry _ _ halloc =>
      rw [hentry] at halloc
      cases halloc
  | noKey _ _ _ halloc =>
      rw [hkey] at halloc
      cases halloc
  | refused _ _ htaken => cases htaken
  | inserted hfind hsize =>
      rw [hfind]
      simp only [Option.map_none, if_neg (Nat.not_lt.mpr (h.maxSize ▸ hsize))]
      exact ⟨trivial, h.insert hs key data hsmall⟩

end Shelf

/-! ## The cache follows the policy -/

namespace LruCache

open HashTable

variable {c : LruCache} {s : Shelf} {p : Policy}

/-- What the policy sees of an entry. -/
def itemOf (c : LruCache) (e : Nat) : PolicyItem :=
  ⟨cstr (c.heap e).key.str, (c.heap e).data, (c.heap e).size⟩

/-- The list of the cache holds the items of the policy, and the counters, which have 64 bits, are
the same. -/
structure Follows (c : LruCache) (p : Policy) : Prop where
  items : ∃ l, c.links.IsList l ∧ l.map c.itemOf = p.items
  currentSize : c.currentSize = Policy.bytes p.items
  num : c.numEntries = p.items.length
  hits : c.hits = UInt64.ofNat p.hits
  misses : c.misses = UInt64.ofNat p.misses
  evictions : c.evictions = UInt64.ofNat p.evicted

theorem Rep.itemOf (h : Rep c s) : c.itemOf = s.view := by
  funext e
  have hkey : (c.heap e).key = (s.items e).key := congrArg Item.key (h.heap e)
  have hdata : (c.heap e).data = (s.items e).data := congrArg Item.data (h.heap e)
  have hsize : (c.heap e).size = (s.items e).size := congrArg Item.size (h.heap e)
  rw [LruCache.itemOf, Shelf.view, hkey, hdata, hsize]

theorem Rep.currentSize (h : Rep c s) : c.currentSize = s.currentSize :=
  congrArg Shelf.currentSize h.shelf

theorem Rep.follows (h : Rep c s) (hs : s.Sound) (hm : s.Matches p) : Follows c p where
  items := ⟨s.order, h.list, by rw [h.itemOf, hm.items]⟩
  currentSize := by rw [h.currentSize, hs.sized, Nat.mod_eq_of_lt hm.small, hm.bytes]
  num := by rw [h.num, ← hm.items, List.length_map]
  hits := (congrArg Shelf.hits h.shelf).trans hm.hits
  misses := (congrArg Shelf.misses h.shelf).trans hm.misses
  evictions := (congrArg Shelf.evictions h.shelf).trans hm.evicted

/-- One call: the client sees the same, and the cache goes on following the policy. -/
theorem Rep.follow_step (h : Rep c s) (hs : s.Sound) (hm : s.Matches p) {op : LruOp}
    (hop : Granted c op) :
    (lruStep c op).2.answer (lruStep c op).1 = (p.step op).1 ∧
      (shelfStep s (c.takes op) op).2.Matches (p.step op).2 := by
  obtain ⟨hres, hrep⟩ := h.step hs op
  rw [hres]
  cases op with
  | put key data size alloc =>
      obtain ⟨hentry, hkey, htaken, hsmall⟩ := hop
      rw [h.currentSize, hs.sized, Nat.mod_eq_of_lt hm.small] at hsmall
      have hput := hm.put hs key data size.toNat hentry hkey hsmall
      simp only [takes, shelfStep, htaken]
      exact hput
  | get key =>
      refine ⟨?_, hm.get key⟩
      -- the client reads the entry in the new state, where the item is the same
      have hitem : (lruStep c (.get key)).2.itemOf = s.view :=
        hrep.itemOf.trans (Shelf.get_view s key)
      generalize (lruStep c (.get key)).2 = c' at hitem ⊢
      have hpfind := hm.find key
      change c'.answer (.entry (s.get key).1) = (p.get (cstr key)).1
      rw [Policy.get, hpfind, Shelf.get]
      cases hfind : s.find key with
      | none => rfl
      | some e =>
          have hne : e ≠ 0 := h.nonnull (find_mem hfind)
          simp only [Option.map_some, answer, if_neg hne]
          rw [← hitem]
          rfl
  | release e => exact ⟨rfl, hm.release e⟩

theorem Rep.follow_run (ops : List LruOp) :
    ∀ {c : LruCache} {s : Shelf} {p : Policy}, Rep c s → s.Sound → s.Matches p →
      Along lruNext Granted c ops →
      answers c ops = (p.run ops).1 ∧
        ∃ s', Rep (lruRun c ops) s' ∧ s'.Sound ∧ s'.Matches (p.run ops).2 := by
  induction ops with
  | nil => exact fun h hs hm _ => ⟨rfl, _, h, hs, hm⟩
  | cons op ops ih =>
      rintro c s p h hs hm ⟨hop, hops⟩
      obtain ⟨hans, hm'⟩ := h.follow_step hs hm hop
      obtain ⟨hrest, s', hend⟩ := ih (h.step hs op).2 (sound_step hs _ op) hm' hops
      rw [answers, hans, hrest]
      exact ⟨rfl, s', hend⟩

end LruCache

/-! ## Counters of the policy -/

namespace Policy

variable {p : Policy}

theorem step_gets (p : Policy) (op : LruCache.LruOp) :
    (p.step op).2.hits + (p.step op).2.misses =
      p.hits + p.misses + if LruCache.isGet op then 1 else 0 := by
  cases op with
  | put key data size alloc =>
      simp only [step, put]
      split
      · rfl
      · split
        · rfl
        · rfl
  | get key =>
      simp only [step, get]
      split
      · exact Nat.add_right_comm ..
      · rfl
  | release e => rfl

theorem run_gets (ops : List LruCache.LruOp) :
    ∀ p : Policy, (p.run ops).2.hits + (p.run ops).2.misses =
      p.hits + p.misses + ops.countP LruCache.isGet := by
  induction ops with
  | nil => exact fun _ => rfl
  | cons op ops ih =>
      intro p
      have hstep := step_gets p op
      have hrun := ih (p.step op).2
      rw [List.countP_cons]
      change ((p.step op).2.run ops).2.hits + ((p.step op).2.run ops).2.misses = _
      omega

theorem step_inserted (p : Policy) (op : LruCache.LruOp) :
    (p.step op).2.inserted ≤ p.inserted + 1 := by
  cases op with
  | put key data size alloc =>
      simp only [step, put]
      split
      · exact Nat.le_succ _
      · split
        · exact Nat.le_succ _
        · exact Nat.le_refl _
  | get key =>
      simp only [step, get]
      split
      · exact Nat.le_succ _
      · exact Nat.le_succ _
  | release e => exact Nat.le_succ _

theorem run_inserted (ops : List LruCache.LruOp) :
    ∀ p : Policy, (p.run ops).2.inserted ≤ p.inserted + ops.length := by
  induction ops with
  | nil => exact fun _ => Nat.le_refl _
  | cons op ops ih =>
      intro p
      have hstep := step_inserted p op
      have hrun := ih (p.step op).2
      rw [List.length_cons]
      change ((p.step op).2.run ops).2.inserted ≤ _
      omega

end Policy

namespace LruCache

/-- **The cache is an LRU cache.** Any calls on a new cache, with all allocations granted and the
bytes in use below `2 ^ 64`, are answered as the policy answers them and leave the items of the
policy, in its order. The hits and misses are the calls of `get`, and the entries are the
insertions less the evictions: in the arithmetic of the counters, which have 64 bits, and as
numbers before they can have wrapped. -/
theorem cache_refines_policy {c : LruCache} {maxSize maxEntries : Nat} {alloc : Bool}
    (hinit : lruCacheInit maxSize maxEntries alloc = some c) (ops : List LruOp)
    (hops : Along lruNext Granted c ops) :
    answers c ops = ((Policy.empty maxSize maxEntries).run ops).1 ∧
      Follows (lruRun c ops) ((Policy.empty maxSize maxEntries).run ops).2 ∧
      (lruRun c ops).hits + (lruRun c ops).misses = UInt64.ofNat (ops.countP isGet) ∧
      UInt64.ofNat (lruRun c ops).numEntries + (lruRun c ops).evictions =
        UInt64.ofNat ((Policy.empty maxSize maxEntries).run ops).2.inserted ∧
      (ops.length < 2 ^ 64 →
        (lruRun c ops).hits.toNat + (lruRun c ops).misses.toNat = ops.countP isGet ∧
        (lruRun c ops).numEntries + (lruRun c ops).evictions.toNat =
          ((Policy.empty maxSize maxEntries).run ops).2.inserted) := by
  have hempty : (emptyShelf maxSize maxEntries).Matches (Policy.empty maxSize maxEntries) :=
    ⟨rfl, rfl, rfl, rfl, rfl, rfl, rfl, show 0 < sizeMod by decide⟩
  obtain ⟨hans, s, hrep, hs, hm⟩ :=
    (lruCacheInit_rep hinit).follow_run ops (emptyShelf_sound ..) hempty hops
  have hfollows := hrep.follows hs hm
  -- what the policy counts as numbers the cache counts modulo `2 ^ 64`
  have hgets : ((Policy.empty maxSize maxEntries).run ops).2.hits +
      ((Policy.empty maxSize maxEntries).run ops).2.misses = ops.countP isGet := by
    rw [Policy.run_gets ops]
    exact Nat.zero_add _
  have hputs := Policy.run_inserted ops (Policy.empty maxSize maxEntries)
  have hinserted := hm.inserted
  have hnum := hrep.num
  refine ⟨hans, hfollows, ?_, ?_, fun hlen => ⟨?_, ?_⟩⟩
  · rw [hfollows.hits, hfollows.misses, ← UInt64.ofNat_add, hgets]
  · rw [hfollows.evictions, ← UInt64.ofNat_add, hnum, hinserted]
  · -- no more than the calls are counted
    have hle := List.countP_le_length (p := isGet) (l := ops)
    rw [hfollows.hits, hfollows.misses, Shelf.toNat_count (by omega),
      Shelf.toNat_count (by omega), hgets]
  · have hle : ((Policy.empty maxSize maxEntries).run ops).2.inserted ≤ 0 + ops.length := hputs
    rw [hfollows.evictions, Shelf.toNat_count (by omega), hnum, hinserted]

/-- Three items that do not fit together, the second of them in use when the third comes. -/
def policyOps : List LruOp :=
  [.put [97] 1 40 granted, .put [98] 2 50 granted, .get [97], .put [99] 3 30 granted, .get [98],
    .put [97] 4 20 granted, .release 1, .put [98] 5 200 granted]

theorem cache_refines_policy_sample :
    answers (sampleCache 100) policyOps =
      [.stored true, .stored true, .hit 1 40, .stored true, .miss, .stored true, .released,
        .stored false] ∧
    (lruRun (sampleCache 100) policyOps).currentSize = 50 ∧
    Follows (lruRun (sampleCache 100) policyOps) ((Policy.empty 100 4).run policyOps).2 :=
  ⟨by decide +kernel, by decide +kernel,
    (cache_refines_policy (show lruCacheInit 100 4 true = some (sampleCache 100) from rfl) policyOps
      (by decide +kernel)).2.1⟩

end LruCache

end HttpServer
