import HttpServer.Cache.Run

set_option autoImplicit false

/-! # The table of the cache grows

Every insertion of a new key into the table raises the number of entries and tombstones by one,
also when it reuses a tombstone, and every eviction turns an entry into a tombstone. When
the table is full it is doubled. So however few entries a cache may have, its table grows as
long as there is memory.
-/

namespace HttpServer.LruCache

open CLib HashTable

variable {c : LruCache} {s : Shelf}

/-! ## One insertion -/

theorem putInsert_table (c : LruCache) (e data size : Nat) (alloc : Bool) :
    (putInsert c e data size alloc).2.table =
      (htInsert (evictLoop size c.numEntries c).table
        ((evictLoop size c.numEntries c).heap e).key e alloc).2 := by
  unfold putInsert
  simp only
  generalize evictLoop size c.numEntries c = c₁
  split
  · rename_i hinsert
    rw [hinsert]
    rfl
  · rename_i hinsert
    rw [hinsert]
    exact (same_listPushFront _ e).table

theorem Rep.put_table (h : Rep c s) {key : List UInt8} {size : Nat} (data : Nat)
    (hfind : s.find key = none) (hsize : size ≤ s.maxSize) :
    (lruCachePut c key data size granted).2 =
      (putInsert ({ c with fresh := s.fresh + 1 }.modify s.fresh
        (fun _ => ⟨data, size, ⟨s.fresh, cstr key⟩, 0, false, 0, 0⟩)) s.fresh data size true).2 := by
  have hmax : c.maxSize = s.maxSize := congrArg Shelf.maxSize h.shelf
  have hfresh : c.fresh = s.fresh := congrArg Shelf.fresh h.shelf
  unfold lruCachePut
  rw [h.lookup key, hfind, if_neg (by simp), if_neg (by omega), hfresh]
  rfl

/-- A new key is put, with all memory granted: the load goes up by one, or the table is doubled. -/
theorem Rep.put_load (h : Rep c s) (hs : s.Sound) {key : List UInt8} {size : Nat} (data : Nat)
    (hfind : s.find key = none) (hsize : size ≤ s.maxSize)
    (hcap : c.table.capacity * 2 * slotSize < sizeMod) {c' : LruCache}
    (hput : (lruCachePut c key data size granted).2 = c') :
    (c.table.loaded = false ∧ c'.table.capacity = c.table.capacity ∧
        c'.table.count + c'.table.tombstones = c.table.count + c.table.tombstones + 1) ∨
      c'.table.capacity = c.table.capacity * 2 := by
  have halloc := h.alloc hs.new key data size
  have hafter := (h.put hs key data size granted).2
  have htaken : c.taken true = true := by
    rw [taken, callocOk, Bool.true_and, decide_eq_true hcap, Bool.or_true]
  have hput' := h.put_table data hfind hsize
  rw [hput] at hafter hput'
  -- the key is new and nothing fails, so the entry is inserted
  have horder : (s.put key data size granted true).2.order.length =
      (s.room key data size).order.length + 1 := by
    have hend := Shelf.put_cases s key data size granted true
    generalize s.put key data size granted true = out at hend ⊢
    cases hend with
    | hit hfind' =>
        rw [hfind] at hfind'
        cases hfind'
    | big _ hbig => exact absurd hbig (Nat.not_lt.mpr hsize)
    | noEntry _ _ h0 => cases h0
    | noKey _ _ _ h0 => cases h0
    | refused _ _ h0 => cases h0
    | inserted => rfl
  have hcount := hafter.table.count
  rw [List.length_map, show granted.table = true from rfl, htaken, horder] at hcount
  have htable : ({ c with fresh := s.fresh + 1 }.modify s.fresh
    (fun _ => ⟨data, size, ⟨s.fresh, cstr key⟩, 0, false, 0, 0⟩)).table = c.table := rfl
  generalize ({ c with fresh := s.fresh + 1 }.modify s.fresh
    (fun _ => ⟨data, size, ⟨s.fresh, cstr key⟩, 0, false, 0, 0⟩)) = c₀ at halloc hput' htable
  have hroom : Rep (HttpServer.evictLoop size s.order.length c₀) (s.room key data size) :=
    halloc.evictLoop size s.order.length
  have hnum : c₀.numEntries = s.order.length := halloc.num
  have hinsert := putInsert_table c₀ s.fresh data size true
  rw [← hput', hnum] at hinsert
  have hbefore := hroom.table.count
  rw [List.length_map] at hbefore
  obtain ⟨hcap₁, hload₁⟩ := halloc.load_evictLoop size s.order.length
  rw [htable] at hcap₁ hload₁
  generalize HttpServer.evictLoop size s.order.length c₀ = c₁ at hroom hinsert hbefore hcap₁ hload₁
  -- an eviction turns a slot in use into a tombstone: the load stays
  have hloaded : c₁.table.loaded = c.table.loaded := by
    rw [HashTable.loaded, HashTable.loaded, hcap₁, hload₁]
  have hend := hroom.table.insert (c₁.heap s.fresh).key s.fresh true
  rw [hinsert] at hcount ⊢
  generalize htInsert c₁.table (c₁.heap s.fresh).key s.fresh true = out at hend hcount ⊢
  cases hend with
  | refused _ hcalloc =>
      rw [callocOk, Bool.true_and, hcap₁, decide_eq_false_iff_not] at hcalloc
      exact absurd hcap hcalloc
  | here hnot _ hcap' htomb =>
      refine .inl ⟨hloaded.symm.trans hnot, hcap'.trans hcap₁, ?_⟩
      simp only at hcount ⊢
      omega
  | grown _ _ _ hcap' => exact .inr (by simp only [hcap', hcap₁])

/-! ## Many insertions -/

/-- Some key is not in the cache. -/
theorem exists_new_key (s : Shelf) : ∃ key, s.find key = none := by
  have hinj : Function.Injective fun n => List.replicate n (97 : UInt8) :=
    fun a b hab => by simpa using congrArg List.length hab
  have hcard : (s.order.map fun e => cstr (s.items e).key.str).toFinset.card <
      ((Finset.range (s.order.length + 1)).image fun n => List.replicate n (97 : UInt8)).card := by
    rw [Finset.card_image_of_injective _ hinj, Finset.card_range]
    calc (s.order.map fun e => cstr (s.items e).key.str).toFinset.card
        ≤ (s.order.map fun e => cstr (s.items e).key.str).length := List.toFinset_card_le _
      _ = s.order.length := List.length_map ..
      _ < s.order.length + 1 := Nat.lt_succ_self _
  obtain ⟨key, hkey, hnew⟩ := Finset.exists_mem_notMem_of_card_lt_card hcard
  obtain ⟨n, _, rfl⟩ := Finset.mem_image.mp hkey
  refine ⟨List.replicate n 97, List.find?_eq_none.mpr fun e he hhas => hnew ?_⟩
  have hzero : (0 : UInt8) ∉ List.replicate n 97 := by
    intro hmem
    exact absurd (List.eq_of_mem_replicate hmem) (by decide)
  rw [Shelf.hasKey, decide_eq_true_eq, cstr_eq_self hzero] at hhas
  exact List.mem_toFinset.mpr (List.mem_map.mpr ⟨e, he, hhas⟩)

/-- New keys are put until the table is doubled, which takes at most `n + 1` of them. -/
theorem Rep.doubles (n : Nat) :
    ∀ {c : LruCache} {s : Shelf}, Rep c s → s.Sound →
      c.table.capacity * 2 * slotSize < sizeMod →
      c.table.capacity * htMaxLoadNumer ≤ (c.table.count + c.table.tombstones + n) * htMaxLoadDenom →
      ∃ ops, (lruRun c ops).table.capacity = c.table.capacity * 2 := by
  induction n with
  -- the load factor is reached: the next new key doubles the table
  | zero =>
      intro c s h hs hcap hn
      obtain ⟨key, hfind⟩ := exists_new_key s
      refine ⟨[.put key 0 0 granted], ?_⟩
      rcases h.put_load hs 0 hfind (Nat.zero_le _) hcap rfl with ⟨hnot, _⟩ | hdouble
      · have hloaded : c.table.loaded = true := by
          rw [h.table.intact.balanced.loaded_iff]
          unfold htMaxLoadNumer htMaxLoadDenom at hn ⊢
          omega
        rw [hnot] at hloaded
        cases hloaded
      · exact hdouble
  | succ n ih =>
      intro c s h hs hcap hn
      obtain ⟨key, hfind⟩ := exists_new_key s
      have hstep := (h.step hs (.put key 0 0 granted)).2
      rcases h.put_load hs 0 hfind (Nat.zero_le _) hcap rfl with ⟨_, hsame, hload⟩ | hdouble
      -- otherwise the load has grown by one, and `n` puts are left
      · have hn' : (lruStep c (.put key 0 0 granted)).2.table.capacity * htMaxLoadNumer ≤
            ((lruStep c (.put key 0 0 granted)).2.table.count +
              (lruStep c (.put key 0 0 granted)).2.table.tombstones + n) * htMaxLoadDenom := by
          change (lruCachePut c key 0 0 granted).2.table.capacity * htMaxLoadNumer ≤
            ((lruCachePut c key 0 0 granted).2.table.count +
              (lruCachePut c key 0 0 granted).2.table.tombstones + n) * htMaxLoadDenom
          rw [hsame, hload, Nat.add_assoc, Nat.add_comm 1 n]
          exact hn
        have hcap' : (lruStep c (.put key 0 0 granted)).2.table.capacity * 2 * slotSize < sizeMod := by
          change (lruCachePut c key 0 0 granted).2.table.capacity * 2 * slotSize < sizeMod
          rw [hsame]
          exact hcap
        obtain ⟨ops, hops⟩ := ih hstep (sound_step hs _ _) hcap' hn'
        exact ⟨.put key 0 0 granted :: ops, hops.trans (congrArg (· * 2) hsame)⟩
      · exact ⟨[.put key 0 0 granted], hdouble⟩

/-! ## The table has no bound -/

theorem lruRun_append (c : LruCache) (ops ops' : List LruOp) :
    lruRun c (ops ++ ops') = lruRun (lruRun c ops) ops' := List.foldl_append

/-- The largest number of slots, a power of two, whose size in bytes is a `size_t`. -/
def maxSlots : Nat := 2 ^ 59

/-- Every table is that small, as `calloc` fails for a larger one. -/
theorem Rep.capacity_le (h : Rep c s) : c.table.capacity ≤ maxSlots := by
  obtain ⟨k, hk⟩ := h.table.intact.pow
  have hhi := h.table.intact.hi
  rw [hk] at hhi ⊢
  rw [slotSize, sizeMod] at hhi
  refine Nat.pow_le_pow_right (by decide) (Nat.le_of_lt_succ ?_)
  by_contra hge
  have hbig : 2 ^ 60 ≤ 2 ^ k := Nat.pow_le_pow_right (by decide) (Nat.le_of_not_lt hge)
  omega

/-- From any state every larger power of two is reached that is the size of a table at all. -/
theorem Rep.reaches (h : Rep c s) (hs : s.Sound) {k : Nat} (hk : c.table.capacity = 2 ^ k) (d : Nat)
    (hd : k + d ≤ 59) : ∃ ops, (lruRun c ops).table.capacity = 2 ^ (k + d) := by
  induction d with
  | zero => exact ⟨[], hk⟩
  | succ d ih =>
      obtain ⟨ops, hops⟩ := ih (by omega)
      obtain ⟨s', h', hs'⟩ := h.run hs ops
      have hcap : (lruRun c ops).table.capacity * 2 * slotSize < sizeMod := by
        have hle : 2 ^ (k + d) ≤ 2 ^ 58 := Nat.pow_le_pow_right (by decide) (by omega)
        rw [hops, slotSize, sizeMod]
        omega
      obtain ⟨ops', hops'⟩ := h'.doubles (lruRun c ops).table.capacity hs' hcap (by
        unfold htMaxLoadNumer htMaxLoadDenom
        omega)
      exact ⟨ops ++ ops', by rw [lruRun_append, hops', hops, ← pow_succ, Nat.add_assoc]⟩

/-- Some run fills the table to the last. -/
theorem exists_run_maxSlots (maxSize maxEntries : Nat) :
    ∃ c ops, lruCacheInit maxSize maxEntries true = some c ∧
      (lruRun c ops).table.capacity = maxSlots := by
  obtain ⟨c, hinit⟩ : ∃ c, lruCacheInit maxSize maxEntries true = some c := ⟨_, rfl⟩
  have hrep := lruCacheInit_rep hinit
  obtain ⟨k, hk⟩ := hrep.table.intact.pow
  have hle := hrep.capacity_le
  rw [hk, maxSlots] at hle
  have hk' : k ≤ 59 := (Nat.pow_le_pow_iff_right (by decide)).mp hle
  obtain ⟨ops, hops⟩ := hrep.reaches (emptyShelf_sound ..) hk (59 - k) (by omega)
  refine ⟨c, ops, hinit, hops.trans ?_⟩
  rw [Nat.add_sub_cancel' hk', maxSlots]

/-- The table of a cache with these limits has at most `B` slots in every run. As no table at all
has more than `maxSlots`, a bound that comes from the limits is below that. -/
def IndexBounded (maxSize maxEntries : Nat) : Prop :=
  ∃ B < maxSlots, ∀ c alloc, lruCacheInit maxSize maxEntries alloc = some c →
    ∀ ops, (lruRun c ops).table.capacity ≤ B

/-- **The table of the cache has no bound.** Whatever the limits of the cache, some run makes
its table as large as a table can be. -/
theorem index_not_bounded (maxSize maxEntries : Nat) : ¬ IndexBounded maxSize maxEntries := by
  rintro ⟨B, hB, hall⟩
  obtain ⟨c, ops, hinit, hops⟩ := exists_run_maxSlots maxSize maxEntries
  have hle := hall c true hinit ops
  omega

theorem not_indexBounded_single : ¬ IndexBounded 100 1 := by
  rintro ⟨B, hB, hall⟩
  obtain ⟨c, ops, hinit, hops⟩ := exists_run_maxSlots 100 1
  have hle := hall c true hinit ops
  omega

end HttpServer.LruCache
