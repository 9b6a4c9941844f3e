import HttpServer.HashTable.Search

set_option autoImplicit false

/-! # The load of the table

`Balanced` is what the table keeps whatever its hash function and its equality test are: the
capacity is a power of two, the counters are within the load factor, and the slots that are not
empty are at most as many as the counters say. Only `tombstones` overstates: an insertion that
reuses a tombstone does not lower it.

So an empty slot is left, every search meets it, and no insertion finds the table full.
-/

namespace HttpServer.HashTable

open CLib

variable {K V : Type} {ht : HashTable K V} {key : K} {value : V}

/-! ## The invariant -/

/-- The slots that are not empty. -/
def filledSlots (ht : HashTable K V) : Finset Nat :=
  (Finset.range ht.capacity).filter (fun i => ht.stateAt i ≠ .empty)

structure Balanced (ht : HashTable K V) : Prop extends Circular ht where
  load : (ht.count + ht.tombstones) * htMaxLoadDenom ≤ ht.capacity * htMaxLoadNumer
  count_eq : ht.count = ht.entries.length
  filled : ht.filledSlots.card ≤ ht.count + ht.tombstones

/-- The counters are far from overflowing. -/
theorem Balanced.counters (h : Balanced ht) :
    ht.count + ht.tombstones < ht.capacity ∧ ht.capacity * 16 < sizeMod := by
  have hload := h.load
  have hlo := h.lo
  have hhi := h.hi
  unfold htMaxLoadDenom htMaxLoadNumer at hload
  unfold slotSize at hhi
  omega

theorem Balanced.exists_empty (h : Balanced ht) : ∃ i < ht.capacity, ht.stateAt i = .empty := by
  have hlt : ht.filledSlots.card < ht.capacity :=
    calc ht.filledSlots.card
        ≤ ht.count + ht.tombstones := h.filled
      _ < ht.capacity := h.counters.1
  obtain ⟨i, hi, hnot⟩ := exists_of_card_lt hlt
  exact ⟨i, hi, not_not.mp hnot⟩

/-- No search goes all the way round. -/
theorem Balanced.not_passed (h : Balanced ht) (key : K) : ¬ Passed ht key ht.capacity := by
  intro hpassed
  obtain ⟨i, hi, hempty⟩ := h.exists_empty
  obtain ⟨d, hd, hpath⟩ := exists_probe (ht.hash key).toNat hi
  have hpath' : ht.path key d = i := hpath
  exact (hpassed d hd).1 (by rw [hpath']; exact hempty)

/-! ## The entries after a write -/

/-- The slots with a value replaced. -/
theorem stateAt_overwrite (ht : HashTable K V) (i : Nat) (value : V) (j : Nat) :
    (ht.overwrite i value).stateAt j = ht.stateAt j ∧
      ((ht.overwrite i value).slots j).key = (ht.slots j).key := by
  rcases eq_or_ne j i with rfl | hne
  · simp [overwrite, stateAt]
  · simp [overwrite, stateAt, hne]

theorem entries_overwrite {i : Nat} (hi : i < ht.capacity) (hused : ht.stateAt i = .used)
    (value : V) :
    ∃ l, ht.entries.Perm (((ht.slots i).key, (ht.slots i).value) :: l) ∧
      (ht.overwrite i value).entries.Perm (((ht.slots i).key, value) :: l) := by
  have hother : ∀ j, j ≠ i → (ht.overwrite i value).slots j = ht.slots j :=
    fun j hj => Function.update_of_ne hj ..
  obtain ⟨l, hold, hnew⟩ := contents_split hi (f := ht.entryAt) (g := (ht.overwrite i value).entryAt)
    (fun j hj => by rw [entryAt, entryAt, stateAt, stateAt, hother j hj])
  have hself : (ht.overwrite i value).entryAt i = some ((ht.slots i).key, value) := by
    rw [entryAt_of_used ((stateAt_overwrite ht i value i).1.trans hused)]
    simp [HashTable.overwrite]
  rw [entryAt_of_used hused] at hold
  rw [hself] at hnew
  exact ⟨l, hold, hnew⟩

theorem entries_place {i : Nat} (hi : i < ht.capacity) (hfree : ht.stateAt i ≠ .used) (key : K)
    (value : V) : (ht.place i key value).entries.Perm ((key, value) :: ht.entries) := by
  have hself : (ht.place i key value).slots i = ⟨key, value, .used⟩ := Function.update_self ..
  have hother : ∀ j, j ≠ i → (ht.place i key value).slots j = ht.slots j :=
    fun j hj => Function.update_of_ne hj ..
  obtain ⟨l, hold, hnew⟩ := contents_split hi (f := ht.entryAt) (g := (ht.place i key value).entryAt)
    (fun j hj => by rw [entryAt, entryAt, stateAt, stateAt, hother j hj])
  rw [entryAt_of_not_used hfree] at hold
  rw [entryAt, stateAt, hself, if_pos rfl] at hnew
  calc (ht.place i key value).entries.Perm ((key, value) :: l) := hnew
    List.Perm _ ((key, value) :: ht.entries) := hold.symm.cons _

theorem entries_bury [Zero K] [Zero V] {i : Nat} (hi : i < ht.capacity)
    (hused : ht.stateAt i = .used) :
    ht.entries.Perm (((ht.slots i).key, (ht.slots i).value) :: (ht.bury i).entries) := by
  have hself : (ht.bury i).slots i = ⟨0, 0, .tombstone⟩ := Function.update_self ..
  have hother : ∀ j, j ≠ i → (ht.bury i).slots j = ht.slots j :=
    fun j hj => Function.update_of_ne hj ..
  obtain ⟨l, hold, hnew⟩ := contents_split hi (f := ht.entryAt) (g := (ht.bury i).entryAt)
    (fun j hj => by rw [entryAt, entryAt, stateAt, stateAt, hother j hj])
  rw [entryAt_of_used hused] at hold
  rw [entryAt_of_not_used (by rw [stateAt, hself]; simp)] at hnew
  exact hold.trans (hnew.symm.cons _)

/-! ## The writes keep the invariant -/

theorem Balanced.overwrite (h : Balanced ht) {i : Nat} (hi : i < ht.capacity)
    (hused : ht.stateAt i = .used) (value : V) : Balanced (ht.overwrite i value) := by
  obtain ⟨l, hold, hnew⟩ := entries_overwrite hi hused value
  refine ⟨⟨h.pow, h.lo, h.hi⟩, h.load, ?_, ?_⟩
  · have hlen : (ht.overwrite i value).entries.length = ht.entries.length :=
      hnew.length_eq.trans hold.length_eq.symm
    exact h.count_eq.trans hlen.symm
  · have hsame : (ht.overwrite i value).filledSlots = ht.filledSlots :=
      Finset.filter_congr fun j _ => by rw [(stateAt_overwrite ht i value j).1]
    rw [hsame]
    exact h.filled

theorem Balanced.place_count (h : Balanced ht) (i : Nat) (key : K) (value : V) :
    (ht.place i key value).count = ht.count + 1 := by
  have := h.counters
  exact Nat.mod_eq_of_lt (by omega)

theorem Balanced.place (h : Balanced ht)
    (hroom : (ht.count + ht.tombstones + 1) * htMaxLoadDenom ≤ ht.capacity * htMaxLoadNumer)
    {i : Nat} (hi : i < ht.capacity) (hfree : ht.stateAt i ≠ .used) (key : K) (value : V) :
    Balanced (ht.place i key value) := by
  have hcount := h.place_count i key value
  refine ⟨⟨h.pow, h.lo, h.hi⟩, ?_, ?_, ?_⟩
  · rw [hcount, Nat.add_right_comm]
    exact hroom
  · rw [hcount, (entries_place hi hfree key value).length_eq, List.length_cons, h.count_eq]
  · -- the slot may have been a tombstone, which stays counted as one
    have hsub : (ht.place i key value).filledSlots ⊆ insert i ht.filledSlots := by
      intro j hj
      obtain ⟨hlt, hstate⟩ := Finset.mem_filter.mp hj
      rcases eq_or_ne j i with rfl | hne
      · exact Finset.mem_insert_self ..
      · rw [stateAt, show (ht.place i key value).slots j = ht.slots j from
          Function.update_of_ne hne ..] at hstate
        exact Finset.mem_insert_of_mem (Finset.mem_filter.mpr ⟨hlt, hstate⟩)
    rw [hcount]
    change _ ≤ ht.count + 1 + ht.tombstones
    have hcard := (Finset.card_le_card hsub).trans (Finset.card_insert_le ..)
    have := h.filled
    omega

/-- A slot is empty after a removal where it was before. -/
theorem bury_empty_iff [Zero K] [Zero V] {i : Nat} (hused : ht.stateAt i = .used) (j : Nat) :
    (ht.bury i).stateAt j = .empty ↔ ht.stateAt j = .empty := by
  rcases eq_or_ne j i with rfl | hne
  · rw [stateAt, show (ht.bury j).slots j = ⟨0, 0, .tombstone⟩ from Function.update_self .., hused]
    simp
  · rw [stateAt, show (ht.bury i).slots j = ht.slots j from Function.update_of_ne hne .., stateAt]

theorem Balanced.bury [Zero K] [Zero V] (h : Balanced ht) {i : Nat} (hi : i < ht.capacity)
    (hused : ht.stateAt i = .used) :
    Balanced (ht.bury i) ∧
      (ht.bury i).count + (ht.bury i).tombstones = ht.count + ht.tombstones := by
  have hlen := (entries_bury hi hused).length_eq
  rw [List.length_cons, ← h.count_eq] at hlen
  have hbound := h.counters
  have hcount : (ht.bury i).count = ht.count - 1 := by
    change (ht.count + (sizeMod - 1)) % sizeMod = _
    rw [show ht.count + (sizeMod - 1) = ht.count - 1 + sizeMod by omega, Nat.add_mod_right,
      Nat.mod_eq_of_lt (by omega)]
  have htombs : (ht.bury i).tombstones = ht.tombstones + 1 := Nat.mod_eq_of_lt (by omega)
  have hsum : (ht.bury i).count + (ht.bury i).tombstones = ht.count + ht.tombstones := by omega
  refine ⟨⟨⟨h.pow, h.lo, h.hi⟩, ?_, by omega, ?_⟩, hsum⟩
  · rw [hsum]
    exact h.load
  · have hsame : (ht.bury i).filledSlots = ht.filledSlots :=
      Finset.filter_congr fun j _ => not_congr (bury_empty_iff hused j)
    rw [hsum, hsame]
    exact h.filled

/-! ## Searches and insertions -/

/-- The search for a key ends at the slot it visits after `d` steps: an empty one or a match. -/
structure Stops (ht : HashTable K V) (key : K) (d : Nat) : Prop where
  passed : Passed ht key d
  stop : ht.stateAt (ht.path key d) = .empty ∨
    ht.stateAt (ht.path key d) = .used ∧ ht.eq (ht.slots (ht.path key d)).key key = true

theorem Balanced.stops (h : Balanced ht) (key : K) : ∃ d < ht.capacity, Stops ht key d := by
  have hfound := findKey_found h.toCircular key
  generalize ht.findKey key = res at hfound
  cases hfound with
  | @hit d hd hpassed hused heq => exact ⟨d, hd, hpassed, .inr ⟨hused, heq⟩⟩
  | @miss d hd hpassed hempty => exact ⟨d, hd, hpassed, .inl hempty⟩
  | exhausted hpassed => exact absurd hpassed (h.not_passed key)

/-- What an insertion leaves alone. -/
theorem insertNoResize_frame (h : Circular ht) (key : K) (value : V) :
    (ht.insertNoResize key value).2.capacity = ht.capacity ∧
    (ht.insertNoResize key value).2.tombstones = ht.tombstones ∧
    (ht.insertNoResize key value).2.hash = ht.hash ∧
    (ht.insertNoResize key value).2.eq = ht.eq := by
  have hins := insertNoResize_inserted h key value
  generalize ht.insertNoResize key value = res at hins ⊢
  cases hins with
  | hit => exact ⟨rfl, rfl, rfl, rfl⟩
  | miss => exact ⟨rfl, rfl, rfl, rfl⟩
  | exhausted => exact ⟨rfl, rfl, rfl, rfl⟩

/-- An insertion into a balanced table succeeds ... -/
theorem Balanced.insert_true (h : Balanced ht) (key : K) (value : V) :
    (ht.insertNoResize key value).1 = true := by
  have hins := insertNoResize_inserted h.toCircular key value
  generalize ht.insertNoResize key value = res at hins ⊢
  cases hins with
  | hit => rfl
  | miss => rfl
  | exhausted hpassed => exact absurd hpassed (h.not_passed key)

/-- ... and leaves it balanced if there was room for one more entry. -/
theorem Balanced.insertNoResize (h : Balanced ht)
    (hroom : (ht.count + ht.tombstones + 1) * htMaxLoadDenom ≤ ht.capacity * htMaxLoadNumer)
    (key : K) (value : V) :
    Balanced (ht.insertNoResize key value).2 ∧
      (ht.insertNoResize key value).2.count ≤ ht.count + 1 := by
  have hins := insertNoResize_inserted h.toCircular key value
  generalize ht.insertNoResize key value = res at hins ⊢
  cases hins with
  | @hit d hd hused hk => exact ⟨h.overwrite (h.path_lt key d) hused value, Nat.le_succ _⟩
  | @miss d e hd hpassed hempty he hfree =>
      exact ⟨h.place hroom (h.path_lt key e) hfree key value, (h.place_count _ key value).le⟩
  | exhausted hpassed => exact absurd hpassed (h.not_passed key)

/-! ## Growing -/

/-- A table fresh from `calloc` has no entries. -/
theorem entries_zero [Zero K] [Zero V] (cap : Nat) (hash : K → UInt64) (eq : K → K → Bool) :
    (⟨zeroSlots, cap, 0, 0, hash, eq⟩ : HashTable K V).entries = [] := by
  rw [List.eq_nil_iff_forall_not_mem]
  intro e he
  obtain ⟨i, _, hi⟩ := mem_contents.mp he
  have hnone : (⟨zeroSlots, cap, 0, 0, hash, eq⟩ : HashTable K V).stateAt i ≠ .used := fun h => (by cases h)
  rw [entryAt_of_not_used hnone] at hi
  cases hi

theorem balanced_zero [Zero K] [Zero V] {cap : Nat} {hash : K → UInt64} {eq : K → K → Bool}
    (hc : Circular (⟨zeroSlots, cap, 0, 0, hash, eq⟩ : HashTable K V)) :
    Balanced (⟨zeroSlots, cap, 0, 0, hash, eq⟩ : HashTable K V) := by
  have hfilled : (⟨zeroSlots, cap, 0, 0, hash, eq⟩ : HashTable K V).filledSlots = ∅ :=
    Finset.filter_false_of_mem fun i _ h0 => h0 rfl
  exact ⟨hc, by simp, by rw [entries_zero]; rfl, by rw [hfilled]; simp⟩

theorem contents_length_le {α : Type} (n : Nat) (f : Nat → Option α) : (contents n f).length ≤ n :=
  (List.length_filterMap_le ..).trans List.length_range.le

theorem rehash_of_not_used {old : Nat → HtSlot K V} {i : Nat} (h : (old i).state ≠ .used) :
    rehash old ht i = ht := by
  unfold rehash
  split
  · rename_i h0
    exact absurd h0 h
  · rfl

/-- The new table after `i` turns of the loop of `resize` to twice the capacity. -/
def regrown [Zero K] [Zero V] (ht : HashTable K V) (i : Nat) : HashTable K V :=
  (List.range i).foldl (rehash ht.slots)
    { ht with slots := zeroSlots, capacity := ht.capacity * 2, count := 0, tombstones := 0 }

theorem regrown_succ [Zero K] [Zero V] (ht : HashTable K V) (i : Nat) :
    ht.regrown (i + 1) = rehash ht.slots (ht.regrown i) i := by
  rw [regrown, List.range_succ, List.foldl_append]
  rfl

theorem Circular.double [Zero K] [Zero V] (h : Circular ht)
    (hcap : ht.capacity * 2 * slotSize < sizeMod) : Circular (ht.regrown 0) := by
  refine ⟨?_, h.lo.trans (Nat.le_mul_of_pos_right _ (by decide)), hcap⟩
  obtain ⟨k, hk⟩ := h.pow
  exact ⟨k + 1, by rw [pow_succ, ← hk]; rfl⟩

/-- Part of the way through `resize`: at most the entries of the first `i` slots are there. -/
structure Refilled (old : HashTable K V) (i : Nat) (ht : HashTable K V) : Prop where
  balanced : Balanced ht
  capacity : ht.capacity = old.capacity * 2
  tombstones : ht.tombstones = 0
  count : ht.count ≤ (contents i old.entryAt).length

/-- Half of the new table is always free. -/
theorem Refilled.room {old : HashTable K V} {i : Nat} (h : Refilled old i ht)
    (hi : i < old.capacity) :
    (ht.count + ht.tombstones + 1) * htMaxLoadDenom ≤ ht.capacity * htMaxLoadNumer := by
  have hle := h.count.trans (contents_length_le i old.entryAt)
  rw [h.tombstones, h.capacity]
  unfold htMaxLoadDenom htMaxLoadNumer
  omega

theorem Refilled.rehash {old : HashTable K V} {i : Nat} (h : Refilled old i ht)
    (hi : i < old.capacity) : Refilled old (i + 1) (rehash old.slots ht i) := by
  have hsucc := contents_succ i old.entryAt
  by_cases hused : old.stateAt i = .used
  · obtain ⟨hbal, hcount⟩ := h.balanced.insertNoResize (h.room hi) (old.slots i).key
      (old.slots i).value
    obtain ⟨hcap, htomb, -, -⟩ := insertNoResize_frame h.balanced.toCircular (old.slots i).key
      (old.slots i).value
    rw [HashTable.rehash, show (old.slots i).state = .used from hused]
    refine ⟨hbal, hcap.trans h.capacity, htomb.trans h.tombstones, ?_⟩
    rw [hsucc, entryAt_of_used hused, List.length_append]
    exact hcount.trans (Nat.succ_le_succ h.count)
  · rw [rehash_of_not_used hused]
    rw [entryAt_of_not_used hused, Option.toList_none, List.append_nil] at hsucc
    exact ⟨h.balanced, h.capacity, h.tombstones, hsucc ▸ h.count⟩

theorem Balanced.refilled [Zero K] [Zero V] (h : Balanced ht)
    (hcap : ht.capacity * 2 * slotSize < sizeMod) (i : Nat) (hi : i ≤ ht.capacity) :
    Refilled ht i (ht.regrown i) := by
  induction i with
  | zero => exact ⟨balanced_zero (h.toCircular.double hcap), rfl, rfl, Nat.zero_le _⟩
  | succ i ih =>
      rw [regrown_succ]
      exact (ih (by omega)).rehash (by omega)

theorem Balanced.double_mod (h : Balanced ht) : ht.capacity * 2 % sizeMod = ht.capacity * 2 := by
  have := h.counters
  exact Nat.mod_eq_of_lt (by omega)

theorem callocOk_size {n size : Nat} {alloc : Bool} (h : callocOk n size alloc = true) :
    n * size < sizeMod := by
  rw [callocOk, Bool.and_eq_true, decide_eq_true_eq] at h
  exact h.2

/-- What `resize` to twice the capacity does when there is memory. -/
theorem Balanced.resize [Zero K] [Zero V] (h : Balanced ht) {alloc : Bool}
    (hok : callocOk (ht.capacity * 2) slotSize alloc = true) :
    ht.resize (ht.capacity * 2 % sizeMod) alloc = (true, ht.regrown ht.capacity) := by
  rw [h.double_mod, HashTable.resize, if_pos hok]
  rfl

theorem Balanced.resize_room [Zero K] [Zero V] (h : Balanced ht)
    (hcap : ht.capacity * 2 * slotSize < sizeMod) :
    ((ht.regrown ht.capacity).count + (ht.regrown ht.capacity).tombstones + 1) * htMaxLoadDenom ≤
      (ht.regrown ht.capacity).capacity * htMaxLoadNumer := by
  have hre := h.refilled hcap ht.capacity (Nat.le_refl _)
  have hcount : (ht.regrown ht.capacity).count ≤ ht.count := hre.count.trans h.count_eq.ge
  have hbound := h.counters
  rw [hre.tombstones, hre.capacity]
  unfold htMaxLoadDenom htMaxLoadNumer
  omega

/-! ## The interface -/

theorem Balanced.loaded_iff (h : Balanced ht) : ht.loaded = true ↔
    ht.capacity * htMaxLoadNumer < (ht.count + ht.tombstones + 1) * htMaxLoadDenom := by
  have hbound := h.counters
  have hlo := h.lo
  rw [HashTable.loaded, decide_eq_true_eq]
  unfold htMaxLoadNumer htMaxLoadDenom
  rw [Nat.mod_eq_of_lt (show ht.capacity * 7 < sizeMod by omega),
    Nat.mod_eq_of_lt (show ht.count + ht.tombstones + 1 < sizeMod by omega),
    Nat.mod_eq_of_lt (show (ht.count + ht.tombstones + 1) * 10 < sizeMod by omega)]

theorem Balanced.room (h : Balanced ht) (hload : ht.loaded = false) :
    (ht.count + ht.tombstones + 1) * htMaxLoadDenom ≤ ht.capacity * htMaxLoadNumer := by
  by_contra hno
  rw [h.loaded_iff.mpr (Nat.lt_of_not_le hno)] at hload
  cases hload

/-- An insertion keeps the invariant, and only `calloc` makes one fail. -/
theorem Balanced.insert [Zero K] [Zero V] (h : Balanced ht) (key : K) (value : V) (alloc : Bool) :
    Balanced (htInsert ht key value alloc).2 ∧
      ((htInsert ht key value alloc).1 = false →
        callocOk (ht.capacity * 2) slotSize alloc = false) := by
  rw [htInsert]
  cases hload : ht.loaded with
  | false =>
      rw [if_neg (by decide)]
      refine ⟨(h.insertNoResize (h.room hload) key value).1, fun hfalse => ?_⟩
      cases (h.insert_true key value).symm.trans hfalse
  | true =>
      rw [if_pos rfl]
      cases hok : callocOk (ht.capacity * 2) slotSize alloc with
      | false =>
          have hfail : ht.resize (ht.capacity * 2 % sizeMod) alloc = (false, ht) := by
            rw [h.double_mod, HashTable.resize, if_neg (by rw [hok]; decide)]
          rw [hfail]
          exact ⟨h, fun _ => rfl⟩
      | true =>
          have hcap := callocOk_size hok
          have hbal := (h.refilled hcap ht.capacity (Nat.le_refl _)).balanced
          rw [h.resize hok]
          refine ⟨(hbal.insertNoResize (h.resize_room hcap) key value).1, fun hfalse => ?_⟩
          cases (hbal.insert_true key value).symm.trans hfalse

theorem Balanced.remove [Zero K] [Zero V] (h : Balanced ht) (key : K) :
    Balanced (htRemove ht key).2 := by
  rw [htRemove]
  have hfound := findKey_found h.toCircular key
  cases hkey : ht.findKey key with
  | none => exact h
  | some i =>
      rw [hkey] at hfound
      cases hfound with
      | @hit d hd _ hused _ => exact (h.bury (h.path_lt key d) hused).1

/-- A removal leaves the size of the table and its load as they are. -/
theorem Balanced.remove_load [Zero K] [Zero V] (h : Balanced ht) (key : K) :
    (htRemove ht key).2.capacity = ht.capacity ∧
      (htRemove ht key).2.count + (htRemove ht key).2.tombstones = ht.count + ht.tombstones := by
  rw [htRemove]
  have hfound := findKey_found h.toCircular key
  cases hkey : ht.findKey key with
  | none => exact ⟨rfl, rfl⟩
  | some i =>
      rw [hkey] at hfound
      cases hfound with
      | @hit d hd _ hused _ => exact ⟨rfl, (h.bury (h.path_lt key d) hused).2⟩

end HttpServer.HashTable
