import HttpServer.HashTable.Load

set_option autoImplicit false

/-! # The table is a finite map

`Intact` is the invariant of the table: its keys are distinct and reachable, it counts its
entries, and the slots that are not empty are at most as many as its two counters say, which
the load factor keeps below the capacity. `Refines ht m` says that the table holds the entries
of the map `m`; every operation of the table does to it what the operation of that name does
to the map.
-/

namespace HttpServer.HashTable

open CLib

variable {K V : Type} {ht ht' : HashTable K V} {key : K} {value : V} {m : List (K × V)}

/-! ## The invariant -/

structure Intact (ht : HashTable K V) : Prop extends Circular ht where
  hashing : Hashing ht.hash ht.eq
  load : (ht.count + ht.tombstones) * htMaxLoadDenom ≤ ht.capacity * htMaxLoadNumer
  count_eq : ht.count = ht.entries.length
  filled : ht.filledSlots.card ≤ ht.count + ht.tombstones
  uniq : ∀ i < ht.capacity, ∀ j < ht.capacity, ht.stateAt i = .used → ht.stateAt j = .used →
    ht.eq (ht.slots i).key (ht.slots j).key = true → i = j
  reach : Reachable ht

theorem Intact.balanced (h : Intact ht) : Balanced ht := ⟨h.toCircular, h.load, h.count_eq, h.filled⟩

theorem Intact.distinct (h : Intact ht) : KeyMap.Distinct ht.eq ht.entries := by
  rw [KeyMap.Distinct, entries, contents, List.pairwise_filterMap]
  refine List.Pairwise.imp_of_mem ?_ (List.nodup_range)
  intro i j hi hj hij a ha b hb
  have hui : ht.stateAt i = .used := by
    by_contra hno
    rw [entryAt_of_not_used hno] at ha
    cases ha
  have huj : ht.stateAt j = .used := by
    by_contra hno
    rw [entryAt_of_not_used hno] at hb
    cases hb
  rw [entryAt_of_used hui, Option.some.injEq] at ha
  rw [entryAt_of_used huj, Option.some.injEq] at hb
  rw [← ha, ← hb]
  cases heq : ht.eq (ht.slots i).key (ht.slots j).key with
  | false => rfl
  | true =>
      exact absurd (h.uniq i (List.mem_range.mp hi) j (List.mem_range.mp hj) hui huj heq) hij

theorem Intact.overwrite (h : Intact ht) {i : Nat} (hi : i < ht.capacity)
    (hused : ht.stateAt i = .used) (value : V) : Intact (ht.overwrite i value) := by
  have hslot := stateAt_overwrite ht i value
  have hbal := h.balanced.overwrite hi hused value
  refine ⟨hbal.toCircular, h.hashing, hbal.load, hbal.count_eq, hbal.filled, ?_, ?_⟩
  · intro j hj k hk huj huk
    rw [(hslot j).1] at huj
    rw [(hslot k).1] at huk
    rw [(hslot j).2, (hslot k).2]
    exact h.uniq j hj k hk huj huk
  · intro j hj huj
    rw [(hslot j).1] at huj
    obtain ⟨d, hd, hpath, hway⟩ := h.reach j hj huj
    rw [(hslot j).2]
    refine ⟨d, hd, hpath, fun e he => ?_⟩
    rw [(hslot _).1]
    exact hway e he

/-- A new entry at the end of a search for its key. -/
theorem Intact.place (h : Intact ht)
    (hroom : (ht.count + ht.tombstones + 1) * htMaxLoadDenom ≤ ht.capacity * htMaxLoadNumer)
    {d e : Nat} (hd : d < ht.capacity) (hpassed : Passed ht key d)
    (hempty : ht.stateAt (ht.path key d) = .empty) (he : e ≤ d)
    (hfree : ht.stateAt (ht.path key e) ≠ .used) (value : V) :
    Intact (ht.place (ht.path key e) key value) := by
  have hbal := h.balanced.place hroom (h.path_lt key e) hfree key value
  -- the search has passed all slots that can hold the key, so no other slot does
  have habsent := hpassed.absent h.hashing h.reach hempty
  have hself : (ht.place (ht.path key e) key value).slots (ht.path key e) = ⟨key, value, .used⟩ :=
    Function.update_self ..
  have hother : ∀ j, j ≠ ht.path key e →
      (ht.place (ht.path key e) key value).slots j = ht.slots j :=
    fun j hj => Function.update_of_ne hj ..
  have hfilled : ∀ j, ht.stateAt j ≠ .empty →
      (ht.place (ht.path key e) key value).stateAt j ≠ .empty := by
    intro j hj
    rcases eq_or_ne j (ht.path key e) with rfl | hne
    · rw [stateAt, hself]
      simp
    · rw [stateAt, hother j hne]
      exact hj
  refine ⟨hbal.toCircular, h.hashing, hbal.load, hbal.count_eq, hbal.filled, ?_, ?_⟩
  · intro i hi j hj hui huj heq
    rcases eq_or_ne i (ht.path key e) with rfl | hi'
    · rcases eq_or_ne j (ht.path key e) with rfl | hj'
      · rfl
      · rw [stateAt, hother j hj'] at huj
        rw [hself, hother j hj'] at heq
        cases (h.hashing.keyEq.symm _ _ heq).symm.trans (habsent j hj huj)
    · rw [stateAt, hother i hi'] at hui
      rw [hother i hi'] at heq
      rcases eq_or_ne j (ht.path key e) with rfl | hj'
      · rw [hself] at heq
        cases heq.symm.trans (habsent i hi hui)
      · rw [stateAt, hother j hj'] at huj
        rw [hother j hj'] at heq
        exact h.uniq i hi j hj hui huj heq
  -- the way to an old entry is as it was, and that to the new one is the search for it
  · intro i hi hui
    rcases eq_or_ne i (ht.path key e) with rfl | hne
    · rw [hself]
      refine ⟨e, he.trans_lt hd, rfl, fun e' he' => hfilled _ (hpassed e' (he'.trans_le he)).1⟩
    · rw [stateAt, hother i hne] at hui
      rw [hother i hne]
      obtain ⟨d', hd', hpath, hway⟩ := h.reach i hi hui
      exact ⟨d', hd', hpath, fun e' he' => hfilled _ (hway e' he')⟩

/-- An entry is removed, its slot stays filled. -/
theorem Intact.bury [Zero K] [Zero V] (h : Intact ht) {i : Nat} (hi : i < ht.capacity)
    (hused : ht.stateAt i = .used) : Intact (ht.bury i) := by
  have hbal := (h.balanced.bury hi hused).1
  have hself : (ht.bury i).slots i = ⟨0, 0, .tombstone⟩ := Function.update_self ..
  have hother : ∀ j, j ≠ i → (ht.bury i).slots j = ht.slots j :=
    fun j hj => Function.update_of_ne hj ..
  have hkept : ∀ j, (ht.bury i).stateAt j = .used → j ≠ i ∧ ht.stateAt j = .used := by
    intro j hj
    rcases eq_or_ne j i with rfl | hne
    · rw [stateAt, hself] at hj
      cases hj
    · rw [stateAt, hother j hne] at hj
      exact ⟨hne, hj⟩
  refine ⟨hbal.toCircular, h.hashing, hbal.load, hbal.count_eq, hbal.filled, ?_, ?_⟩
  · intro j hj k hk huj huk
    obtain ⟨hj', huj⟩ := hkept j huj
    obtain ⟨hk', huk⟩ := hkept k huk
    rw [hother j hj', hother k hk']
    exact h.uniq j hj k hk huj huk
  · intro j hj huj
    obtain ⟨hj', huj⟩ := hkept j huj
    rw [hother j hj']
    obtain ⟨d, hd, hpath, hway⟩ := h.reach j hj huj
    exact ⟨d, hd, hpath, fun e he h0 => hway e he ((bury_empty_iff hused _).mp h0)⟩

/-! ## Refinement -/

/-- The table holds the entries of the map `m`. -/
structure Refines (ht : HashTable K V) (m : List (K × V)) : Prop where
  intact : Intact ht
  perm : ht.entries.Perm m

theorem Refines.distinct (h : Refines ht m) : KeyMap.Distinct ht.eq m :=
  h.intact.distinct.perm h.intact.hashing.keyEq h.perm

theorem Refines.count (h : Refines ht m) : ht.count = m.length :=
  h.intact.count_eq.trans h.perm.length_eq

theorem Refines.absent_iff (h : Refines ht m) {key : K} :
    Absent ht key ↔ KeyMap.contains ht.eq m key = false := by
  rw [KeyMap.contains_eq_false]
  constructor
  · intro habs e he
    obtain ⟨i, hi, hentry⟩ := mem_contents.mp (h.perm.mem_iff.mpr he)
    by_cases hused : ht.stateAt i = .used
    · rw [entryAt_of_used hused, Option.some.injEq] at hentry
      rw [← hentry]
      exact habs i hi hused
    · rw [entryAt_of_not_used hused] at hentry
      cases hentry
  · intro hall i hi hused
    exact hall _ (h.perm.mem_iff.mp (mem_contents.mpr ⟨i, hi, entryAt_of_used hused⟩))

/-- What `find_key` returns: the slot of the entry of the map with that key. -/
theorem Refines.findKey (h : Refines ht m) (key : K) :
    (ht.findKey key = none ∧ KeyMap.entry ht.eq m key = none) ∨
    ∃ i < ht.capacity, ht.findKey key = some i ∧ ht.stateAt i = .used ∧
      KeyMap.entry ht.eq m key = some ((ht.slots i).key, (ht.slots i).value) := by
  have hfound := findKey_found h.intact.toCircular key
  cases hkey : ht.findKey key with
  | none =>
      rw [hkey] at hfound
      have hno := h.absent_iff.mp (hfound.absent h.intact.hashing h.intact.reach)
      rw [KeyMap.contains, Option.isSome_eq_false_iff, Option.isNone_iff_eq_none] at hno
      exact .inl ⟨rfl, hno⟩
  | some i =>
      rw [hkey] at hfound
      cases hfound with
      | @hit d hd _ hused heq =>
          have hlt := h.intact.path_lt key d
          refine .inr ⟨_, hlt, rfl, hused, ?_⟩
          refine (KeyMap.entry_eq_some h.distinct h.intact.hashing.keyEq).mpr ⟨?_, heq⟩
          exact h.perm.mem_iff.mp (mem_contents.mpr ⟨_, hlt, entryAt_of_used hused⟩)

theorem Refines.lookup [Zero V] (h : Refines ht m) (key : K) :
    htLookup ht key = (KeyMap.find ht.eq m key).getD 0 := by
  rw [htLookup, KeyMap.find]
  rcases h.findKey key with ⟨hkey, hentry⟩ | ⟨i, _, hkey, _, hentry⟩
  · rw [hkey, hentry]
    rfl
  · rw [hkey, hentry]
    rfl

theorem Refines.contains (h : Refines ht m) (key : K) :
    htContains ht key = KeyMap.contains ht.eq m key := by
  rw [htContains, KeyMap.contains]
  rcases h.findKey key with ⟨hkey, hentry⟩ | ⟨i, _, hkey, _, hentry⟩
  · rw [hkey, hentry]
    rfl
  · rw [hkey, hentry]
    rfl

theorem Refines.remove [Zero K] [Zero V] (h : Refines ht m) (key : K) :
    (htRemove ht key).1 = KeyMap.contains ht.eq m key ∧
      Refines (htRemove ht key).2 (KeyMap.remove ht.eq m key) := by
  rw [htRemove, KeyMap.contains]
  rcases h.findKey key with ⟨hkey, hentry⟩ | ⟨i, hi, hkey, hused, hentry⟩
  · rw [hkey, hentry]
    refine ⟨rfl, h.intact, ?_⟩
    rw [KeyMap.remove_absent (by rw [KeyMap.contains, hentry]; rfl)]
    exact h.perm
  · rw [hkey, hentry]
    have heq := ((KeyMap.entry_eq_some h.distinct h.intact.hashing.keyEq).mp hentry).2
    refine ⟨rfl, h.intact.bury hi hused, ?_⟩
    exact (KeyMap.remove_present h.distinct h.intact.hashing.keyEq
      (h.perm.symm.trans (entries_bury hi hused)) heq).symm

/-- An insertion with room for one more entry succeeds. -/
theorem Refines.insertNoResize (h : Refines ht m)
    (hroom : (ht.count + ht.tombstones + 1) * htMaxLoadDenom ≤ ht.capacity * htMaxLoadNumer)
    (key : K) (value : V) :
    (ht.insertNoResize key value).1 = true ∧
      Refines (ht.insertNoResize key value).2 (KeyMap.insert ht.eq m key value) := by
  have heq := h.intact.hashing.keyEq
  have hins := insertNoResize_inserted h.intact.toCircular key value
  generalize ht.insertNoResize key value = res at hins ⊢
  cases hins with
  | @hit d hd hused hk =>
      have hlt := h.intact.path_lt key d
      obtain ⟨l, hold, hnew⟩ := entries_overwrite hlt hused value
      refine ⟨rfl, h.intact.overwrite hlt hused value, hnew.trans ?_⟩
      exact (KeyMap.insert_present h.distinct heq (h.perm.symm.trans hold) hk value).symm
  | @miss d e hd hpassed hempty he hfree =>
      have habs := h.absent_iff.mp (hpassed.absent h.intact.hashing h.intact.reach hempty)
      refine ⟨rfl, h.intact.place hroom hd hpassed hempty he hfree value, ?_⟩
      rw [KeyMap.insert_absent habs]
      exact (entries_place (h.intact.path_lt key e) hfree key value).trans (h.perm.cons _)
  | exhausted hpassed => exact absurd hpassed (h.intact.balanced.not_passed key)

/-! ## Growing -/

/-- A table fresh from `calloc`. -/
theorem refines_zero [Zero K] [Zero V] {cap : Nat} {hash : K → UInt64} {eq : K → K → Bool}
    (hc : Circular (⟨zeroSlots, cap, 0, 0, hash, eq⟩ : HashTable K V)) (hh : Hashing hash eq) :
    Refines (⟨zeroSlots, cap, 0, 0, hash, eq⟩ : HashTable K V) [] := by
  have hbal := balanced_zero hc
  have hnone : ∀ i, (⟨zeroSlots, cap, 0, 0, hash, eq⟩ : HashTable K V).stateAt i ≠ .used :=
    fun _ h => by cases h
  refine ⟨⟨hc, hh, hbal.load, hbal.count_eq, hbal.filled, ?_, ?_⟩, by rw [entries_zero]⟩
  · exact fun i _ j _ hi => absurd hi (hnone i)
  · exact fun i _ hi => absurd hi (hnone i)

/-- Part of the way through `resize`: the entries of the first `i` slots have been moved. -/
structure Moved (old : HashTable K V) (cap i : Nat) (ht : HashTable K V) : Prop where
  refines : Refines ht (contents i old.entryAt)
  capacity : ht.capacity = cap
  tombstones : ht.tombstones = 0
  hash : ht.hash = old.hash
  eq : ht.eq = old.eq

/-- The key at slot `i` is not among the keys before it. -/
theorem Intact.not_before (h : Intact ht) {i : Nat} (hi : i < ht.capacity)
    (hused : ht.stateAt i = .used) :
    KeyMap.contains ht.eq (contents i ht.entryAt) (ht.slots i).key = false := by
  rw [KeyMap.contains_eq_false]
  intro e he
  obtain ⟨j, hj, hentry⟩ := mem_contents.mp he
  have huj : ht.stateAt j = .used := by
    by_contra hno
    rw [entryAt_of_not_used hno] at hentry
    cases hentry
  rw [entryAt_of_used huj, Option.some.injEq] at hentry
  rw [← hentry]
  cases heq : ht.eq (ht.slots j).key (ht.slots i).key with
  | false => rfl
  | true => exact absurd (h.uniq j (hj.trans hi) i hi huj hused heq) (by omega)

theorem Moved.rehash {old : HashTable K V} {cap i : Nat} (h : Moved old cap i ht)
    (hold : Intact old) (hi : i < old.capacity) (hcap : cap = old.capacity * 2) :
    Moved old cap (i + 1) (rehash old.slots ht i) := by
  have hsucc := contents_succ i old.entryAt
  by_cases hused : old.stateAt i = .used
  · have hroom : (ht.count + ht.tombstones + 1) * htMaxLoadDenom ≤
        ht.capacity * htMaxLoadNumer := by
      have hle := contents_length_le i old.entryAt
      rw [← h.refines.count] at hle
      rw [h.tombstones, h.capacity, hcap]
      unfold htMaxLoadDenom htMaxLoadNumer
      omega
    have hins := h.refines.insertNoResize hroom (old.slots i).key (old.slots i).value
    obtain ⟨hcap', htomb', hhash', heq'⟩ := insertNoResize_frame h.refines.intact.toCircular
      (old.slots i).key (old.slots i).value
    rw [HashTable.rehash, show (old.slots i).state = .used from hused]
    refine ⟨⟨hins.2.intact, hins.2.perm.trans ?_⟩, hcap'.trans h.capacity,
      htomb'.trans h.tombstones, hhash'.trans h.hash, heq'.trans h.eq⟩
    rw [h.eq, KeyMap.insert_absent (hold.not_before hi hused), hsucc, entryAt_of_used hused]
    exact (List.perm_append_singleton _ _).symm
  · rw [rehash_of_not_used hused]
    rw [entryAt_of_not_used hused, Option.toList_none, List.append_nil] at hsucc
    exact ⟨hsucc ▸ h.refines, h.capacity, h.tombstones, h.hash, h.eq⟩

theorem Intact.moved [Zero K] [Zero V] (h : Intact ht) (hcap : ht.capacity * 2 * slotSize < sizeMod)
    (i : Nat) (hi : i ≤ ht.capacity) : Moved ht (ht.capacity * 2) i (ht.regrown i) := by
  induction i with
  | zero => exact ⟨refines_zero (h.toCircular.double hcap) h.hashing, rfl, rfl, rfl, rfl⟩
  | succ i ih =>
      rw [regrown_succ]
      exact (ih (by omega)).rehash h (by omega) rfl

/-- What an insertion can do: nothing, for want of memory; or insert, perhaps after growing. -/
inductive InsertEnd [Zero K] [Zero V] (ht : HashTable K V) (m : List (K × V)) (key : K) (value : V)
    (alloc : Bool) : Bool × HashTable K V → Prop
  | refused (hload : ht.loaded = true)
      (hcalloc : callocOk (ht.capacity * 2) slotSize alloc = false) :
      InsertEnd ht m key value alloc (false, ht)
  | here {ht' : HashTable K V} (hload : ht.loaded = false)
      (href : Refines ht' (KeyMap.insert ht.eq m key value)) (hcap : ht'.capacity = ht.capacity)
      (htomb : ht'.tombstones = ht.tombstones) (hhash : ht'.hash = ht.hash)
      (heq : ht'.eq = ht.eq) : InsertEnd ht m key value alloc (true, ht')
  | grown {ht' : HashTable K V} (hload : ht.loaded = true)
      (hcalloc : callocOk (ht.capacity * 2) slotSize alloc = true)
      (href : Refines ht' (KeyMap.insert ht.eq m key value)) (hcap : ht'.capacity = ht.capacity * 2)
      (htomb : ht'.tombstones = 0) (hhash : ht'.hash = ht.hash)
      (heq : ht'.eq = ht.eq) : InsertEnd ht m key value alloc (true, ht')

theorem Refines.insert [Zero K] [Zero V] (h : Refines ht m) (key : K) (value : V) (alloc : Bool) :
    InsertEnd ht m key value alloc (htInsert ht key value alloc) := by
  have hpair : ∀ p : Bool × HashTable K V, p.1 = true → p = (true, p.2) := by
    rintro ⟨b, t⟩ rfl
    rfl
  rw [htInsert]
  by_cases hload : ht.loaded = true
  · rw [if_pos hload]
    by_cases hok : callocOk (ht.capacity * 2) slotSize alloc = true
    · have hcap := callocOk_size hok
      have hroom := h.intact.balanced.resize_room hcap
      have hmoved := h.intact.moved hcap ht.capacity (Nat.le_refl _)
      rw [h.intact.balanced.resize hok]
      generalize ht.regrown ht.capacity = t at hroom hmoved ⊢
      have href : Refines t m := ⟨hmoved.refines.intact, hmoved.refines.perm.trans h.perm⟩
      have hins := href.insertNoResize hroom key value
      obtain ⟨hcap', htomb', hhash', heq'⟩ := insertNoResize_frame href.intact.toCircular key value
      rw [hmoved.eq] at hins
      change InsertEnd ht m key value alloc (t.insertNoResize key value)
      rw [hpair _ hins.1]
      exact .grown hload hok hins.2 (hcap'.trans hmoved.capacity) (htomb'.trans hmoved.tombstones)
        (hhash'.trans hmoved.hash) (heq'.trans hmoved.eq)
    · have hfail : ht.resize (ht.capacity * 2 % sizeMod) alloc = (false, ht) := by
        rw [h.intact.balanced.double_mod, HashTable.resize, if_neg hok]
      rw [hfail]
      rw [Bool.not_eq_true] at hok
      exact .refused hload hok
  · rw [if_neg hload]
    rw [Bool.not_eq_true] at hload
    have hins := h.insertNoResize (h.intact.balanced.room hload) key value
    obtain ⟨hcap', htomb', hhash', heq'⟩ := insertNoResize_frame h.intact.toCircular key value
    rw [hpair _ hins.1]
    exact .here hload hins.2 hcap' htomb' hhash' heq'

end HttpServer.HashTable
