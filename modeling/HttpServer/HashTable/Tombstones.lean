import HttpServer.HashTable.Map

set_option autoImplicit false

/-! # The counters and the slots

`count` is always the number of slots in use. `tombstones` is raised by a removal and cleared by
`resize`, but an insertion that reuses a tombstone does not lower it, so from then on it
overstates the number of tombstones until the table grows.

Slots are counted as finite sets by state (`slotsIn`). The effect of each operation on these sets
is one lemma, and the counters are compared with their sizes afterwards. Whether an insertion
reuses a tombstone depends on the slots its search crosses (`TombOnWay`), a condition on the
table before the call. From a table whose counters are right a call leads to another one if and
only if it does not reuse a tombstone (`Balanced.accounted_step`), and a run is an induction.
-/

namespace HttpServer.HashTable

open CLib

variable {K V : Type} {ht : HashTable K V} {key : K} {value : V}

/-! ## Slots by state -/

/-- The slots in state `s`. -/
def slotsIn (ht : HashTable K V) (s : SlotState) : Finset Nat :=
  (Finset.range ht.capacity).filter (fun i => ht.stateAt i = s)

theorem mem_slotsIn {s : SlotState} {i : Nat} :
    i ∈ ht.slotsIn s ↔ i < ht.capacity ∧ ht.stateAt i = s := by
  rw [slotsIn, Finset.mem_filter, Finset.mem_range]

/-- The counters say what is in the slots. -/
structure Accounted (ht : HashTable K V) : Prop where
  tombstones : ht.tombstones = (ht.slotsIn .tombstone).card
  count : ht.count = (ht.slotsIn .used).card

instance (ht : HashTable K V) : Decidable (Accounted ht) :=
  decidable_of_iff (ht.tombstones = (ht.slotsIn .tombstone).card ∧ ht.count = (ht.slotsIn .used).card)
    ⟨fun h => ⟨h.1, h.2⟩, fun h => ⟨h.tombstones, h.count⟩⟩

theorem card_slotsIn_used (ht : HashTable K V) : (ht.slotsIn .used).card = ht.entries.length := by
  rw [slotsIn, entries]
  generalize ht.capacity = n
  induction n with
  | zero => rfl
  | succ n ih =>
      rw [Finset.range_add_one, Finset.filter_insert, contents_succ, List.length_append, ← ih]
      by_cases hused : ht.stateAt n = .used
      · rw [if_pos hused, Finset.card_insert_of_notMem (by simp), entryAt_of_used hused]
        rfl
      · rw [if_neg hused, entryAt_of_not_used hused]
        rfl

/-- The number of slots in use is counted right in any case. -/
theorem Balanced.accounted_iff (h : Balanced ht) :
    Accounted ht ↔ ht.tombstones = (ht.slotsIn .tombstone).card :=
  ⟨fun ha => ha.tombstones, fun ht' => ⟨ht', h.count_eq.trans (card_slotsIn_used ht).symm⟩⟩

/-! ## Writes to a slot -/

/-- A write to slot `i` that leaves its state alone. -/
theorem slotsIn_overwrite (ht : HashTable K V) (i : Nat) (value : V) (s : SlotState) :
    (ht.overwrite i value).slotsIn s = ht.slotsIn s :=
  Finset.filter_congr fun j _ => by rw [(stateAt_overwrite ht i value j).1]

theorem stateAt_place (ht : HashTable K V) (i : Nat) (key : K) (value : V) (j : Nat) :
    (ht.place i key value).stateAt j = if j = i then .used else ht.stateAt j := by
  rw [stateAt, place]
  simp only [Function.update_apply]
  split <;> rfl

theorem slotsIn_place (ht : HashTable K V) (i : Nat) (key : K) (value : V) :
    (ht.place i key value).slotsIn .tombstone = (ht.slotsIn .tombstone).erase i := by
  ext j
  rw [Finset.mem_erase, mem_slotsIn, mem_slotsIn, stateAt_place]
  by_cases hj : j = i
  · rw [if_pos hj]
    exact ⟨fun h => absurd h.2 (by simp), fun h => absurd hj h.1⟩
  · rw [if_neg hj]
    exact ⟨fun h => ⟨hj, h⟩, fun h => h.2⟩

theorem slotsIn_bury [Zero K] [Zero V] {i : Nat} (hi : i < ht.capacity) :
    (ht.bury i).slotsIn .tombstone = insert i (ht.slotsIn .tombstone) := by
  ext j
  rw [Finset.mem_insert, mem_slotsIn, mem_slotsIn, stateAt, bury]
  simp only [Function.update_apply]
  by_cases hj : j = i
  · rw [if_pos hj]
    exact ⟨fun _ => .inl hj, fun _ => ⟨hj ▸ hi, rfl⟩⟩
  · rw [if_neg hj]
    exact ⟨.inr, fun h => h.resolve_left hj⟩

/-! ## Insertions -/

/-- The tombstone the search for `key` remembers after `d` steps. -/
def firstTomb (ht : HashTable K V) (key : K) : Nat → Option Nat
  | 0 => none
  | d + 1 => (firstTomb ht key d).or
      (if ht.stateAt (ht.path key d) = .tombstone then some (ht.path key d) else none)

/-- The loop after `d` turns that neither found the key nor an empty slot. -/
theorem insertNoResize_passed (h : Circular ht) {d : Nat} (hd : d ≤ ht.capacity)
    (hpassed : Passed ht key d) :
    ht.insertNoResize key value =
      ht.insertLoop key value (ht.capacity - d) (ht.path key d) (ht.firstTomb key d) := by
  induction d with
  | zero =>
      rw [insertNoResize, h.home_eq]
      rfl
  | succ d ih =>
      rw [ih (Nat.le_of_succ_le hd) fun e he => hpassed e (Nat.lt_succ_of_lt he),
        show ht.capacity - d = ht.capacity - (d + 1) + 1 by omega, insertLoop, firstTomb, h.next_eq]
      obtain ⟨hne, hkey⟩ := hpassed d (Nat.lt_succ_self d)
      have hstate : (ht.slots (ht.path key d)).state = ht.stateAt (ht.path key d) := rfl
      rw [hstate]
      cases hs : ht.stateAt (ht.path key d) with
      | empty => exact absurd hs hne
      | tombstone => rfl
      | used =>
          simp only [hkey hs]
          rw [if_neg (by decide), if_neg (by decide), Option.or_none]

theorem firstTomb_none {d : Nat} :
    ht.firstTomb key d = none ↔ ∀ e < d, ht.stateAt (ht.path key e) ≠ .tombstone := by
  induction d with
  | zero => exact ⟨fun _ e he => absurd he (Nat.not_lt_zero e), fun _ => rfl⟩
  | succ d ih =>
      rw [firstTomb, Option.or_eq_none_iff, ih, Nat.forall_lt_succ_right]
      simp

theorem firstTomb_some {d i : Nat} (h : ht.firstTomb key d = some i) :
    ∃ e < d, ht.path key e = i ∧ ht.stateAt i = .tombstone := by
  induction d with
  | zero => cases h
  | succ d ih =>
      rw [firstTomb, Option.or_eq_some_iff] at h
      rcases h with hbefore | ⟨-, hlast⟩
      · obtain ⟨e, he, hei⟩ := ih hbefore
        exact ⟨e, Nat.lt_succ_of_lt he, hei⟩
      · split at hlast
        · rename_i hs
          cases hlast
          exact ⟨d, Nat.lt_succ_self d, rfl, hs⟩
        · cases hlast

/-- `key` is not found, and its search meets a tombstone before the empty slot that ends it. -/
def TombOnWay (ht : HashTable K V) (key : K) : Prop :=
  ∃ d < ht.capacity, Passed ht key d ∧ ht.stateAt (ht.path key d) = .empty ∧
    ∃ e < d, ht.stateAt (ht.path key e) = .tombstone

instance (ht : HashTable K V) (key : K) (d : Nat) : Decidable (Passed ht key d) :=
  inferInstanceAs (Decidable (∀ e < d, _ ∧ (_ → _)))

instance (ht : HashTable K V) (key : K) : Decidable (TombOnWay ht key) :=
  inferInstanceAs (Decidable (∃ d < _, _))

/-- A search stops once. -/
theorem Passed.unique {d d' : Nat} (h : Passed ht key d) (h' : Passed ht key d')
    (hempty : ht.stateAt (ht.path key d) = .empty)
    (hempty' : ht.stateAt (ht.path key d') = .empty) : d = d' := by
  rcases Nat.lt_trichotomy d d' with hlt | heq | hgt
  · exact absurd hempty (h' d hlt).1
  · exact heq
  · exact absurd hempty' (h d' hgt).1

/-- What an insertion does to the tombstones. -/
theorem Balanced.insert_tombs (h : Balanced ht) (key : K) (value : V) :
    (TombOnWay ht key ∧ ((ht.insertNoResize key value).2.slotsIn .tombstone).card + 1 =
        (ht.slotsIn .tombstone).card) ∨
      (¬ TombOnWay ht key ∧
        (ht.insertNoResize key value).2.slotsIn .tombstone = ht.slotsIn .tombstone) := by
  obtain ⟨d, hd, hpassed, hstop⟩ := h.stops key
  have hrun : ht.insertNoResize key value = ht.insertLoop key value (ht.capacity - d)
      (ht.path key d) (ht.firstTomb key d) := insertNoResize_passed h.toCircular hd.le hpassed
  rw [show ht.capacity - d = ht.capacity - (d + 1) + 1 by omega, insertLoop,
    show (ht.slots (ht.path key d)).state = ht.stateAt (ht.path key d) from rfl] at hrun
  -- the search ends at an empty slot, or at the key
  rcases hstop with hempty | ⟨hused, hkey⟩
  · rw [hempty] at hrun
    rw [hrun]
    simp only
    rw [slotsIn_place]
    cases hfirst : ht.firstTomb key d with
    | none =>
        refine .inr ⟨?_, Finset.erase_eq_of_notMem fun hmem => ?_⟩
        · rintro ⟨d', hd', hpassed', hempty', e, he, htomb⟩
          obtain rfl := hpassed.unique hpassed' hempty hempty'
          exact firstTomb_none.mp hfirst e he htomb
        · rw [Option.getD_none, mem_slotsIn, hempty] at hmem
          cases hmem.2
    | some i =>
        obtain ⟨e, he, rfl, htomb⟩ := firstTomb_some hfirst
        refine .inl ⟨⟨d, hd, hpassed, hempty, e, he, htomb⟩, Finset.card_erase_add_one ?_⟩
        exact mem_slotsIn.mpr ⟨h.path_lt key e, htomb⟩
  · rw [hused] at hrun
    simp only [hkey, if_pos] at hrun
    rw [hrun]
    refine .inr ⟨?_, slotsIn_overwrite ..⟩
    rintro ⟨d', hd', hpassed', hempty', -⟩
    -- the key is on the way, so the way cannot end at an empty slot
    rcases Nat.lt_trichotomy d d' with hlt | rfl | hgt
    · rw [(hpassed' d hlt).2 hused] at hkey
      cases hkey
    · rw [hused] at hempty'
      cases hempty'
    · exact (hpassed d' hgt).1 hempty'

/-- Where there is no tombstone an insertion makes none. -/
theorem Balanced.insert_none (h : Balanced ht) (hnone : ht.slotsIn .tombstone = ∅) (key : K)
    (value : V) : (ht.insertNoResize key value).2.slotsIn .tombstone = ∅ := by
  rcases h.insert_tombs key value with ⟨-, hcard⟩ | ⟨-, hsame⟩
  · rw [hnone] at hcard
    cases hcard
  · rw [hsame, hnone]

/-! ## Growing -/

theorem slotsIn_zero [Zero K] [Zero V] (cap : Nat) (hash : K → UInt64) (eq : K → K → Bool) :
    (⟨zeroSlots, cap, 0, 0, hash, eq⟩ : HashTable K V).slotsIn .tombstone = ∅ :=
  Finset.filter_false_of_mem fun _ _ => fun h => (by cases h)

/-- The new array has no tombstones at any point of `resize`. -/
theorem Balanced.regrown_none [Zero K] [Zero V] (h : Balanced ht)
    (hcap : ht.capacity * 2 * slotSize < sizeMod) (i : Nat) (hi : i ≤ ht.capacity) :
    (ht.regrown i).slotsIn .tombstone = ∅ := by
  induction i with
  | zero => exact slotsIn_zero ..
  | succ i ih =>
      have hnone := ih (Nat.le_of_succ_le hi)
      rw [regrown_succ]
      by_cases hused : ht.stateAt i = .used
      · rw [HashTable.rehash, show (ht.slots i).state = .used from hused]
        exact (h.refilled hcap i (Nat.le_of_succ_le hi)).balanced.insert_none hnone _ _
      · rw [rehash_of_not_used hused]
        exact hnone

/-! ## Calls -/

/-- The call puts a new entry into a tombstone: it inserts a key that is not found, meets a
tombstone on the way, and the table does not have to grow first. -/
def Recycles (ht : HashTable K V) : HtOp K V → Prop
  | .insert key _ _ => ht.loaded = false ∧ TombOnWay ht key
  | _ => False

instance (ht : HashTable K V) (op : HtOp K V) : Decidable (Recycles ht op) := by
  cases op <;> unfold Recycles <;> infer_instance

variable [Zero K] [Zero V]

theorem Balanced.accounted_insert (h : Balanced ht) (ha : Accounted ht) (key : K) (value : V)
    (alloc : Bool) :
    Accounted (htInsert ht key value alloc).2 ↔ ¬ (ht.loaded = false ∧ TombOnWay ht key) := by
  rw [(h.insert key value alloc).1.accounted_iff, htInsert]
  cases hload : ht.loaded with
  | false =>
      rw [if_neg (by decide), (insertNoResize_frame h.toCircular key value).2.1, ha.tombstones]
      rcases h.insert_tombs key value with ⟨htomb, hcard⟩ | ⟨hno, hsame⟩
      · exact ⟨fun heq => by omega, fun hnot => absurd ⟨rfl, htomb⟩ hnot⟩
      · exact ⟨fun _ hrec => hno hrec.2, fun _ => by rw [hsame]⟩
  | true =>
      have hnot : ¬ (true = false ∧ TombOnWay ht key) := fun hrec => by cases hrec.1
      rw [if_pos rfl, iff_true_right hnot]
      cases hok : callocOk (ht.capacity * 2) slotSize alloc with
      | false =>
          rw [h.double_mod, HashTable.resize, if_neg (by rw [hok]; decide)]
          exact ha.tombstones
      | true =>
          have hcap := callocOk_size hok
          have hre := h.refilled hcap ht.capacity (Nat.le_refl _)
          rw [h.resize hok]
          simp only
          rw [(insertNoResize_frame hre.balanced.toCircular key value).2.1, hre.tombstones,
            hre.balanced.insert_none (h.regrown_none hcap _ (Nat.le_refl _)) key value]
          rfl

theorem Balanced.accounted_remove (h : Balanced ht) (ha : Accounted ht) (key : K) :
    Accounted (htRemove ht key).2 := by
  rw [(h.remove key).accounted_iff, htRemove]
  have hfound := findKey_found h.toCircular key
  cases hkey : ht.findKey key with
  | none => exact ha.tombstones
  | some i =>
      rw [hkey] at hfound
      cases hfound with
      | @hit d hd _ hused _ =>
          have hbound := h.counters
          have hnew : ht.path key d ∉ ht.slotsIn .tombstone := by
            rw [mem_slotsIn, hused]
            exact fun hmem => by cases hmem.2
          simp only
          rw [slotsIn_bury (h.path_lt key d), Finset.card_insert_of_notMem hnew, ← ha.tombstones]
          exact Nat.mod_eq_of_lt (by omega)

/-- From a table whose counters are right, a call leads to one unless it reuses a tombstone. -/
theorem Balanced.accounted_step (h : Balanced ht) (ha : Accounted ht) (op : HtOp K V) :
    Accounted (htStep ht op).2 ↔ ¬ Recycles ht op := by
  cases op with
  | insert key value alloc => exact h.accounted_insert ha key value alloc
  | remove key => exact iff_of_true (h.accounted_remove ha key) id
  | lookup key => exact iff_of_true ha id
  | contains key => exact iff_of_true ha id
  | size => exact iff_of_true ha id

/-! ## Runs -/

/-- The tables a run passes through, first and last included. -/
def htTrace (ht : HashTable K V) : List (HtOp K V) → List (HashTable K V)
  | [] => [ht]
  | op :: ops => ht :: htTrace (htStep ht op).2 ops

theorem mem_htTrace_self (ht : HashTable K V) (ops : List (HtOp K V)) : ht ∈ htTrace ht ops := by
  cases ops <;> simp [htTrace]

theorem Balanced.accounted_run (ops : List (HtOp K V)) :
    ∀ {ht : HashTable K V}, Balanced ht → Accounted ht →
      ((∀ t ∈ htTrace ht ops, Accounted t) ↔
        ∀ c ∈ (htTrace ht ops).zip ops, ¬ Recycles c.1 c.2) := by
  induction ops with
  | nil => exact fun _ ha => ⟨by simp, fun _ => List.forall_mem_singleton.mpr ha⟩
  | cons op ops ih =>
      intro ht h ha
      have hstep := h.accounted_step ha op
      rw [htTrace, List.zip_cons_cons, List.forall_mem_cons, List.forall_mem_cons]
      constructor
      · rintro ⟨-, hall⟩
        have hnext := hall _ (mem_htTrace_self _ ops)
        exact ⟨hstep.mp hnext, (ih (h.step op) hnext).mp hall⟩
      · rintro ⟨hno, hall⟩
        exact ⟨ha, (ih (h.step op) (hstep.mpr hno)).mpr hall⟩

/-- **The counters are right as long as no tombstone is reused.** Every table that some calls on
a new one lead to has its tombstones and its entries counted right if and only if none of the
calls puts an entry into a tombstone. -/
theorem accounted_iff_no_reuse {hash : K → UInt64} {eq : K → K → Bool} {capacity : Nat} {alloc : Bool}
    (hinit : htInit capacity hash eq alloc = some (some ht)) (ops : List (HtOp K V)) :
    (∀ t ∈ htTrace ht ops, Accounted t) ↔
      ∀ c ∈ (htTrace ht ops).zip ops, ¬ Recycles c.1 c.2 := by
  obtain ⟨hcirc, cap, rfl⟩ := htInit_circular hinit
  have hbal := balanced_zero hcirc
  exact hbal.accounted_run ops (hbal.accounted_iff.mpr (by rw [slotsIn_zero]; rfl))

/-- The last insertion meets the tombstone that the removal left, but finds its key behind it. -/
theorem accounted_sample :
    (htRun sampleTable sampleOps).2.tombstones = 1 ∧
      ∀ t ∈ htTrace sampleTable sampleOps, Accounted t :=
  ⟨by decide, (accounted_iff_no_reuse
    (show htInit 0 sampleHash sampleEq true = some (some sampleTable) from rfl) sampleOps).mpr
      (by decide)⟩

/-- A key removed and inserted again. -/
def reuseOps : List (HtOp Nat Nat) := [.insert 1 10 true, .remove 1, .insert 1 11 true]

theorem not_accounted_reuse :
    htInit 0 sampleHash sampleEq true = some (some sampleTable) ∧
      (htRun sampleTable reuseOps).2.tombstones = 1 ∧
      (htRun sampleTable reuseOps).2.slotsIn .tombstone = ∅ ∧
      ¬ ∀ t ∈ htTrace sampleTable reuseOps, Accounted t :=
  ⟨rfl, by decide, by decide, by decide⟩

end HttpServer.HashTable
