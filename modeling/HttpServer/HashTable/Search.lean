import HttpServer.HashTable.Table

set_option autoImplicit false

/-! # Searching the table

What the two search loops can return (`findKey_found`, `insertNoResize_inserted`), and what that
says about the keys in the table when every key can be reached from its home without crossing an
empty slot (`Reachable`).

Both loops walk the same path and differ in what they stop at, so both are described by the slots
they have `Passed`: all in use by other keys or tombstones. `insert_no_resize` also remembers the
first tombstone on its way (`TombBefore`). These are the invariants of the two inductions, which
are on the number of slots still to be visited. With `Reachable`, a key that was passed over is
absent from the table (`Passed.absent`).
-/

namespace HttpServer.HashTable

open CLib

variable {K V : Type} {ht : HashTable K V} {key : K} {value : V}

/-! ## Slots -/

/-- The slot the search for a key visits after `d` steps. -/
def path (ht : HashTable K V) (key : K) (d : Nat) : Nat :=
  probe ht.capacity (ht.hash key).toNat d

def stateAt (ht : HashTable K V) (i : Nat) : SlotState := (ht.slots i).state

/-- The entry at slot `i`, if it is in use. -/
def entryAt (ht : HashTable K V) (i : Nat) : Option (K × V) :=
  if ht.stateAt i = .used then some ((ht.slots i).key, (ht.slots i).value) else none

/-- The entries of the table. -/
def entries (ht : HashTable K V) : List (K × V) := contents ht.capacity ht.entryAt

theorem entryAt_of_used {i : Nat} (h : ht.stateAt i = .used) :
    ht.entryAt i = some ((ht.slots i).key, (ht.slots i).value) :=
  if_pos h

theorem entryAt_of_not_used {i : Nat} (h : ht.stateAt i ≠ .used) : ht.entryAt i = none :=
  if_neg h

/-- The capacity is a power of two, as large as an array can be. -/
structure Circular (ht : HashTable K V) : Prop where
  pow : ∃ k, ht.capacity = 2 ^ k
  lo : 16 ≤ ht.capacity
  hi : ht.capacity * slotSize < sizeMod

theorem Circular.pos (h : Circular ht) : 0 < ht.capacity := Nat.lt_of_lt_of_le (by decide) h.lo

theorem Circular.and_mask (h : Circular ht) (x : Nat) : x &&& ht.mask = x % ht.capacity := by
  obtain ⟨k, hk⟩ := h.pow
  rw [mask, hk, Nat.and_two_pow_sub_one_eq_mod]

theorem Circular.path_lt (h : Circular ht) (key : K) (d : Nat) : ht.path key d < ht.capacity :=
  probe_lt h.pos ..

theorem Circular.home_eq (h : Circular ht) (key : K) : ht.home key = ht.path key 0 := by
  rw [home, h.and_mask]
  rfl

theorem Circular.next_eq (h : Circular ht) (key : K) (d : Nat) :
    ht.next (ht.path key d) = ht.path key (d + 1) := by
  have hlt := h.path_lt key d
  have hbound : ht.path key d + 1 < sizeMod := by
    have := h.hi
    unfold slotSize at this
    omega
  rw [next, Nat.mod_eq_of_lt hbound, h.and_mask]
  exact probe_succ ..

/-! ## The loops -/

/-- The search has passed the first `d` slots of its path: none is empty, none has the key. -/
def Passed (ht : HashTable K V) (key : K) (d : Nat) : Prop :=
  ∀ e < d, ht.stateAt (ht.path key e) ≠ .empty ∧
    (ht.stateAt (ht.path key e) = .used → ht.eq (ht.slots (ht.path key e)).key key = false)

theorem Passed.succ {d : Nat} (h : Passed ht key d)
    (hne : ht.stateAt (ht.path key d) ≠ .empty)
    (heq : ht.stateAt (ht.path key d) = .used →
      ht.eq (ht.slots (ht.path key d)).key key = false) : Passed ht key (d + 1) := by
  intro e he
  rcases Nat.lt_succ_iff_lt_or_eq.mp he with hlt | rfl
  · exact h e hlt
  · exact ⟨hne, heq⟩

theorem passed_zero : Passed ht key 0 := fun _ he => absurd he (Nat.not_lt_zero _)

/-- How a search ends. -/
inductive Found (ht : HashTable K V) (key : K) : Option Nat → Prop
  | hit {d : Nat} (hd : d < ht.capacity) (hpassed : Passed ht key d)
      (hused : ht.stateAt (ht.path key d) = .used)
      (heq : ht.eq (ht.slots (ht.path key d)).key key = true) : Found ht key (some (ht.path key d))
  | miss {d : Nat} (hd : d < ht.capacity) (hpassed : Passed ht key d)
      (hempty : ht.stateAt (ht.path key d) = .empty) : Found ht key none
  | exhausted (hpassed : Passed ht key ht.capacity) : Found ht key none

theorem findLoop_found (h : Circular ht) (n : Nat) :
    ∀ d, d + n = ht.capacity → Passed ht key d →
      Found ht key (ht.findLoop key n (ht.path key d)) := by
  induction n with
  | zero =>
      intro d hd hpassed
      rw [show d = ht.capacity by omega] at hpassed
      exact .exhausted hpassed
  | succ n ih =>
      intro d hd hpassed
      have hlt : d < ht.capacity := by omega
      rw [findLoop]
      cases hstate : (ht.slots (ht.path key d)).state with
      | empty => exact .miss hlt hpassed hstate
      | tombstone =>
          have hnot : ht.stateAt (ht.path key d) = .tombstone := hstate
          rw [h.next_eq]
          exact ih (d + 1) (by omega) (hpassed.succ (by simp [hnot]) (by simp [hnot]))
      | used =>
          have hused : ht.stateAt (ht.path key d) = .used := hstate
          cases heq : ht.eq (ht.slots (ht.path key d)).key key with
          | true => exact .hit hlt hpassed hused heq
          | false =>
              rw [h.next_eq]
              exact ih (d + 1) (by omega) (hpassed.succ (by simp [hused]) (fun _ => heq))

theorem findKey_found (h : Circular ht) (key : K) : Found ht key (ht.findKey key) := by
  rw [findKey, h.home_eq]
  exact findLoop_found h ht.capacity 0 (Nat.zero_add _) passed_zero

/-- How an insertion ends. A new entry goes to a slot on the way to the first empty one. -/
inductive Inserted (ht : HashTable K V) (key : K) (value : V) : Bool × HashTable K V → Prop
  | hit {d : Nat} (hd : d < ht.capacity) (hused : ht.stateAt (ht.path key d) = .used)
      (heq : ht.eq (ht.slots (ht.path key d)).key key = true) :
      Inserted ht key value (true, ht.overwrite (ht.path key d) value)
  | miss {d e : Nat} (hd : d < ht.capacity) (hpassed : Passed ht key d)
      (hempty : ht.stateAt (ht.path key d) = .empty) (he : e ≤ d)
      (hfree : ht.stateAt (ht.path key e) ≠ .used) :
      Inserted ht key value (true, ht.place (ht.path key e) key value)
  | exhausted (hpassed : Passed ht key ht.capacity) : Inserted ht key value (false, ht)

/-- The tombstone remembered lies on the path, before slot `d`. -/
def TombBefore (ht : HashTable K V) (key : K) (d : Nat) (firstTomb : Option Nat) : Prop :=
  ∀ pos, firstTomb = some pos → ∃ e < d, pos = ht.path key e ∧
    ht.stateAt (ht.path key e) = .tombstone

theorem TombBefore.succ {d : Nat} {firstTomb : Option Nat} (h : TombBefore ht key d firstTomb) :
    TombBefore ht key (d + 1) firstTomb := by
  intro pos hpos
  obtain ⟨e, he, hpe⟩ := h pos hpos
  exact ⟨e, Nat.lt_succ_of_lt he, hpe⟩

theorem TombBefore.or {d : Nat} {firstTomb : Option Nat} (h : TombBefore ht key d firstTomb)
    (hstate : ht.stateAt (ht.path key d) = .tombstone) :
    TombBefore ht key (d + 1) (firstTomb.or (some (ht.path key d))) := by
  cases firstTomb with
  | none =>
      intro pos hpos
      cases hpos
      exact ⟨d, Nat.lt_succ_self d, rfl, hstate⟩
  | some j => exact h.succ

theorem insertLoop_inserted (h : Circular ht) (n : Nat) :
    ∀ d firstTomb, d + n = ht.capacity → Passed ht key d → TombBefore ht key d firstTomb →
      Inserted ht key value (ht.insertLoop key value n (ht.path key d) firstTomb) := by
  -- by induction on the slots not looked at yet
  induction n with
  | zero =>
      intro d firstTomb hd hpassed _
      rw [show d = ht.capacity by omega] at hpassed
      exact .exhausted hpassed
  | succ n ih =>
      intro d firstTomb hd hpassed htomb
      have hlt : d < ht.capacity := by omega
      rw [insertLoop]
      cases hstate : (ht.slots (ht.path key d)).state with
      | empty =>
          have hempty : ht.stateAt (ht.path key d) = .empty := hstate
          cases firstTomb with
          | none => exact .miss hlt hpassed hempty (Nat.le_refl d) (by simp [hempty])
          | some j =>
              obtain ⟨e, he, rfl, hte⟩ := htomb j rfl
              exact .miss hlt hpassed hempty (Nat.le_of_lt he) (by simp [hte])
      | tombstone =>
          have hnot : ht.stateAt (ht.path key d) = .tombstone := hstate
          rw [h.next_eq]
          exact ih (d + 1) _ (by omega) (hpassed.succ (by simp [hnot]) (by simp [hnot]))
            (htomb.or hnot)
      | used =>
          have hused : ht.stateAt (ht.path key d) = .used := hstate
          cases heq : ht.eq (ht.slots (ht.path key d)).key key with
          | true => exact .hit hlt hused heq
          | false =>
              rw [h.next_eq]
              exact ih (d + 1) _ (by omega) (hpassed.succ (by simp [hused]) (fun _ => heq))
                htomb.succ

theorem insertNoResize_inserted (h : Circular ht) (key : K) (value : V) :
    Inserted ht key value (ht.insertNoResize key value) := by
  rw [insertNoResize, h.home_eq]
  exact insertLoop_inserted h ht.capacity 0 none (Nat.zero_add _) passed_zero
    (fun _ hpos => by cases hpos)

/-! ## Reachability -/

/-- The equality test is an equivalence, and equal keys have equal hashes. -/
structure Hashing (hash : K → UInt64) (eq : K → K → Bool) : Prop where
  keyEq : KeyEq eq
  compat : ∀ a b, eq a b = true → hash a = hash b

/-- No empty slot lies between the home of a key and the key. -/
def Reachable (ht : HashTable K V) : Prop :=
  ∀ i < ht.capacity, ht.stateAt i = .used → ∃ d < ht.capacity, ht.path (ht.slots i).key d = i ∧
    ∀ e < d, ht.stateAt (ht.path (ht.slots i).key e) ≠ .empty

/-- No slot has the key. -/
def Absent (ht : HashTable K V) (key : K) : Prop :=
  ∀ i < ht.capacity, ht.stateAt i = .used → ht.eq (ht.slots i).key key = false

theorem path_congr (hh : Hashing ht.hash ht.eq) {a b : K} (hab : ht.eq a b = true) (d : Nat) :
    ht.path a d = ht.path b d := by
  rw [path, path, hh.compat a b hab]

/-- A key that is not found before the first empty slot is not there. -/
theorem Passed.absent {d : Nat} (h : Passed ht key d) (hh : Hashing ht.hash ht.eq)
    (hreach : Reachable ht) (hempty : ht.stateAt (ht.path key d) = .empty) : Absent ht key := by
  intro i hi hused
  cases heq : ht.eq (ht.slots i).key key with
  | false => rfl
  | true =>
      obtain ⟨d', _, hpath, hway⟩ := hreach i hi hused
      simp only [path_congr hh heq] at hpath hway
      rcases Nat.lt_trichotomy d' d with hlt | rfl | hgt
      · have hno := (h d' hlt).2 (by rw [hpath]; exact hused)
        rw [hpath, heq] at hno
        cases hno
      · rw [hpath, hused] at hempty
        cases hempty
      · exact absurd hempty (hway d hgt)

/-- A key that is not found on the whole round is not there. -/
theorem Passed.absent_of_all (h : Passed ht key ht.capacity) : Absent ht key := by
  intro i hi hused
  obtain ⟨d, hd, hpath⟩ := exists_probe (ht.hash key).toNat hi
  have hpath' : ht.path key d = i := hpath
  rw [← hpath'] at hused ⊢
  exact (h d hd).2 hused

theorem Found.absent (h : Found ht key none) (hh : Hashing ht.hash ht.eq)
    (hreach : Reachable ht) : Absent ht key := by
  cases h with
  | miss _ hpassed hempty => exact hpassed.absent hh hreach hempty
  | exhausted hpassed => exact hpassed.absent_of_all

end HttpServer.HashTable
