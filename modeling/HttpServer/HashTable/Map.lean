import HttpServer.HashTable.Refine

set_option autoImplicit false

/-! # Runs of the table

Any sequence of calls on a table gives the results the same calls give on a finite map, with
insertions failing only for want of memory, and then without effect.

One call is `Refines.step`, from the specifications of the three operations, and a run is the
induction over it. `MapStep` leaves open whether an insertion fails, since the map cannot know
when the table grows; it only fixes what a failure may do, which is nothing. The second half of
the file follows the load of the table along the same runs: used slots and tombstones together
stay within seven tenths of the capacity (`Balanced.run`), so that a search always meets an empty
slot.
-/

namespace HttpServer.HashTable

open CLib

variable {K V : Type} [Zero K] [Zero V]

/-! ## Calls -/

/-- A call on the table; `alloc` says whether the system grants the memory to grow. -/
inductive HtOp (K V : Type)
  | insert (key : K) (value : V) (alloc : Bool)
  | remove (key : K)
  | lookup (key : K)
  | contains (key : K)
  | size

inductive HtRes (V : Type)
  | flag (b : Bool)
  | value (v : V)
  | size (n : Nat)
  deriving DecidableEq, Repr

def htStep (ht : HashTable K V) : HtOp K V → HtRes V × HashTable K V
  | .insert key value alloc =>
      let (b, ht) := htInsert ht key value alloc
      (.flag b, ht)
  | .remove key =>
      let (b, ht) := htRemove ht key
      (.flag b, ht)
  | .lookup key => (.value (htLookup ht key), ht)
  | .contains key => (.flag (htContains ht key), ht)
  | .size => (.size (htSize ht), ht)

/-- The results of a list of calls, and the table after them. -/
def htRun (ht : HashTable K V) : List (HtOp K V) → List (HtRes V) × HashTable K V
  | [] => ([], ht)
  | op :: ops =>
      let (res, ht) := htStep ht op
      let (rest, ht) := htRun ht ops
      (res :: rest, ht)

/-! ## The same on a map -/

/-- What a call returns on the map `m`, and the map after it. An insertion may be refused. -/
inductive MapStep (eq : K → K → Bool) (m : List (K × V)) :
    HtOp K V → HtRes V → List (K × V) → Prop
  | inserted (key : K) (value : V) (alloc : Bool) :
      MapStep eq m (.insert key value alloc) (.flag true) (KeyMap.insert eq m key value)
  | refused (key : K) (value : V) (alloc : Bool) :
      MapStep eq m (.insert key value alloc) (.flag false) m
  | removed (key : K) :
      MapStep eq m (.remove key) (.flag (KeyMap.contains eq m key)) (KeyMap.remove eq m key)
  | looked (key : K) : MapStep eq m (.lookup key) (.value ((KeyMap.find eq m key).getD 0)) m
  | tested (key : K) : MapStep eq m (.contains key) (.flag (KeyMap.contains eq m key)) m
  | sized : MapStep eq m .size (.size m.length) m

inductive MapRun (eq : K → K → Bool) :
    List (K × V) → List (HtOp K V) → List (HtRes V) → List (K × V) → Prop
  | nil (m : List (K × V)) : MapRun eq m [] [] m
  | cons {m m₁ m₂ : List (K × V)} {op : HtOp K V} {ops : List (HtOp K V)} {res : HtRes V}
      {rest : List (HtRes V)} (hstep : MapStep eq m op res m₁) (hrun : MapRun eq m₁ ops rest m₂) :
      MapRun eq m (op :: ops) (res :: rest) m₂

/-- The value of the last insertion of `key` that succeeded and has not been followed by a
removal. -/
def lastInsert (eq : K → K → Bool) (key : K) (v : Option V) : List (HtOp K V × HtRes V) → Option V
  | [] => v
  | (.insert k v' _, .flag true) :: calls =>
      lastInsert eq key (if eq k key then some v' else v) calls
  | (.remove k, _) :: calls => lastInsert eq key (if eq k key then none else v) calls
  | _ :: calls => lastInsert eq key v calls

/-! ## Refinement -/

variable {ht ht' : HashTable K V} {m : List (K × V)}

/-- A failed insertion leaves the table as it is, and only `calloc` makes one fail. -/
def Harmless (ht : HashTable K V) : Prop :=
  ∀ key value alloc, (htInsert ht key value alloc).1 = false →
    (htInsert ht key value alloc).2 = ht ∧ callocOk (ht.capacity * 2) slotSize alloc = false

theorem Refines.harmless (h : Refines ht m) : Harmless ht := by
  intro key value alloc hfalse
  have hend := h.insert key value alloc
  generalize htInsert ht key value alloc = out at hend hfalse ⊢
  cases hend with
  | refused hload hcalloc => exact ⟨rfl, hcalloc⟩
  | here => cases hfalse
  | grown => cases hfalse

theorem Refines.step (h : Refines ht m) (op : HtOp K V) :
    ∃ m', MapStep ht.eq m op (htStep ht op).1 m' ∧ Refines (htStep ht op).2 m' ∧
      (htStep ht op).2.eq = ht.eq := by
  cases op with
  | insert key value alloc =>
      have hend := h.insert key value alloc
      simp only [htStep]
      generalize htInsert ht key value alloc = out at hend ⊢
      cases hend with
      | refused => exact ⟨m, .refused .., h, rfl⟩
      | here _ href _ _ _ heq => exact ⟨_, .inserted .., href, heq⟩
      | grown _ _ href _ _ _ heq => exact ⟨_, .inserted .., href, heq⟩
  | remove key =>
      obtain ⟨hflag, href⟩ := h.remove key
      refine ⟨_, ?_, href, ?_⟩
      · simp only [htStep, hflag]
        exact .removed key
      · simp only [htStep, htRemove]
        split
        · rfl
        · rfl
  | lookup key =>
      refine ⟨m, ?_, h, rfl⟩
      simp only [htStep, h.lookup key]
      exact .looked key
  | contains key =>
      refine ⟨m, ?_, h, rfl⟩
      simp only [htStep, h.contains key]
      exact .tested key
  | size =>
      refine ⟨m, ?_, h, rfl⟩
      simp only [htStep, htSize, h.count]
      exact .sized

theorem Refines.run (ops : List (HtOp K V)) :
    ∀ {ht : HashTable K V} {m : List (K × V)}, Refines ht m →
      ∃ m', MapRun ht.eq m ops (htRun ht ops).1 m' ∧ Refines (htRun ht ops).2 m' ∧
        (htRun ht ops).2.eq = ht.eq := by
  induction ops with
  | nil => exact fun h => ⟨_, .nil _, h, rfl⟩
  | cons op ops ih =>
      intro ht m h
      obtain ⟨m₁, hstep, h₁, heq₁⟩ := h.step op
      obtain ⟨m₂, hrun, h₂, heq₂⟩ := ih h₁
      rw [heq₁] at hrun
      exact ⟨m₂, .cons hstep hrun, h₂, heq₂.trans heq₁⟩

omit [Zero K] in
/-- The map after a run has the last insertions in it. -/
theorem MapRun.find {eq : K → K → Bool} (heq : KeyEq eq) {ops : List (HtOp K V)}
    {results : List (HtRes V)} {m' : List (K × V)} (h : MapRun eq m ops results m') (key : K) :
    KeyMap.find eq m' key = lastInsert eq key (KeyMap.find eq m key) (ops.zip results) := by
  induction h with
  | nil => rfl
  | cons hstep _ ih =>
      rw [ih]
      cases hstep with
      | inserted k v alloc => rw [KeyMap.find_insert heq]; rfl
      | removed k => rw [KeyMap.find_remove heq]; rfl
      | refused => rfl
      | looked => rfl
      | tested => rfl
      | sized => rfl

/-! ## Creation -/

theorem roundUp_pow {n q : Nat} (fuel : Nat) :
    ∀ {p : Nat}, ((∃ k, p = 2 ^ k ∧ 4 ≤ k ∧ k < 64) ∨ (p = 0 ∧ 0 < n)) →
      roundUp n fuel p = some q → ∃ k, q = 2 ^ k ∧ 4 ≤ k := by
  induction fuel with
  | zero => intro p _ h; cases h
  | succ fuel ih =>
      intro p hp h
      rw [roundUp] at h
      by_cases hlt : p < n
      · rw [if_pos hlt] at h
        refine ih ?_ h
        rcases hp with ⟨k, rfl, hk, hk'⟩ | ⟨rfl, hn⟩
        · rcases Nat.lt_or_ge (k + 1) 64 with hlt' | hge
          · refine .inl ⟨k + 1, ?_, by omega, hlt'⟩
            rw [← pow_succ]
            exact Nat.mod_eq_of_lt (Nat.pow_lt_pow_right (by decide) hlt')
          · refine .inr ⟨?_, Nat.zero_lt_of_lt hlt⟩
            rw [← pow_succ, show k + 1 = 64 by omega]
            rfl
        · exact .inr ⟨rfl, hn⟩
      · rw [if_neg hlt, Option.some.injEq] at h
        rcases hp with ⟨k, rfl, hk, _⟩ | ⟨rfl, hn⟩
        · exact ⟨k, h.symm, hk⟩
        · exact absurd hn hlt

/-- A table that `ht_init` returns. -/
theorem htInit_circular {hash : K → UInt64} {eq : K → K → Bool} {capacity : Nat} {alloc : Bool}
    (h : htInit capacity hash eq alloc = some (some ht)) :
    Circular ht ∧ ∃ cap, ht = ⟨zeroSlots, cap, 0, 0, hash, eq⟩ := by
  rw [htInit] at h
  split at h
  · cases h
  · rename_i cap hround
    by_cases hok : callocOk cap slotSize alloc = true
    · rw [if_pos hok] at h
      cases h
      obtain ⟨k, rfl, hk⟩ := roundUp_pow 64 (.inl ⟨4, rfl, by decide, by decide⟩) hround
      refine ⟨⟨⟨k, rfl⟩, ?_, callocOk_size hok⟩, _, rfl⟩
      exact Nat.pow_le_pow_right (show 0 < 2 by decide) hk
    · rw [if_neg hok] at h
      cases h

theorem htInit_refines {hash : K → UInt64} {eq : K → K → Bool} (hh : Hashing hash eq)
    {capacity : Nat} {alloc : Bool} (h : htInit capacity hash eq alloc = some (some ht)) :
    Refines ht [] ∧ ht.eq = eq := by
  obtain ⟨hcirc, cap, rfl⟩ := htInit_circular h
  exact ⟨refines_zero hcirc hh, rfl⟩

/-! ## The table refines a finite map -/

/-- **The hash table is a finite map.** Any calls on a new table return what they return on
the empty map, and leave the table with the entries of the map under distinct keys. What it
finds is the last insertion that succeeded and has not been undone; an insertion that fails
has no effect. -/
theorem table_refines_map {hash : K → UInt64} {eq : K → K → Bool} (hh : Hashing hash eq)
    {capacity : Nat} {alloc : Bool} (hinit : htInit capacity hash eq alloc = some (some ht))
    (ops : List (HtOp K V)) :
    ∃ m, MapRun eq [] ops (htRun ht ops).1 m ∧ (htRun ht ops).2.entries.Perm m ∧
      KeyMap.Distinct eq m ∧
      (∀ i < (htRun ht ops).2.capacity, ∀ j < (htRun ht ops).2.capacity,
        (htRun ht ops).2.stateAt i = .used → (htRun ht ops).2.stateAt j = .used →
        eq ((htRun ht ops).2.slots i).key ((htRun ht ops).2.slots j).key = true → i = j) ∧
      (∀ key, htLookup (htRun ht ops).2 key =
          (lastInsert eq key none (ops.zip (htRun ht ops).1)).getD 0 ∧
        htContains (htRun ht ops).2 key =
          (lastInsert eq key none (ops.zip (htRun ht ops).1)).isSome) ∧
      htSize (htRun ht ops).2 = m.length ∧ Harmless (htRun ht ops).2 := by
  obtain ⟨href, heq⟩ := htInit_refines hh hinit
  obtain ⟨m, hrun, hfinal, heq'⟩ := href.run ops
  rw [heq] at hrun heq'
  have hdistinct := hfinal.distinct
  have huniq := hfinal.intact.uniq
  rw [heq'] at hdistinct huniq
  refine ⟨m, hrun, hfinal.perm, hdistinct, huniq, fun key => ?_, hfinal.count, hfinal.harmless⟩
  have hfind : KeyMap.find eq m key = lastInsert eq key none (ops.zip (htRun ht ops).1) :=
    hrun.find hh.keyEq key
  rw [hfinal.lookup, hfinal.contains, heq', ← hfind]
  refine ⟨rfl, ?_⟩
  rw [KeyMap.contains, KeyMap.find, Option.isSome_map]

/-! Keys modulo `8` that all but collide, with a key replaced and a key removed. -/

def sampleHash (k : Nat) : UInt64 := (k % 2).toUInt64

def sampleEq (a b : Nat) : Bool := decide (a % 8 = b % 8)

theorem sample_hashing : Hashing sampleHash sampleEq where
  keyEq := .of_part (· % 8)
  compat := by
    intro a b h
    have hmod : a % 8 = b % 8 := of_decide_eq_true h
    rw [sampleHash, sampleHash, show a % 2 = b % 2 by omega]

def sampleTable : HashTable Nat Nat := ⟨zeroSlots, 16, 0, 0, sampleHash, sampleEq⟩

def sampleOps : List (HtOp Nat Nat) :=
  [.insert 1 10 true, .insert 3 30 true, .remove 1, .insert 11 31 true, .lookup 3, .contains 9,
    .size]

theorem table_refines_map_sample :
    (htRun sampleTable sampleOps).1 =
      [.flag true, .flag true, .flag true, .flag true, .value 31, .flag false, .size 1] ∧
    ∃ m, MapRun sampleEq [] sampleOps (htRun sampleTable sampleOps).1 m ∧
      (htRun sampleTable sampleOps).2.entries.Perm m := by
  obtain ⟨m, hrun, hperm, _⟩ :=
    table_refines_map sample_hashing (show htInit 0 sampleHash sampleEq true = some (some sampleTable)
      from rfl) sampleOps
  exact ⟨by decide, m, hrun, hperm⟩

/-! ## The table is never full -/

/-- The load of a table, and what follows from it for the next call. -/
structure Headroom (ht : HashTable K V) : Prop where
  capacity : 16 ≤ ht.capacity ∧ ∃ k, ht.capacity = 2 ^ k
  load : (ht.count + ht.tombstones) * htMaxLoadDenom ≤ ht.capacity * htMaxLoadNumer
  products : ht.capacity * htMaxLoadNumer < sizeMod ∧
    (ht.count + ht.tombstones + 1) * htMaxLoadDenom < sizeMod
  filled : ht.filledSlots.card ≤ ht.count + ht.tombstones
  empty : ∃ i < ht.capacity, ht.stateAt i = .empty
  probe : ∀ key, ∃ d < ht.capacity, Stops ht key d
  insert : ∀ key value, (ht.insertNoResize key value).1 = true
  move : ∀ alloc, callocOk (ht.capacity * 2) slotSize alloc = true →
    ∀ i < ht.capacity, ht.stateAt i = .used →
      ((ht.regrown i).insertNoResize (ht.slots i).key (ht.slots i).value).1 = true
  grown : ∀ alloc, callocOk (ht.capacity * 2) slotSize alloc = true →
    ht.resize (ht.capacity * 2 % sizeMod) alloc = (true, ht.regrown ht.capacity) ∧
    ∀ key value, ((ht.regrown ht.capacity).insertNoResize key value).1 = true
  fails : ∀ key value alloc, (htInsert ht key value alloc).1 = false →
    callocOk (ht.capacity * 2) slotSize alloc = false

theorem Balanced.headroom (h : Balanced ht) : Headroom ht := by
  have hbound := h.counters
  have hlo := h.lo
  refine ⟨⟨hlo, h.pow⟩, h.load, ?_, h.filled, h.exists_empty, h.stops, h.insert_true, ?_, ?_, ?_⟩
  · unfold htMaxLoadNumer htMaxLoadDenom
    omega
  · intro alloc hok i hi _
    exact (h.refilled (callocOk_size hok) i (Nat.le_of_lt hi)).balanced.insert_true _ _
  · intro alloc hok
    have hre := h.refilled (callocOk_size hok) ht.capacity (Nat.le_refl _)
    exact ⟨h.resize hok, hre.balanced.insert_true⟩
  · exact fun key value alloc => (h.insert key value alloc).2

theorem Balanced.step (h : Balanced ht) (op : HtOp K V) : Balanced (htStep ht op).2 := by
  cases op with
  | insert key value alloc => exact (h.insert key value alloc).1
  | remove key => exact h.remove key
  | lookup key => exact h
  | contains key => exact h
  | size => exact h

theorem Balanced.run (ops : List (HtOp K V)) :
    ∀ {ht : HashTable K V}, Balanced ht → Balanced (htRun ht ops).2 := by
  induction ops with
  | nil => exact id
  | cons op ops ih => exact fun h => ih (h.step op)

/-- **The table is never full.** After any calls on a new table, whatever its hash function and
its equality test are, the load is bounded without overflow, an empty slot stops every search,
no insertion into a slot fails, and `ht_insert` fails only when `calloc` does. -/
theorem table_never_full {hash : K → UInt64} {eq : K → K → Bool} {capacity : Nat} {alloc : Bool}
    (hinit : htInit capacity hash eq alloc = some (some ht)) (ops : List (HtOp K V)) :
    Headroom (htRun ht ops).2 := by
  obtain ⟨hcirc, cap, rfl⟩ := htInit_circular hinit
  exact ((balanced_zero hcirc).run ops).headroom

theorem table_never_full_sample :
    (htRun sampleTable sampleOps).2.tombstones = 1 ∧ Headroom (htRun sampleTable sampleOps).2 :=
  ⟨by decide, table_never_full (show htInit 0 sampleHash sampleEq true = some (some sampleTable)
    from rfl) sampleOps⟩

end HttpServer.HashTable
