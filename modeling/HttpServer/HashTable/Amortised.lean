import HttpServer.Lib.Run
import HttpServer.HashTable.Map

set_option autoImplicit false

/-! # What growing costs

When the table grows, the loop of `resize` goes through all its slots. This is dear, but there must
have been many insertions since the table grew last, for the load counts entries and tombstones, and
neither can come about without an insertion. Over any run the loop makes less than three turns for
each call of `ht_insert` (`growth_amortised`), failed allocations, replaced values and entries that
come and go included; and the capacity goes up by just these turns.
-/

namespace HttpServer.HashTable

open CLib

variable {K V : Type} [Zero K] [Zero V] {ht : HashTable K V}

/-- The table after a call. -/
def htNext (ht : HashTable K V) (op : HtOp K V) : HashTable K V := (htStep ht op).2

def isInsert : HtOp K V → Bool
  | .insert _ _ _ => true
  | _ => false

/-- The turns the loop of `resize` makes in a call. -/
def growTurns (ht : HashTable K V) : HtOp K V → Nat
  | .insert _ _ alloc =>
      if ht.loaded && callocOk (ht.capacity * 2 % sizeMod) slotSize alloc then ht.capacity else 0
  | _ => 0

/-- What has been laid by for the next time the table grows. -/
def savings (ht : HashTable K V) : Nat := 20 * (ht.count + ht.tombstones) - 7 * ht.capacity

/-! ## One call -/

/-- What a call does to the load. -/
inductive LoadStep (ht : HashTable K V) (op : HtOp K V) (ht' : HashTable K V) : Prop
  | idle (hturns : growTurns ht op = 0) (hcap : ht'.capacity = ht.capacity)
      (hload : ht'.count + ht'.tombstones = ht.count + ht.tombstones)
  | entered (hop : isInsert op = true) (hturns : growTurns ht op = 0)
      (hcap : ht'.capacity = ht.capacity)
      (hload : ht'.count + ht'.tombstones ≤ ht.count + ht.tombstones + 1)
  | grown (hop : isInsert op = true) (hturns : growTurns ht op = ht.capacity)
      (hfull : ht.capacity * 7 < (ht.count + ht.tombstones + 1) * 10)
      (hcap : ht'.capacity = ht.capacity * 2)
      (hload : ht'.count + ht'.tombstones ≤ ht.count + 1)

omit [Zero K] [Zero V] in
theorem Balanced.insert_load (h : Balanced ht)
    (hroom : (ht.count + ht.tombstones + 1) * htMaxLoadDenom ≤ ht.capacity * htMaxLoadNumer)
    (key : K) (value : V) :
    (ht.insertNoResize key value).2.capacity = ht.capacity ∧
      (ht.insertNoResize key value).2.count + (ht.insertNoResize key value).2.tombstones ≤
        ht.count + ht.tombstones + 1 := by
  obtain ⟨hcap, htomb, -, -⟩ := insertNoResize_frame h.toCircular key value
  have hcount := (h.insertNoResize hroom key value).2
  exact ⟨hcap, by omega⟩

theorem Balanced.insert_loadStep (h : Balanced ht) (key : K) (value : V) (alloc : Bool) :
    LoadStep ht (.insert key value alloc) (htNext ht (.insert key value alloc)) := by
  rw [htNext, htStep, htInsert]
  cases hload : ht.loaded with
  | false =>
      obtain ⟨hcap, hle⟩ := h.insert_load (h.room hload) key value
      exact .entered rfl (by simp [growTurns, hload]) hcap hle
  | true =>
      cases hok : callocOk (ht.capacity * 2) slotSize alloc with
      | false =>
          have hfail : ht.resize (ht.capacity * 2 % sizeMod) alloc = (false, ht) := by
            rw [h.double_mod, HashTable.resize, if_neg (by rw [hok]; decide)]
          rw [if_pos rfl, hfail]
          exact .idle (by simp [growTurns, h.double_mod, hok]) rfl rfl
      | true =>
          have hcalloc := callocOk_size hok
          have hre := h.refilled hcalloc ht.capacity (Nat.le_refl _)
          have hcount : (ht.regrown ht.capacity).count ≤ ht.count := hre.count.trans h.count_eq.ge
          obtain ⟨hcap, hle⟩ := hre.balanced.insert_load (h.resize_room hcalloc) key value
          rw [if_pos rfl, h.resize hok]
          refine .grown rfl (by simp [growTurns, hload, h.double_mod, hok]) (h.loaded_iff.mp hload)
            (hcap.trans hre.capacity) (hle.trans ?_)
          rw [hre.tombstones]
          omega

theorem Balanced.loadStep (h : Balanced ht) (op : HtOp K V) : LoadStep ht op (htNext ht op) := by
  cases op with
  | insert key value alloc => exact h.insert_loadStep key value alloc
  | remove key =>
      obtain ⟨hcap, hload⟩ := h.remove_load key
      exact .idle rfl hcap hload
  | lookup key => exact .idle rfl rfl rfl
  | contains key => exact .idle rfl rfl rfl
  | size => exact .idle rfl rfl rfl

/-- An insertion is worth `20`, which pays for `7` units a turn. -/
theorem Balanced.amortised (h : Balanced ht) (op : HtOp K V) :
    7 * growTurns ht op + savings (htNext ht op) ≤ savings ht + if isInsert op then 20 else 0 := by
  have hload := h.load
  unfold htMaxLoadDenom htMaxLoadNumer at hload
  have hstep := h.loadStep op
  generalize htNext ht op = ht' at hstep ⊢
  unfold savings
  cases hstep with
  | idle hturns hcap hsame =>
      rw [hturns, hcap, hsame]
      omega
  | entered hop hturns hcap hle =>
      rw [if_pos hop, hturns, hcap]
      omega
  | grown hop hturns hfull hcap hle =>
      rw [if_pos hop, hturns, hcap]
      omega

/-- The capacity goes up by the turns of the loop. -/
theorem Balanced.capacity_step (h : Balanced ht) (op : HtOp K V) :
    (htNext ht op).capacity = ht.capacity + growTurns ht op := by
  cases h.loadStep op with
  | idle hturns hcap => rw [hturns, hcap, Nat.add_zero]
  | entered _ hturns hcap => rw [hturns, hcap, Nat.add_zero]
  | grown _ hturns _ hcap => rw [hturns, hcap, Nat.mul_two]

/-! ## Runs -/

theorem Balanced.next (h : Balanced ht) (op : HtOp K V) : Balanced (htNext ht op) := h.step op

theorem htRun_foldl (ops : List (HtOp K V)) :
    ∀ ht : HashTable K V, (htRun ht ops).2 = ops.foldl htNext ht := by
  induction ops with
  | nil => exact fun _ => rfl
  | cons op ops ih => exact fun ht => ih (htNext ht op)

theorem Balanced.capacity_run (ops : List (HtOp K V)) :
    ∀ {ht : HashTable K V}, Balanced ht →
      (ops.foldl htNext ht).capacity = ht.capacity + totalCost htNext growTurns ht ops := by
  induction ops with
  | nil => exact fun _ => rfl
  | cons op ops ih =>
      intro ht h
      rw [List.foldl_cons, ih (h.next op), h.capacity_step op, totalCost, Nat.add_assoc]

omit [Zero K] [Zero V] in
theorem sum_worth (ops : List (HtOp K V)) :
    (ops.map fun op => if isInsert op then 20 else 0).sum = 20 * ops.countP isInsert := by
  induction ops with
  | nil => rfl
  | cons op ops ih =>
      rw [List.map_cons, List.sum_cons, ih, List.countP_cons]
      split
      · omega
      · omega

theorem totalCost_mul (k : Nat) (ops : List (HtOp K V)) :
    ∀ ht : HashTable K V,
      totalCost htNext (fun ht op => k * growTurns ht op) ht ops =
        k * totalCost htNext growTurns ht ops := by
  induction ops with
  | nil => exact fun _ => rfl
  | cons op ops ih =>
      intro ht
      rw [totalCost, totalCost, ih, Nat.mul_add]

/-- **Growing costs less than three turns for each insertion.** In any calls on a new table, whatever
its hash function and its equality test are, the loop of `resize` makes at most `20 / 7` turns for
each call of `ht_insert`, and the capacity is the first one and these turns. -/
theorem growth_amortised {hash : K → UInt64} {eq : K → K → Bool} {capacity : Nat} {alloc : Bool}
    (hinit : htInit capacity hash eq alloc = some (some ht)) (ops : List (HtOp K V)) :
    7 * totalCost htNext growTurns ht ops ≤ 20 * ops.countP isInsert ∧
      (htRun ht ops).2.capacity = ht.capacity + totalCost htNext growTurns ht ops := by
  obtain ⟨hcirc, cap, rfl⟩ := htInit_circular hinit
  have hbal := balanced_zero hcirc
  refine ⟨?_, by rw [htRun_foldl]; exact hbal.capacity_run ops⟩
  have hstep : ∀ (ht : HashTable K V) op, Balanced ht → Balanced (htNext ht op) ∧
      7 * growTurns ht op + savings (htNext ht op) ≤ savings ht + if isInsert op then 20 else 0 :=
    fun ht op h => ⟨h.next op, h.amortised op⟩
  have hpay := totalCost_le_of_potential savings _ hstep ops hbal
  rw [totalCost_mul, sum_worth] at hpay
  have hnone : savings (⟨zeroSlots, cap, 0, 0, hash, eq⟩ : HashTable K V) = 0 := by simp [savings]
  omega

/-- One entry that comes and goes fills the table with tombstones. -/
def churnOps : List (HtOp Nat Nat) :=
  (List.range 12).flatMap fun i => [.insert i i true, .remove i]

theorem growth_amortised_churn :
    totalCost htNext growTurns sampleTable churnOps = 16 ∧
      7 * totalCost htNext growTurns sampleTable churnOps ≤ 20 * churnOps.countP isInsert ∧
      (htRun sampleTable churnOps).2.capacity = 32 := by
  obtain ⟨hle, hcap⟩ := growth_amortised
    (show htInit 0 sampleHash sampleEq true = some (some sampleTable) from rfl) churnOps
  have hturns : totalCost htNext growTurns sampleTable churnOps = 16 := by decide +kernel
  rw [hturns] at hle hcap ⊢
  exact ⟨rfl, hle, hcap⟩

end HttpServer.HashTable
