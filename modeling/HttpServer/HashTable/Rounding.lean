import HttpServer.HashTable.Map

set_option autoImplicit false

/-! # Rounding up the capacity

`next_power_of_two` doubles `16` until it reaches what is asked for. Up to `2 ^ 63` it gets
there; for anything more the product wraps around to `0`, which stays below it for ever.

The loop is followed by induction on the number of turns that are left, with the capacity reached
so far as a power of two. Whether the loop ends is part of the question here, so it is taken with
fuel: `nextPowerOfTwo_rounds` says that 64 turns suffice, `nextPowerOfTwo_none` that no number
does.
-/

namespace HttpServer.HashTable

open CLib

/-! ## The loop -/

/-- What the result of `next_power_of_two` should be. -/
structure RoundsTo (n p : Nat) : Prop where
  pow : ∃ k, p = 2 ^ k
  le : n ≤ p
  lo : 16 ≤ p
  lt : p < 2 * max n 16

/-- A turn of the loop shifts without loss below `2 ^ 63` ... -/
theorem shift_eq {k : Nat} (hk : k < 63) : 2 ^ k * 2 % sizeMod = 2 ^ (k + 1) := by
  rw [← pow_succ]
  exact Nat.mod_eq_of_lt (Nat.pow_lt_pow_right (by decide) (by omega))

/-- ... and there it loses the only bit. -/
theorem shift_top : 2 ^ 63 * 2 % sizeMod = 0 := by decide

/-- The loop arrives: `2 ^ k` is the first power tried that may do. -/
theorem roundUp_returns {n : Nat} (hn : n ≤ 2 ^ 63) (fuel : Nat) :
    ∀ k, 4 ≤ k → k ≤ 63 → 64 ≤ fuel + k → 2 ^ k < 2 * max n 16 →
      ∃ p, roundUp n fuel (2 ^ k) = some p ∧ RoundsTo n p := by
  induction fuel with
  | zero => exact fun k _ hk hfuel => absurd hfuel (by omega)
  | succ fuel ih =>
      intro k hlo hk hfuel hlt
      rw [roundUp]
      by_cases hless : 2 ^ k < n
      · have hk' : k < 63 := by
          by_contra hge
          rw [show k = 63 by omega] at hless
          omega
        rw [if_pos hless, shift_eq hk']
        refine ih (k + 1) (by omega) hk' (by omega) ?_
        calc 2 ^ (k + 1) = 2 * 2 ^ k := by rw [pow_succ, Nat.mul_comm]
          _ < 2 * n := by omega
          _ ≤ 2 * max n 16 := by omega
      · rw [if_neg hless]
        have h16 : 2 ^ 4 ≤ 2 ^ k := Nat.pow_le_pow_right (by decide) hlo
        exact ⟨2 ^ k, rfl, ⟨k, rfl⟩, Nat.le_of_not_lt hless, h16, hlt⟩

/-- Below `n` the loop goes through the powers of two that are a `size_t` and then through `0`. -/
theorem roundUp_none {n : Nat} (hn : 2 ^ 63 < n) (fuel : Nat) :
    ∀ p, ((∃ k ≤ 63, p = 2 ^ k) ∨ p = 0) → roundUp n fuel p = none := by
  induction fuel with
  | zero => exact fun _ _ => rfl
  | succ fuel ih =>
      intro p hp
      have hless : p < n := by
        rcases hp with ⟨k, hk, rfl⟩ | rfl
        · calc 2 ^ k ≤ 2 ^ 63 := Nat.pow_le_pow_right (by decide) hk
            _ < n := hn
        · exact Nat.zero_lt_of_lt hn
      rw [roundUp, if_pos hless]
      refine ih _ ?_
      rcases hp with ⟨k, hk, rfl⟩ | rfl
      · rcases Nat.lt_or_eq_of_le hk with hk' | rfl
        · exact .inl ⟨k + 1, hk', shift_eq hk'⟩
        · exact .inr shift_top
      · exact .inr rfl

/-! ## `next_power_of_two` and `ht_init` -/

variable {K V : Type} [Zero K] [Zero V]

/-- The loop ends, with a right result, and `ht_init` returns with that capacity or with
`false`. -/
def Rounded (hash : K → UInt64) (eq : K → K → Bool) (n : Nat) : Prop :=
  ∃ p, (∃ fuel, roundUp n fuel htDefaultCapacity = some p) ∧ RoundsTo n p ∧
    ∀ alloc, htInit (V := V) n hash eq alloc = some none ∨
      ∃ ht : HashTable K V, htInit n hash eq alloc = some (some ht) ∧ ht.capacity = p

theorem nextPowerOfTwo_rounds {n : Nat} (hn : n ≤ 2 ^ 63) :
    ∃ p, nextPowerOfTwo n = some p ∧ RoundsTo n p := by
  have h16 : 2 ^ 4 < 2 * max n 16 := by omega
  exact roundUp_returns hn 64 4 (by decide) (by decide) (by decide) h16

theorem nextPowerOfTwo_none {n : Nat} (hn : 2 ^ 63 < n) (fuel : Nat) :
    roundUp n fuel htDefaultCapacity = none :=
  roundUp_none hn fuel _ (.inl ⟨4, by decide, rfl⟩)

/-- **Capacities are rounded up to the next power of two**, and `ht_init` returns, if and only if
no more than `2 ^ 63` is asked for; past that the loop never ends. -/
theorem rounded_iff (hash : K → UInt64) (eq : K → K → Bool) (n : Nat) :
    Rounded (V := V) hash eq n ↔ n ≤ 2 ^ 63 := by
  constructor
  · rintro ⟨p, ⟨fuel, hret⟩, -⟩
    by_contra hn
    rw [nextPowerOfTwo_none (by omega) fuel] at hret
    cases hret
  · intro hn
    obtain ⟨p, hret, hround⟩ := nextPowerOfTwo_rounds hn
    refine ⟨p, ⟨64, hret⟩, hround, fun alloc => ?_⟩
    rw [htInit, hret]
    by_cases hok : callocOk p slotSize alloc = true
    · exact .inr ⟨⟨zeroSlots, p, 0, 0, hash, eq⟩, if_pos hok, rfl⟩
    · exact .inl (if_neg hok)

/-- The smallest request that never returns. -/
theorem not_rounded_top :
    2 ^ 63 + 1 < sizeMod ∧ ¬ Rounded (V := Nat) sampleHash sampleEq (2 ^ 63 + 1) ∧
      htInit (K := Nat) (V := Nat) (2 ^ 63 + 1) sampleHash sampleEq true = none := by
  refine ⟨by decide, ?_, ?_⟩
  · rintro ⟨p, ⟨fuel, hret⟩, -⟩
    rw [nextPowerOfTwo_none (by decide) fuel] at hret
    cases hret
  · rw [htInit, nextPowerOfTwo, nextPowerOfTwo_none (by decide)]

end HttpServer.HashTable
