import HttpServer.Lib.CString

set_option autoImplicit false

/-! # Delimited texts

Cutting a text after the first occurrence of a mark, and reading back a number printed in
decimal. A stream of texts that each say where they end can be taken apart again
(`unframe_flatMap`).
-/

namespace CLib

/-! ## Cutting after a mark -/

section Cut

variable {α : Type} [DecidableEq α]

/-- The text up to and including the first occurrence of `mark`, and the rest. -/
def cutAfter (mark : List α) : List α → Option (List α × List α)
  | [] => none
  | a :: l =>
      if mark <+: a :: l then some (mark, (a :: l).drop mark.length)
      else (cutAfter mark l).map (Prod.map (a :: ·) id)

theorem cutAfter_mark {mark : List α} (hne : mark ≠ []) (l : List α) :
    cutAfter mark (mark ++ l) = some (mark, l) := by
  obtain ⟨a, m, rfl⟩ := List.exists_cons_of_ne_nil hne
  rw [List.cons_append, cutAfter, if_pos (by simp), ← List.cons_append, List.drop_left]

theorem cutAfter_cons {mark : List α} {a : α} {l : List α} (h : ¬ mark <+: a :: l) :
    cutAfter mark (a :: l) = (cutAfter mark l).map (Prod.map (a :: ·) id) :=
  if_neg h

/-- No mark starts in a text without the first symbol of the mark. -/
theorem cutAfter_append {a : α} (mark : List α) {l : List α} (h : a ∉ l) (r : List α) :
    cutAfter (a :: mark) (l ++ r) = (cutAfter (a :: mark) r).map (Prod.map (l ++ ·) id) := by
  induction l with
  | nil =>
      cases hcut : cutAfter (a :: mark) r with
      | none => exact hcut
      | some p => exact hcut
  | cons b l ih =>
      have hne : a ≠ b := fun h0 => h (h0 ▸ List.mem_cons_self)
      have hnot : ¬ a :: mark <+: b :: (l ++ r) := by
        rw [List.cons_prefix_cons]
        exact fun h0 => hne h0.1
      rw [List.cons_append, cutAfter_cons hnot, ih (fun h0 => h (List.mem_cons_of_mem b h0)),
        Option.map_map]
      rfl

end Cut

/-! ## Numbers in decimal -/

def isDigit (b : UInt8) : Bool := decide (48 ≤ b ∧ b ≤ 57)

/-- The number a decimal text stands for. -/
def readDecimal (l : List UInt8) : Option Nat :=
  if l ≠ [] ∧ l.all isDigit then some (l.foldl (fun n b => 10 * n + (b.toNat - 48)) 0) else none

theorem char_isDigit {c : Char} (h : c.isDigit) :
    isDigit c.toNat.toUInt8 = true ∧ c.toNat.toUInt8.toNat = c.toNat := by
  obtain ⟨hge, hle⟩ : 48 ≤ c.toNat ∧ c.toNat ≤ 57 := by
    simpa [Char.isDigit, UInt32.le_iff_toNat_le] using h
  have hnat : c.toNat.toUInt8.toNat = c.toNat := by
    rw [Nat.toUInt8, UInt8.toNat_ofNat', Nat.mod_eq_of_lt (by omega)]
  refine ⟨?_, hnat⟩
  simp only [isDigit, decide_eq_true_eq, UInt8.le_iff_toNat_le, hnat]
  exact ⟨hge, hle⟩

theorem decimal_digits (n : Nat) : ∀ b ∈ decimal n, isDigit b = true := by
  intro b hb
  obtain ⟨c, hc, rfl⟩ := List.mem_map.mp hb
  exact (char_isDigit (Nat.isDigit_of_mem_toDigits (by omega) (by omega) hc)).1

theorem readDecimal_decimal (n : Nat) : readDecimal (decimal n) = some n := by
  have hne : decimal n ≠ [] := by
    rw [decimal, Ne, List.map_eq_nil_iff]
    exact Nat.toDigits_ne_nil
  have hfold : ∀ (l : List Char) (k : Nat), (∀ c ∈ l, c.isDigit) →
      (l.map (fun c => c.toNat.toUInt8)).foldl (fun n b => 10 * n + (b.toNat - 48)) k =
        Nat.ofDigitChars 10 l k := by
    intro l
    induction l with
    | nil => intro k _; simp
    | cons c l ih =>
        intro k hl
        rw [List.map_cons, List.foldl_cons, (char_isDigit (hl c List.mem_cons_self)).2,
          Nat.ofDigitChars_cons]
        exact ih _ (fun c' hc' => hl c' (List.mem_cons_of_mem c hc'))
  rw [readDecimal, if_pos ⟨hne, List.all_eq_true.mpr (decimal_digits n)⟩, decimal,
    hfold _ 0 (fun c hc => Nat.isDigit_of_mem_toDigits (by omega) (by omega) hc),
    Nat.ofDigitChars_ten_toDigits]

/-- A number below `10^k` has at most `k` digits. -/
theorem decimal_length_le {n k : Nat} (hk : 0 < k) (h : n < 10 ^ k) : (decimal n).length ≤ k := by
  rw [decimal, List.length_map]
  exact (Nat.length_toDigits_le_iff (by omega) hk).mpr h

/-! ## Taking a stream apart -/

section Frames

variable {α β : Type}

/-- Read one item after the other until nothing is left; at most `n` of them. -/
def unframe (read : List α → Option (β × List α)) : Nat → List α → Option (List β)
  | _, [] => some []
  | 0, _ :: _ => none
  | n + 1, a :: l =>
      match read (a :: l) with
      | none => none
      | some (b, rest) => (unframe read n rest).map (b :: ·)

/-- Where every item is read back from the front of a stream, a stream of items is taken apart
into these items. -/
theorem unframe_flatMap {γ : Type} {read : List α → Option (β × List α)} {text : γ → List α}
    {value : γ → β} (xs : List γ) (hne : ∀ x ∈ xs, text x ≠ [])
    (hread : ∀ x ∈ xs, ∀ rest, read (text x ++ rest) = some (value x, rest)) (n : Nat)
    (hn : xs.length ≤ n) : unframe read n (xs.flatMap text) = some (xs.map value) := by
  induction xs generalizing n with
  | nil => cases n <;> rfl
  | cons x xs ih =>
      obtain ⟨m, rfl⟩ : ∃ m, n = m + 1 := ⟨n - 1, by rw [List.length_cons] at hn; omega⟩
      obtain ⟨a, l, hl⟩ := List.exists_cons_of_ne_nil (hne x List.mem_cons_self)
      have hfirst := hread x List.mem_cons_self (xs.flatMap text)
      rw [List.flatMap_cons]
      rw [hl, List.cons_append] at hfirst ⊢
      rw [unframe, hfirst]
      simp only
      rw [ih (fun y hy => hne y (List.mem_cons_of_mem x hy))
        (fun y hy => hread y (List.mem_cons_of_mem x hy)) m (by
          rw [List.length_cons] at hn
          omega)]
      rfl

/-- There are no more items than symbols. -/
theorem length_le_flatMap {γ : Type} {text : γ → List α} (xs : List γ)
    (hne : ∀ x ∈ xs, text x ≠ []) : xs.length ≤ (xs.flatMap text).length := by
  induction xs with
  | nil => exact Nat.le_refl 0
  | cons x xs ih =>
      have hx := List.length_pos_iff.mpr (hne x List.mem_cons_self)
      have hxs := ih (fun y hy => hne y (List.mem_cons_of_mem x hy))
      rw [List.flatMap_cons, List.length_append, List.length_cons]
      omega

end Frames

end CLib
