import Mathlib.Data.List.Nodup

set_option autoImplicit false

/-! # Two lists in order of recency

Items with distinct keys in a list, most recent first. An item is used (`refresh`), or a new one
comes in front and the list is cut to its capacity (`push`). Of two such lists that see the same
uses and the same new items, the one of smaller capacity stays inside the larger one (`Inside`):
the inclusion property of least-recently-used replacement.
-/

namespace CLib

/-- The last item of the smaller list does not come after the last of the larger one. -/
theorem sublist_dropLast {α : Type} {l k : List α} (h : l.Sublist k) :
    l.dropLast.Sublist k.dropLast := by
  have htail := h.reverse.tail.reverse
  rwa [List.tail_reverse, List.tail_reverse, List.reverse_reverse, List.reverse_reverse] at htail

namespace Recency

variable {α κ : Type} [DecidableEq κ] (key : α → κ)

def hasKey (k : κ) (y : α) : Bool := decide (key y = k)

/-- `x` in front, in place of what had its key. -/
def refresh (x : α) (l : List α) : List α := x :: l.eraseP (hasKey key (key x))

/-- `x` in front of what is left when there is room for `n` items. -/
def push (n : Nat) (x : α) (l : List α) : List α := x :: l.take (n - 1)

/-- The items of `l`, which has room for `n`, are among those of `k`, which has room for `m`, in the
same order. Until `l` is full the two are the same. -/
structure Inside (n m : Nat) (l k : List α) : Prop where
  sublist : l.Sublist k
  settled : l = k ∨ l.length = n
  bounded : k.length ≤ m
  distinct : (k.map key).Nodup

variable {key} {n m : Nat} {l k : List α} {x : α}

/-! ## Keys -/

theorem hasKey_iff {i : κ} {y : α} : hasKey key i y = true ↔ key y = i := decide_eq_true_iff

theorem mem_keys_iff {i : κ} : i ∈ l.map key ↔ ∃ y ∈ l, hasKey key i y = true := by
  simp only [List.mem_map, hasKey_iff]

theorem eraseP_of_new (h : key x ∉ l.map key) : l.eraseP (hasKey key (key x)) = l :=
  List.eraseP_of_forall_not fun y hy hkey => h (mem_keys_iff.mpr ⟨y, hy, hkey⟩)

theorem length_refresh (h : key x ∈ l.map key) : (refresh key x l).length = l.length := by
  obtain ⟨y, hy, hkey⟩ := mem_keys_iff.mp h
  have hpos : 0 < l.length := List.length_pos_of_mem hy
  rw [refresh, List.length_cons, List.length_eraseP_of_mem hy hkey]
  omega

theorem not_mem_eraseP (h : (l.map key).Nodup) (i : κ) :
    i ∉ (l.eraseP (hasKey key i)).map key := by
  induction l with
  | nil => simp
  | cons y l ih =>
      obtain ⟨hnot, hrest⟩ := List.nodup_cons.mp h
      by_cases hy : key y = i
      · rw [List.eraseP_cons_of_pos (hasKey_iff.mpr hy)]
        exact hy ▸ hnot
      · rw [List.eraseP_cons_of_neg (fun h0 => hy (hasKey_iff.mp h0)), List.map_cons, List.mem_cons,
          not_or]
        exact ⟨fun h0 => hy h0.symm, ih hrest⟩

theorem nodup_refresh (h : (l.map key).Nodup) (x : α) : ((refresh key x l).map key).Nodup := by
  rw [refresh, List.map_cons, List.nodup_cons]
  exact ⟨not_mem_eraseP h (key x), h.sublist (l.eraseP_sublist.map key)⟩

/-- The two lists have the same item under a key of the smaller one. -/
theorem Inside.find (h : Inside key n m l k) {i : κ} (hfind : l.find? (hasKey key i) = some x) :
    k.find? (hasKey key i) = some x := by
  have hmem : x ∈ k := h.sublist.subset (List.mem_of_find?_eq_some hfind)
  have hkey : hasKey key i x = true := List.find?_some hfind
  cases hk : k.find? (hasKey key i) with
  | none => exact absurd hkey (List.find?_eq_none.mp hk x hmem)
  | some y =>
      have hy : key y = key x :=
        (hasKey_iff.mp (List.find?_some hk)).trans (hasKey_iff.mp hkey).symm
      rw [List.inj_on_of_nodup_map h.distinct (List.mem_of_find?_eq_some hk) hmem hy]

/-! ## The same steps on both -/

omit [DecidableEq κ] in
theorem Inside.full (h : Inside key n m l k) {i : κ} (hl : i ∉ l.map key) (hk : i ∈ k.map key) :
    l.length = n :=
  h.settled.resolve_left fun heq => hl (heq ▸ hk)

/-- Both have an item under the key of `x`. -/
theorem Inside.refresh (h : Inside key n m l k) (hx : key x ∈ l.map key) :
    Inside key n m (refresh key x l) (refresh key x k) where
  sublist := h.sublist.eraseP.cons_cons x
  settled := by
    rcases h.settled with rfl | hfull
    · exact .inl rfl
    · exact .inr ((length_refresh hx).trans hfull)
  bounded := by
    rw [length_refresh ((h.sublist.map key).subset hx)]
    exact h.bounded
  distinct := nodup_refresh h.distinct x

/-- Only the larger one has an item under the key of `x`, and the smaller one is left as it is. -/
theorem Inside.refresh_right (h : Inside key n m l k) (hl : key x ∉ l.map key)
    (hk : key x ∈ k.map key) : Inside key n m l (Recency.refresh key x k) where
  sublist := by
    have herase := h.sublist.eraseP (p := hasKey key (key x))
    rw [eraseP_of_new hl] at herase
    exact herase.cons x
  settled := .inr (h.full hl hk)
  bounded := by
    rw [length_refresh hk]
    exact h.bounded
  distinct := nodup_refresh h.distinct x

theorem length_push (hn : 1 ≤ n) (h : l.length = n) : (push n x l).length = n := by
  rw [push, List.length_cons, List.length_take]
  omega

/-- Only the larger one has an item under the key of `x`, which is new to the smaller one. -/
theorem Inside.push_refresh (h : Inside key n m l k) (hn : 1 ≤ n) (hl : key x ∉ l.map key)
    (hk : key x ∈ k.map key) : Inside key n m (push n x l) (Recency.refresh key x k) where
  sublist := by
    have herase := h.sublist.eraseP (p := hasKey key (key x))
    rw [eraseP_of_new hl] at herase
    exact ((List.take_sublist ..).trans herase).cons_cons x
  settled := .inr (length_push hn (h.full hl hk))
  bounded := by
    rw [length_refresh hk]
    exact h.bounded
  distinct := nodup_refresh h.distinct x

omit [DecidableEq κ] in
/-- What is left of the smaller one is left of the larger one. -/
theorem Inside.take (h : Inside key n m l k) (hnm : n ≤ m) :
    (l.take (n - 1)).Sublist (k.take (m - 1)) := by
  rcases h.settled with rfl | hfull
  · exact List.take_sublist_take_left (by omega)
  · have hl : l.take (n - 1) = l.dropLast := by rw [List.dropLast_eq_take, hfull]
    rw [hl]
    rcases Nat.lt_or_ge k.length m with hlt | hge
    · rw [List.take_of_length_le (by omega)]
      exact (List.dropLast_sublist l).trans h.sublist
    · have hk : k.take (m - 1) = k.dropLast := by
        rw [List.dropLast_eq_take, Nat.le_antisymm h.bounded hge]
      rw [hk]
      exact sublist_dropLast h.sublist

omit [DecidableEq κ] in
/-- The item `x` is new to both. -/
theorem Inside.push (h : Inside key n m l k) (hn : 1 ≤ n) (hnm : n ≤ m) (hk : key x ∉ k.map key) :
    Inside key n m (push n x l) (push m x k) where
  sublist := (h.take hnm).cons_cons x
  settled := by
    rcases h.settled with rfl | hfull
    · rcases Nat.lt_or_ge l.length n with hlt | hge
      · left
        rw [Recency.push, Recency.push, List.take_of_length_le (by omega),
          List.take_of_length_le (by omega)]
      · right
        rw [Recency.push, List.length_cons, List.length_take]
        omega
    · exact .inr (length_push hn hfull)
  bounded := by
    have hbound := h.bounded
    rw [Recency.push, List.length_cons, List.length_take]
    omega
  distinct := by
    have hsub : (k.take (m - 1)).Sublist k := List.take_sublist ..
    rw [Recency.push, List.map_cons, List.nodup_cons]
    exact ⟨fun hmem => hk ((hsub.map key).subset hmem), h.distinct.sublist (hsub.map key)⟩

end Recency

end CLib
