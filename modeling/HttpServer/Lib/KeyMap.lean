import Mathlib.Data.List.Perm.Basic
import Mathlib.Tactic

set_option autoImplicit false

/-! # Finite maps with keys up to an equality test

A finite map is a list of entries no two of which have equal keys (`Distinct`). Equality of
keys is a test `eq` that is an equivalence; `insert` for a key that is present replaces the
value and keeps the key that is there. Lists with the same entries in another order are the
same map: all operations respect permutations.
-/

namespace CLib

/-- The test `eq` is an equivalence. -/
structure KeyEq {K : Type} (eq : K → K → Bool) : Prop where
  refl : ∀ a, eq a a = true
  symm : ∀ a b, eq a b = true → eq b a = true
  trans : ∀ a b c, eq a b = true → eq b c = true → eq a c = true

/-- Keys compared by a part of them. -/
theorem KeyEq.of_part {K P : Type} [DecidableEq P] (part : K → P) :
    KeyEq fun a b => decide (part a = part b) where
  refl _ := decide_eq_true rfl
  symm _ _ h := decide_eq_true (of_decide_eq_true h).symm
  trans _ _ _ h h' := decide_eq_true ((of_decide_eq_true h).trans (of_decide_eq_true h'))

variable {K V : Type} {eq : K → K → Bool}

theorem KeyEq.false_symm (h : KeyEq eq) {a b : K} (hab : eq a b = false) : eq b a = false := by
  cases hba : eq b a with
  | false => rfl
  | true => rw [h.symm b a hba] at hab; cases hab

/-- A key equal to one of two distinct keys is distinct from the other. -/
theorem KeyEq.false_of_true (h : KeyEq eq) {a b c : K} (hab : eq a b = true)
    (hbc : eq b c = false) : eq a c = false := by
  cases hac : eq a c with
  | false => rfl
  | true => rw [h.trans b a c (h.symm a b hab) hac] at hbc; cases hbc

namespace KeyMap

/-- The entry with key `k`. -/
def entry (eq : K → K → Bool) (m : List (K × V)) (k : K) : Option (K × V) :=
  m.find? (fun e => eq e.1 k)

def find (eq : K → K → Bool) (m : List (K × V)) (k : K) : Option V := (entry eq m k).map Prod.snd

def contains (eq : K → K → Bool) (m : List (K × V)) (k : K) : Bool := (entry eq m k).isSome

def insert (eq : K → K → Bool) (m : List (K × V)) (k : K) (v : V) : List (K × V) :=
  if contains eq m k then m.map (fun e => if eq e.1 k then (e.1, v) else e) else (k, v) :: m

def remove (eq : K → K → Bool) (m : List (K × V)) (k : K) : List (K × V) :=
  m.filter (fun e => !eq e.1 k)

/-- No two entries have equal keys. -/
def Distinct (eq : K → K → Bool) (m : List (K × V)) : Prop :=
  m.Pairwise (fun a b => eq a.1 b.1 = false)

theorem contains_iff {m : List (K × V)} {k : K} :
    contains eq m k = true ↔ ∃ e ∈ m, eq e.1 k = true := by
  rw [contains, entry, List.find?_isSome]

theorem contains_eq_false {m : List (K × V)} {k : K} :
    contains eq m k = false ↔ ∀ e ∈ m, eq e.1 k = false := by
  rw [← Bool.not_eq_true, contains_iff]
  simp

/-! ## Order does not matter -/

section Perm

variable {m m' : List (K × V)}

theorem Distinct.perm (h : Distinct eq m) (heq : KeyEq eq) (hp : m.Perm m') : Distinct eq m' :=
  (hp.pairwise_iff (fun hab => heq.false_symm hab)).mp h

theorem contains_perm (hp : m.Perm m') (k : K) : contains eq m k = contains eq m' k := by
  rw [Bool.eq_iff_iff, contains_iff, contains_iff]
  simp only [hp.mem_iff]

theorem insert_perm (hp : m.Perm m') (k : K) (v : V) : (insert eq m k v).Perm (insert eq m' k v) := by
  rw [insert, insert, contains_perm hp]
  split
  · exact hp.map _
  · exact hp.cons _

theorem remove_perm (hp : m.Perm m') (k : K) : (remove eq m k).Perm (remove eq m' k) :=
  hp.filter _

/-- In a map a key has at most one entry. -/
theorem entry_eq_some (h : Distinct eq m) (heq : KeyEq eq) {k : K} {e : K × V} :
    entry eq m k = some e ↔ e ∈ m ∧ eq e.1 k = true := by
  constructor
  · intro hf
    rw [entry] at hf
    exact ⟨List.mem_of_find?_eq_some hf, (List.find?_eq_some_iff_append.mp hf).1⟩
  · rintro ⟨hmem, hek⟩
    induction m with
    | nil => cases hmem
    | cons a m ih =>
        rw [Distinct, List.pairwise_cons] at h
        rw [entry, List.find?_cons]
        rcases List.mem_cons.mp hmem with rfl | hmem
        · rw [hek]
        · have hak : eq a.1 k = false := by
            cases hak : eq a.1 k with
            | false => rfl
            | true =>
                have hae := heq.trans a.1 k e.1 hak (heq.symm e.1 k hek)
                exact absurd hae (by simp [h.1 e hmem])
          rw [hak]
          exact ih h.2 hmem

end Perm

/-! ## Operations on one entry -/

section Entry

variable {m l : List (K × V)} {k k' : K} {v v' : V}

theorem insert_absent (h : contains eq m k = false) (v : V) : insert eq m k v = (k, v) :: m := by
  rw [insert, h]
  rfl

theorem insert_present (hd : Distinct eq m) (heq : KeyEq eq) (hp : m.Perm ((k', v') :: l))
    (hk : eq k' k = true) (v : V) : (insert eq m k v).Perm ((k', v) :: l) := by
  refine (insert_perm hp k v).trans ?_
  have hrest : ∀ e ∈ l, eq e.1 k = false := by
    intro e he
    have hne := (List.pairwise_cons.mp (hd.perm heq hp)).1 e he
    exact heq.false_symm (heq.false_of_true (heq.symm k' k hk) hne)
  have hin : contains eq ((k', v') :: l) k = true :=
    contains_iff.mpr ⟨(k', v'), List.mem_cons_self, hk⟩
  rw [insert, hin, if_pos rfl, List.map_cons, if_pos hk]
  have hsame : l.map (fun e => if eq e.1 k then (e.1, v) else e) = l := by
    conv_rhs => rw [← List.map_id l]
    refine List.map_congr_left fun e he => ?_
    rw [hrest e he]
    rfl
  rw [hsame]

theorem remove_present (hd : Distinct eq m) (heq : KeyEq eq) (hp : m.Perm ((k', v') :: l))
    (hk : eq k' k = true) : (remove eq m k).Perm l := by
  refine (remove_perm hp k).trans ?_
  have hrest : ∀ e ∈ l, (!eq e.1 k) = true := by
    intro e he
    have hne := (List.pairwise_cons.mp (hd.perm heq hp)).1 e he
    rw [heq.false_symm (heq.false_of_true (heq.symm k' k hk) hne)]
    rfl
  rw [remove, List.filter_cons_of_neg (by simp [hk]), List.filter_eq_self.mpr hrest]

theorem remove_absent (h : contains eq m k = false) : remove eq m k = m :=
  List.filter_eq_self.mpr fun e he => by rw [contains_eq_false.mp h e he]; rfl

end Entry

/-! ## Finding what was put in -/

section Laws

variable {m : List (K × V)} {k k' : K}

theorem find_insert (heq : KeyEq eq) (m : List (K × V)) (k : K) (v : V) (k' : K) :
    find eq (insert eq m k v) k' = if eq k k' then some v else find eq m k' := by
  cases hin : contains eq m k with
  | false =>
      rw [insert_absent hin, find, find, entry, List.find?_cons, entry]
      cases hk : eq k k' with
      | false => rfl
      | true => rfl
  | true =>
      -- an insertion over an old entry keeps its key
      have hkeys : ((fun e : K × V => eq e.1 k') ∘ fun e => if eq e.1 k then (e.1, v) else e) =
          fun e => eq e.1 k' := by
        funext e
        simp only [Function.comp_apply]
        split
        · rfl
        · rfl
      rw [insert, hin, if_pos rfl, find, entry, List.find?_map, hkeys, find, entry]
      cases hfind : m.find? (fun e => eq e.1 k') with
      | none =>
          cases hk : eq k k' with
          | false => rfl
          | true =>
              -- the entry of `k` would have been found under `k'`
              obtain ⟨e, he, hek⟩ := contains_iff.mp hin
              have hno := List.find?_eq_none.mp hfind e he
              exact absurd (heq.trans e.1 k k' hek hk) hno
      | some e =>
          have hek' : eq e.1 k' = true := (List.find?_eq_some_iff_append.mp hfind).1
          cases hk : eq k k' with
          | true =>
              have hek := heq.trans e.1 k' k hek' (heq.symm k k' hk)
              simp [hek]
          | false =>
              have hek := heq.false_of_true hek' (heq.false_symm hk)
              simp [hek]

theorem find_remove (heq : KeyEq eq) (m : List (K × V)) (k k' : K) :
    find eq (remove eq m k) k' = if eq k k' then none else find eq m k' := by
  rw [find, entry, remove, List.find?_filter]
  cases hk : eq k k' with
  | true =>
      rw [if_pos rfl, Option.map_eq_none_iff, List.find?_eq_none]
      intro e _ hboth
      rw [decide_eq_true_eq, Bool.not_eq_true'] at hboth
      have hek := heq.trans e.1 k' k hboth.2 (heq.symm k k' hk)
      cases hek.symm.trans hboth.1
  | false =>
      have hsame : (fun e : K × V => decide ((!eq e.1 k) = true ∧ eq e.1 k' = true)) =
          fun e => eq e.1 k' := by
        funext e
        cases hek' : eq e.1 k' with
        | false => simp
        | true => simp [heq.false_of_true hek' (heq.false_symm hk)]
      rw [hsame]
      rfl

end Laws

end KeyMap

end CLib
