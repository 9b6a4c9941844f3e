import Mathlib.Logic.Function.Basic
import Mathlib.Tactic

set_option autoImplicit false

/-! # Descriptor tables

A descriptor table maps the open descriptors to what they refer to. Only finitely many are
open: from `next` on every descriptor is free, so a new one can always be found. A call that
opens a descriptor names the one it would like (`hint`); it gets that one when it is free.
-/

namespace CLib

structure FdTable (D : Type) where
  get : Nat → Option D
  next : Nat
  free : ∀ k, next ≤ k → get k = none

namespace FdTable

variable {D : Type}

/-- The table in which the descriptors of a list, and no others, are open. -/
def ofList (l : List Nat) (d : D) : FdTable D where
  get := fun k => if k ∈ l then some d else none
  next := l.foldr (fun k n => max (k + 1) n) 0
  free := by
    intro k hk
    have hlt : ∀ j ∈ l, j < l.foldr (fun k n => max (k + 1) n) 0 := by
      intro j hj
      induction l with
      | nil => cases hj
      | cons a t ih =>
          rcases List.mem_cons.mp hj with rfl | hj
          · simp only [List.foldr_cons]; omega
          · have := ih (by simp only [List.foldr_cons] at hk; omega) hj
            simp only [List.foldr_cons]; omega
    exact if_neg (fun hmem => absurd (hlt k hmem) (by omega))

/-- The descriptor a call that would like `hint` gets. -/
def pick (t : FdTable D) (hint : Nat) : Nat :=
  if (t.get hint).isNone then hint else t.next

/-- The table after descriptor `k` has been made to refer to `d`. -/
def insert (t : FdTable D) (k : Nat) (d : D) : FdTable D where
  get := Function.update t.get k (some d)
  next := max t.next (k + 1)
  free := by
    intro j hj
    rw [Function.update_of_ne (by omega)]
    exact t.free j (by omega)

/-- The table after descriptor `k` has been closed. -/
def erase (t : FdTable D) (k : Nat) : FdTable D where
  get := Function.update t.get k none
  next := t.next
  free := by
    intro j hj
    rcases eq_or_ne j k with rfl | hne
    · exact Function.update_self ..
    · rw [Function.update_of_ne hne]
      exact t.free j hj

theorem pick_free (t : FdTable D) (hint : Nat) : t.get (t.pick hint) = none := by
  unfold pick
  split
  · rename_i h
    exact Option.isNone_iff_eq_none.mp h
  · exact t.free _ (Nat.le_refl _)

@[simp] theorem get_insert_self (t : FdTable D) (k : Nat) (d : D) :
    (t.insert k d).get k = some d :=
  Function.update_self ..

@[simp] theorem get_erase_self (t : FdTable D) (k : Nat) : (t.erase k).get k = none :=
  Function.update_self ..

theorem get_insert_of_ne (t : FdTable D) {j k : Nat} (d : D) (h : j ≠ k) :
    (t.insert k d).get j = t.get j :=
  Function.update_of_ne h ..

theorem get_erase_of_ne (t : FdTable D) {j k : Nat} (h : j ≠ k) :
    (t.erase k).get j = t.get j :=
  Function.update_of_ne h ..

end FdTable

end CLib
