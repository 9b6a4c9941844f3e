import Mathlib.Data.Finset.Card
import Mathlib.Data.List.Perm.Basic
import Mathlib.Tactic

set_option autoImplicit false

/-! # Linear probing

The positions a search visits in a circular array of `cap` slots, starting at slot `home`, and
the contents of such an array as a list. Every slot is on the way from every home within `cap`
steps (`exists_probe`), and changing one slot changes the contents at one place
(`contents_split`).
-/

namespace CLib

/-- The slot visited after `d` steps from `home`. -/
def probe (cap home d : Nat) : Nat := (home + d) % cap

theorem probe_lt {cap : Nat} (hcap : 0 < cap) (home d : Nat) : probe cap home d < cap :=
  Nat.mod_lt _ hcap

theorem probe_succ (cap home d : Nat) : (probe cap home d + 1) % cap = probe cap home (d + 1) := by
  rw [probe, probe, Nat.mod_add_mod, Nat.add_assoc]

/-- The first `cap` slots visited are all there are. -/
theorem exists_probe {cap i : Nat} (home : Nat) (hi : i < cap) :
    ∃ d < cap, probe cap home d = i := by
  have hcap : 0 < cap := by omega
  have hlt := Nat.mod_lt home hcap
  refine ⟨(i + (cap - home % cap)) % cap, Nat.mod_lt _ hcap, ?_⟩
  rw [probe, Nat.add_mod_mod, ← Nat.mod_add_mod home]
  have hsum : home % cap + (i + (cap - home % cap)) = i + cap := by omega
  rw [hsum, Nat.add_mod_right, Nat.mod_eq_of_lt hi]

/-- If fewer than `cap` slots are taken, one is not. -/
theorem exists_of_card_lt {cap : Nat} {P : Nat → Prop} [DecidablePred P]
    (h : ((Finset.range cap).filter P).card < cap) : ∃ i < cap, ¬ P i := by
  by_contra hall
  push Not at hall
  have hfull : (Finset.range cap).filter P = Finset.range cap :=
    Finset.filter_true_of_mem fun i hi => hall i (Finset.mem_range.mp hi)
  rw [hfull, Finset.card_range] at h
  exact absurd h (Nat.lt_irrefl cap)

/-- The contents of the slots below `n`. -/
def contents {α : Type} (n : Nat) (f : Nat → Option α) : List α := (List.range n).filterMap f

/-- Two arrays that differ in one slot have the same contents otherwise. -/
theorem contents_split {α : Type} {n i : Nat} (hi : i < n) {f g : Nat → Option α}
    (h : ∀ j, j ≠ i → g j = f j) :
    ∃ l, (contents n f).Perm ((f i).toList ++ l) ∧ (contents n g).Perm ((g i).toList ++ l) := by
  have hperm : (List.range n).Perm (i :: (List.range n).erase i) :=
    List.perm_cons_erase (List.mem_range.mpr hi)
  have hsame : ((List.range n).erase i).filterMap g = ((List.range n).erase i).filterMap f := by
    refine List.filterMap_congr fun j hj => h j ?_
    exact ((List.nodup_range).mem_erase_iff.mp hj).1
  have hcons : ∀ f : Nat → Option α, (contents n f).Perm
      ((f i).toList ++ ((List.range n).erase i).filterMap f) := by
    intro f
    have hmap := hperm.filterMap f
    rw [List.filterMap_cons] at hmap
    cases hfi : f i with
    | none => rw [hfi] at hmap; exact hmap
    | some a => rw [hfi] at hmap; exact hmap
  exact ⟨((List.range n).erase i).filterMap f, hcons f, hsame ▸ hcons g⟩

theorem mem_contents {α : Type} {n : Nat} {f : Nat → Option α} {a : α} :
    a ∈ contents n f ↔ ∃ i < n, f i = some a := by
  simp [contents]

theorem contents_succ {α : Type} (n : Nat) (f : Nat → Option α) :
    contents (n + 1) f = contents n f ++ (f n).toList := by
  rw [contents, contents, List.range_succ, List.filterMap_append]
  cases hfn : f n <;> simp [hfn]

end CLib
