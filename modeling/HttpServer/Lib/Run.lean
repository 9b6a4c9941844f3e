import Mathlib.Data.UInt
import Mathlib.Data.List.Basic
import Mathlib.Tactic

set_option autoImplicit false

/-! # Runs

A run is a list of actions, done one after the other by a step function. `Along` says that every
action of a run meets a condition on the state before it; what such actions preserve holds after
the run (`Along.invariant`). A run without a last action stops if a measure goes down
(`exists_stop`), and one whose steps can fail has no more steps than the measure says
(`length_le_of_decreasing`). What a run costs is bounded by what its actions are worth if a
potential pays for the dear ones (`totalCost_le_of_potential`).
-/

namespace CLib

variable {S A : Type} {step : S → A → S} {Q : S → A → Prop}

/-- Every action of a run meets a condition on the state before it. -/
def Along (step : S → A → S) (Q : S → A → Prop) (s : S) : List A → Prop
  | [] => True
  | a :: as => Q s a ∧ Along step Q (step s a) as

def Along.decide [hQ : ∀ s a, Decidable (Q s a)] (s : S) :
    (as : List A) → Decidable (Along step Q s as)
  | [] => .isTrue trivial
  | a :: as =>
      have := hQ s a
      have := Along.decide (step s a) as
      inferInstanceAs (Decidable (Q s a ∧ Along step Q (step s a) as))

instance [∀ s a, Decidable (Q s a)] {s : S} {as : List A} : Decidable (Along step Q s as) :=
  Along.decide s as

theorem along_of_forall (h : ∀ s a, Q s a) (as : List A) : ∀ s, Along step Q s as := by
  induction as with
  | nil => exact fun _ => trivial
  | cons a as ih => exact fun s => ⟨h s a, ih _⟩

/-- An invariant kept by every action that meets the condition. -/
theorem Along.invariant {P : S → Prop} (hstep : ∀ s a, P s → Q s a → P (step s a)) (as : List A) :
    ∀ {s : S}, P s → Along step Q s as → P (as.foldl step s) := by
  induction as with
  | nil => exact fun h _ => h
  | cons a as ih =>
      rintro s h ⟨ha, has⟩
      exact ih (hstep s a h ha) has

/-- A run that measurably gets somewhere from turn `N` on stops. -/
theorem exists_stop {f : Nat → Option S} (m : S → Nat) (N : Nat)
    (h : ∀ n ≥ N, ∀ s s', f n = some s → f (n + 1) = some s' → m s' < m s) : ∃ n, f n = none := by
  by_contra hno
  have hrun : ∀ n, ∃ s, f n = some s := fun n => Option.ne_none_iff_exists'.mp fun h0 => hno ⟨n, h0⟩
  obtain ⟨s₀, hs₀⟩ := hrun N
  have hdown : ∀ k s, f (N + k) = some s → m s + k ≤ m s₀ := by
    intro k
    induction k with
    | zero =>
        intro s hs
        rw [Nat.add_zero, hs₀] at hs
        cases hs
        exact Nat.le_refl _
    | succ k ih =>
        intro s hs
        obtain ⟨t, ht⟩ := hrun (N + k)
        have hlt := h (N + k) (Nat.le_add_right N k) t s ht hs
        have hle := ih t ht
        omega
  obtain ⟨s, hs⟩ := hrun (N + (m s₀ + 1))
  have := hdown (m s₀ + 1) s hs
  omega

/-- Where every step that can be made brings a measure down, no run has more steps than that. -/
theorem length_le_of_decreasing {next : S → A → Option S} {I : S → Prop} (m : S → Nat)
    (hstep : ∀ s a s', I s → next s a = some s' → I s' ∧ m s' < m s) (as : List A) :
    ∀ {s s' : S}, I s → as.foldlM next s = some s' → m s' + as.length ≤ m s := by
  induction as with
  | nil =>
      intro s s' _ hrun
      cases hrun
      exact Nat.le_refl _
  | cons a as ih =>
      intro s s' hI hrun
      rw [List.foldlM_cons, Option.bind_eq_bind, Option.bind_eq_some_iff] at hrun
      obtain ⟨t, hst, hrest⟩ := hrun
      obtain ⟨hIt, hlt⟩ := hstep s a t hI hst
      have hle := ih hIt hrest
      rw [List.length_cons]
      omega

/-- What the actions of a run cost, each in the state it is done in. -/
def totalCost (step : S → A → S) (cost : S → A → Nat) (s : S) : List A → Nat
  | [] => 0
  | a :: as => cost s a + totalCost step cost (step s a) as

/-- **The potential method.** If no action costs more than it is worth and what the potential goes
down by, no run costs more than its actions are worth and the potential it starts with. -/
theorem totalCost_le_of_potential {P : S → Prop} {cost : S → A → Nat} (potential : S → Nat)
    (worth : A → Nat) (hstep : ∀ s a, P s → P (step s a) ∧
      cost s a + potential (step s a) ≤ potential s + worth a) (as : List A) :
    ∀ {s : S}, P s → totalCost step cost s as + potential (as.foldl step s) ≤
      potential s + (as.map worth).sum := by
  induction as with
  | nil => intro s _; exact (Nat.zero_add _).le
  | cons a as ih =>
      intro s hs
      obtain ⟨hs', hle⟩ := hstep s a hs
      have hrest := ih hs'
      rw [totalCost, List.foldl_cons, List.map_cons, List.sum_cons]
      omega

end CLib
