import Mathlib.Data.UInt
import Mathlib.Data.List.TakeWhile
import Mathlib.Tactic

set_option autoImplicit false

/-! # C arrays and C strings

A C array of fixed size is a list that carries its length. Reads and writes go through an
index; a write outside the array has no result (`none`), because C gives it no meaning.

A C string is the part of an array before its first zero byte. The comparison functions of
`<string.h>` are defined on these byte lists, in the "C" locale (only ASCII letters have a
case).
-/

namespace CLib

/-! ## Arrays -/

/-- An array of `n` elements. -/
@[ext] structure CArray (α : Type) (n : Nat) where
  elems : List α
  size_eq : elems.length = n
  deriving DecidableEq, Repr

variable {α : Type} {n : Nat}

/-- The array with the same value in every cell. -/
def CArray.fill (n : Nat) (a : α) : CArray α n := ⟨List.replicate n a, List.length_replicate⟩

/-- `a[i] = x`, if `i` is an index of the array. -/
def CArray.write (a : CArray α n) (i : Nat) (x : α) : Option (CArray α n) :=
  if i < n then some ⟨a.elems.set i x, by rw [List.length_set, a.size_eq]⟩ else none

theorem CArray.write_of_lt (a : CArray α n) {i : Nat} (x : α) (h : i < n) :
    ∃ b, a.write i x = some b ∧ b.elems = a.elems.set i x :=
  ⟨_, if_pos h, rfl⟩

theorem CArray.write_eq_none (a : CArray α n) {i : Nat} (x : α) :
    a.write i x = none ↔ n ≤ i := by
  unfold CArray.write
  split
  · simp; omega
  · simp; omega

theorem CArray.take_set_of_le (a : CArray α n) {i j : Nat} (x : α) (h : j ≤ i) :
    (a.elems.set i x).take j = a.elems.take j := by
  rw [List.take_set, List.set_eq_of_length_le]
  rw [List.length_take]
  omega

/-- Writing one cell past the first `i` cells extends that prefix by the value written. -/
theorem CArray.take_set_succ (a : CArray α n) {i : Nat} (x : α) (h : i < n) :
    (a.elems.set i x).take (i + 1) = a.elems.take i ++ [x] := by
  have hlen : i < (a.elems.set i x).length := by rw [List.length_set, a.size_eq]; exact h
  rw [List.take_add_one, List.getElem?_eq_getElem hlen, List.getElem_set_self,
    a.take_set_of_le x (Nat.le_refl i)]
  rfl

/-! ## Strings -/

/-- The C string at the start of a byte list: the bytes before the first zero. -/
def cstr (l : List UInt8) : List UInt8 := l.takeWhile (· ≠ 0)

/-- The bytes of a string constant. -/
def ascii (s : String) : List UInt8 := s.toList.map (fun c => c.toNat.toUInt8)

-- a type of 256 values can also be searched through as a whole, which `decide` does not survive
/-- A condition on the bytes of a string is decided by going through the string. -/
instance (priority := 2000) decidableForallByte {p : UInt8 → Prop} [DecidablePred p]
    (l : List UInt8) : Decidable (∀ c ∈ l, p c) :=
  List.decidableBAll p l

/-- The same for the first or the last byte of a string. -/
instance (priority := 2000) decidableForallEndByte {p : UInt8 → Prop} [DecidablePred p]
    (o : Option UInt8) : Decidable (∀ c, o = some c → p c) :=
  Option.decidableForallMem o

/-- The C string held by a byte array. -/
def CArray.str (a : CArray UInt8 n) : List UInt8 := cstr a.elems

theorem cstr_append_zero (l r : List UInt8) : cstr (l ++ 0 :: r) = cstr l := by
  induction l with
  | nil => simp [cstr]
  | cons a t ih =>
      by_cases ha : a = 0
      · simp [cstr, ha]
      · simp only [cstr, List.cons_append] at ih ⊢
        rw [List.takeWhile_cons_of_pos (by simpa using ha),
          List.takeWhile_cons_of_pos (by simpa using ha), ih]

theorem cstr_append {l : List UInt8} (h : (0 : UInt8) ∉ l) (r : List UInt8) :
    cstr (l ++ r) = l ++ cstr r := by
  rw [cstr, List.takeWhile_append_of_pos]
  · rfl
  · intro x hx
    have : x ≠ 0 := fun h0 => h (h0 ▸ hx)
    simpa using this

theorem cstr_length_le (l : List UInt8) : (cstr l).length ≤ l.length :=
  (List.takeWhile_prefix _).length_le

theorem zero_not_mem_cstr (l : List UInt8) : (0 : UInt8) ∉ cstr l := by
  intro h
  simpa using List.mem_takeWhile_imp h

theorem cstr_eq_self {l : List UInt8} (h : (0 : UInt8) ∉ l) : cstr l = l := by
  rw [cstr, List.takeWhile_eq_self_iff]
  intro x hx
  have : x ≠ 0 := fun h0 => h (h0 ▸ hx)
  simpa using this

/-- An array whose first `i` cells are `l`, followed by a zero, holds the string `cstr l`. -/
theorem CArray.str_of_terminated (a : CArray UInt8 n) {l : List UInt8}
    (h : a.elems.take (l.length + 1) = l ++ [0]) : a.str = cstr l := by
  have hsplit : a.elems = l ++ 0 :: a.elems.drop (l.length + 1) := by
    conv_lhs => rw [← List.take_append_drop (l.length + 1) a.elems, h]
    simp
  rw [CArray.str, hsplit, cstr_append_zero]

/-- `tolower` in the "C" locale. -/
def lower (c : UInt8) : UInt8 := if 65 ≤ c ∧ c ≤ 90 then c + 32 else c

/-- `strncasecmp(a, b, n) == 0`, on the contents of two C strings. -/
def strncaseeq (a b : List UInt8) (n : Nat) : Bool :=
  (a.take n).map lower == (b.take n).map lower

/-- `strcasestr(hay, needle) != NULL`, on the contents of two C strings. -/
def strcasestr (hay needle : List UInt8) : Bool :=
  decide (needle.map lower <:+: hay.map lower)

/-- `strstr(hay, needle) != NULL`, on the contents of two C strings. -/
def strstr (hay needle : List UInt8) : Bool := decide (needle <:+: hay)

/-- `strrchr(s, c)`: the rest of the string from the last `c` on. -/
def strrchr (s : List UInt8) (c : UInt8) : Option (List UInt8) :=
  if c ∈ s then some (c :: (s.reverse.takeWhile (· ≠ c)).reverse) else none

/-- `%zu` of `printf`. -/
def decimal (n : Nat) : List UInt8 := (Nat.toDigits 10 n).map (fun c => c.toNat.toUInt8)

end CLib
