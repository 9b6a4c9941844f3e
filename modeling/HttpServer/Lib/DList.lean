import Mathlib.Logic.Function.Basic
import Mathlib.Tactic

set_option autoImplicit false

/-! # Doubly linked lists in memory

Nodes are addresses, `0` is the null pointer. `IsList s l` says that the links `s` form the list
`l`, from the head along `next` and from the tail along `prev`.

Both directions are in one relation on segments (`Seg`). Taking a node out leaves a segment in
front of it and one behind, and in each of them a single link has changed: the last `next` of the
front (`Seg.relink_last`) and the first `prev` of the back (`Seg.relink_first`). The list that
the links form is unique (`IsList.unique`).
-/

namespace CLib

structure Links where
  next : Nat → Nat
  prev : Nat → Nat
  head : Nat
  tail : Nat

namespace Links

def setNext (s : Links) (a b : Nat) : Links := { s with next := Function.update s.next a b }

def setPrev (s : Links) (a b : Nat) : Links := { s with prev := Function.update s.prev a b }

/-- Let the predecessor of `e` (or the head) point to what follows `e`. -/
def skipNext (s : Links) (e : Nat) : Links :=
  if s.prev e ≠ 0 then s.setNext (s.prev e) (s.next e) else { s with head := s.next e }

/-- Let the successor of `e` (or the tail) point to what precedes `e`. -/
def skipPrev (s : Links) (e : Nat) : Links :=
  if s.next e ≠ 0 then s.setPrev (s.next e) (s.prev e) else { s with tail := s.prev e }

/-- Take the node `e` out. -/
def unlink (s : Links) (e : Nat) : Links := (((s.skipNext e).skipPrev e).setPrev e 0).setNext e 0

/-- Put the node `e` in front. -/
def pushFront (s : Links) (e : Nat) : Links :=
  let s := (s.setPrev e 0).setNext e s.head
  let s := if s.head ≠ 0 then s.setPrev s.head e else s
  let s := { s with head := e }
  if s.tail = 0 then { s with tail := e } else s

def moveFront (s : Links) (e : Nat) : Links := if s.head = e then s else (s.unlink e).pushFront e

/-! ## Segments -/

/-- The nodes of `l` are linked one after the other, `p` before them and `q` behind. -/
def Seg (s : Links) : Nat → List Nat → Nat → Prop
  | _, [], _ => True
  | p, x :: l, q => s.prev x = p ∧ s.next x = l.head?.getD q ∧ Seg s x l q

structure IsList (s : Links) (l : List Nat) : Prop where
  nodup : l.Nodup
  nonnull : 0 ∉ l
  head : s.head = l.head?.getD 0
  tail : s.tail = l.getLast?.getD 0
  seg : s.Seg 0 l 0

variable {s s' : Links} {l : List Nat}

theorem seg_append {a b : List Nat} {p q : Nat} :
    s.Seg p (a ++ b) q ↔ s.Seg p a (b.head?.getD q) ∧ s.Seg (a.getLast?.getD p) b q := by
  induction a generalizing p with
  | nil => simp [Seg]
  | cons x a ih =>
      rw [List.cons_append, Seg, Seg, ih]
      cases a with
      | nil => simp [Seg, and_assoc]
      | cons y a =>
          have hlast : ∀ d, (y :: a).getLast?.getD d = (y :: a).getLast (by simp) := by
            intro d
            rw [List.getLast?_eq_getLast_of_ne_nil (by simp), Option.getD_some]
          rw [List.getLast?_cons_cons, hlast, hlast, and_assoc, and_assoc]
          rfl

/-- A segment depends on the links of its nodes only. -/
theorem Seg.congr {p q : Nat} (h : s.Seg p l q)
    (hsame : ∀ x ∈ l, s'.next x = s.next x ∧ s'.prev x = s.prev x) : s'.Seg p l q := by
  induction l generalizing p with
  | nil => trivial
  | cons x l ih =>
      obtain ⟨hprev, hnext, hrest⟩ := h
      obtain ⟨hn, hp⟩ := hsame x List.mem_cons_self
      exact ⟨hp.trans hprev, hn.trans hnext,
        ih hrest (fun y hy => hsame y (List.mem_cons_of_mem x hy))⟩

/-- The last node of a segment is linked to something else. -/
theorem Seg.relink_last {a : List Nat} {p q q' y : Nat} (h : s.Seg p (a ++ [y]) q)
    (hother : ∀ x ∈ a, s'.next x = s.next x ∧ s'.prev x = s.prev x) (hprev : s'.prev y = s.prev y)
    (hnext : s'.next y = q') : s'.Seg p (a ++ [y]) q' := by
  rw [seg_append] at h ⊢
  obtain ⟨hfront, hy, _, _⟩ := h
  exact ⟨hfront.congr hother, hprev.trans hy, hnext, trivial⟩

/-- The first node of a segment is linked to something else. -/
theorem Seg.relink_first {b : List Nat} {p p' q z : Nat} (h : s.Seg p (z :: b) q)
    (hother : ∀ x ∈ b, s'.next x = s.next x ∧ s'.prev x = s.prev x) (hnext : s'.next z = s.next z)
    (hprev : s'.prev z = p') : s'.Seg p' (z :: b) q := by
  obtain ⟨_, hz, hrest⟩ := h
  exact ⟨hprev, hnext.trans hz, hrest.congr hother⟩

/-- The links determine the list. -/
theorem Seg.unique {l' : List Nat} {p : Nat} (h : s.Seg p l 0) (h' : s.Seg p l' 0) (h0 : 0 ∉ l)
    (h0' : 0 ∉ l') (hhead : l.head?.getD 0 = l'.head?.getD 0) : l = l' := by
  induction l generalizing p l' with
  | nil =>
      cases l' with
      | nil => rfl
      | cons y l' => exact absurd (by simp [show (0 : Nat) = y from hhead]) h0'
  | cons x l ih =>
      cases l' with
      | nil => exact absurd (by simp [show x = 0 from hhead]) h0
      | cons y l' =>
          obtain rfl : x = y := hhead
          obtain ⟨_, hnext, hrest⟩ := h
          obtain ⟨_, hnext', hrest'⟩ := h'
          rw [ih hrest hrest' (fun hmem => h0 (List.mem_cons_of_mem _ hmem))
            (fun hmem => h0' (List.mem_cons_of_mem _ hmem)) (hnext.symm.trans hnext')]

theorem IsList.unique {l' : List Nat} (h : s.IsList l) (h' : s.IsList l') : l = l' :=
  h.seg.unique h'.seg h.nonnull h'.nonnull (h.head.symm.trans h'.head)

/-! ## Taking a node out -/

section Unlink

variable {a b : List Nat} {x : Nat}

theorem IsList.prev_eq (h : s.IsList (a ++ x :: b)) : s.prev x = a.getLast?.getD 0 :=
  (seg_append.mp h.seg).2.1

theorem IsList.next_eq (h : s.IsList (a ++ x :: b)) : s.next x = b.head?.getD 0 :=
  (seg_append.mp h.seg).2.2.1

theorem IsList.prev_ne (h : s.IsList (a ++ x :: b)) : s.prev x ≠ x := by
  rw [h.prev_eq]
  intro h0
  rcases List.eq_nil_or_concat' a with rfl | ⟨a', y, rfl⟩
  · exact h.nonnull (by simp [show (0 : Nat) = x from h0])
  · have hy : y = x := by simpa using h0
    subst hy
    exact (List.nodup_append.mp h.nodup).2.2 y (by simp) y List.mem_cons_self rfl

theorem skipNext_prev (u : Nat) : (s.skipNext x).prev u = s.prev u := by
  unfold skipNext
  split
  · rfl
  · rfl

theorem skipNext_tail : (s.skipNext x).tail = s.tail := by
  unfold skipNext
  split
  · rfl
  · rfl

theorem skipNext_next (hne : s.prev x ≠ x) : (s.skipNext x).next x = s.next x := by
  unfold skipNext
  split
  · exact Function.update_of_ne (Ne.symm hne) ..
  · rfl

theorem skipPrev_next (u : Nat) : (s.skipPrev x).next u = s.next u := by
  unfold skipPrev
  split
  · rfl
  · rfl

theorem skipPrev_head : (s.skipPrev x).head = s.head := by
  unfold skipPrev
  split
  · rfl
  · rfl

theorem unlink_next (u : Nat) (hu : u ≠ x) :
    (s.unlink x).next u = if s.prev x ≠ 0 ∧ u = s.prev x then s.next x else s.next u := by
  rw [unlink, setNext]
  simp only [Function.update_of_ne hu, setPrev]
  rw [skipPrev_next, skipNext]
  by_cases h0 : s.prev x = 0
  · simp [h0]
  · by_cases hup : u = s.prev x
    · simp [h0, hup, setNext]
    · simp [h0, hup, setNext]

theorem unlink_prev (hne : s.prev x ≠ x) (u : Nat) (hu : u ≠ x) :
    (s.unlink x).prev u = if s.next x ≠ 0 ∧ u = s.next x then s.prev x else s.prev u := by
  rw [unlink, setNext]
  simp only [setPrev, Function.update_of_ne hu]
  rw [skipPrev, skipNext_next hne, skipNext_prev]
  by_cases h0 : s.next x = 0
  · simp [h0, skipNext_prev]
  · by_cases hup : u = s.next x
    · simp [h0, hup, setPrev]
    · simp [h0, hup, setPrev, skipNext_prev]

theorem unlink_head : (s.unlink x).head = if s.prev x ≠ 0 then s.head else s.next x := by
  change ((s.skipNext x).skipPrev x).head = _
  rw [skipPrev_head, skipNext]
  split
  · rfl
  · rfl

theorem unlink_tail (hne : s.prev x ≠ x) :
    (s.unlink x).tail = if s.next x ≠ 0 then s.tail else s.prev x := by
  change ((s.skipNext x).skipPrev x).tail = _
  rw [skipPrev, skipNext_next hne, skipNext_prev]
  split
  · exact skipNext_tail
  · rfl

/-! The other nodes of the list -/

theorem IsList.others (h : s.IsList (a ++ x :: b)) {u : Nat} (hu : u ∈ a ++ b) : u ≠ x ∧ u ≠ 0 := by
  have hmem : u ∈ a ++ x :: b :=
    (List.Sublist.append_left (List.sublist_cons_self x b) a).subset hu
  refine ⟨?_, fun h0 => h.nonnull (h0 ▸ hmem)⟩
  rintro rfl
  obtain ⟨_, hb, hdisj⟩ := List.nodup_append.mp h.nodup
  rcases List.mem_append.mp hu with hu | hu
  · exact hdisj u hu u List.mem_cons_self rfl
  · exact (List.nodup_cons.mp hb).1 hu

theorem IsList.not_next (h : s.IsList (a ++ x :: b)) {u : Nat} (hu : u ∈ a) :
    ¬ (s.next x ≠ 0 ∧ u = s.next x) := by
  rintro ⟨h0, rfl⟩
  cases b with
  | nil => exact h0 h.next_eq
  | cons z b =>
      have hz : s.next x = z := h.next_eq
      exact (List.nodup_append.mp h.nodup).2.2 _ hu z (by simp) hz

theorem IsList.not_prev (h : s.IsList (a ++ x :: b)) {u : Nat} (hu : u ∈ b) :
    ¬ (s.prev x ≠ 0 ∧ u = s.prev x) := by
  rintro ⟨h0, rfl⟩
  rcases List.eq_nil_or_concat' a with rfl | ⟨a', y, rfl⟩
  · exact h0 h.prev_eq
  · have hy : s.prev x = y := by
      rw [h.prev_eq]
      simp
    exact (List.nodup_append.mp h.nodup).2.2 y (by simp) _ (List.mem_cons_of_mem x hu) hy.symm

/-- The nodes in front of `x` now lead to those behind it ... -/
theorem IsList.unlink_front (h : s.IsList (a ++ x :: b)) :
    (s.unlink x).Seg 0 a (b.head?.getD 0) := by
  have hfront := (seg_append.mp h.seg).1
  have hprev : ∀ u ∈ a, (s.unlink x).prev u = s.prev u := by
    intro u hu
    rw [unlink_prev h.prev_ne u (h.others (List.mem_append_left _ hu)).1, if_neg (h.not_next hu)]
  rcases List.eq_nil_or_concat' a with rfl | ⟨a', y, rfl⟩
  · trivial
  · have hy : s.prev x = y := by
      rw [h.prev_eq]
      simp
    refine hfront.relink_last (fun u hu => ?_) (hprev y (by simp)) ?_
    · have hmem : u ∈ a' ++ [y] := List.mem_append_left _ hu
      have huy : u ≠ y := (List.nodup_append.mp (List.nodup_append.mp h.nodup).1).2.2 u hu y
        List.mem_cons_self
      refine ⟨?_, hprev u hmem⟩
      rw [unlink_next u (h.others (List.mem_append_left _ hmem)).1, hy, if_neg fun h0 => huy h0.2]
    · obtain ⟨hyx, hy0⟩ := h.others (u := y) (by simp)
      rw [unlink_next y hyx, hy, if_pos ⟨hy0, rfl⟩, h.next_eq]

/-- ... and back. -/
theorem IsList.unlink_back (h : s.IsList (a ++ x :: b)) :
    (s.unlink x).Seg (a.getLast?.getD 0) b 0 := by
  obtain ⟨_, _, _, hback⟩ := seg_append.mp h.seg
  have hnext : ∀ u ∈ b, (s.unlink x).next u = s.next u := by
    intro u hu
    rw [unlink_next u (h.others (List.mem_append_right _ hu)).1, if_neg (h.not_prev hu)]
  cases b with
  | nil => trivial
  | cons z b =>
      have hz : s.next x = z := h.next_eq
      have hnodup := (List.nodup_cons.mp (List.nodup_append.mp h.nodup).2.1).2
      refine hback.relink_first (fun u hu => ?_) (hnext z List.mem_cons_self) ?_
      · have hmem : u ∈ z :: b := List.mem_cons_of_mem z hu
        have huz : u ≠ z := fun h0 => (List.nodup_cons.mp hnodup).1 (h0 ▸ hu)
        refine ⟨hnext u hmem, ?_⟩
        rw [unlink_prev h.prev_ne u (h.others (List.mem_append_right _ hmem)).1, hz,
          if_neg fun h0 => huz h0.2]
      · obtain ⟨hzx, hz0⟩ := h.others (u := z) (by simp)
        rw [unlink_prev h.prev_ne z hzx, hz, if_pos ⟨hz0, rfl⟩, h.prev_eq]

/-- The list without the node. -/
theorem IsList.unlink (h : s.IsList (a ++ x :: b)) : (s.unlink x).IsList (a ++ b) := by
  have hnonnull : 0 ∉ a ++ b := fun h0 => (h.others h0).2 rfl
  refine ⟨h.nodup.sublist (List.Sublist.append_left (List.sublist_cons_self x b) a), hnonnull,
    ?_, ?_, seg_append.mpr ⟨h.unlink_front, h.unlink_back⟩⟩
  · rw [unlink_head, h.head, h.prev_eq, h.next_eq]
    cases a with
    | nil => simp
    | cons y a =>
        have hlast : ((y :: a).getLast?.getD 0) ≠ 0 := by
          refine fun h0 => hnonnull (h0 ▸ ?_)
          rw [List.getLast?_eq_getLast_of_ne_nil (by simp), Option.getD_some]
          exact List.mem_append_left _ (List.getLast_mem _)
        rw [if_pos hlast]
        rfl
  · rw [unlink_tail h.prev_ne, h.tail, h.prev_eq, h.next_eq]
    cases b with
    | nil => simp
    | cons z b =>
        have hz : z ≠ 0 := (h.others (by simp)).2
        simp [hz, List.getLast?_append]

end Unlink

/-! ## Putting a node in front -/

/-- The list with a new node in front. -/
theorem IsList.pushFront (h : s.IsList l) {x : Nat} (hx : x ∉ l) (h0 : x ≠ 0) :
    (s.pushFront x).IsList (x :: l) := by
  have hnodup : (x :: l).Nodup := List.nodup_cons.mpr ⟨hx, h.nodup⟩
  have hnonnull : 0 ∉ x :: l := by
    intro hmem
    rcases List.mem_cons.mp hmem with heq | hmem
    · exact h0 heq.symm
    · exact h.nonnull hmem
  -- an empty list gets its tail here; otherwise the old first entry gets a predecessor
  cases l with
  | nil =>
      have hhead : s.head = 0 := h.head
      have htail : s.tail = 0 := h.tail
      refine ⟨hnodup, hnonnull, ?_, ?_, ?_, ?_, trivial⟩
      · simp [Links.pushFront, hhead, htail, setNext, setPrev]
      · simp [Links.pushFront, hhead, htail, setNext, setPrev]
      · simp [Links.pushFront, hhead, htail, setNext, setPrev]
      · simp [Links.pushFront, hhead, htail, setNext, setPrev]
  | cons y l =>
      have hhead : s.head = y := h.head
      have hy0 : y ≠ 0 := by
        rintro rfl
        exact h.nonnull List.mem_cons_self
      have htail0 : s.tail ≠ 0 := by
        rw [h.tail, List.getLast?_eq_getLast_of_ne_nil (by simp), Option.getD_some]
        intro hz
        exact h.nonnull (hz ▸ List.getLast_mem (by simp))
      have hxy : x ≠ y := by
        rintro rfl
        exact hx List.mem_cons_self
      have hform : s.pushFront x =
          { next := Function.update s.next x y
            prev := Function.update (Function.update s.prev x 0) y x
            head := x
            tail := s.tail } := by
        simp [Links.pushFront, hhead, hy0, htail0, setNext, setPrev]
      rw [hform]
      refine ⟨hnodup, hnonnull, rfl, ?_, ?_, ?_, ?_⟩
      · rw [List.getLast?_cons_cons]
        exact h.tail
      · simp [Function.update_of_ne hxy]
      · simp
      -- behind the old first entry nothing has changed
      · refine h.seg.relink_first (fun u hu => ?_) ?_ ?_
        · have hux : u ≠ x := by
            rintro rfl
            exact hx (List.mem_cons_of_mem y hu)
          have huy : u ≠ y := by
            rintro rfl
            exact (List.nodup_cons.mp h.nodup).1 hu
          simp [Function.update_of_ne hux, Function.update_of_ne huy]
        · simp [Function.update_of_ne (Ne.symm hxy)]
        · simp

/-- The list with one of its nodes moved to the front. -/
theorem IsList.moveFront {a b : List Nat} {x : Nat} (h : s.IsList (a ++ x :: b)) :
    (s.moveFront x).IsList (x :: (a ++ b)) := by
  have hx0 : x ≠ 0 := by
    rintro rfl
    exact h.nonnull (by simp)
  have hx : x ∉ a ++ b := by
    have hnodup := h.nodup
    rw [List.nodup_append] at hnodup
    intro hmem
    rcases List.mem_append.mp hmem with hmem | hmem
    · exact hnodup.2.2 x hmem x List.mem_cons_self rfl
    · exact (List.nodup_cons.mp hnodup.2.1).1 hmem
  unfold Links.moveFront
  by_cases hhead : s.head = x
  · rw [if_pos hhead]
    cases a with
    | nil => exact h
    | cons y a =>
        have hy : y = x := h.head.symm.trans hhead
        exact absurd (by simp [hy]) hx
  · rw [if_neg hhead]
    exact h.unlink.pushFront hx hx0

end Links

end CLib
