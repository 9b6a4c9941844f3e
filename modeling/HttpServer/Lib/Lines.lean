import Mathlib.Data.List.TakeWhile
import Mathlib.Tactic

set_option autoImplicit false

/-! # Lines read through a buffer

A loop that reads a text line by line through a buffer of `n` elements sees a longer line as
several: it works on the lines cut every `n` elements (`readLines_eq`). The loop is stated for
any function that is folded over the pieces, and the induction is on the text that is left. A
piece ends where the buffer is full or the line does, whichever comes first; `fgets_cases` says
which.
-/

namespace CLib

variable {α β : Type} [DecidableEq α] {nl : α}

/-! ## Splitting -/

theorem splitOn_self (nl : α) (t : List α) : (nl :: t).splitOn nl = [] :: t.splitOn nl := by
  simp [List.splitOn, List.splitOnP_cons_eq_if_modifyHead]

theorem splitOn_ne_nil (nl : α) (t : List α) : ∃ line lines, t.splitOn nl = line :: lines := by
  cases h : t.splitOn nl with
  | nil => exact absurd h (List.splitOnP_ne_nil _ _)
  | cons line lines => exact ⟨line, lines, rfl⟩

theorem splitOn_cons {c : α} (hc : c ≠ nl) {t line : List α} {lines : List (List α)}
    (h : t.splitOn nl = line :: lines) : (c :: t).splitOn nl = (c :: line) :: lines := by
  simp only [List.splitOn] at h ⊢
  rw [List.splitOnP_cons_eq_if_modifyHead, if_neg (by simpa using hc), h]
  rfl

/-- Elements other than the terminator go to the first line. -/
theorem splitOn_append {a t line : List α} {lines : List (List α)} (ha : nl ∉ a)
    (h : t.splitOn nl = line :: lines) : (a ++ t).splitOn nl = (a ++ line) :: lines := by
  induction a with
  | nil => exact h
  | cons c a ih =>
      have hc : c ≠ nl := fun h0 => ha (h0 ▸ List.mem_cons_self)
      exact splitOn_cons hc (ih fun hmem => ha (List.mem_cons_of_mem c hmem))

/-- A text without the terminator is one line. -/
theorem splitOn_eq_singleton {a : List α} (ha : nl ∉ a) : a.splitOn nl = [a] := by
  have hnil : ([] : List α).splitOn nl = [[]] := rfl
  have happ := splitOn_append ha hnil
  rwa [List.append_nil] at happ

theorem mem_of_mem_splitOn {t : List α} : ∀ {l : List α} {a : α}, l ∈ t.splitOn nl → a ∈ l → a ∈ t := by
  induction t with
  | nil =>
      intro l a hl ha
      obtain rfl : l = [] := List.mem_singleton.mp hl
      exact absurd ha List.not_mem_nil
  | cons c t ih =>
      intro l a hl ha
      by_cases hc : c = nl
      · rw [hc, splitOn_self] at hl
        rcases List.mem_cons.mp hl with rfl | hl
        · exact absurd ha List.not_mem_nil
        · exact List.mem_cons_of_mem c (ih hl ha)
      · obtain ⟨line, lines, h⟩ := splitOn_ne_nil nl t
        rw [splitOn_cons hc h] at hl
        rw [h] at ih
        rcases List.mem_cons.mp hl with rfl | hl
        · rcases List.mem_cons.mp ha with rfl | ha
          · exact List.mem_cons_self
          · exact List.mem_cons_of_mem c (ih List.mem_cons_self ha)
        · exact List.mem_cons_of_mem c (ih (List.mem_cons_of_mem line hl) ha)

/-- An element that is not the terminator is in one of the lines. -/
theorem exists_mem_splitOn {t : List α} : ∀ {a : α}, a ∈ t → a ≠ nl → ∃ l ∈ t.splitOn nl, a ∈ l := by
  induction t with
  | nil => exact fun ha _ => absurd ha List.not_mem_nil
  | cons c t ih =>
      intro a ha hne
      by_cases hc : c = nl
      · rw [hc, splitOn_self]
        have hmem := (List.mem_cons.mp ha).resolve_left fun h0 => hne (h0.trans hc)
        obtain ⟨l, hl, hal⟩ := ih hmem hne
        exact ⟨l, List.mem_cons_of_mem _ hl, hal⟩
      · obtain ⟨line, lines, h⟩ := splitOn_ne_nil nl t
        rw [splitOn_cons hc h]
        rcases List.mem_cons.mp ha with rfl | ha
        · exact ⟨_, List.mem_cons_self, List.mem_cons_self⟩
        · obtain ⟨l, hl, hal⟩ := ih ha hne
          rcases List.mem_cons.mp (h ▸ hl) with rfl | hl
          · exact ⟨_, List.mem_cons_self, List.mem_cons_of_mem c hal⟩
          · exact ⟨l, List.mem_cons_of_mem _ hl, hal⟩

/-! ## Tokens -/

/-- The parts between the delimiters that are not empty. -/
def tokens (delim : α) (s : List α) : List (List α) := (s.splitOn delim).filter (fun t => !t.isEmpty)

/-- `strtok`: the next token, and the text behind the delimiter that ends it. -/
def strtok (delim : α) (s : List α) : Option (List α × List α) :=
  match s.dropWhile (· == delim) with
  | [] => none
  | c :: t => some ((c :: t).takeWhile (· != delim), ((c :: t).dropWhile (· != delim)).tail)

theorem tokens_dropWhile (delim : α) (s : List α) :
    tokens delim (s.dropWhile (· == delim)) = tokens delim s := by
  induction s with
  | nil => rfl
  | cons c s ih =>
      by_cases hc : c = delim
      · rw [List.dropWhile_cons_of_pos (by simpa using hc), ih, hc, tokens, tokens, splitOn_self]
        rfl
      · rw [List.dropWhile_cons_of_neg (by simpa using hc)]

/-- The calls of `strtok` return the tokens one by one. -/
theorem strtok_spec (delim : α) (s : List α) :
    match strtok delim s with
    | none => tokens delim s = []
    | some (t, rest) => tokens delim s = t :: tokens delim rest := by
  rw [← tokens_dropWhile delim s]
  unfold strtok
  cases hs : s.dropWhile (· == delim) with
  | nil => rfl
  | cons c u =>
      -- what is left begins with a byte of a token
      have hc : c ≠ delim := by
        have := List.head?_dropWhile_not (· == delim) s
        rw [hs] at this
        simpa using this
      have hno : delim ∉ (c :: u).takeWhile (· != delim) := by
        intro hmem
        simpa using List.mem_takeWhile_imp hmem
      have htake : (!((c :: u).takeWhile (· != delim)).isEmpty) = true := by
        rw [List.takeWhile_cons_of_pos (by simpa using hc)]
        rfl
      simp only
      conv_lhs => rw [← List.takeWhile_append_dropWhile (p := (· != delim)) (l := c :: u)]
      cases hrest : (c :: u).dropWhile (· != delim) with
      | nil =>
          rw [List.append_nil, tokens, splitOn_eq_singleton hno, List.filter_cons_of_pos (p := fun t : List α => !t.isEmpty) htake]
          rfl
      | cons d v =>
          obtain rfl : d = delim := by
            have := List.head?_dropWhile_not (· != delim) (c :: u)
            rw [hrest] at this
            simpa using this
          rw [tokens, splitOn_append hno (splitOn_self d v), List.append_nil,
            List.filter_cons_of_pos (p := fun t : List α => !t.isEmpty) htake]
          rfl

/-- A token has no delimiter in it, and it and what is left are parts of the text. -/
theorem strtok_mem {delim : α} {s t rest : List α} (h : strtok delim s = some (t, rest)) :
    delim ∉ t ∧ (∀ a ∈ t, a ∈ s) ∧ ∀ a ∈ rest, a ∈ s := by
  unfold strtok at h
  cases hs : s.dropWhile (· == delim) with
  | nil => rw [hs] at h; cases h
  | cons c u =>
      have hsub : ∀ a ∈ c :: u, a ∈ s := fun a ha => (List.dropWhile_sublist _).subset (hs ▸ ha)
      rw [hs] at h
      cases h
      refine ⟨fun hmem => ?_, fun a ha => hsub a ?_, fun a ha => hsub a ?_⟩
      · simpa using List.mem_takeWhile_imp hmem
      · exact (List.takeWhile_sublist _).subset ha
      · exact (List.dropWhile_sublist _).subset (List.mem_of_mem_tail ha)

/-! ## Reading -/

/-- The elements up to and including the first terminator. -/
def takeThrough (nl : α) : List α → List α
  | [] => []
  | a :: s => if a = nl then [a] else a :: takeThrough nl s

/-- `fgets`: the next line with its terminator, or as much of it as a buffer of `n` elements
holds, and the rest of the text; `none` at the end of the text. -/
def fgets (nl : α) (n : Nat) (s : List α) : Option (List α × List α) :=
  if s = [] then none
  else some (takeThrough nl (s.take n), s.drop (takeThrough nl (s.take n)).length)

/-- A loop over the lines that `fgets` returns, cut off after `fuel` turns. -/
def readLines (nl : α) (n : Nat) (f : β → List α → β) : Nat → β → List α → β
  | 0, b, _ => b
  | fuel + 1, b, s =>
      match fgets nl n s with
      | none => b
      | some (line, rest) => readLines nl n f fuel (f b line) rest

/-- A line cut every `n` elements. -/
def cut (n : Nat) (l : List α) : List (List α) :=
  if _h : l.length ≤ n ∨ n = 0 then [l] else l.take n :: cut n (l.drop n)
termination_by l.length
decreasing_by
  rw [List.length_drop]
  omega

/-- What the body of the loop keeps, the loop keeps, whatever the lines are. -/
theorem readLines_invariant {P : β → Prop} {n : Nat} {f : β → List α → β}
    (hstep : ∀ b l, P b → P (f b l)) (fuel : Nat) :
    ∀ (b : β) (s : List α), P b → P (readLines nl n f fuel b s) := by
  induction fuel with
  | zero => exact fun _ _ h => h
  | succ fuel ih =>
      intro b s h
      rw [readLines]
      cases fgets nl n s with
      | none => exact h
      | some lr => exact ih _ _ (hstep b lr.1 h)

omit [DecidableEq α] in
theorem cut_of_le {n : Nat} {l : List α} (h : l.length ≤ n) : cut n l = [l] := by
  rw [cut, dif_pos (.inl h)]

omit [DecidableEq α] in
theorem cut_append {n : Nat} {a l : List α} (hn : 0 < n) (ha : a.length = n) (hl : l ≠ []) :
    cut n (a ++ l) = a :: cut n l := by
  have hpos := List.length_pos_iff.mpr hl
  rw [cut, dif_neg (by rw [List.length_append]; omega), ← ha, List.take_left, List.drop_left]

omit [DecidableEq α] in
theorem mem_of_mem_cut {n : Nat} (l : List α) : ∀ {p : List α} {a : α}, p ∈ cut n l → a ∈ p → a ∈ l := by
  fun_induction cut n l with
  | case1 l h =>
      intro p a hp ha
      rwa [← List.mem_singleton.mp hp]
  | case2 l h ih =>
      intro p a hp ha
      rcases List.mem_cons.mp hp with rfl | hp
      · exact List.mem_of_mem_take ha
      · exact List.mem_of_mem_drop (ih hp ha)

theorem takeThrough_append {a s : List α} (ha : nl ∉ a) :
    takeThrough nl (a ++ nl :: s) = a ++ [nl] := by
  induction a with
  | nil => rw [List.nil_append, takeThrough, if_pos rfl]; rfl
  | cons c a ih =>
      have hc : c ≠ nl := fun h0 => ha (h0 ▸ List.mem_cons_self)
      rw [List.cons_append, takeThrough, if_neg hc, ih fun hmem => ha (List.mem_cons_of_mem c hmem)]
      rfl

theorem takeThrough_eq_self {a : List α} (ha : nl ∉ a) : takeThrough nl a = a := by
  induction a with
  | nil => rfl
  | cons c a ih =>
      have hc : c ≠ nl := fun h0 => ha (h0 ▸ List.mem_cons_self)
      rw [takeThrough, if_neg hc, ih fun hmem => ha (List.mem_cons_of_mem c hmem)]

/-- What a call of `fgets` returns: a line, the rest of the text, or a buffer full. -/
theorem fgets_cases (nl : α) {n : Nat} {s : List α} (hs : s ≠ []) :
    (∃ a rest, nl ∉ a ∧ a.length < n ∧ s = a ++ nl :: rest ∧
      fgets nl n s = some (a ++ [nl], rest)) ∨
    (nl ∉ s ∧ s.length ≤ n ∧ fgets nl n s = some (s, [])) ∨
    ∃ a rest, nl ∉ a ∧ a.length = n ∧ s = a ++ rest ∧ fgets nl n s = some (a, rest) := by
  have hsplit := List.take_append_drop n s
  -- a newline within reach, or the end of the text, or a full buffer
  by_cases hmem : nl ∈ s.take n
  · obtain ⟨a, b, hab, ha⟩ := List.eq_append_cons_of_mem hmem
    have htext : s = a ++ nl :: (b ++ s.drop n) := by
      conv_lhs => rw [← hsplit, hab]
      simp
    have hdrop : s.drop (a ++ [nl]).length = b ++ s.drop n := by
      conv_lhs => rw [htext, List.append_cons a nl (b ++ s.drop n), List.drop_left]
    have hlt : a.length < n := by
      have := List.length_take_le n s
      rw [hab, List.length_append, List.length_cons] at this
      omega
    refine .inl ⟨a, b ++ s.drop n, ha, hlt, htext, ?_⟩
    rw [fgets, if_neg hs, hab, takeThrough_append ha, hdrop]
  · by_cases hlen : s.length ≤ n
    · rw [List.take_of_length_le hlen] at hmem
      refine .inr (.inl ⟨hmem, hlen, ?_⟩)
      rw [fgets, if_neg hs, List.take_of_length_le hlen, takeThrough_eq_self hmem, List.drop_length]
    · refine .inr (.inr ⟨s.take n, s.drop n, hmem, ?_, hsplit.symm, ?_⟩)
      · rw [List.length_take]
        omega
      · rw [fgets, if_neg hs, takeThrough_eq_self hmem, List.length_take]
        rw [Nat.min_eq_left (by omega)]

/-- **The loop sees the lines cut to the size of the buffer**, if empty lines and the terminator
make no difference to its body. -/
theorem readLines_eq {n : Nat} (hn : 0 < n) {f : β → List α → β} (hnil : ∀ b, f b [] = b)
    (hnl : ∀ b l, f b (l ++ [nl]) = f b l) (fuel : Nat) :
    ∀ (b : β) (s : List α), s.length ≤ fuel →
      readLines nl n f fuel b s = ((s.splitOn nl).flatMap (cut n)).foldl f b := by
  have hcut : cut n ([] : List α) = [[]] := cut_of_le (Nat.zero_le n)
  have hend : ∀ b, (((([] : List α).splitOn nl)).flatMap (cut n)).foldl f b = b := by
    intro b
    simp [List.splitOn, hcut, hnil]
  -- every turn takes at least one element, so the fuel never runs out
  induction fuel with
  | zero =>
      intro b s hs
      obtain rfl := List.length_eq_zero_iff.mp (Nat.le_zero.mp hs)
      exact (hend b).symm
  | succ fuel ih =>
      intro b s hs
      rw [readLines]
      by_cases hempty : s = []
      · rw [hempty, fgets, if_pos rfl]
        exact (hend b).symm
      · rcases fgets_cases nl (n := n) hempty with
          ⟨a, rest, ha, hlt, rfl, hget⟩ | ⟨hno, hle, hget⟩ | ⟨a, rest, ha, hlen, rfl, hget⟩
        · -- a whole line
          have hsplit : (a ++ nl :: rest).splitOn nl = a :: rest.splitOn nl := by
            have := splitOn_append ha (splitOn_self nl rest)
            rwa [List.append_nil] at this
          rw [List.length_append, List.length_cons] at hs
          rw [hget]
          simp only
          rw [ih _ rest (by omega), hnl, hsplit, List.flatMap_cons,
            cut_of_le (Nat.le_of_lt hlt), List.singleton_append, List.foldl_cons]
        · -- the last line
          rw [hget]
          simp only
          rw [ih _ [] (Nat.zero_le _), hend, splitOn_eq_singleton hno, List.flatMap_singleton, cut_of_le hle]
          rfl
        · -- the buffer is full before the end of the line
          obtain ⟨line, lines, hrest⟩ := splitOn_ne_nil nl rest
          have hlines : ((a ++ line) :: lines).flatMap (cut n) =
              cut n (a ++ line) ++ lines.flatMap (cut n) := List.flatMap_cons
          rw [List.length_append] at hs
          rw [hget]
          simp only
          rw [ih _ rest (by omega), splitOn_append ha hrest, hrest, List.flatMap_cons, hlines,
            List.foldl_append, List.foldl_append]
          congr 1
          by_cases hline : line = []
          · rw [hline, List.append_nil, hcut, cut_of_le hlen.le]
            exact hnil _
          · rw [cut_append hn hlen hline]
            rfl

end CLib
