import HttpServer.Lib.Run
import Mathlib.Logic.Function.Basic

set_option autoImplicit false

/-! # Calls under one mutex

Any number of threads make calls on a shared state. The code of a call takes the mutex, works on
the state and gives the mutex back (`Code.Guarded`); the threads are interleaved step by step.
The calls then take effect one after the other: there is one order of them that explains all that
was returned and the state that is left, and in which a call that had returned before another was
made comes first (`linearizable`). No run gets stuck (`unblocked`). The order has no more calls of
a kind than have been made and no fewer answers than have been returned (`Explains.countP_le`,
`Explains.answersOf_le`), and what no statement undoes is right in the middle of a call as well
(`Ordered.below_end`).
-/

namespace CLib

variable {T Op S R : Type}

/-! ## Code -/

/-- The code of a call: it returns, takes or gives back the mutex, or changes the shared state
and goes on with what it found there. -/
inductive Code (S R : Type)
  | ret (r : R)
  | lock (next : Code S R)
  | unlock (next : Code S R)
  | step (f : S → S) (next : S → Code S R)

namespace Code

/-- What the code does when no other thread runs. -/
def run : Code S R → S → R × S
  | .ret r, s => (r, s)
  | .lock next, s => next.run s
  | .unlock next, s => next.run s
  | .step f next, s => (next s).run (f s)

/-- The code of a thread that holds the mutex: it gives it back once, right before it returns. -/
def Inside : Code S R → Prop
  | .ret _ => False
  | .lock _ => False
  | .unlock next => ∃ r, next = .ret r
  | .step _ next => ∀ s, (next s).Inside

/-- The code works on the shared state under the mutex only. -/
def Guarded : Code S R → Prop
  | .ret _ => True
  | .lock next => next.Inside
  | .unlock _ => False
  | .step _ _ => False

end Code

/-! ## Threads -/

/-- Calls are numbered in the order in which they are made. -/
inductive CallEv (T Op R : Type)
  | called (n : Nat) (t : T) (op : Op)
  | returned (n : Nat) (r : R)

/-- The shared state, the thread that holds the mutex, the call each thread is in with what is
left of its code, and what has been called and returned so far. -/
structure World (T Op S R : Type) where
  state : S
  holder : Option T
  active : T → Option (Nat × Code S R)
  calls : Nat
  history : List (CallEv T Op R)

/-- A thread makes a call, or goes on with the one it is in. -/
inductive Turn (T Op : Type)
  | call (t : T) (op : Op)
  | go (t : T)

variable [DecidableEq T]

namespace World

def start (s : S) : World T Op S R := ⟨s, none, fun _ => none, 0, []⟩

/-- Thread `t` does the next step of its call; a thread that waits for the mutex stays where it
is. -/
def advance (w : World T Op S R) (t : T) : World T Op S R :=
  match w.active t with
  | none => w
  | some (n, .ret r) =>
      { w with
        active := Function.update w.active t none
        history := w.history ++ [.returned n r] }
  | some (n, .lock next) =>
      if w.holder = none then
        { w with holder := some t, active := Function.update w.active t (some (n, next)) }
      else w
  | some (n, .unlock next) =>
      { w with holder := none, active := Function.update w.active t (some (n, next)) }
  | some (n, .step f next) =>
      { w with
        state := f w.state
        active := Function.update w.active t (some (n, next w.state)) }

/-- Thread `t` makes a call, if it is in none. -/
def invoke (body : Op → Code S R) (w : World T Op S R) (t : T) (op : Op) : World T Op S R :=
  if w.active t = none then
    { w with
      active := Function.update w.active t (some (w.calls, body op))
      calls := w.calls + 1
      history := w.history ++ [.called w.calls t op] }
  else w

def turn (body : Op → Code S R) (w : World T Op S R) : Turn T Op → World T Op S R
  | .call t op => w.invoke body t op
  | .go t => w.advance t

def turns (body : Op → Code S R) (w : World T Op S R) (ts : List (Turn T Op)) : World T Op S R :=
  ts.foldl (turn body) w

end World

/-! ## Linearizations -/

/-- The calls `order`, with what they return, lead one after the other from `s` to `s'`. -/
def Serial (next : S → Op → R × S) : S → List (Nat × Op × R) → S → Prop
  | s, [], s' => s' = s
  | s, x :: rest, s' => (next s x.2.1).1 = x.2.2 ∧ Serial next (next s x.2.1).2 rest s'

omit [DecidableEq T] in
theorem Serial.concat {next : S → Op → R × S} {s s' : S} {order : List (Nat × Op × R)}
    (h : Serial next s order s') (n : Nat) (op : Op) :
    Serial next s (order ++ [(n, op, (next s' op).1)]) (next s' op).2 := by
  induction order generalizing s with
  | nil =>
      obtain rfl : s' = s := h
      exact ⟨rfl, rfl⟩
  | cons x rest ih => exact ⟨h.1, ih h.2⟩

/-- `order` explains what has happened: it has every call that has returned, with what it
returned, and perhaps some that have not yet; a call that had returned before another was made
comes before it; and one after the other the calls lead to the state that is left when no thread
holds the mutex. -/
structure Linearizes (next : S → Op → R × S) (s₀ : S) (w : World T Op S R)
    (order : List (Nat × Op × R)) : Prop where
  nodup : (order.map Prod.fst).Nodup
  made : ∀ x ∈ order, ∃ t, CallEv.called x.1 t x.2.1 ∈ w.history
  complete : ∀ n r, CallEv.returned n r ∈ w.history → ∃ op, (n, op, r) ∈ order
  realTime : ∀ n r m t op, [CallEv.returned n r, .called m t op].Sublist w.history →
    m ∈ order.map Prod.fst → [n, m].Sublist (order.map Prod.fst)
  state : ∃ s, Serial next s₀ order s ∧ (w.holder = none → w.state = s)

/-! ## The invariant -/

variable {body : Op → Code S R} {s₀ s : S} {w w' : World T Op S R} {order : List (Nat × Op × R)}
  {t u : T} {n : Nat} {c : Code S R}

/-- Where call `n` of thread `t` is: before the mutex, with the mutex, or after it. Its place in
the order is fixed when it takes the mutex. -/
inductive Place (body : Op → Code S R) (w : World T Op S R) (order : List (Nat × Op × R)) (s : S)
    (t : T) (n : Nat) (c : Code S R) : Prop
  | waiting (op : Op) (hc : c = body op) (hcall : CallEv.called n t op ∈ w.history)
      (hnew : n ∉ order.map Prod.fst) (hout : w.holder ≠ some t)
  | inside (op : Op) (r : R) (hmem : (n, op, r) ∈ order) (hheld : w.holder = some t)
      (hin : c.Inside) (hrun : c.run w.state = (r, s))
  | leaving (op : Op) (r : R) (hc : c = .ret r) (hmem : (n, op, r) ∈ order)
      (hout : w.holder ≠ some t)

/-- `order` explains what has happened, and leads to `s`. -/
structure Explains (body : Op → Code S R) (s₀ : S) (w : World T Op S R)
    (order : List (Nat × Op × R)) (s : S) : Prop where
  nodup : (order.map Prod.fst).Nodup
  made : ∀ x ∈ order, ∃ t, CallEv.called x.1 t x.2.1 ∈ w.history
  complete : ∀ n r, CallEv.returned n r ∈ w.history → ∃ op, (n, op, r) ∈ order
  realTime : ∀ n r m t op, [CallEv.returned n r, .called m t op].Sublist w.history →
    m ∈ order.map Prod.fst → [n, m].Sublist (order.map Prod.fst)
  serial : Serial (fun s op => (body op).run s) s₀ order s
  below : ∀ x ∈ order, x.1 < w.calls

/-- The state is `s` once the thread that holds the mutex is done, and every call is at its
place. -/
structure Ordered (body : Op → Code S R) (s₀ : S) (w : World T Op S R)
    (order : List (Nat × Op × R)) (s : S) : Prop where
  explains : Explains body s₀ w order s
  free : w.holder = none → w.state = s
  held : ∀ t, w.holder = some t → ∃ x, w.active t = some x
  numbered : ∀ t n c, w.active t = some (n, c) → n < w.calls
  apart : ∀ t u n c d, w.active t = some (n, c) → w.active u = some (n, d) → t = u
  place : ∀ t n c, w.active t = some (n, c) → Place body w order s t n c

omit [DecidableEq T] in
theorem start_ordered (body : Op → Code S R) (s₀ : S) :
    Ordered body s₀ (World.start s₀ : World T Op S R) [] s₀ where
  explains := ⟨List.nodup_nil, by simp, by simp [World.start], by simp, rfl, by simp⟩
  free := fun _ => rfl
  held := by simp [World.start]
  numbered := by simp [World.start]
  apart := by simp [World.start]
  place := by simp [World.start]

/-! ## The order -/

theorem pair_sublist_concat {α : Type} {a b x : α} {l : List α}
    (h : [a, b].Sublist (l ++ [x])) : [a, b].Sublist l ∨ a ∈ l ∧ b = x := by
  obtain ⟨l₁, l₂, heq, h₁, h₂⟩ := List.sublist_append_iff.mp h
  rcases List.sublist_singleton.mp h₂ with rfl | rfl
  · rw [List.append_nil] at heq
    exact .inl (heq ▸ h₁)
  · obtain ⟨rfl, hb⟩ := List.append_inj' (show [a] ++ [b] = l₁ ++ [x] from heq) rfl
    exact .inr ⟨List.singleton_sublist.mp h₁, List.cons.inj hb |>.1⟩

omit [DecidableEq T] in
/-- A call takes its place behind all others. -/
theorem Explains.append (h : Explains body s₀ w order s) {op : Op}
    (hcall : CallEv.called n t op ∈ w.history) (hn : n < w.calls)
    (hnew : n ∉ order.map Prod.fst) :
    Explains body s₀ w (order ++ [(n, op, ((body op).run s).1)]) ((body op).run s).2 where
  nodup := by
    rw [List.map_append, List.nodup_append']
    exact ⟨h.nodup, List.nodup_singleton _, by simpa using hnew⟩
  made := by
    intro x hx
    rcases List.mem_append.mp hx with hx | hx
    · exact h.made x hx
    · obtain rfl := List.mem_singleton.mp hx
      exact ⟨t, hcall⟩
  complete := by
    intro m r hr
    obtain ⟨op', hmem⟩ := h.complete m r hr
    exact ⟨op', List.mem_append_left _ hmem⟩
  realTime := by
    intro m r k u op' hpair hk
    rw [List.map_append, List.mem_append] at hk
    rw [List.map_append]
    rcases hk with hk | hk
    · exact (h.realTime m r k u op' hpair hk).trans (List.sublist_append_left ..)
    · -- what has returned has its place already
      obtain rfl : k = n := by simpa using hk
      have hm := h.complete m r (hpair.subset List.mem_cons_self)
      obtain ⟨op₀, hmem⟩ := hm
      have hfst : m ∈ order.map Prod.fst := List.mem_map.mpr ⟨_, hmem, rfl⟩
      exact (List.singleton_sublist.mpr hfst).append (List.Sublist.refl _)
  serial := h.serial.concat n op
  below := by
    intro x hx
    rcases List.mem_append.mp hx with hx | hx
    · exact h.below x hx
    · obtain rfl := List.mem_singleton.mp hx
      exact hn

omit [DecidableEq T] in
theorem Explains.of_history (h : Explains body s₀ w order s) (hhist : w'.history = w.history)
    (hcalls : w'.calls = w.calls) : Explains body s₀ w' order s := by
  refine ⟨h.nodup, ?_, ?_, ?_, h.serial, ?_⟩
  · rw [hhist]
    exact h.made
  · rw [hhist]
    exact h.complete
  · rw [hhist]
    exact h.realTime
  · rw [hcalls]
    exact h.below

omit [DecidableEq T] in
/-- A call that has just been made has no place yet. -/
theorem Explains.called (h : Explains body s₀ w order s) {op : Op}
    (hhist : w'.history = w.history ++ [.called w.calls t op]) (hcalls : w'.calls = w.calls + 1) :
    Explains body s₀ w' order s := by
  refine ⟨h.nodup, ?_, ?_, ?_, h.serial, ?_⟩
  · intro x hx
    obtain ⟨u, hu⟩ := h.made x hx
    exact ⟨u, by rw [hhist]; exact List.mem_append_left _ hu⟩
  · intro m r hr
    rw [hhist] at hr
    exact h.complete m r (by simpa using hr)
  · intro m r k u op' hpair hk
    rw [hhist] at hpair
    rcases pair_sublist_concat hpair with hpair | ⟨_, heq⟩
    · exact h.realTime m r k u op' hpair hk
    · obtain ⟨rfl, -, -⟩ := CallEv.called.inj heq
      obtain ⟨x, hx, hlt⟩ := List.mem_map.mp hk
      exact absurd (h.below x hx) (by omega)
  · intro x hx
    have := h.below x hx
    omega

omit [DecidableEq T] in
/-- A call returns that has its place. -/
theorem Explains.returned (h : Explains body s₀ w order s) {op : Op} {r : R}
    (hmem : (n, op, r) ∈ order) (hhist : w'.history = w.history ++ [.returned n r])
    (hcalls : w'.calls = w.calls) : Explains body s₀ w' order s := by
  refine ⟨h.nodup, ?_, ?_, ?_, h.serial, ?_⟩
  · intro x hx
    obtain ⟨u, hu⟩ := h.made x hx
    exact ⟨u, by rw [hhist]; exact List.mem_append_left _ hu⟩
  · intro m r' hr
    rw [hhist, List.mem_append, List.mem_singleton] at hr
    rcases hr with hr | hr
    · exact h.complete m r' hr
    · obtain ⟨rfl, rfl⟩ := CallEv.returned.inj hr
      exact ⟨op, hmem⟩
  · intro m r' k u op' hpair hk
    rw [hhist] at hpair
    rcases pair_sublist_concat hpair with hpair | ⟨_, heq⟩
    · exact h.realTime m r' k u op' hpair hk
    · cases heq
  · rw [hcalls]
    exact h.below

/-! ## The place of a call -/

omit [DecidableEq T] in
theorem Place.same (h : Place body w order s t n c) (hhist : w.history ⊆ w'.history)
    (hholder : w'.holder = w.holder) (hstate : w'.state = w.state) :
    Place body w' order s t n c := by
  cases h with
  | waiting op hc hcall hnew hout => exact .waiting op hc (hhist hcall) hnew (hholder ▸ hout)
  | inside op r hmem hheld hin hrun =>
      exact .inside op r hmem (hholder.trans hheld) hin (hstate ▸ hrun)
  | leaving op r hc hmem hout => exact .leaving op r hc hmem (hholder ▸ hout)

omit [DecidableEq T] in
/-- What the thread with the mutex does leaves the calls of the others where they are. -/
theorem Place.others (h : Place body w order s t n c) (hout : w.holder ≠ some t) {s' : S}
    {order' : List (Nat × Op × R)} (hhist : w'.history = w.history) (hout' : w'.holder ≠ some t)
    (hsub : order ⊆ order') (hnew : n ∈ order'.map Prod.fst → n ∈ order.map Prod.fst) :
    Place body w' order' s' t n c := by
  cases h with
  | waiting op hc hcall hnot _ =>
      exact .waiting op hc (hhist ▸ hcall) (fun hmem => hnot (hnew hmem)) hout'
  | inside _ _ _ hheld _ _ => exact absurd hheld hout
  | leaving op r hc hmem _ => exact .leaving op r hc (hsub hmem) hout'

/-! ## One turn -/

theorem Ordered.invoke (h : Ordered body s₀ w order s) (t : T) (op : Op) :
    Ordered body s₀ (w.invoke body t op) order s := by
  unfold World.invoke
  split
  · rename_i hidle
    have hcases : ∀ u x, Function.update w.active t (some (w.calls, body op)) u = some x →
        u = t ∧ x = (w.calls, body op) ∨ u ≠ t ∧ w.active u = some x := by
      intro u x hx
      rcases eq_or_ne u t with rfl | hne
      · exact .inl ⟨rfl, by simpa using hx.symm⟩
      · exact .inr ⟨hne, by simpa [hne] using hx⟩
    refine ⟨h.explains.called rfl rfl, h.free, ?_, ?_, ?_, ?_⟩
    · intro u hu
      obtain ⟨x, hx⟩ := h.held u hu
      have hne : u ≠ t := by
        rintro rfl
        cases hidle.symm.trans hx
      exact ⟨x, by simpa [hne] using hx⟩
    · intro u n c hu
      rcases hcases u (n, c) hu with ⟨_, heq⟩ | ⟨_, hu⟩
      · cases heq
        exact Nat.lt_succ_self _
      · exact Nat.lt_succ_of_lt (h.numbered u n c hu)
    · intro u v n c d hu hv
      rcases hcases u (n, c) hu with ⟨rfl, heq⟩ | ⟨_, hu'⟩
      · rcases hcases v (n, d) hv with ⟨rfl, _⟩ | ⟨_, hv'⟩
        · rfl
        · cases heq
          exact absurd (h.numbered v _ d hv') (Nat.lt_irrefl _)
      · rcases hcases v (n, d) hv with ⟨rfl, heq⟩ | ⟨_, hv'⟩
        · cases heq
          exact absurd (h.numbered u _ c hu') (Nat.lt_irrefl _)
        · exact h.apart u v n c d hu' hv'
    · intro u n c hu
      rcases hcases u (n, c) hu with ⟨rfl, heq⟩ | ⟨_, hu⟩
      · cases heq
        -- the new call has not taken effect, for the order names earlier calls only
        refine .waiting op rfl (by simp) (fun hmem => ?_) (fun hheld => ?_)
        · obtain ⟨x, hx, hlt⟩ := List.mem_map.mp hmem
          exact absurd (h.explains.below x hx) (by omega)
        · obtain ⟨x, hx⟩ := h.held u hheld
          cases hidle.symm.trans hx
      · exact (h.place u n c hu).same (List.subset_append_left ..) rfl rfl
  · exact h

/-- The thread `t` goes on with its call, to the code `d`. -/
theorem Ordered.move (h : Ordered body s₀ w order s) {d : Code S R} {s' : S}
    {order' : List (Nat × Op × R)} (hact : w.active t = some (n, c))
    (hexplains : Explains body s₀ w order' s')
    (hw : w'.active = Function.update w.active t (some (n, d))) (hhist : w'.history = w.history)
    (hcalls : w'.calls = w.calls) (hfree : w'.holder = none → w'.state = s')
    (hheld : ∀ u, w'.holder = some u → u = t) (hothers : ∀ u, u ≠ t → w.holder ≠ some u)
    (hsub : order ⊆ order')
    (hnew : ∀ m, m ≠ n → m ∈ order'.map Prod.fst → m ∈ order.map Prod.fst)
    (hplace : Place body w' order' s' t n d) : Ordered body s₀ w' order' s' := by
  -- after the move a call in progress is the one that moved, or one that was there before
  have hcases : ∀ u m e, w'.active u = some (m, e) →
      u = t ∧ m = n ∧ e = d ∨ u ≠ t ∧ w.active u = some (m, e) := by
    intro u m e hu
    rw [hw] at hu
    rcases eq_or_ne u t with rfl | hne
    · rw [Function.update_self] at hu
      cases hu
      exact .inl ⟨rfl, rfl, rfl⟩
    · exact .inr ⟨hne, by rwa [Function.update_of_ne hne] at hu⟩
  refine ⟨hexplains.of_history hhist hcalls, hfree, ?_, ?_, ?_, ?_⟩
  · intro u hu
    rw [hheld u hu, hw, Function.update_self]
    exact ⟨_, rfl⟩
  · intro u m e hu
    rw [hcalls]
    rcases hcases u m e hu with ⟨_, rfl, _⟩ | ⟨_, hu'⟩
    · exact h.numbered t m c hact
    · exact h.numbered u m e hu'
  · intro u v m e e' hu hv
    rcases hcases u m e hu with ⟨rfl, rfl, _⟩ | ⟨_, hu'⟩
    · rcases hcases v m e' hv with ⟨rfl, _⟩ | ⟨_, hv'⟩
      · rfl
      · exact h.apart u v m c e' hact hv'
    · rcases hcases v m e' hv with ⟨rfl, rfl, _⟩ | ⟨_, hv'⟩
      · exact h.apart u v m e c hu' hact
      · exact h.apart u v m e e' hu' hv'
  · intro u m e hu
    rcases hcases u m e hu with ⟨rfl, rfl, rfl⟩ | ⟨hne, hu'⟩
    · exact hplace
    -- the others are in calls of their own
    · have hm : m ≠ n := by
        rintro rfl
        exact hne (h.apart u t m e c hu' hact)
      exact (h.place u m e hu').others (hothers u hne) hhist (fun hu => hne (hheld u hu)) hsub
        (hnew m hm)

/-- The call of thread `t` returns. -/
theorem Ordered.leave (h : Ordered body s₀ w order s) {op : Op} {r : R}
    {order' : List (Nat × Op × R)} (hact : w.active t = some (n, c)) (hout : w.holder ≠ some t)
    (hexplains : Explains body s₀ w order' s) (hmem : (n, op, r) ∈ order') (hsub : order ⊆ order')
    (hnew : ∀ m, m ≠ n → m ∈ order'.map Prod.fst → m ∈ order.map Prod.fst) :
    Ordered body s₀ { w with
      active := Function.update w.active t none
      history := w.history ++ [.returned n r] } order' s := by
  -- what is in progress after the return was in progress before it
  have hcases : ∀ u x, Function.update w.active t none u = some x → u ≠ t ∧ w.active u = some x := by
    intro u x hu
    rcases eq_or_ne u t with rfl | hne
    · simp at hu
    · exact ⟨hne, by simpa [hne] using hu⟩
  refine ⟨hexplains.returned hmem rfl rfl, h.free, ?_, ?_, ?_, ?_⟩
  · intro u hu
    obtain ⟨x, hx⟩ := h.held u hu
    have hne : u ≠ t := by
      rintro rfl
      exact hout hu
    exact ⟨x, by simpa [hne] using hx⟩
  · exact fun u m e hu => h.numbered u m e (hcases u _ hu).2
  · exact fun u v m e e' hu hv => h.apart u v m e e' (hcases u _ hu).2 (hcases v _ hv).2
  · intro u m e hu
    obtain ⟨hne, hu'⟩ := hcases u _ hu
    have hm : m ≠ n := by
      rintro rfl
      exact hne (h.apart u t m e c hu' hact)
    cases h.place u m e hu' with
    | waiting op' hc hcall hnot hout' =>
        exact .waiting op' hc (List.mem_append_left _ hcall) (fun hmem => hnot (hnew m hm hmem)) hout'
    | inside op' r' hmem' hheld hin hrun => exact .inside op' r' (hsub hmem') hheld hin hrun
    | leaving op' r' hc hmem' hout' => exact .leaving op' r' hc (hsub hmem') hout'

omit [DecidableEq T] in
theorem fst_mem_concat {x : Nat × Op × R} {m : Nat} (hne : m ≠ x.1)
    (h : m ∈ (order ++ [x]).map Prod.fst) : m ∈ order.map Prod.fst := by
  rw [List.map_append, List.mem_append] at h
  rcases h with h | h
  · exact h
  · exact absurd (by simpa using h) hne

/-- What a turn does to the order: nothing, or a call takes its place behind all others. If the
call asks for the mutex, it finds it free. -/
inductive Extends (body : Op → Code S R) (w : World T Op S R) (order : List (Nat × Op × R)) (s : S) :
    List (Nat × Op × R) → S → Prop
  | kept : Extends body w order s order s
  | added {n : Nat} {t : T} {op : Op} (hcall : CallEv.called n t op ∈ w.history)
      (hn : n < w.calls) (hnew : n ∉ order.map Prod.fst)
      (hfree : ∀ next, body op = .lock next → w.holder = none) :
      Extends body w order s (order ++ [(n, op, ((body op).run s).1)]) ((body op).run s).2

theorem Ordered.advance (h : Ordered body s₀ w order s) (hguard : ∀ op, (body op).Guarded) (t : T) :
    ∃ order' s', Ordered body s₀ (w.advance t) order' s' ∧ Extends body w order s order' s' := by
  unfold World.advance
  cases hact : w.active t with
  | none => exact ⟨order, s, h, .kept⟩
  | some x =>
      obtain ⟨n, c⟩ := x
      have hothers : w.holder = some t → ∀ u, u ≠ t → w.holder ≠ some u :=
        fun hheld u hne h0 => hne (Option.some.inj (h0.symm.trans hheld))
      cases h.place t n c hact with
      | waiting op hc hcall hnew hout =>
          -- the call takes effect with this step: it is put at the end of the order
          have hexp := h.explains.append hcall (h.numbered t n c hact) hnew
          have hext : (∀ next, body op = .lock next → w.holder = none) → Extends body w order s
              (order ++ [(n, op, ((body op).run s).1)]) ((body op).run s).2 :=
            .added hcall (h.numbered t n c hact) hnew
          have hsub : order ⊆ order ++ [(n, op, ((body op).run s).1)] := List.subset_append_left ..
          have hg := hguard op
          rw [← hc] at hg hexp hext hsub
          cases c with
          | ret r =>
              exact ⟨_, s, h.leave hact hout hexp (List.mem_append_right _ List.mem_cons_self) hsub
                fun m hm => fst_mem_concat hm, hext fun next hnext => by cases hnext⟩
          | lock next =>
              simp only
              split
              -- the mutex is free, so no other thread is inside and the state is the last one of
              -- the order
              · rename_i hnone
                refine ⟨_, _, h.move hact hexp rfl rfl rfl (by simp) (by simp)
                  (fun u _ => by simp [hnone]) hsub (fun m hm => fst_mem_concat hm) ?_,
                  hext fun _ _ => hnone⟩
                refine .inside op _ (List.mem_append_right _ List.mem_cons_self) rfl hg ?_
                rw [← h.free hnone]
                rfl
              · exact ⟨order, s, h, .kept⟩
          | unlock next => exact hg.elim
          | step f next => exact hg.elim
      | inside op r hmem hheld hin hrun =>
          cases c with
          | ret r' => exact hin.elim
          | lock next => exact hin.elim
          | unlock next =>
              obtain ⟨r', rfl⟩ := hin
              -- the call gives the mutex back with the state that its place in the order promised
              obtain ⟨rfl, hs⟩ := Prod.mk.inj hrun
              refine ⟨order, s, h.move hact h.explains rfl rfl rfl (fun _ => hs) (by simp)
                (hothers hheld) (List.Subset.refl _) (fun _ _ hm => hm) ?_, .kept⟩
              exact .leaving op r' rfl hmem (by simp)
          | step f next =>
              refine ⟨order, s, h.move hact h.explains rfl rfl rfl (by simp [hheld])
                (fun u hu => Option.some.inj (hu.symm.trans hheld)) (hothers hheld)
                (List.Subset.refl _) (fun _ _ hm => hm) ?_, .kept⟩
              exact .inside op r hmem hheld (hin _) hrun
      | leaving op r hc hmem hout =>
          -- all that is left is to return what was computed under the mutex
          subst hc
          exact ⟨order, s, h.leave hact hout h.explains hmem (List.Subset.refl _) fun _ _ hm => hm,
            .kept⟩

theorem Ordered.turn (h : Ordered body s₀ w order s) (hguard : ∀ op, (body op).Guarded)
    (x : Turn T Op) : ∃ order' s', Ordered body s₀ (w.turn body x) order' s' ∧
      Extends body w order s order' s' := by
  cases x with
  | call t op => exact ⟨order, s, h.invoke t op, .kept⟩
  | go t => exact h.advance hguard t

theorem turns_ordered (hguard : ∀ op, (body op).Guarded) (s₀ : S) (ts : List (Turn T Op)) :
    ∃ order s, Ordered body s₀ ((World.start s₀).turns body ts) order s :=
  List.foldlRecOn (motive := fun w => ∃ order s, Ordered body s₀ w order s) ts _
    ⟨[], s₀, start_ordered body s₀⟩ (fun _ h x _ => by
      obtain ⟨order, s, h⟩ := h
      obtain ⟨order', s', h', _⟩ := h.turn hguard x
      exact ⟨order', s', h'⟩)

/-! ## Results -/

/-- **Calls under one mutex take effect one after the other.** However the threads are
interleaved, if the code of the calls is guarded and does what `next` says when it runs alone,
some order of the calls explains what has happened. -/
theorem linearizable {next : S → Op → R × S} (hguard : ∀ op, (body op).Guarded)
    (hspec : ∀ op s, (body op).run s = next s op) (s₀ : S) (ts : List (Turn T Op)) :
    ∃ order, Linearizes next s₀ ((World.start s₀).turns body ts) order := by
  obtain ⟨order, s, h⟩ := turns_ordered hguard s₀ ts
  have hnext : (fun s op => (body op).run s) = next := by
    funext s op
    exact hspec op s
  exact ⟨order, h.explains.nodup, h.explains.made, h.explains.complete, h.explains.realTime, s,
    hnext ▸ h.explains.serial, h.free⟩

/-- Thread `t` is in a call and does not wait for the mutex. -/
def World.CanGo (w : World T Op S R) (t : T) : Prop :=
  ∃ n c, w.active t = some (n, c) ∧ ∀ next, c = .lock next → w.holder = none

/-- **No run gets stuck.** As long as a thread is in a call, some thread can go on. -/
theorem unblocked (hguard : ∀ op, (body op).Guarded) (s₀ : S) (ts : List (Turn T Op)) (t : T)
    (h : ((World.start s₀).turns body ts).active t ≠ none) :
    ∃ u, ((World.start s₀).turns body ts).CanGo u := by
  obtain ⟨order, s, hord⟩ := turns_ordered hguard s₀ ts
  generalize (World.start s₀ : World T Op S R).turns body ts = w at h hord
  cases hholder : w.holder with
  | none =>
      obtain ⟨⟨n, c⟩, hact⟩ := Option.ne_none_iff_exists'.mp h
      exact ⟨t, n, c, hact, fun _ _ => hholder⟩
  | some u =>
      obtain ⟨⟨n, c⟩, hact⟩ := hord.held u hholder
      refine ⟨u, n, c, hact, ?_⟩
      rintro next rfl
      cases hord.place u n _ hact with
      | waiting _ _ _ _ hout => exact absurd hholder hout
      | inside _ _ _ _ hin _ => exact hin.elim
      | leaving _ _ _ _ hout => exact absurd hholder hout

/-! ## What one turn does -/

/-- One step of code. -/
inductive Code.Goes : Code S R → Code S R → Prop
  | lock (next : Code S R) : Goes (.lock next) next
  | unlock (next : Code S R) : Goes (.unlock next) next
  | step (f : S → S) (next : S → Code S R) (s : S) : Goes (.step f next) (next s)

/-- Thread `t` does nothing, returns from its call, or goes on in it. -/
inductive Advanced (w : World T Op S R) (t : T) : World T Op S R → Prop
  | idle : Advanced w t w
  | returned {n : Nat} {r : R} (hact : w.active t = some (n, .ret r)) : Advanced w t { w with
      active := Function.update w.active t none
      history := w.history ++ [.returned n r] }
  | went {n : Nat} {c d : Code S R} (state : S) (holder : Option T)
      (hact : w.active t = some (n, c)) (hgo : c.Goes d) : Advanced w t { w with
      state := state
      holder := holder
      active := Function.update w.active t (some (n, d)) }

theorem advance_cases (w : World T Op S R) (t : T) : Advanced w t (w.advance t) := by
  unfold World.advance
  cases hact : w.active t with
  | none => exact .idle
  | some x =>
      obtain ⟨n, c⟩ := x
      cases c with
      | ret r => exact .returned hact
      | lock next =>
          simp only
          split
          · exact .went w.state (some t) hact (.lock next)
          · exact .idle
      | unlock next => exact .went w.state none hact (.unlock next)
      | step f next => exact .went (f w.state) w.holder hact (.step f next w.state)

/-! ## Calls and answers are counted -/

/-- The number of a call of this kind. -/
def CallEv.callOf (p : Op → Bool) : CallEv T Op R → Option Nat
  | .called n _ op => if p op then some n else none
  | .returned _ _ => none

/-- The number of a call that has returned an answer of this kind. -/
def CallEv.answerOf (p : R → Bool) : CallEv T Op R → Option Nat
  | .called _ _ _ => none
  | .returned n r => if p r then some n else none

/-- How many calls of this kind have been made. -/
def World.callsOf (w : World T Op S R) (p : Op → Bool) : Nat :=
  (w.history.filterMap (CallEv.callOf p)).length

/-- How many calls have returned an answer of this kind. -/
def World.answersOf (w : World T Op S R) (p : R → Bool) : Nat :=
  (w.history.filterMap (CallEv.answerOf p)).length

omit [DecidableEq T] in
theorem answerOf_eq_some {p : R → Bool} {e : CallEv T Op R} (h : e.answerOf p = some n) :
    ∃ r, e = .returned n r ∧ p r = true := by
  cases e with
  | called m t op => cases h
  | returned m r =>
      rw [CallEv.answerOf] at h
      split at h
      · rename_i hp
        exact ⟨r, by rw [Option.some.inj h], hp⟩
      · cases h

theorem callsOf_invoke (w : World T Op S R) (p : Op → Bool) (t : T) (op : Op) :
    (w.invoke body t op).callsOf p =
      w.callsOf p + if w.active t = none ∧ p op = true then 1 else 0 := by
  unfold World.invoke
  split
  · rename_i hidle
    simp only [World.callsOf, List.filterMap_append, List.length_append, hidle, true_and]
    cases hp : p op with
    | true => simp [CallEv.callOf, hp]
    | false => simp [CallEv.callOf, hp]
  · rename_i hbusy
    simp [hbusy]

theorem answersOf_invoke (w : World T Op S R) (p : R → Bool) (t : T) (op : Op) :
    (w.invoke body t op).answersOf p = w.answersOf p := by
  unfold World.invoke
  split
  · simp [World.answersOf, CallEv.answerOf]
  · rfl

theorem callsOf_advance (w : World T Op S R) (p : Op → Bool) (t : T) :
    (w.advance t).callsOf p = w.callsOf p := by
  have hadv := advance_cases w t
  generalize w.advance t = w' at hadv ⊢
  cases hadv with
  | idle => rfl
  | returned hact => simp [World.callsOf, CallEv.callOf]
  | went state holder hact hgo => rfl

theorem answersOf_advance (w : World T Op S R) (p : R → Bool) (t : T) :
    w.answersOf p ≤ (w.advance t).answersOf p := by
  have hadv := advance_cases w t
  generalize w.advance t = w' at hadv ⊢
  cases hadv with
  | idle => exact Nat.le_refl _
  | returned hact =>
      simp only [World.answersOf, List.filterMap_append, List.length_append]
      exact Nat.le_add_right ..
  | went state holder hact hgo => exact Nat.le_refl _

/-- No call returns twice. -/
structure Once (w : World T Op S R) : Prop where
  apart : w.history.Pairwise fun a b => ∀ n r r', a = .returned n r → b ≠ .returned n r'
  unfinished : ∀ t n c, w.active t = some (n, c) → ∀ r, CallEv.returned n r ∉ w.history

omit [DecidableEq T] in
theorem start_once (s : S) : Once (World.start s : World T Op S R) where
  apart := .nil
  unfinished := by simp [World.start]

theorem Once.invoke (h : Once w) (hord : Ordered body s₀ w order s) (t : T) (op : Op) :
    Once (w.invoke body t op) := by
  unfold World.invoke
  split
  · refine ⟨List.pairwise_append.mpr ⟨h.apart, List.pairwise_singleton .., ?_⟩, ?_⟩
    · intro a _ b hb n r r' _
      obtain rfl := List.mem_singleton.mp hb
      simp
    · intro u n c hu r hr'
      have hr : CallEv.returned n r ∈ w.history := by simpa using hr'
      clear hr'
      change Function.update w.active t (some (w.calls, body op)) u = some (n, c) at hu
      rcases eq_or_ne u t with rfl | hne
      · rw [Function.update_self] at hu
        cases hu
        -- the number of the call is new
        obtain ⟨_, hmem⟩ := hord.explains.complete _ r hr
        exact absurd (hord.explains.below _ hmem) (Nat.lt_irrefl _)
      · rw [Function.update_of_ne hne] at hu
        exact h.unfinished u n c hu r hr
  · exact h

theorem Once.advance (h : Once w) (hord : Ordered body s₀ w order s) (t : T) :
    Once (w.advance t) := by
  have hadv := advance_cases w t
  generalize w.advance t = w' at hadv ⊢
  cases hadv with
  | idle => exact h
  | @returned n r hact =>
      refine ⟨List.pairwise_append.mpr ⟨h.apart, List.pairwise_singleton .., ?_⟩, ?_⟩
      -- a call that is in progress has not returned before
      · rintro a ha b hb m r₁ r₂ rfl
        obtain rfl := List.mem_singleton.mp hb
        intro heq
        cases heq
        exact h.unfinished t n _ hact r₁ ha
      · intro u m c hu r' hr'
        have hne : u ≠ t := by
          rintro rfl
          simp at hu
        have hu' : w.active u = some (m, c) := by simpa [hne] using hu
        rcases List.mem_append.mp hr' with hold | hnew
        · exact h.unfinished u m c hu' r' hold
        · cases List.mem_singleton.mp hnew
          exact hne (hord.apart u t n c _ hu' hact)
  | @went n c d state holder hact hgo =>
      refine ⟨h.apart, fun u m e hu => ?_⟩
      rcases eq_or_ne u t with rfl | hne
      · simp only [Function.update_self, Option.some.injEq, Prod.mk.injEq] at hu
        exact hu.1 ▸ h.unfinished u n c hact
      · simp only [Function.update_of_ne hne] at hu
        exact h.unfinished u m e hu

theorem Once.turn (h : Once w) (hord : Ordered body s₀ w order s) (x : Turn T Op) :
    Once (w.turn body x) := by
  cases x with
  | call t op => exact h.invoke hord t op
  | go t => exact h.advance hord t

omit [DecidableEq T] in
/-- The calls in the order have been made. -/
theorem Explains.countP_le (h : Explains body s₀ w order s) (p : Op → Bool) :
    order.countP (fun x => p x.2.1) ≤ w.callsOf p := by
  have hnodup : ((order.filter fun x => p x.2.1).map Prod.fst).Nodup :=
    h.nodup.sublist (List.filter_sublist.map _)
  have hsub : (order.filter fun x => p x.2.1).map Prod.fst ⊆
      w.history.filterMap (CallEv.callOf p) := by
    intro n hn
    obtain ⟨x, hx, rfl⟩ := List.mem_map.mp hn
    obtain ⟨hmem, hp⟩ := List.mem_filter.mp hx
    obtain ⟨t, ht⟩ := h.made x hmem
    exact List.mem_filterMap.mpr ⟨_, ht, if_pos hp⟩
  have hle := (List.subperm_of_subset hnodup hsub).length_le
  rwa [List.length_map, ← List.countP_eq_length_filter] at hle

omit [DecidableEq T] in
/-- The answers that have been returned are in the order. -/
theorem Explains.answersOf_le (h : Explains body s₀ w order s) (honce : Once w) (p : R → Bool) :
    w.answersOf p ≤ order.countP fun x => p x.2.2 := by
  have hnodup : (w.history.filterMap (CallEv.answerOf p)).Nodup := by
    refine List.pairwise_filterMap.mpr (honce.apart.imp fun hab n hn m hm heq => ?_)
    obtain ⟨r, rfl, _⟩ := answerOf_eq_some hn
    obtain ⟨r', rfl, _⟩ := answerOf_eq_some hm
    exact hab n r r' rfl (by rw [heq])
  have hsub : w.history.filterMap (CallEv.answerOf p) ⊆
      (order.filter fun x => p x.2.2).map Prod.fst := by
    intro n hn
    obtain ⟨e, he, hof⟩ := List.mem_filterMap.mp hn
    obtain ⟨r, rfl, hp⟩ := answerOf_eq_some hof
    obtain ⟨op, hmem⟩ := h.complete n r he
    exact List.mem_map.mpr ⟨_, List.mem_filter.mpr ⟨hmem, hp⟩, rfl⟩
  have hle := (List.subperm_of_subset hnodup hsub).length_le
  rwa [List.length_map, ← List.countP_eq_length_filter] at hle

/-! ## What no statement undoes -/

variable {le : S → S → Prop}

/-- Every statement of the code takes the state up. -/
def Code.Rising (le : S → S → Prop) : Code S R → Prop
  | .ret _ => True
  | .lock next => next.Rising le
  | .unlock next => next.Rising le
  | .step f next => ∀ s, le s (f s) ∧ (next s).Rising le

theorem Code.Rising.goes {c d : Code S R} (h : c.Rising le) (hgo : c.Goes d) : d.Rising le := by
  cases hgo with
  | lock next => exact h
  | unlock next => exact h
  | step f next s => exact (h s).2

theorem Code.Rising.run [Std.Refl le] [IsTrans S le] {c : Code S R} (h : c.Rising le) :
    ∀ s, le s (c.run s).2 := by
  induction c with
  | ret r => exact fun s => refl s
  | lock next ih => exact fun s => ih h s
  | unlock next ih => exact fun s => ih h s
  | step f next ih => exact fun s => IsTrans.trans _ _ _ (h s).1 (ih s (h s).2 (f s))

/-- So does all the code that is left. -/
def World.Rising (le : S → S → Prop) (w : World T Op S R) : Prop :=
  ∀ t n c, w.active t = some (n, c) → c.Rising le

theorem World.Rising.turn (h : w.Rising le) (hbody : ∀ op, (body op).Rising le) (x : Turn T Op) :
    (w.turn body x).Rising le := by
  -- a thread's code is replaced by code that rises as well
  have hupdate : ∀ t n (d : Code S R), d.Rising le → ∀ u m c,
      Function.update w.active t (some (n, d)) u = some (m, c) → c.Rising le := by
    intro t n d hd u m c hu
    rcases eq_or_ne u t with rfl | hne
    · rw [Function.update_self] at hu
      cases hu
      exact hd
    · rw [Function.update_of_ne hne] at hu
      exact h u m c hu
  cases x with
  | call t op =>
      rw [World.turn, World.invoke]
      split
      · exact hupdate t _ _ (hbody op)
      · exact h
  | go t =>
      rw [World.turn]
      have hadv := advance_cases w t
      generalize w.advance t = w' at hadv ⊢
      cases hadv with
      | idle => exact h
      | returned hact =>
          intro u m c hu
          rcases eq_or_ne u t with rfl | hne
          · simp at hu
          · exact h u m c (by simpa [hne] using hu)
      | @went n c d state holder hact hgo => exact hupdate t n d ((h t n c hact).goes hgo)

omit [DecidableEq T] in
/-- While a call is in progress the state is below the one that its end brings. -/
theorem Ordered.below_end [Std.Refl le] [IsTrans S le] (h : Ordered body s₀ w order s)
    (hrise : w.Rising le) : le w.state s := by
  cases hholder : w.holder with
  | none =>
      rw [h.free hholder]
      exact refl s
  | some t =>
      obtain ⟨⟨n, c⟩, hact⟩ := h.held t hholder
      cases h.place t n c hact with
      | waiting _ _ _ _ hout => exact absurd hholder hout
      | leaving _ _ _ _ hout => exact absurd hholder hout
      | inside op r hmem hheld hin hrun =>
          have hle := (hrise t n c hact).run w.state
          rwa [hrun] at hle

/-! ## A mutex by where its threads are

Where the threads of a program are given by program counters, these say who holds the mutex. -/

/-- The thread that is where it holds the mutex, if there is one, holds it. -/
def HeldBy (holder : Option T) (holds : T → Bool) : Prop :=
  ∀ t, holder = some t ↔ holds t = true

/-- What a step of thread `t` does with the mutex. -/
inductive LockStep (t : T) (holder : Option T) (b : Bool) : Option T → Bool → Prop
  | kept : LockStep t holder b holder b
  | taken (h : holder = none) : LockStep t holder b (some t) true
  | given (h : b = true) : LockStep t holder b none false

omit [DecidableEq T] in
theorem HeldBy.step {holder holder' : Option T} {holds holds' : T → Bool} {t : T}
    (h : HeldBy holder holds) (hstep : LockStep t holder (holds t) holder' (holds' t))
    (hothers : ∀ u, u ≠ t → holds' u = holds u) : HeldBy holder' holds' := by
  intro u
  generalize hb : holds t = b at hstep
  generalize hb' : holds' t = b' at hstep
  cases hstep with
  | kept =>
      rcases eq_or_ne u t with rfl | hne
      · rw [hb', ← hb]
        exact h u
      · rw [hothers u hne]
        exact h u
  | taken hfree =>
      rcases eq_or_ne u t with rfl | hne
      · simp [hb']
      · rw [hothers u hne, ← h u, hfree]
        simp [Ne.symm hne]
  | given hheld =>
      rcases eq_or_ne u t with rfl | hne
      · simp [hb']
      · have hmine : holder = some t := (h t).mpr (hb.trans hheld)
        rw [hothers u hne, ← h u, hmine]
        simp [Ne.symm hne]

omit [DecidableEq T] in
/-- No two threads hold the mutex. -/
theorem HeldBy.eq {holder : Option T} {holds : T → Bool} {t u : T} (h : HeldBy holder holds)
    (ht : holds t = true) (hu : holds u = true) : t = u :=
  Option.some.inj (((h t).mpr ht).symm.trans ((h u).mpr hu))

end CLib
