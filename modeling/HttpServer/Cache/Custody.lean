import HttpServer.Cache.Concurrent
import HttpServer.Cache.Borrow

set_option autoImplicit false

/-! # Entries in the hands of threads (`src/lru_cache.c`)

The count of an entry says how many clients hold it, and an entry that is off the list is freed
when its count is zero. Any number of threads run `lru_cache_get`, `lru_cache_put` and
`lru_cache_release` statement by statement, and an entry got by one thread may be released by
another. No entry is freed as long as a client holds it, and no block is freed twice
(`lent_entries_kept`).
-/

namespace HttpServer.LruCache

open CLib HashTable

variable {T : Type} [DecidableEq T]

abbrev Threads (T : Type) := World T LruOp LruCache LruRes

/-! ## Holding an entry -/

def releases (e : Nat) : LruOp → Bool
  | .release u => u == e
  | _ => false

def hands (e : Nat) : LruRes → Bool
  | .entry u => u == e
  | _ => false

/-- A client holds the entry: `lru_cache_get` has returned it more often than
`lru_cache_release` has been called for it. -/
def Held (w : Threads T) (e : Nat) : Prop := w.callsOf (releases e) < w.answersOf (hands e)

instance (w : Threads T) (e : Nat) : Decidable (Held w e) :=
  inferInstanceAs (Decidable (w.callsOf (releases e) < w.answersOf (hands e)))

def givenPayload : CallEv T LruOp LruRes → Option Nat
  | .called _ _ (.put _ data _ _) => some data
  | _ => none

/-- Clients release what they hold and give each payload once, and no count is at its largest
value. -/
def Custodial (w : Threads T) : Turn T LruOp → Prop
  | .call t (.put _ data _ _) => w.active t = none → data ∉ w.history.filterMap givenPayload
  | .call _ (.get _) => True
  | .call t (.release e) => w.active t = none → e ≠ 0 → Held w e
  | .go _ => ∀ e < w.state.fresh, (w.state.heap e).refcount + 1 < refMod

instance (w : Threads T) (x : Turn T LruOp) : Decidable (Custodial w x) :=
  match x with
  | .call t (.put _ data _ _) => decidable_of_iff
      ((w.active t).isNone = true → data ∉ w.history.filterMap givenPayload)
      (by rw [Custodial, Option.isNone_iff_eq_none])
  | .call _ (.get _) => .isTrue trivial
  | .call t (.release e) => decidable_of_iff ((w.active t).isNone = true → e ≠ 0 → Held w e)
      (by rw [Custodial, Option.isNone_iff_eq_none])
  | .go _ =>
      inferInstanceAs (Decidable (∀ e < w.state.fresh, (w.state.heap e).refcount + 1 < refMod))

/-! ## Nothing comes back that has been freed -/

variable {c c' : LruCache} {next : LruCode}

def FreesKept (c c' : LruCache) : Prop := c.frees <+: c'.frees

instance : Std.Refl FreesKept := ⟨fun _ => List.prefix_rfl⟩

instance : IsTrans LruCache FreesKept := ⟨fun _ _ _ h h' => h.trans h'⟩

theorem keeps_frees (h : c'.frees = c.frees) : FreesKept c c' := by
  rw [FreesKept, h]

theorem free_keeps (c : LruCache) (b : Block) : FreesKept c (c.free b) := List.prefix_append _ _

theorem SameButLinks.keeps (h : SameButLinks c c') : FreesKept c c' :=
  keeps_frees (congrArg Shelf.frees (h.shelf []))

theorem maybeFree_keeps (c : LruCache) (e : Nat) : FreesKept c (entryMaybeFree c e) := by
  unfold entryMaybeFree
  split
  · exact ((free_keeps c _).trans (free_keeps _ _)).trans (free_keeps _ _)
  · exact keeps_frees rfl

theorem rising_exec {f : LruCache → LruCache} (hf : ∀ c, FreesKept c (f c))
    (h : next.Rising FreesKept) : (exec f next).Rising FreesKept := fun c => ⟨hf c, h⟩

theorem rising_assign {f : LruCache → LruCache} (hf : ∀ c, (f c).frees = c.frees)
    (h : next.Rising FreesKept) : (exec f next).Rising FreesKept :=
  rising_exec (fun c => keeps_frees (hf c)) h

theorem rising_step {f : LruCache → LruCache} {next : LruCache → LruCode}
    (hf : ∀ c, FreesKept c (f c)) (h : ∀ c, (next c).Rising FreesKept) :
    (Code.step f next).Rising FreesKept := fun c => ⟨hf c, h c⟩

theorem rising_peek {next : LruCache → LruCode} (h : ∀ c, (next c).Rising FreesKept) :
    (peek next).Rising FreesKept := fun c => ⟨keeps_frees rfl, h c⟩

theorem rising_leaveWith (r : LruRes) : (leaveWith r).Rising FreesKept := trivial

theorem rising_entryDetachCode (e : Nat) (h : next.Rising FreesKept) :
    (entryDetachCode e next).Rising FreesKept :=
  rising_assign (fun _ => rfl) <| rising_exec (fun c => (same_listUnlink c e).keeps) <| rising_assign (fun _ => rfl) <|
    rising_assign (fun _ => rfl) <| rising_assign (fun _ => rfl) h

theorem rising_evictCode (size n : Nat) (h : next.Rising FreesKept) :
    (evictCode size n next).Rising FreesKept := by
  induction n with
  | zero => exact h
  | succ n ih =>
      refine rising_peek fun c => ?_
      split
      · exact h
      · split
        · exact h
        · refine rising_peek fun c => ?_
          split
          · exact ih
          · exact rising_entryDetachCode _ <| rising_assign (fun _ => rfl) <|
              rising_exec (fun d => maybeFree_keeps d _) ih

theorem rising_insertCode (e data size : Nat) (alloc : Bool) :
    (insertCode e data size alloc).Rising FreesKept := by
  refine rising_step (fun _ => keeps_frees rfl) fun c => ?_
  split
  · exact rising_exec (fun c => free_keeps c _) <| rising_exec (fun c => free_keeps c _) <|
      rising_exec (fun c => free_keeps c _) <| rising_leaveWith _
  · exact rising_assign (fun _ => rfl) <| rising_assign (fun _ => rfl) <|
      rising_exec (fun c => (same_listPushFront c e).keeps) <| rising_leaveWith _

theorem rising_putCode (key : List UInt8) (data size : Nat) (alloc : PutAlloc) :
    (putCode key data size alloc).Rising FreesKept := by
  have hrefuse : (exec (fun c => c.free (.payload data)) <| leaveWith (.flag false)).Rising
      FreesKept := rising_exec (fun c => free_keeps c _) <| rising_leaveWith _
  refine rising_peek fun c => ?_
  simp only
  split
  · -- the key is cached
    exact rising_assign (fun _ => rfl) <| rising_exec (fun c => free_keeps c _) <| rising_assign (fun _ => rfl) <|
      rising_assign (fun _ => rfl) <| rising_assign (fun _ => rfl) <|
      rising_exec (fun c => (same_listMoveFront c _).keeps) <| rising_leaveWith _
  · split
    · exact hrefuse
    · split
      · exact hrefuse
      · refine rising_step (fun _ => keeps_frees rfl) fun c => ?_
        split
        · exact rising_exec (fun c => free_keeps c _) hrefuse
        · exact rising_assign (fun _ => rfl) <| rising_peek fun c =>
            rising_evictCode _ _ <| rising_insertCode _ _ _ _

theorem rising_opCode (op : LruOp) : (opCode op).Rising FreesKept := by
  cases op with
  | put key data size alloc => exact rising_putCode key data size.toNat alloc
  | get key =>
      refine rising_peek fun c => ?_
      simp only
      split
      · exact rising_assign (fun _ => rfl) <| rising_exec (fun c => (same_listMoveFront c _).keeps) <|
          rising_assign (fun _ => rfl) <| rising_leaveWith _
      · exact rising_assign (fun _ => rfl) <| rising_leaveWith _
  | release e =>
      rw [opCode, releaseCode]
      split
      · trivial
      · refine rising_peek fun c => ?_
        split
        · exact rising_assign (fun _ => rfl) <| rising_exec (fun c => maybeFree_keeps c e) <| rising_leaveWith _
        · exact rising_exec (fun c => maybeFree_keeps c e) <| rising_leaveWith _

/-! ## The books -/

/-- How many calls of the order release the entry. -/
def releasedIn (order : List (Nat × LruOp × LruRes)) (e : Nat) : Nat :=
  order.countP fun x => releases e x.2.1

/-- How many calls of the order return it. -/
def handedIn (order : List (Nat × LruOp × LruRes)) (e : Nat) : Nat :=
  order.countP fun x => hands e x.2.2

/-- What has been allocated and lent at the desk is what the calls of the order have brought. -/
structure Books (order : List (Nat × LruOp × LruRes)) (d : Desk) : Prop where
  ok : ∃ s gone, d.Ok s gone []
  given : ∀ p, .payload p ∈ d.allocs → ∃ n key size alloc r, (n, .put key p size alloc, r) ∈ order
  loans : ∀ e, e ≠ 0 → borrows d.loans e + releasedIn order e = handedIn order e

variable {order : List (Nat × LruOp × LruRes)} {d : Desk}

theorem releasedIn_concat (n : Nat) (op : LruOp) (r : LruRes) (e : Nat) :
    releasedIn (order ++ [(n, op, r)]) e =
      releasedIn order e + if releases e op = true then 1 else 0 := by
  rw [releasedIn, List.countP_append, List.countP_singleton]
  rfl

theorem handedIn_concat (n : Nat) (op : LruOp) (r : LruRes) (e : Nat) :
    handedIn (order ++ [(n, op, r)]) e = handedIn order e + if hands e r = true then 1 else 0 := by
  rw [handedIn, List.countP_append, List.countP_singleton]
  rfl

theorem Books.given_concat (h : Books order d) (x : Nat × LruOp × LruRes) {p : Nat}
    (hp : .payload p ∈ d.allocs) :
    ∃ n key size alloc r, (n, LruOp.put key p size alloc, r) ∈ order ++ [x] := by
  obtain ⟨n, key, size, alloc, r, hin⟩ := h.given p hp
  exact ⟨n, key, size, alloc, r, List.mem_append_left _ hin⟩

/-- The call that comes next at the desk. -/
def Books.Next (order : List (Nat × LruOp × LruRes)) (d : Desk) (n : Nat) (op : LruOp) : Prop :=
  ∃ d', Books (order ++ [(n, op, (lruStep d.cache op).1)]) d' ∧ d'.cache = (lruStep d.cache op).2

theorem Books.put (h : Books order d) (n : Nat) (key : List UInt8) {data : Nat} (size : UInt64)
    (alloc : PutAlloc)
    (hnew : ∀ m key' size' alloc' r, (m, .put key' data size' alloc', r) ∉ order) :
    Books.Next order d n (.put key data size alloc) := by
  obtain ⟨s, gone, hok⟩ := h.ok
  have hcoming : d.Ok s gone [data] := { hok with
    coming := by
      intro p hp hmem
      obtain rfl := List.mem_singleton.mp hp
      obtain ⟨m, key', size', alloc', r, hin⟩ := h.given p hmem
      exact hnew m key' size' alloc' r hin
    distinct := List.nodup_singleton _ }
  obtain ⟨gone', hok'⟩ := hcoming.put key size alloc
  refine ⟨deskStep d (.put key data size alloc), ⟨⟨_, gone', hok'⟩, fun p hp => ?_, fun e he => ?_⟩,
    rfl⟩
  · rcases List.mem_append.mp hp with hold | hput
    · exact h.given_concat _ hold
    · rw [hok.rep.putBlocks] at hput
      obtain rfl := (putBlocks_nodup s key data size.toNat alloc).2 p hput
      exact ⟨n, key, size, alloc, _, List.mem_append_right _ List.mem_cons_self⟩
  · rw [releasedIn_concat, handedIn_concat]
    exact h.loans e he

theorem Books.get (h : Books order d) (n : Nat) (key : List UInt8)
    (hcounts : ∀ e < d.cache.fresh, (d.cache.heap e).refcount + 1 < refMod) :
    Books.Next order d n (.get key) := by
  obtain ⟨s, gone, hok⟩ := h.ok
  have hentry := (hok.rep.get key).1
  cases hfind : s.find key with
  | none =>
      obtain ⟨hloans, hok'⟩ := hok.get_miss hfind
      rw [Shelf.get_miss hfind] at hentry
      have hcache : (deskStep d (.get key)).cache = (lruStep d.cache (.get key)).2 := by
        rw [deskStep_get, if_pos hentry]
        rfl
      refine ⟨deskStep d (.get key), ⟨⟨_, gone, hok'⟩, fun p hp => ?_, fun e he => ?_⟩, hcache⟩
      · rw [deskStep_get, if_pos hentry] at hp
        exact h.given_concat _ hp
      · have hbefore := h.loans e he
        have hres : (lruStep d.cache (.get key)).1 = .entry 0 := congrArg LruRes.entry hentry
        rw [hloans, hres, releasedIn_concat, handedIn_concat]
        simp only [releases, hands, beq_iff_eq, Bool.false_eq_true, if_false, if_neg (Ne.symm he)]
        omega
  | some v =>
      have hmem := find_mem hfind
      have hv : v ≠ 0 := hok.rep.nonnull hmem
      have hfresh : d.cache.fresh = s.fresh := congrArg Shelf.fresh hok.rep.shelf
      -- the count can be raised: no count is at its largest value
      have hmax : (s.items v).refcount + 1 < refMod := by
        have hcount : (d.cache.heap v).refcount = (s.items v).refcount :=
          congrArg Item.refcount (hok.rep.heap v)
        rw [← hcount]
        exact hcounts v (hfresh ▸ hok.sound.born v hmem)
      obtain ⟨hloans, hok'⟩ := hok.get_hit hfind hmax
      rw [Shelf.get_hit hfind] at hentry
      have hne : (lruCacheGet d.cache key).1 ≠ 0 := hentry ▸ hv
      have hcache : (deskStep d (.get key)).cache = (lruStep d.cache (.get key)).2 := by
        rw [deskStep_get, if_neg hne]
        rfl
      refine ⟨deskStep d (.get key), ⟨⟨_, gone, hok'⟩, fun p hp => ?_, fun e he => ?_⟩, hcache⟩
      · rw [deskStep_get, if_neg hne] at hp
        exact h.given_concat _ hp
      · have hbefore := h.loans e he
        -- the entry handed out is booked as one more borrow
        have hres : (lruStep d.cache (.get key)).1 = .entry v := congrArg LruRes.entry hentry
        rw [hloans, hres, borrows_cons, releasedIn_concat, handedIn_concat]
        simp only [releases, hands, beq_iff_eq, Bool.false_eq_true, if_false]
        omega

theorem Books.release (h : Books order d) (n : Nat) {e : Nat} (he : e ≠ 0)
    (hpos : 0 < borrows d.loans e) : Books.Next order d n (.release e) := by
  obtain ⟨s, gone, hok⟩ := h.ok
  obtain ⟨x, hx, hxe⟩ := List.countP_pos_iff.mp hpos
  obtain rfl : x.entry = e := of_decide_eq_true hxe
  obtain ⟨i, hi⟩ := List.mem_iff_getElem?.mp hx
  obtain ⟨hloans, gone', hok'⟩ := hok.release hi
  have hstep : deskStep d (.release i) =
      { d with cache := lruCacheRelease d.cache x.entry, loans := d.loans.eraseIdx i } := by
    rw [deskStep, hi]
  refine ⟨deskStep d (.release i), ⟨⟨_, gone', hok'⟩, fun p hp => ?_, fun u hu => ?_⟩, ?_⟩
  · rw [hstep] at hp
    exact h.given_concat _ hp
  · have hbefore := h.loans u hu
    have hcount : borrows d.loans u = borrows (x :: d.loans.eraseIdx i) u :=
      (perm_eraseIdx hi).countP_eq _
    rw [borrows_cons] at hcount
    rw [hloans, releasedIn_concat, handedIn_concat]
    simp only [releases, hands, lruStep, beq_iff_eq, Bool.false_eq_true, if_false]
    omega
  · rw [hstep]
    rfl

/-! ## The invariant -/

/-- The order and the state it leads to are those of a desk, every release has been preceded by
the `get` it gives back, and no payload has been given twice. -/
structure Lent (w : Threads T) (order : List (Nat × LruOp × LruRes)) (c : LruCache) : Prop where
  books : ∃ d, Books order d ∧ d.cache = c
  matched : ∀ e, e ≠ 0 → w.callsOf (releases e) ≤ w.answersOf (hands e)
  distinct : (w.history.filterMap givenPayload).Nodup

variable {w : Threads T} {c₀ : LruCache}

omit [DecidableEq T] in
/-- Two calls of `lru_cache_put` do not get the same payload. -/
theorem Lent.apart (h : Lent w order c) {m n data : Nat} {t u : T} {key key' : List UInt8}
    {size size' : UInt64} {alloc alloc' : PutAlloc}
    (hm : CallEv.called m t (LruOp.put key data size alloc) ∈ w.history)
    (hn : CallEv.called n u (LruOp.put key' data size' alloc') ∈ w.history) : m = n := by
  by_contra hne
  have hpair := List.pairwise_filterMap.mp h.distinct
  have hsymm : Std.Symm fun a b : CallEv T LruOp LruRes => ∀ p, givenPayload a = some p →
      ∀ q, givenPayload b = some q → p ≠ q :=
    ⟨fun a b hab p hp q hq heq => hab q hq p hp heq.symm⟩
  have hdiff : CallEv.called m t (LruOp.put key data size alloc) ≠
      (CallEv.called n u (LruOp.put key' data size' alloc') : CallEv T LruOp LruRes) :=
    fun heq => hne (CallEv.called.inj heq).1
  exact hpair.forall hm hn hdiff data rfl data rfl rfl

omit [DecidableEq T] in
/-- Whoever holds an entry has borrowed it. -/
theorem Books.borrowed (h : Books order d) (hexp : Explains opCode c₀ w order c) (honce : Once w)
    {e : Nat} (he : e ≠ 0) (hheld : Held w e) : 0 < borrows d.loans e := by
  have hcalls : releasedIn order e ≤ w.callsOf (releases e) := hexp.countP_le _
  have hanswers : w.answersOf (hands e) ≤ handedIn order e := hexp.answersOf_le honce _
  have hloans := h.loans e he
  unfold Held at hheld
  omega

omit [DecidableEq T] in
/-- The call that takes its place in the order is the next one at the desk. -/
theorem Lent.extends (h : Lent w order c) (hord : Ordered opCode c₀ w order c) (honce : Once w)
    (hcounts : ∀ e < w.state.fresh, (w.state.heap e).refcount + 1 < refMod)
    {order' : List (Nat × LruOp × LruRes)} (hext : Extends opCode w order c order' c') :
    ∃ d, Books order' d ∧ d.cache = c' := by
  cases hext with
  | kept => exact h.books
  | @added n t op hcall hn hnew hfree =>
      rw [run_opCode]
      obtain ⟨d, hbooks, rfl⟩ := h.books
      cases op with
      | put key data size alloc =>
          refine hbooks.put n key size alloc fun m key' size' alloc' r hin => ?_
          obtain ⟨u, hm⟩ := hord.explains.made _ hin
          obtain rfl := h.apart hm hcall
          exact hnew (List.mem_map.mpr ⟨_, hin, rfl⟩)
      | get key =>
          -- the mutex is free, so that the state is that of the desk
          rw [hord.free (hfree _ rfl)] at hcounts
          exact hbooks.get n key hcounts
      | release e =>
          rcases eq_or_ne e 0 with rfl | he
          · refine ⟨d, ⟨hbooks.ok, fun p hp => hbooks.given_concat _ hp, fun e he => ?_⟩, rfl⟩
            rw [releasedIn_concat, handedIn_concat]
            simp only [releases, hands, lruStep, beq_iff_eq, Bool.false_eq_true, if_false,
              if_neg (Ne.symm he)]
            exact hbooks.loans e he
          · -- this call is one of those that have been matched
            have hcalls : releasedIn (order ++ [(n, .release e, _)]) e ≤ w.callsOf (releases e) :=
              (hord.explains.append hcall hn hnew).countP_le _
            have hanswers : w.answersOf (hands e) ≤ handedIn order e :=
              hord.explains.answersOf_le honce _
            have hmatched := h.matched e he
            have hloans := hbooks.loans e he
            rw [releasedIn_concat, if_pos (by simp [releases])] at hcalls
            exact hbooks.release n he (by omega)

theorem Lent.call (h : Lent w order c) {t : T} {op : LruOp} (hcare : Custodial w (.call t op)) :
    Lent (w.invoke opCode t op) order c := by
  refine ⟨h.books, fun e he => ?_, ?_⟩
  · rw [callsOf_invoke, answersOf_invoke]
    have hmatched := h.matched e he
    split
    · rename_i hnew
      obtain ⟨hidle, hrel⟩ := hnew
      cases op with
      | release u =>
          obtain rfl : u = e := by simpa [releases] using hrel
          exact hcare hidle he
      | put key data size alloc => cases hrel
      | get key => cases hrel
    · exact hmatched
  · unfold World.invoke
    split
    · rename_i hidle
      simp only [List.filterMap_append]
      cases op with
      | put key data size alloc =>
          exact List.nodup_append'.mpr ⟨h.distinct, List.nodup_singleton _,
            List.disjoint_singleton.mpr (hcare hidle)⟩
      | get key => exact (List.append_nil _).symm ▸ h.distinct
      | release u => exact (List.append_nil _).symm ▸ h.distinct
    · exact h.distinct

theorem Lent.go (h : Lent w order c) (hord : Ordered opCode c₀ w order c) (honce : Once w) {t : T}
    (hcare : Custodial w (.go t)) {order' : List (Nat × LruOp × LruRes)}
    (hext : Extends opCode w order c order' c') : Lent (w.advance t) order' c' := by
  refine ⟨h.extends hord honce hcare hext, fun e he => ?_, ?_⟩
  · rw [callsOf_advance]
    exact (h.matched e he).trans (answersOf_advance w _ t)
  · have hdistinct := h.distinct
    have hadv := advance_cases w t
    generalize w.advance t = w' at hadv ⊢
    cases hadv with
    | idle => exact hdistinct
    | returned hact =>
        simp only [List.filterMap_append]
        exact (List.append_nil _).symm ▸ hdistinct
    | went state holder hact hgo => exact hdistinct

/-- What holds after every turn. -/
structure Safe (c₀ : LruCache) (w : Threads T) : Prop where
  once : Once w
  rising : w.Rising FreesKept
  lent : ∃ order c, Ordered opCode c₀ w order c ∧ Lent w order c

theorem Safe.turn (h : Safe c₀ w) {x : Turn T LruOp} (hcare : Custodial w x) :
    Safe c₀ (w.turn opCode x) := by
  obtain ⟨order, c, hord, hlent⟩ := h.lent
  refine ⟨h.once.turn hord x, h.rising.turn rising_opCode x, ?_⟩
  cases x with
  | call t op => exact ⟨order, c, hord.invoke t op, hlent.call hcare⟩
  | go t =>
      obtain ⟨order', c', hord', hext⟩ := hord.advance guarded_opCode t
      exact ⟨order', c', hord', hlent.go hord h.once hcare hext⟩

omit [DecidableEq T] in
theorem start_safe {maxSize maxEntries : Nat} {alloc : Bool}
    (hinit : lruCacheInit maxSize maxEntries alloc = some c) :
    Safe c (World.start c : Threads T) where
  once := start_once c
  rising := by simp [World.Rising, World.start]
  lent := by
    have hnodup : (payloads []).Nodup := List.nodup_nil
    have hopen := open_ok hinit hnodup
    have hbooks : Books [] (Desk.open c) :=
      ⟨⟨_, _, hopen⟩, fun p hp => absurd hp List.not_mem_nil, fun _ _ => rfl⟩
    exact ⟨[], c, start_ordered opCode c, ⟨_, hbooks, rfl⟩, fun _ _ => Nat.le_refl _, List.nodup_nil⟩

/-! ## Results -/

/-- **No entry is freed that a client holds, and no block is freed twice.** However the statements
of any number of threads are interleaved, after each of them the entries are still there that
`lru_cache_get` has returned and `lru_cache_release` has not been called for, with their keys and
payloads whenever the mutex is free; and whatever has been freed has been freed once. -/
theorem lent_entries_kept {maxSize maxEntries : Nat} {alloc : Bool}
    (hinit : lruCacheInit maxSize maxEntries alloc = some c) (ts : List (Turn T LruOp))
    (hcare : Along (World.turn opCode) Custodial (World.start c) ts) :
    (∀ e, e ≠ 0 → Held ((World.start c).turns opCode ts) e →
      .entry e ∉ ((World.start c).turns opCode ts).state.frees ∧
      (((World.start c).turns opCode ts).holder = none →
        .key (((World.start c).turns opCode ts).state.heap e).key.addr ∉
          ((World.start c).turns opCode ts).state.frees ∧
        .payload (((World.start c).turns opCode ts).state.heap e).data ∉
          ((World.start c).turns opCode ts).state.frees)) ∧
    ((World.start c).turns opCode ts).state.frees.Nodup := by
  have hsafe : Safe c ((World.start c).turns opCode ts) :=
    Along.invariant (fun w x h hx => h.turn hx) ts (start_safe hinit) hcare
  generalize (World.start c : Threads T).turns opCode ts = w at hsafe ⊢
  obtain ⟨order, c', hord, hlent⟩ := hsafe.lent
  obtain ⟨d, hbooks, rfl⟩ := hlent.books
  obtain ⟨s, gone, hok⟩ := hbooks.ok
  -- what has been freed so far is freed at the end of the call in progress
  have hkept : w.state.frees <+: s.frees := by
    have hle := hord.below_end hsafe.rising
    rwa [FreesKept, show d.cache.frees = s.frees from congrArg Shelf.frees hok.rep.shelf] at hle
  have hnodup := hok.kept.ledger.nodup_iff.mp hok.nodup
  obtain ⟨hfrees, _, hdisj⟩ := List.nodup_append'.mp hnodup
  refine ⟨fun e he hheld => ?_, hfrees.sublist hkept.sublist⟩
  have hpos := hbooks.borrowed hord.explains hsafe.once he hheld
  obtain ⟨x, hx, hxe⟩ := List.countP_pos_iff.mp hpos
  obtain rfl : x.entry = e := of_decide_eq_true hxe
  have hown : ∀ b ∈ s.blocks x.entry, b ∉ w.state.frees := fun b hb hmem =>
    hdisj (hkept.subset hmem) (List.mem_flatMap.mpr ⟨x.entry, hok.kept.held x hx, hb⟩)
  refine ⟨hown _ (by simp [Shelf.blocks]), fun hnone => ?_⟩
  have hitem := hok.rep.heap x.entry
  rw [← hord.free hnone] at hitem
  have hkey : (w.state.heap x.entry).key = (s.items x.entry).key := congrArg Item.key hitem
  have hdata : (w.state.heap x.entry).data = (s.items x.entry).data := congrArg Item.data hitem
  rw [hkey, hdata]
  exact ⟨hown _ (by simp [Shelf.blocks]), hown _ (by simp [Shelf.blocks])⟩

/-- One thread puts an entry and another gets it. Then the first puts a second entry, for which
the first one is evicted. -/
def custodyTurns : List (Turn Bool LruOp) :=
  .call false (.put [97] 1 60 granted) :: List.replicate 12 (.go false) ++
    .call true (.get [97]) :: List.replicate 8 (.go true) ++
    .call false (.put [98] 2 60 granted) :: List.replicate 16 (.go false)

theorem lent_entries_kept_evicted :
    (((World.start (sampleCache 100)).turns opCode custodyTurns).state.heap 1).removed = true ∧
    .entry 1 ∉ ((World.start (sampleCache 100)).turns opCode custodyTurns).state.frees :=
  ⟨by decide +kernel, ((lent_entries_kept
    (show lruCacheInit 100 4 true = some (sampleCache 100) from rfl) custodyTurns
    (by decide +kernel)).1 1 (by decide) (by decide +kernel)).1⟩

end HttpServer.LruCache
