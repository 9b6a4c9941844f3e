import HttpServer.Cache.Loans
import HttpServer.Cache.Run

set_option autoImplicit false

/-! # Clients of the cache

Any number of clients put payloads, get entries and release each entry they got once. The desk
keeps the loans that are outstanding, with what the client saw at the `get`, and the blocks that
were given to the cache or allocated by it. A call is atomic, so a run of the clients is one
list of calls.
-/

namespace HttpServer

open CLib HashTable

/-! ## The desk -/

structure Desk where
  cache : LruCache
  loans : List Loan
  allocs : List Block

inductive DeskOp
  | put (key : List UInt8) (data : Nat) (size : UInt64) (alloc : PutAlloc)
  | get (key : List UInt8)
  /-- Return the loan at this position. -/
  | release (i : Nat)
  deriving DecidableEq

/-- The blocks a `put` is given or allocates: the payload, an entry and the copy of the key. -/
def LruCache.putBlocks (c : LruCache) (key : List UInt8) (data size : Nat) (alloc : PutAlloc) :
    List Block :=
  if htLookup c.table ⟨0, key⟩ ≠ 0 then [.payload data]
  else if c.maxSize < size then [.payload data]
  else if alloc.entry = false then [.payload data]
  else if alloc.key = false then [.payload data, .entry c.fresh]
  else [.payload data, .entry c.fresh, .key c.fresh]

def deskStep (d : Desk) : DeskOp → Desk
  | .put key data size alloc =>
      { d with
        cache := (lruCachePut d.cache key data size.toNat alloc).2
        allocs := d.allocs ++ d.cache.putBlocks key data size.toNat alloc }
  | .get key =>
      let (e, c) := lruCacheGet d.cache key
      if e = 0 then { d with cache := c }
      else { d with cache := c, loans := ⟨e, (c.heap e).data, (c.heap e).size⟩ :: d.loans }
  | .release i =>
      match d.loans[i]? with
      | none => d
      | some x =>
          { d with cache := lruCacheRelease d.cache x.entry, loans := d.loans.eraseIdx i }

def deskRun (d : Desk) (ops : List DeskOp) : Desk := ops.foldl deskStep d

/-- The payloads given to `put`. -/
def payloads : List DeskOp → List Nat
  | [] => []
  | .put _ data _ _ :: ops => data :: payloads ops
  | _ :: ops => payloads ops

def Desk.open (c : LruCache) : Desk := ⟨c, [], []⟩

/-! ## The invariant -/

/-- The cache represents the shelf `s`, the blocks are accounted for and all different, and none
of them is a payload still to come. -/
structure Desk.Ok (d : Desk) (s : Shelf) (gone later : List Nat) : Prop where
  rep : d.cache.Rep s
  sound : s.Sound
  kept : s.Kept d.loans d.allocs gone
  nodup : d.allocs.Nodup
  numbered : ∀ e, .entry e ∈ d.allocs ∨ .key e ∈ d.allocs → e < s.fresh
  coming : ∀ p ∈ later, .payload p ∉ d.allocs
  distinct : later.Nodup

variable {d : Desk} {s : Shelf} {gone later : List Nat} {data : Nat}

theorem LruCache.Rep.putBlocks {c : LruCache} (h : c.Rep s) (key : List UInt8) (data size : Nat)
    (alloc : PutAlloc) : c.putBlocks key data size alloc = s.putBlocks key data size alloc := by
  have hmax : c.maxSize = s.maxSize := congrArg Shelf.maxSize h.shelf
  have hfresh : c.fresh = s.fresh := congrArg Shelf.fresh h.shelf
  rw [LruCache.putBlocks, Shelf.putBlocks, h.lookup key, hmax, hfresh]
  cases hfind : s.find key with
  | none => rfl
  | some e =>
      have hne : (some e).getD 0 ≠ 0 := h.nonnull (LruCache.find_mem hfind)
      rw [if_pos hne]

theorem put_fresh (s : Shelf) (key : List UInt8) (data size : Nat) (alloc : PutAlloc) (taken : Bool) :
    s.fresh ≤ (s.put key data size alloc taken).2.fresh ∧
      ∀ e, .entry e ∈ s.putBlocks key data size alloc ∨ .key e ∈ s.putBlocks key data size alloc →
        e = s.fresh ∧ s.fresh < (s.put key data size alloc taken).2.fresh := by
  have hend := Shelf.put_cases s key data size alloc taken
  have hroom : (s.room key data size).fresh = s.fresh + 1 :=
    (Shelf.makeRoom_shortened size s.order.length (s.alloc key data size)).fresh
  generalize s.put key data size alloc taken = out at hend ⊢
  rw [Shelf.putBlocks]
  -- addresses are handed out upwards, one for each new entry
  cases hend with
  | hit hfind =>
      rw [hfind]
      exact ⟨Nat.le_refl _, by simp⟩
  | big hfind hbig =>
      rw [hfind]
      simp only [if_pos hbig]
      exact ⟨Nat.le_refl _, by simp⟩
  | noEntry hfind hsize halloc =>
      rw [hfind]
      simp only [if_neg (Nat.not_lt.mpr hsize), if_pos halloc]
      exact ⟨Nat.le_refl _, by simp⟩
  | noKey hfind hsize hentry halloc =>
      rw [hfind]
      simp only [if_neg (Nat.not_lt.mpr hsize), hentry, Bool.true_eq_false, if_false, if_pos halloc]
      exact ⟨Nat.le_succ _, by simp [Shelf.free]⟩
  | refused hfind hsize _ hentry hkey
  | inserted hfind hsize _ hentry hkey =>
      rw [hfind]
      simp only [if_neg (Nat.not_lt.mpr hsize), hentry, hkey, Bool.true_eq_false, if_false]
      refine ⟨(Nat.le_succ _).trans_eq hroom.symm, fun e he => ?_⟩
      simp only [List.mem_cons, reduceCtorEq, Block.entry.injEq, Block.key.injEq, List.not_mem_nil,
        or_false, false_or, or_self] at he
      exact ⟨he, (Nat.lt_succ_self _).trans_eq hroom.symm⟩

theorem putBlocks_nodup (s : Shelf) (key : List UInt8) (data size : Nat) (alloc : PutAlloc) :
    (s.putBlocks key data size alloc).Nodup ∧
      ∀ p, .payload p ∈ s.putBlocks key data size alloc → p = data := by
  rw [Shelf.putBlocks]
  cases s.find key with
  | some e => simp
  | none =>
      simp only
      split_ifs
      · simp
      · simp
      · simp
      · simp

/-! ## One call -/

theorem Desk.Ok.put (h : d.Ok s gone (data :: later)) (key : List UInt8) (size : UInt64)
    (alloc : PutAlloc) :
    ∃ gone', (deskStep d (.put key data size alloc)).Ok
      (s.put key data size.toNat alloc (d.cache.taken alloc.table)).2 gone' later := by
  obtain ⟨gone', hkept⟩ :=
    h.kept.put h.sound key data size.toNat alloc (d.cache.taken alloc.table)
  obtain ⟨hle, hlt⟩ := put_fresh s key data size.toNat alloc (d.cache.taken alloc.table)
  obtain ⟨hnodup, hpay⟩ := putBlocks_nodup s key data size.toNat alloc
  have hblocks := h.rep.putBlocks key data size.toNat alloc
  have hdata := List.nodup_cons.mp h.distinct
  refine ⟨gone', (h.rep.put h.sound key data size.toNat alloc).2,
    h.sound.put key data size.toNat_lt alloc _, ?_, ?_, ?_, ?_, hdata.2⟩
  · rw [← hblocks] at hkept
    exact hkept
  · change (d.allocs ++ d.cache.putBlocks key data size.toNat alloc).Nodup
    rw [hblocks]
    refine List.nodup_append.mpr ⟨h.nodup, hnodup, ?_⟩
    -- a block asked for in this call was not there: payloads are given once, and numbers go up
    rintro b hb b' hb' rfl
    cases b with
    | payload p =>
        obtain rfl := hpay p hb'
        exact h.coming p List.mem_cons_self hb
    | entry e => exact Nat.ne_of_lt (h.numbered e (.inl hb)) (hlt e (.inl hb')).1
    | key e => exact Nat.ne_of_lt (h.numbered e (.inr hb)) (hlt e (.inr hb')).1
  · intro e he
    change .entry e ∈ d.allocs ++ d.cache.putBlocks key data size.toNat alloc ∨
      .key e ∈ d.allocs ++ d.cache.putBlocks key data size.toNat alloc at he
    rw [hblocks, List.mem_append, List.mem_append] at he
    have hsplit : (.entry e ∈ d.allocs ∨ .key e ∈ d.allocs) ∨
        (.entry e ∈ s.putBlocks key data size.toNat alloc ∨
          .key e ∈ s.putBlocks key data size.toNat alloc) := by
      tauto
    rcases hsplit with hold | hnew
    · exact (h.numbered e hold).trans_le hle
    · exact (hlt e hnew).1.trans_lt (hlt e hnew).2
  · intro p hp hmem
    change .payload p ∈ d.allocs ++ d.cache.putBlocks key data size.toNat alloc at hmem
    rw [hblocks] at hmem
    rcases List.mem_append.mp hmem with hold | hnew
    · exact h.coming p (List.mem_cons_of_mem _ hp) hold
    · obtain rfl := hpay p hnew
      exact hdata.1 hp

theorem deskStep_get (d : Desk) (key : List UInt8) :
    deskStep d (.get key) =
      if (lruCacheGet d.cache key).1 = 0 then { d with cache := (lruCacheGet d.cache key).2 }
      else { d with
        cache := (lruCacheGet d.cache key).2
        loans := ⟨(lruCacheGet d.cache key).1,
          ((lruCacheGet d.cache key).2.heap (lruCacheGet d.cache key).1).data,
          ((lruCacheGet d.cache key).2.heap (lruCacheGet d.cache key).1).size⟩ :: d.loans } := rfl

theorem Desk.Ok.get_miss (h : d.Ok s gone later) {key : List UInt8} (hfind : s.find key = none) :
    (deskStep d (.get key)).loans = d.loans ∧ (deskStep d (.get key)).Ok (s.get key).2 gone later := by
  obtain ⟨hentry, hrep⟩ := h.rep.get key
  have hmiss := Shelf.get_miss hfind
  rw [hmiss] at hentry hrep ⊢
  rw [deskStep_get, if_pos hentry]
  refine ⟨rfl, hrep, ?_, ?_, h.nodup, h.numbered, h.coming, h.distinct⟩
  · exact h.sound.frame (.refl _) (Nat.le_refl _) (fun _ _ => ⟨rfl, rfl⟩) rfl
  · exact h.kept.frame (.refl _) rfl (Nat.le_refl _) (fun _ _ => rfl) h.kept.dead h.kept.count
      h.kept.held

theorem Desk.Ok.get_hit (h : d.Ok s gone later) {key : List UInt8} {e : Nat}
    (hfind : s.find key = some e) (hmax : (s.items e).refcount + 1 < refMod) :
    (deskStep d (.get key)).loans = ⟨e, (s.items e).data, (s.items e).size⟩ :: d.loans ∧
      (deskStep d (.get key)).Ok (s.get key).2 gone later := by
  obtain ⟨hentry, hrep⟩ := h.rep.get key
  have hsound := h.sound.get key
  have hkept := h.kept.get hfind hmax (s.items e).data (s.items e).size
  have he : (s.get key).1 = e := by rw [Shelf.get_hit hfind]
  have hne : e ≠ 0 := h.rep.nonnull (LruCache.find_mem hfind)
  have hitem := hrep.heap e
  obtain ⟨n, hn⟩ := (Shelf.get_frame s key).2.2.2 e
  have hdata : ((lruCacheGet d.cache key).2.heap e).data = (s.items e).data :=
    (congrArg Item.data hitem).trans (by rw [hn])
  have hsize : ((lruCacheGet d.cache key).2.heap e).size = (s.items e).size :=
    (congrArg Item.size hitem).trans (by rw [hn])
  have hfresh := (Shelf.get_frame s key).2.1
  rw [deskStep_get, hentry, he, if_neg hne, hdata, hsize]
  refine ⟨rfl, hrep, hsound, hkept, h.nodup, fun u hu => ?_, h.coming, h.distinct⟩
  exact (h.numbered u hu).trans_eq hfresh.symm

theorem Desk.Ok.release (h : d.Ok s gone later) {i : Nat} {x : Loan} (hx : d.loans[i]? = some x) :
    (deskStep d (.release i)).loans = d.loans.eraseIdx i ∧
      ∃ gone', (deskStep d (.release i)).Ok (s.release x.entry) gone' later := by
  have hstep : deskStep d (.release i) =
      { d with cache := lruCacheRelease d.cache x.entry, loans := d.loans.eraseIdx i } := by
    rw [deskStep, hx]
  obtain ⟨gone', hkept⟩ := h.kept.release h.sound hx
  obtain ⟨items, frees, heq, _⟩ := Shelf.release_frame s x.entry
  rw [hstep]
  refine ⟨rfl, gone', h.rep.release x.entry, h.sound.release x.entry, hkept, h.nodup,
    fun e he => ?_, h.coming, h.distinct⟩
  rw [heq]
  exact h.numbered e he

theorem deskStep_release_none {i : Nat} (hx : d.loans[i]? = none) :
    deskStep d (.release i) = d := by
  rw [deskStep, hx]

/-- An `unsigned` can count one more borrow of the entry a `get` finds. -/
def Countable (d : Desk) : DeskOp → Prop
  | .get key =>
      htLookup d.cache.table ⟨0, key⟩ ≠ 0 →
        (d.cache.heap (htLookup d.cache.table ⟨0, key⟩)).refcount + 1 < refMod
  | _ => True

theorem Desk.Ok.count_lt (h : d.Ok s gone later) {key : List UInt8} {e : Nat}
    (hop : Countable d (.get key)) (hfind : s.find key = some e) :
    (s.items e).refcount + 1 < refMod := by
  rw [Countable, h.rep.lookup key, hfind] at hop
  have hcount : (d.cache.heap e).refcount = (s.items e).refcount :=
    congrArg Item.refcount (h.rep.heap e)
  rw [← hcount]
  exact hop (h.rep.nonnull (LruCache.find_mem hfind))

theorem Desk.Ok.step {op : DeskOp} {ops : List DeskOp} (h : d.Ok s gone (payloads (op :: ops)))
    (hop : Countable d op) :
    ∃ s' gone', (deskStep d op).Ok s' gone' (payloads ops) := by
  cases op with
  | put key data size alloc =>
      obtain ⟨gone', h'⟩ := h.put key size alloc
      exact ⟨_, gone', h'⟩
  | get key =>
      cases hfind : s.find key with
      | none => exact ⟨_, gone, (h.get_miss hfind).2⟩
      | some e => exact ⟨_, gone, (h.get_hit hfind (h.count_lt hop hfind)).2⟩
  | release i =>
      cases hx : d.loans[i]? with
      | none =>
          rw [deskStep_release_none hx]
          exact ⟨s, gone, h⟩
      | some x =>
          obtain ⟨gone', h'⟩ := (h.release hx).2
          exact ⟨_, gone', h'⟩

theorem Desk.Ok.run {Q : Desk → DeskOp → Prop}
    (hQ : ∀ {d s gone later op}, Desk.Ok d s gone later → Q d op → Countable d op)
    (ops : List DeskOp) :
    ∀ {d : Desk} {s : Shelf} {gone : List Nat}, d.Ok s gone (payloads ops) →
      Along deskStep Q d ops → ∃ s' gone', (deskRun d ops).Ok s' gone' [] := by
  induction ops with
  | nil => exact fun h _ => ⟨_, _, h⟩
  | cons op ops ih =>
      rintro d s gone h ⟨hop, hops⟩
      obtain ⟨s', gone', h'⟩ := h.step (hQ h hop)
      exact ih h' hops

theorem open_ok {c : LruCache} {maxSize maxEntries : Nat} {alloc : Bool}
    (hinit : lruCacheInit maxSize maxEntries alloc = some c) {ops : List DeskOp}
    (hdistinct : (payloads ops).Nodup) :
    (Desk.open c).Ok (LruCache.emptyShelf maxSize maxEntries) [] (payloads ops) where
  rep := LruCache.lruCacheInit_rep hinit
  sound := LruCache.emptyShelf_sound ..
  kept := ⟨.refl _, List.nodup_nil, fun h => (by cases h), by simp, by simp, fun _ h => (by cases h), fun _ h => (by cases h)⟩
  nodup := List.nodup_nil
  numbered := by
    rintro e (he | he)
    · cases he
    · cases he
  coming := fun _ _ h => (by cases h)
  distinct := hdistinct

/-! ## Closing -/

/-- The loop of `lru_cache_destroy` frees the entries of the list one after the other. -/
theorem destroyLoop_frees (l : List Nat) :
    ∀ {c : LruCache} {p n : Nat}, c.links.Seg p l 0 → 0 ∉ l → l.length ≤ n →
      (destroyLoop n (l.head?.getD 0) c).frees = c.frees ++ l.flatMap fun e =>
        [.payload (c.heap e).data, .key (c.heap e).key.addr, .entry e] := by
  induction l with
  | nil =>
      intro c p n _ _ _
      rw [List.flatMap_nil, List.append_nil]
      cases n with
      | zero => rfl
      | succ n => rfl
  | cons e l ih =>
      rintro c p n ⟨_, hnext, hrest⟩ h0 hn
      obtain ⟨n, rfl⟩ : ∃ m, n = m + 1 := ⟨n - 1, by rw [List.length_cons] at hn; omega⟩
      have he : e ≠ 0 := fun heq => h0 (heq ▸ List.mem_cons_self)
      have hstep : destroyLoop (n + 1) e c =
          destroyLoop n (l.head?.getD 0) (entryFree c e) := by
        rw [destroyLoop, if_neg he]
        exact congrArg (fun next => destroyLoop n next (entryFree c e)) hnext
      have hrest' : (entryFree c e).links.Seg e l 0 := hrest
      refine (congrArg LruCache.frees hstep).trans ?_
      rw [ih hrest' (fun hmem => h0 (List.mem_cons_of_mem _ hmem)) (Nat.le_of_succ_le_succ hn),
        List.flatMap_cons, ← List.append_assoc]
      simp [entryFree, LruCache.free]

theorem Desk.Ok.closed (h : d.Ok s gone later) (hloans : d.loans = []) :
    (lruCacheDestroy d.cache).frees.Perm d.allocs := by
  have hgone : gone = [] := by
    rw [List.eq_nil_iff_forall_not_mem]
    intro e he
    refine (h.kept.dead e he).2 ?_
    rw [h.kept.count e (List.mem_append_right _ he), hloans]
    rfl
  have hledger := h.kept.ledger
  rw [hgone, List.append_nil] at hledger
  have hfrees : (lruCacheDestroy d.cache).frees = s.frees ++ s.order.flatMap s.blocks := by
    have hloop := destroyLoop_frees s.order h.rep.list.seg h.rep.list.nonnull (Nat.le_refl _)
    have hhead : d.cache.head = s.order.head?.getD 0 := h.rep.list.head
    have hold : d.cache.frees = s.frees := congrArg Shelf.frees h.rep.shelf
    change (destroyLoop d.cache.numEntries d.cache.head d.cache).frees = _
    rw [hhead, h.rep.num, hloop, hold]
    congr 1
    refine List.flatMap_congr fun e _ => ?_
    rw [Shelf.blocks, ← h.rep.heap e]
    rfl
  rw [hfrees]
  exact hledger.symm

/-- Fewer than `2 ^ 32` borrows are outstanding after the call. -/
def Few (d : Desk) (op : DeskOp) : Prop := (deskStep d op).loans.length < refMod

instance (d : Desk) (op : DeskOp) : Decidable (Few d op) :=
  inferInstanceAs (Decidable ((deskStep d op).loans.length < refMod))

theorem Desk.Ok.countable (h : d.Ok s gone later) {op : DeskOp} (hop : Few d op) :
    Countable d op := by
  cases op with
  | put key data size alloc => trivial
  | release i => trivial
  | get key =>
      intro hne
      rw [h.rep.lookup key] at hne ⊢
      cases hfind : s.find key with
      | none =>
          rw [hfind] at hne
          exact absurd rfl hne
      | some e =>
          have hmem := LruCache.find_mem hfind
          have hentry : (lruCacheGet d.cache key).1 = e := by
            rw [(h.rep.get key).1, Shelf.get_hit hfind]
          have hloans : (deskStep d (.get key)).loans.length = d.loans.length + 1 := by
            rw [deskStep_get, hentry, if_neg (h.rep.nonnull hmem), List.length_cons]
          have hcount : (d.cache.heap e).refcount = borrows d.loans e :=
            (congrArg Item.refcount (h.rep.heap e)).trans
              (h.kept.count e (List.mem_append_left _ hmem))
          have hle : borrows d.loans e ≤ d.loans.length := List.countP_le_length
          rw [Few, hloans] at hop
          rw [Option.getD_some, hcount]
          omega

theorem allocs_step (d : Desk) (op : DeskOp) {b : Block} (hb : b ∈ d.allocs) :
    b ∈ (deskStep d op).allocs := by
  cases op with
  | put key data size alloc => exact List.mem_append_left _ hb
  | get key =>
      rw [deskStep_get]
      split
      · exact hb
      · exact hb
  | release i =>
      rw [deskStep]
      split
      · exact hb
      · exact hb

theorem allocs_run (ops : List DeskOp) {b : Block} :
    ∀ {d : Desk}, b ∈ d.allocs → b ∈ (deskRun d ops).allocs := by
  induction ops with
  | nil => exact fun hb => hb
  | cons op ops ih => exact fun hb => ih (allocs_step _ op hb)

theorem payload_mem_putBlocks (c : LruCache) (key : List UInt8) (data size : Nat) (alloc : PutAlloc) :
    .payload data ∈ c.putBlocks key data size alloc := by
  rw [LruCache.putBlocks]
  split_ifs
  · exact List.mem_cons_self
  · exact List.mem_cons_self
  · exact List.mem_cons_self
  · exact List.mem_cons_self
  · exact List.mem_cons_self

theorem payload_mem_run (ops : List DeskOp) {p : Nat} :
    ∀ (d : Desk), p ∈ payloads ops → .payload p ∈ (deskRun d ops).allocs := by
  induction ops with
  | nil => exact fun _ hp => absurd hp List.not_mem_nil
  | cons op ops ih =>
      intro d hp
      cases op with
      | put key data size alloc =>
          rcases List.mem_cons.mp hp with rfl | hp
          · refine allocs_run ops (d := deskStep d (.put key p size alloc)) ?_
            exact List.mem_append_right _ (payload_mem_putBlocks ..)
          · exact ih _ hp
      | get key => exact ih _ hp
      | release i => exact ih _ hp

/-- **Every block is freed exactly once.** In a run from `lru_cache_init` to `lru_cache_destroy`
with distinct payloads, fewer than `2 ^ 32` borrows at a time and all borrows returned in the
end, whatever allocations fail, every payload given to `put` and every entry and copy of a key
allocated is freed exactly once, and nothing else is freed. -/
theorem blocks_freed_once {c : LruCache} {maxSize maxEntries : Nat} {alloc : Bool}
    (hinit : lruCacheInit maxSize maxEntries alloc = some c) (ops : List DeskOp)
    (hdistinct : (payloads ops).Nodup) (hfew : Along deskStep Few (Desk.open c) ops)
    (hback : (deskRun (Desk.open c) ops).loans = []) :
    (∀ p ∈ payloads ops,
      (lruCacheDestroy (deskRun (Desk.open c) ops).cache).frees.count (.payload p) = 1) ∧
    (∀ b ∈ (deskRun (Desk.open c) ops).allocs,
      (lruCacheDestroy (deskRun (Desk.open c) ops).cache).frees.count b = 1) ∧
    ∀ b ∈ (lruCacheDestroy (deskRun (Desk.open c) ops).cache).frees,
      b ∈ (deskRun (Desk.open c) ops).allocs := by
  obtain ⟨s, gone, h⟩ := (open_ok hinit hdistinct).run (fun h hop => h.countable hop) ops hfew
  have hperm := h.closed hback
  have honce : ∀ b ∈ (deskRun (Desk.open c) ops).allocs,
      (lruCacheDestroy (deskRun (Desk.open c) ops).cache).frees.count b = 1 := by
    intro b hb
    rw [hperm.count_eq b]
    exact List.count_eq_one_of_mem h.nodup hb
  exact ⟨fun p hp => honce _ (payload_mem_run ops _ hp), honce, fun b hb => hperm.mem_iff.mp hb⟩

/-- An entry is evicted while it is borrowed and its key is put again; a payload is replaced,
one is too large, and one allocation fails. -/
def deskOps : List DeskOp :=
  [.put [97] 1 40 LruCache.granted, .get [97], .put [98] 2 50 LruCache.granted,
    .put [99] 3 30 LruCache.granted, .put [97] 4 10 LruCache.granted,
    .put [98] 5 20 LruCache.granted, .put [100] 6 200 LruCache.granted,
    .put [100] 7 10 ⟨true, false, true⟩, .release 0]

theorem blocks_freed_once_sample :
    payloads deskOps = [1, 2, 3, 4, 5, 6, 7] ∧
    ∀ p ∈ payloads deskOps,
      (lruCacheDestroy (deskRun (Desk.open (LruCache.sampleCache 100)) deskOps).cache).frees.count
        (.payload p) = 1 :=
  ⟨rfl, (blocks_freed_once
    (show lruCacheInit 100 4 true = some (LruCache.sampleCache 100) from rfl) deskOps
    (by decide) (by decide +kernel) (by decide +kernel)).1⟩

/-! ## What a borrower sees -/

/-- The client of every loan finds in the entry what it saw at the `get`, and neither the entry
nor the payload has been freed. -/
def Desk.Valid (d : Desk) : Prop :=
  ∀ x ∈ d.loans,
    (d.cache.heap x.entry).data = x.data ∧ (d.cache.heap x.entry).size = x.size ∧
      .payload x.data ∉ d.cache.frees ∧ .entry x.entry ∉ d.cache.frees

/-- A call that leaves the borrowers alone: a `put` is not of the key of an entry that is cached
and borrowed, and an `unsigned` can count the borrows of the entry that a `get` finds. -/
def Undisturbing (d : Desk) : DeskOp → Prop
  | .put key _ _ _ => ∀ x ∈ d.loans, x.entry ≠ htLookup d.cache.table ⟨0, key⟩
  | op => Countable d op

instance (d : Desk) (op : DeskOp) : Decidable (Countable d op) :=
  match op with
  | .put _ _ _ _ => .isTrue trivial
  | .get key =>
      inferInstanceAs (Decidable (htLookup d.cache.table ⟨0, key⟩ ≠ 0 →
        (d.cache.heap (htLookup d.cache.table ⟨0, key⟩)).refcount + 1 < refMod))
  | .release _ => .isTrue trivial

instance (d : Desk) (op : DeskOp) : Decidable (Undisturbing d op) :=
  match op with
  | .put key _ _ _ =>
      inferInstanceAs (Decidable (∀ x ∈ d.loans, x.entry ≠ htLookup d.cache.table ⟨0, key⟩))
  | .get key => inferInstanceAs (Decidable (Countable d (.get key)))
  | .release i => inferInstanceAs (Decidable (Countable d (.release i)))

/-- Entries that are borrowed hold what was seen in them. -/
def Seen (s : Shelf) (loans : List Loan) : Prop :=
  ∀ x ∈ loans, (s.items x.entry).data = x.data ∧ (s.items x.entry).size = x.size

theorem Desk.Ok.valid (h : d.Ok s gone later) (hseen : Seen s d.loans) : d.Valid := by
  intro x hx
  have hitem := h.rep.heap x.entry
  have hmem := h.kept.held x hx
  have hfrees : d.cache.frees = s.frees := congrArg Shelf.frees h.rep.shelf
  have hdisjoint := (List.nodup_append.mp (h.kept.ledger.nodup_iff.mp h.nodup)).2.2
  have hblock : ∀ b ∈ s.blocks x.entry, b ∉ d.cache.frees := by
    intro b hb hfree
    rw [hfrees] at hfree
    exact hdisjoint b hfree b (List.mem_flatMap.mpr ⟨x.entry, hmem, hb⟩) rfl
  have hdata : (d.cache.heap x.entry).data = x.data :=
    (congrArg Item.data hitem).trans (hseen x hx).1
  refine ⟨hdata, (congrArg Item.size hitem).trans (hseen x hx).2, ?_, ?_⟩
  · rw [← (hseen x hx).1]
    exact hblock _ (by simp [Shelf.blocks])
  · exact hblock _ (by simp [Shelf.blocks])

/-- A `put` changes the payload of no entry but the one it finds. -/
theorem put_items (s : Shelf) {key : List UInt8} {data size : Nat} {alloc : PutAlloc}
    {taken : Bool} {e : Nat} (hne : s.find key ≠ some e) (hold : e < s.fresh) :
    ((s.put key data size alloc taken).2.items e).data = (s.items e).data ∧
      ((s.put key data size alloc taken).2.items e).size = (s.items e).size := by
  have hend := Shelf.put_cases s key data size alloc taken
  have hshort := Shelf.makeRoom_shortened size s.order.length (s.alloc key data size)
  have hroom : ((s.room key data size).items e).data = (s.items e).data ∧
      ((s.room key data size).items e).size = (s.items e).size := by
    obtain ⟨b, hb⟩ := hshort.items e
    have halloc : (s.alloc key data size).items e = s.items e := by
      simp [Shelf.alloc, Shelf.modify, Nat.ne_of_lt hold]
    change (s.room key data size).items e = _ at hb
    rw [hb, halloc]
    exact ⟨rfl, rfl⟩
  generalize s.put key data size alloc taken = out at hend ⊢
  cases hend with
  | @hit u hfind =>
      have hne' : e ≠ u := fun h0 => hne (h0 ▸ hfind)
      rw [Shelf.overwrite_eq]
      simp [hne']
  | big => exact ⟨rfl, rfl⟩
  | noEntry => exact ⟨rfl, rfl⟩
  | noKey => exact ⟨rfl, rfl⟩
  | refused => exact hroom
  | inserted => exact hroom

theorem Desk.Ok.born (h : d.Ok s gone later) {e : Nat} (he : e ∈ s.order ++ gone) : e < s.fresh := by
  rcases List.mem_append.mp he with he | he
  · exact h.sound.born e he
  · exact h.kept.born e he

theorem Desk.Ok.seen_step {op : DeskOp} {ops : List DeskOp}
    (h : d.Ok s gone (payloads (op :: ops))) (hseen : Seen s d.loans) (hop : Undisturbing d op) :
    ∃ s' gone', (deskStep d op).Ok s' gone' (payloads ops) ∧ Seen s' (deskStep d op).loans := by
  cases op with
  | put key data size alloc =>
      obtain ⟨gone', h'⟩ := h.put key size alloc
      refine ⟨_, gone', h', fun x hx => ?_⟩
      have hmem := h.kept.held x hx
      -- only a `put` under the key of a borrowed entry would change what is in it
      have hne : s.find key ≠ some x.entry := by
        intro hfind
        refine hop x hx ?_
        rw [h.rep.lookup key, hfind]
        rfl
      obtain ⟨hdata, hsize⟩ := put_items s hne (h.born hmem)
      exact ⟨hdata.trans (hseen x hx).1, hsize.trans (hseen x hx).2⟩
  | get key =>
      have hsame : ∀ e, ((s.get key).2.items e).data = (s.items e).data ∧
          ((s.get key).2.items e).size = (s.items e).size := by
        intro e
        obtain ⟨n, hn⟩ := (Shelf.get_frame s key).2.2.2 e
        rw [hn]
        exact ⟨rfl, rfl⟩
      cases hfind : s.find key with
      | none =>
          obtain ⟨hloans, h'⟩ := h.get_miss hfind
          refine ⟨_, gone, h', fun x hx => ?_⟩
          rw [hloans] at hx
          exact ⟨(hsame _).1.trans (hseen x hx).1, (hsame _).2.trans (hseen x hx).2⟩
      | some e =>
          have hmax : (s.items e).refcount + 1 < refMod := h.count_lt hop hfind
          obtain ⟨hloans, h'⟩ := h.get_hit hfind hmax
          refine ⟨_, gone, h', fun x hx => ?_⟩
          rw [hloans] at hx
          rcases List.mem_cons.mp hx with rfl | hx
          · exact hsame e
          · exact ⟨(hsame _).1.trans (hseen x hx).1, (hsame _).2.trans (hseen x hx).2⟩
  | release i =>
      cases hx : d.loans[i]? with
      | none =>
          rw [deskStep_release_none hx]
          exact ⟨s, gone, h, hseen⟩
      | some x =>
          obtain ⟨hloans, gone', h'⟩ := h.release hx
          refine ⟨_, gone', h', fun y hy => ?_⟩
          rw [hloans] at hy
          obtain ⟨items, frees, heq, hitems⟩ := Shelf.release_frame s x.entry
          obtain ⟨n, hn⟩ := hitems y.entry
          rw [heq]
          simp only [hn]
          exact hseen y (List.mem_of_mem_eraseIdx hy)

theorem Desk.Ok.seen_run (ops : List DeskOp) :
    ∀ {d : Desk} {s : Shelf} {gone : List Nat}, d.Ok s gone (payloads ops) → Seen s d.loans →
      Along deskStep Undisturbing d ops →
      ∃ s' gone', (deskRun d ops).Ok s' gone' [] ∧ Seen s' (deskRun d ops).loans := by
  induction ops with
  | nil => exact fun h hseen _ => ⟨_, _, h, hseen⟩
  | cons op ops ih =>
      rintro d s gone h hseen ⟨hop, hops⟩
      obtain ⟨s', gone', h', hseen'⟩ := h.seen_step hseen hop
      exact ih h' hseen' hops

/-- **Borrowed payloads stay valid.** In every run of any number of clients, with distinct
payloads, whose calls all meet `Undisturbing`, every loan outstanding in any state is valid. -/
theorem loans_valid {c : LruCache} {maxSize maxEntries : Nat} {alloc : Bool}
    (hinit : lruCacheInit maxSize maxEntries alloc = some c) (ops : List DeskOp)
    (hdistinct : (payloads ops).Nodup) (hops : Along deskStep Undisturbing (Desk.open c) ops) :
    (deskRun (Desk.open c) ops).Valid := by
  obtain ⟨s, gone, h, hseen⟩ := (open_ok hinit hdistinct).seen_run ops (fun _ h => (by cases h)) hops
  exact h.valid hseen

/-- The entry of a loan is evicted, and its key put again. -/
def evictOps : List DeskOp :=
  [.put [97] 1 40 LruCache.granted, .get [97], .put [98] 2 70 LruCache.granted,
    .put [97] 3 10 LruCache.granted, .get [97]]

theorem loans_valid_sample :
    (deskRun (Desk.open (LruCache.sampleCache 100)) evictOps).loans = [⟨3, 3, 10⟩, ⟨1, 1, 40⟩] ∧
    (deskRun (Desk.open (LruCache.sampleCache 100)) evictOps).Valid :=
  ⟨by decide +kernel, loans_valid
    (show lruCacheInit 100 4 true = some (LruCache.sampleCache 100) from rfl) evictOps
    (by decide) (by decide +kernel)⟩

/-- The key of a loan is put again. -/
def overwriteOps : List DeskOp :=
  [.put [97] 1 40 LruCache.granted, .get [97], .put [97] 2 50 LruCache.granted]

theorem not_valid_overwrite :
    lruCacheInit 100 4 true = some (LruCache.sampleCache 100) ∧
    ¬ (deskRun (Desk.open (LruCache.sampleCache 100)) overwriteOps).Valid := by
  refine ⟨rfl, fun hvalid => ?_⟩
  have hloan : (⟨1, 1, 40⟩ : Loan) ∈
      (deskRun (Desk.open (LruCache.sampleCache 100)) overwriteOps).loans := by decide +kernel
  have hfreed : Block.payload 1 ∈
      (deskRun (Desk.open (LruCache.sampleCache 100)) overwriteOps).cache.frees := by decide +kernel
  exact (hvalid _ hloan).2.2.1 hfreed

end HttpServer
