import HttpServer.Lib.Recency
import HttpServer.Cache.Policy

set_option autoImplicit false

/-! # More entries, more hits

Two caches with the same limit in bytes are given the same calls. As long as every item that is put
fits into the larger one beside all the bytes it holds (`Roomy`), what the smaller one holds the
larger one holds too, and every hit of the smaller one is a hit of the larger one
(`more_entries_more_hits`). Once the limit in bytes comes into play this is no longer so
(`not_more_hits_bound`).
-/

namespace HttpServer

open CLib

/-! ## Calls and answers -/

namespace LruCache

/-- The same call on two caches: what is released are entries of their own. -/
inductive SameCall : LruOp → LruOp → Prop
  | put (key : List UInt8) (data : Nat) (size : UInt64) (alloc alloc' : PutAlloc) :
      SameCall (.put key data size alloc) (.put key data size alloc')
  | get (key : List UInt8) : SameCall (.get key) (.get key)
  | release (e e' : Nat) : SameCall (.release e) (.release e')

end LruCache

/-- A hit of the first is the same hit of the second, and what the first has stored so has the
second. -/
inductive Answer.AtMost : Answer → Answer → Prop
  | same (a : Answer) : AtMost a a
  | miss (a : Answer) : AtMost .miss a
  | refused (a : Answer) : AtMost (.stored false) a

/-! ## The policy with room for all bytes -/

namespace Policy

variable {p q p' q' : Policy}

/-- How many items there can be: a new item is stored even where `max_entries` is `0`. -/
def capacity (p : Policy) : Nat := max p.maxEntries 1

/-- As long as the bytes fit, only the number of entries counts. -/
theorem kept_eq_take {size : Nat} (h : bytes p.items + size ≤ p.maxSize) :
    p.kept size = p.items.take (p.capacity - 1) := by
  have hbytes : ∀ k, bytes (p.items.take k) ≤ bytes p.items :=
    fun k => ((List.take_sublist k p.items).map _).sum_le_sum (fun _ _ => Nat.zero_le _)
  have hiff : ∀ k, p.Admits (p.items.take k) size ↔ (p.items.take k).length < p.maxEntries := by
    intro k
    have := hbytes k
    exact ⟨fun h0 => h0.1, fun h0 => ⟨h0, by omega⟩⟩
  have hlength : ∀ k, k ≤ p.items.length → (p.items.take k).length = k :=
    fun k hk => by rw [List.length_take, Nat.min_eq_left hk]
  rw [kept, capacity]
  -- the greatest number of items is the least of what there is and what there is room for
  have hgreatest : Nat.findGreatest (fun k => p.Admits (p.items.take k) size) p.items.length =
      min (p.maxEntries - 1) p.items.length := by
    rw [Nat.findGreatest_eq_iff]
    refine ⟨Nat.min_le_right .., fun hne => (hiff _).mpr ?_, fun k hlt hle h0 => ?_⟩
    · rw [hlength _ (Nat.min_le_right ..)]
      omega
    · have hk := (hiff k).mp h0
      rw [hlength k hle] at hk
      omega
  rw [hgreatest, show max p.maxEntries 1 - 1 = p.maxEntries - 1 by omega, ← List.take_eq_take_min]

/-- The item of a `put`, also of one that overwrites an item, fits beside the bytes of all items
there are, or is too big on its own. -/
def Roomy (p : Policy) : LruCache.LruOp → Prop
  | .put _ _ size _ => size.toNat ≤ p.maxSize → bytes p.items + size.toNat ≤ p.maxSize
  | .get _ => True
  | .release _ => True

/-! ## One call on two caches -/

/-- The policy `p` holds less than `q`, which has room for more entries, and has had fewer hits. -/
structure Below (p q : Policy) : Prop where
  inside : Recency.Inside PolicyItem.key p.capacity q.capacity p.items q.items
  maxSize : p.maxSize = q.maxSize
  maxEntries : p.maxEntries ≤ q.maxEntries
  hits : p.hits ≤ q.hits

/-- A key that is not found is new. -/
theorem new_of_find {l : List PolicyItem} {key : List UInt8} (h : l.find? (hasKey key) = none) :
    key ∉ l.map PolicyItem.key := by
  intro hmem
  obtain ⟨y, hy, hkey⟩ := Recency.mem_keys_iff.mp hmem
  exact List.find?_eq_none.mp h y hy hkey

theorem mem_of_find {l : List PolicyItem} {key : List UInt8} {x : PolicyItem}
    (h : l.find? (hasKey key) = some x) : key ∈ l.map PolicyItem.key :=
  Recency.mem_keys_iff.mpr ⟨x, List.mem_of_find?_eq_some h, List.find?_some h⟩

theorem key_of_find {l : List PolicyItem} {key : List UInt8} {x : PolicyItem}
    (h : l.find? (hasKey key) = some x) : x.key = key :=
  Recency.hasKey_iff.mp (List.find?_some h)

theorem Below.get (h : Below p q) (key : List UInt8) :
    Answer.AtMost (p.get key).1 (q.get key).1 ∧ Below (p.get key).2 (q.get key).2 := by
  rw [Policy.get, Policy.get]
  cases hp : p.items.find? (hasKey key) with
  | some x =>
      rw [show q.items.find? (hasKey key) = some x from h.inside.find hp]
      have hx : x.key = key := key_of_find hp
      subst hx
      exact ⟨.same _, h.inside.refresh (mem_of_find hp), h.maxSize, h.maxEntries,
        Nat.succ_le_succ h.hits⟩
  | none =>
      cases hq : q.items.find? (hasKey key) with
      | none => exact ⟨.same _, h.inside, h.maxSize, h.maxEntries, h.hits⟩
      | some x =>
          have hx : x.key = key := key_of_find hq
          subst hx
          exact ⟨.miss _, h.inside.refresh_right (new_of_find hp) (mem_of_find hq), h.maxSize,
            h.maxEntries, Nat.le_succ_of_le h.hits⟩

theorem Below.put (h : Below p q) (key : List UInt8) (data size : Nat)
    (hroom : size ≤ q.maxSize → bytes q.items + size ≤ q.maxSize) :
    Answer.AtMost (p.put key data size).1 (q.put key data size).1 ∧
      Below (p.put key data size).2 (q.put key data size).2 := by
  have hpos : 1 ≤ p.capacity := Nat.le_max_right ..
  have hcap : p.capacity ≤ q.capacity := max_le_max_right 1 h.maxEntries
  -- the byte limits evict nothing, so what is kept is a number of items
  have hkept : size ≤ q.maxSize → p.kept size = p.items.take (p.capacity - 1) ∧
      q.kept size = q.items.take (q.capacity - 1) := by
    intro hsize
    have hq := hroom hsize
    have hbytes : bytes p.items ≤ bytes q.items :=
      (h.inside.sublist.map _).sum_le_sum (fun _ _ => Nat.zero_le _)
    exact ⟨kept_eq_take (by rw [h.maxSize]; omega), kept_eq_take hq⟩
  let x : PolicyItem := ⟨key, data, size⟩
  rw [Policy.put, Policy.put]
  cases hp : p.items.find? (hasKey key) with
  | some y =>
      rw [show q.items.find? (hasKey key) = some y from h.inside.find hp]
      exact ⟨.same _, h.inside.refresh (x := x) (mem_of_find hp), h.maxSize, h.maxEntries, h.hits⟩
  | none =>
      rcases Nat.lt_or_ge q.maxSize size with hbig | hsize
      · -- the item is too big, but takes the place of one with its key
        have hbig' : p.maxSize < size := by rw [h.maxSize]; exact hbig
        simp only [if_pos hbig, if_pos hbig']
        cases hq : q.items.find? (hasKey key) with
        | none => exact ⟨.same _, h⟩
        | some y =>
            exact ⟨.refused _, h.inside.refresh_right (x := x) (new_of_find hp) (mem_of_find hq),
              h.maxSize, h.maxEntries, h.hits⟩
      -- both take the item: the smaller as a new one, the larger perhaps over an old one
      · have hsize' : ¬ p.maxSize < size := by rw [h.maxSize]; exact Nat.not_lt.mpr hsize
        obtain ⟨hpk, hqk⟩ := hkept hsize
        simp only [if_neg hsize', if_neg (Nat.not_lt.mpr hsize), hpk, hqk]
        cases hq : q.items.find? (hasKey key) with
        | none =>
            exact ⟨.same _, h.inside.push (x := x) hpos hcap (new_of_find hq), h.maxSize,
              h.maxEntries, h.hits⟩
        | some y =>
            exact ⟨.same _, h.inside.push_refresh (x := x) hpos (new_of_find hp) (mem_of_find hq),
              h.maxSize, h.maxEntries, h.hits⟩

theorem Below.step (h : Below p q) {op op' : LruCache.LruOp} (hsame : LruCache.SameCall op op')
    (hroom : q.Roomy op') :
    Answer.AtMost (p.step op).1 (q.step op').1 ∧ Below (p.step op).2 (q.step op').2 := by
  cases hsame with
  | put key data size => exact h.put (cstr key) data size.toNat hroom
  | get key => exact h.get (cstr key)
  | release => exact ⟨.same _, h⟩

/-- Any calls. -/
theorem Below.run {ops ops' : List LruCache.LruOp}
    (hsame : List.Forall₂ LruCache.SameCall ops ops') :
    ∀ {p q : Policy}, Below p q → Along (fun q op => (q.step op).2) Roomy q ops' →
      List.Forall₂ Answer.AtMost (p.run ops).1 (q.run ops').1 ∧
        Below (p.run ops).2 (q.run ops').2 := by
  induction hsame with
  | nil => exact fun h _ => ⟨.nil, h⟩
  | cons hop _ ih =>
      intro p q h hroom
      obtain ⟨hans, hnext⟩ := h.step hop hroom.1
      obtain ⟨hrest, hend⟩ := ih hnext hroom.2
      exact ⟨.cons hans hrest, hend⟩

theorem empty_below {maxEntries maxEntries' : Nat} (maxSize : Nat) (hle : maxEntries ≤ maxEntries') :
    Below (empty maxSize maxEntries) (empty maxSize maxEntries') :=
  ⟨⟨.slnil, .inl rfl, Nat.zero_le _, List.nodup_nil⟩, rfl, hle, Nat.le_refl 0⟩

end Policy

/-! ## Two caches -/

namespace LruCache

variable {c : LruCache} {s : Shelf} {p : Policy}

/-- The limit in bytes does not make room for the item of a `put`. -/
def Roomy (c : LruCache) : LruOp → Prop
  | .put _ _ size _ => size.toNat ≤ c.maxSize → c.currentSize + size.toNat ≤ c.maxSize
  | .get _ => True
  | .release _ => True

instance (c : LruCache) (op : LruOp) : Decidable (Roomy c op) :=
  match op with
  | .put _ _ size _ =>
      inferInstanceAs (Decidable (size.toNat ≤ c.maxSize → c.currentSize + size.toNat ≤ c.maxSize))
  | .get _ => .isTrue trivial
  | .release _ => .isTrue trivial

theorem Rep.roomy (h : Rep c s) (hs : s.Sound) (hm : s.Matches p) {op : LruOp} (hop : Roomy c op) :
    p.Roomy op := by
  cases op with
  | put key data size alloc =>
      have hmax : c.maxSize = p.maxSize := (congrArg Shelf.maxSize h.shelf).trans hm.maxSize
      have hroom := hop
      rw [Roomy, (h.follows hs hm).currentSize, hmax] at hroom
      exact hroom
  | get => exact trivial
  | release => exact trivial

/-- The policy has room as long as the cache has. -/
theorem Rep.roomy_run (ops : List LruOp) :
    ∀ {c : LruCache} {s : Shelf} {p : Policy}, Rep c s → s.Sound → s.Matches p →
      Along lruNext Granted c ops → Along lruNext Roomy c ops →
      Along (fun p op => (p.step op).2) Policy.Roomy p ops := by
  induction ops with
  | nil => exact fun _ _ _ _ _ => trivial
  | cons op ops ih =>
      rintro c s p h hs hm ⟨hop, hops⟩ ⟨hroom, hrooms⟩
      have hnext := (h.follow_step hs hm hop).2
      exact ⟨h.roomy hs hm hroom, ih (h.step hs op).2 (sound_step hs _ op) hnext hops hrooms⟩

theorem empty_matches (maxSize maxEntries : Nat) :
    (emptyShelf maxSize maxEntries).Matches (Policy.empty maxSize maxEntries) :=
  ⟨rfl, rfl, rfl, rfl, rfl, rfl, rfl, show 0 < sizeMod by decide⟩

/-- The list of the first cache holds items of the second only, in the order they have there. -/
def Nested (c c' : LruCache) : Prop :=
  ∃ l l', c.links.IsList l ∧ c'.links.IsList l' ∧ (l.map c.itemOf).Sublist (l'.map c'.itemOf)

/-- **More entries, more hits.** Two new caches with the same limit in bytes, the second with room
for as many entries or more, are given the same calls, with all allocations granted. As long as
every item that is put fits into the second one beside all the bytes it holds, it answers every
`get` the first one answers, with the same data; it holds all the first one holds, in the same
order; and it has counted as many hits or more, before its counter can have wrapped. -/
theorem more_entries_more_hits {c c' : LruCache} {maxSize maxEntries maxEntries' : Nat}
    {alloc alloc' : Bool} (hinit : lruCacheInit maxSize maxEntries alloc = some c)
    (hinit' : lruCacheInit maxSize maxEntries' alloc' = some c') (hle : maxEntries ≤ maxEntries')
    (ops ops' : List LruOp) (hsame : List.Forall₂ SameCall ops ops')
    (hops : Along lruNext Granted c ops) (hops' : Along lruNext Granted c' ops')
    (hroom : Along lruNext Roomy c' ops') :
    List.Forall₂ Answer.AtMost (answers c ops) (answers c' ops') ∧
      Nested (lruRun c ops) (lruRun c' ops') ∧
      (ops.length < 2 ^ 64 → (lruRun c ops).hits ≤ (lruRun c' ops').hits) := by
  obtain ⟨hans, s, hrep, hs, hm⟩ := (lruCacheInit_rep hinit).follow_run ops (emptyShelf_sound ..)
    (empty_matches maxSize maxEntries) hops
  obtain ⟨hans', s', hrep', hs', hm'⟩ := (lruCacheInit_rep hinit').follow_run ops'
    (emptyShelf_sound ..) (empty_matches maxSize maxEntries') hops'
  -- both caches follow their policies, and the policies are compared
  have hroom' := (lruCacheInit_rep hinit').roomy_run ops' (emptyShelf_sound ..)
    (empty_matches maxSize maxEntries') hops' hroom
  obtain ⟨hatmost, hbelow⟩ := (Policy.empty_below maxSize hle).run hsame hroom'
  have hfollows := hrep.follows hs hm
  have hfollows' := hrep'.follows hs' hm'
  refine ⟨by rw [hans, hans']; exact hatmost, ?_, fun hlen => ?_⟩
  · obtain ⟨l, hl, hitems⟩ := hfollows.items
    obtain ⟨l', hl', hitems'⟩ := hfollows'.items
    exact ⟨l, l', hl, hl', by rw [hitems, hitems']; exact hbelow.inside.sublist⟩
  · have hgets := Policy.run_gets ops (Policy.empty maxSize maxEntries)
    have hgets' := Policy.run_gets ops' (Policy.empty maxSize maxEntries')
    have hcount := List.countP_le_length (p := isGet) (l := ops)
    have hcount' := List.countP_le_length (p := isGet) (l := ops')
    have hsize := hsame.length_eq
    have hstart : (Policy.empty maxSize maxEntries).hits + (Policy.empty maxSize maxEntries).misses +
        (Policy.empty maxSize maxEntries').hits + (Policy.empty maxSize maxEntries').misses = 0 := rfl
    -- neither counter has wrapped
    rw [hfollows.hits, hfollows'.hits, UInt64.le_iff_toNat_le, Shelf.toNat_count (by omega),
      Shelf.toNat_count (by omega)]
    exact hbelow.hits

def cacheOf (maxSize maxEntries : Nat) : LruCache := (lruCacheInit maxSize maxEntries true).get rfl

/-- Two items more than the smaller cache has room for, and one that is asked for again. -/
def crowdOps : List LruOp :=
  [.put [97] 1 7 granted, .put [98] 2 1 granted, .put [99] 3 1 granted, .get [97],
    .put [100] 4 3 granted, .get [99]]

theorem more_entries_more_hits_crowd :
    answers (cacheOf 100 2) crowdOps =
        [.stored true, .stored true, .stored true, .miss, .stored true, .hit 3 1] ∧
      answers (cacheOf 100 3) crowdOps =
        [.stored true, .stored true, .stored true, .hit 1 7, .stored true, .hit 3 1] ∧
      Nested (lruRun (cacheOf 100 2) crowdOps) (lruRun (cacheOf 100 3) crowdOps) := by
  have hsame : List.Forall₂ SameCall crowdOps crowdOps :=
    .cons (.put ..) (.cons (.put ..) (.cons (.put ..) (.cons (.get _) (.cons (.put ..)
      (.cons (.get _) .nil)))))
  have hmore := more_entries_more_hits (show lruCacheInit 100 2 true = some (cacheOf 100 2) from rfl)
    (show lruCacheInit 100 3 true = some (cacheOf 100 3) from rfl) (by decide) crowdOps crowdOps
    hsame (by decide +kernel) (by decide +kernel) (by decide +kernel)
  exact ⟨by decide +kernel, by decide +kernel, hmore.2.1⟩

/-- With a limit of ten bytes the same calls find an item in the smaller cache that is not in the
larger one: there the first item is kept, and it takes all the room. -/
theorem not_more_hits_bound :
    answers (cacheOf 10 2) crowdOps =
        [.stored true, .stored true, .stored true, .miss, .stored true, .hit 3 1] ∧
      answers (cacheOf 10 3) crowdOps =
        [.stored true, .stored true, .stored true, .hit 1 7, .stored true, .miss] := by
  exact ⟨by decide +kernel, by decide +kernel⟩

end LruCache

end HttpServer
