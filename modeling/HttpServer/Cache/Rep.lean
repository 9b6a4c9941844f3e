import HttpServer.Lib.DList
import HttpServer.HashTable.Map
import HttpServer.Cache.Shelf

set_option autoImplicit false

/-! # The cache represents a shelf

The C structure keeps its entries twice, in a doubly linked list and in a hash table, and counts
them a third time. `Rep c s` relates it to the shelf `s`, where all of this is one list: the
links of the cache form the order of the shelf, the table holds exactly the entries of this list,
each under its own key, and everything else (heap, counters, freed blocks) is equal.

Every function of the cache keeps `Rep` and does to the shelf what the operation of that name
does. The proofs take the three parts one at a time. Functions that move an entry change the
links only (`SameButLinks`), so the lemmas of `Lib.DList` give the new order and `Rep.relink` the
rest; functions that write a field of an entry leave links and table alone (`Rep.modify`).
Removing an entry (`Rep.detach`) and inserting one (`Rep.insert`) touch all three, and there the
refinement of the table by a finite map is used.

What the shelf cannot see is whether the table wants to grow before an insertion, and so whether
an allocation failure matters. `taken` reads this off the cache. Evictions do not change it
(`Rep.load_evictLoop`), since a removal turns a used slot into a tombstone and the load counts
both.
-/

namespace HttpServer.LruCache

open CLib HashTable

variable {c c' : LruCache} {s s' : Shelf} {l : List Nat}

/-! ## Links -/

def links (c : LruCache) : Links where
  next := fun e => (c.heap e).next
  prev := fun e => (c.heap e).prev
  head := c.head
  tail := c.tail

theorem links_modify (c : LruCache) (p : Nat) {f : LruEntry → LruEntry} {g h : Nat → Nat}
    (hnext : ∀ x, (f x).next = g x.next) (hprev : ∀ x, (f x).prev = h x.prev) :
    (c.modify p f).links =
      { next := Function.update c.links.next p (g (c.heap p).next)
        prev := Function.update c.links.prev p (h (c.heap p).prev)
        head := c.head
        tail := c.tail } := by
  simp only [links, modify, Links.mk.injEq, and_true]
  constructor
  · funext u
    rcases eq_or_ne u p with rfl | hne
    · simp [hnext]
    · simp [hne]
  · funext u
    rcases eq_or_ne u p with rfl | hne
    · simp [hprev]
    · simp [hne]

theorem links_setNext (c : LruCache) (p n : Nat) :
    (c.modify p (fun x => { x with next := n })).links = c.links.setNext p n := by
  rw [links_modify c p (f := fun x => { x with next := n }) (g := fun _ => n) (h := id)
    (fun _ => rfl) (fun _ => rfl)]
  simp [Links.setNext, links]

theorem links_setPrev (c : LruCache) (p n : Nat) :
    (c.modify p (fun x => { x with prev := n })).links = c.links.setPrev p n := by
  rw [links_modify c p (f := fun x => { x with prev := n }) (g := id) (h := fun _ => n)
    (fun _ => rfl) (fun _ => rfl)]
  simp [Links.setPrev, links]

theorem links_setBoth (c : LruCache) (p m n : Nat) :
    (c.modify p (fun x => { x with prev := m, next := n })).links =
      (c.links.setPrev p m).setNext p n := by
  rw [links_modify c p (g := fun _ => n) (h := fun _ => m) (fun _ => rfl) (fun _ => rfl)]
  rfl

/-- A change that leaves the links of an entry alone. -/
theorem links_keep (c : LruCache) (p : Nat) {f : LruEntry → LruEntry}
    (hf : ∀ x, (f x).next = x.next ∧ (f x).prev = x.prev) : (c.modify p f).links = c.links := by
  rw [links_modify c p (g := id) (h := id) (fun x => (hf x).1) (fun x => (hf x).2)]
  simp [links]

theorem links_unlink (c : LruCache) (e : Nat) : (listUnlink c e).links = c.links.unlink e := by
  have hnext : (listSkipNext c e).links = c.links.skipNext e := by
    unfold listSkipNext Links.skipNext
    by_cases h : (c.heap e).prev ≠ 0
    · rw [if_pos h, if_pos (show c.links.prev e ≠ 0 from h), links_setNext]
      rfl
    · rw [if_neg h, if_neg (show ¬ c.links.prev e ≠ 0 from h)]
      rfl
  have hprev : ∀ c : LruCache, (listSkipPrev c e).links = c.links.skipPrev e := by
    intro c
    unfold listSkipPrev Links.skipPrev
    by_cases h : (c.heap e).next ≠ 0
    · rw [if_pos h, if_pos (show c.links.next e ≠ 0 from h), links_setPrev]
      rfl
    · rw [if_neg h, if_neg (show ¬ c.links.next e ≠ 0 from h)]
      rfl
  rw [listUnlink, links_setBoth, hprev, hnext]
  rfl

theorem links_pushFront (c : LruCache) (e : Nat) :
    (listPushFront c e).links = c.links.pushFront e := by
  have hboth := links_setBoth c e 0 c.head
  unfold listPushFront Links.pushFront
  simp only
  rw [show c.links.head = c.head from rfl]
  generalize c.modify e (fun x => { x with prev := 0, next := c.head }) = c₁ at hboth ⊢
  generalize (c.links.setPrev e 0).setNext e c.head = s₁ at hboth ⊢
  subst hboth
  have hhead : (if c₁.head ≠ 0 then c₁.modify c₁.head (fun x => { x with prev := e }) else c₁).links =
      if c₁.links.head ≠ 0 then c₁.links.setPrev c₁.links.head e else c₁.links := by
    rw [show c₁.links.head = c₁.head from rfl]
    split
    · exact links_setPrev ..
    · rfl
  generalize (if c₁.head ≠ 0 then c₁.modify c₁.head (fun x => { x with prev := e }) else c₁) = c₂
    at hhead ⊢
  rw [← hhead]
  rw [show c₂.links.tail = c₂.tail from rfl]
  split
  · rfl
  · rfl

theorem links_moveFront (c : LruCache) (e : Nat) :
    (listMoveFront c e).links = c.links.moveFront e := by
  unfold listMoveFront Links.moveFront
  rw [show c.links.head = c.head from rfl]
  split
  · rfl
  · rw [links_pushFront, links_unlink]

/-! ## What the links leave alone -/

/-- The entry without its links. -/
def item (x : LruEntry) : Item := ⟨x.data, x.size, x.key, x.refcount, x.removed⟩

/-- The shelf with the entries of the cache in the order `l`. -/
def shelf (c : LruCache) (l : List Nat) : Shelf where
  order := l
  items := fun e => item (c.heap e)
  currentSize := c.currentSize
  maxSize := c.maxSize
  maxEntries := c.maxEntries
  hits := c.hits
  misses := c.misses
  evictions := c.evictions
  fresh := c.fresh
  frees := c.frees

theorem shelf_modify (c : LruCache) (e : Nat) (l : List Nat) {f : LruEntry → LruEntry}
    {g : Item → Item} (hfg : ∀ x, item (f x) = g (item x)) :
    (c.modify e f).shelf l = (c.shelf l).modify e g := by
  simp only [shelf, modify, Shelf.modify, Shelf.mk.injEq, and_true, true_and]
  funext u
  rcases eq_or_ne u e with rfl | hne
  · simp [hfg]
  · simp [hne]

theorem shelf_modify_links (c : LruCache) (e : Nat) (l : List Nat) {f : LruEntry → LruEntry}
    (hf : ∀ x, item (f x) = item x) : (c.modify e f).shelf l = c.shelf l := by
  rw [shelf_modify c e l (g := id) hf]
  simp [Shelf.modify]

/-- The caches differ at most in their links. -/
structure SameButLinks (c c' : LruCache) : Prop where
  table : c'.table = c.table
  num : c'.numEntries = c.numEntries
  shelf : ∀ l, c'.shelf l = c.shelf l

theorem SameButLinks.trans {c'' : LruCache} (h : SameButLinks c c') (h' : SameButLinks c' c'') :
    SameButLinks c c'' :=
  ⟨h'.table.trans h.table, h'.num.trans h.num, fun l => (h'.shelf l).trans (h.shelf l)⟩

theorem SameButLinks.modify (c : LruCache) (e : Nat) {f : LruEntry → LruEntry}
    (hf : ∀ x, item (f x) = item x) : SameButLinks c (c.modify e f) :=
  ⟨rfl, rfl, fun l => shelf_modify_links c e l hf⟩

theorem SameButLinks.currentSize (h : SameButLinks c c') : c'.currentSize = c.currentSize :=
  congrArg Shelf.currentSize (h.shelf [])

theorem SameButLinks.item (h : SameButLinks c c') (e : Nat) : item (c'.heap e) = item (c.heap e) :=
  congrFun (congrArg Shelf.items (h.shelf [])) e

theorem same_listUnlink (c : LruCache) (e : Nat) : SameButLinks c (listUnlink c e) := by
  have hnext : SameButLinks c (listSkipNext c e) := by
    unfold listSkipNext
    split
    · exact .modify _ _ (fun _ => rfl)
    · exact ⟨rfl, rfl, fun _ => rfl⟩
  have hprev : SameButLinks (listSkipNext c e) (listSkipPrev (listSkipNext c e) e) := by
    unfold listSkipPrev
    split
    · exact .modify _ _ (fun _ => rfl)
    · exact ⟨rfl, rfl, fun _ => rfl⟩
  exact (hnext.trans hprev).trans (.modify _ _ (fun _ => rfl))

theorem same_listPushFront (c : LruCache) (e : Nat) : SameButLinks c (listPushFront c e) := by
  unfold listPushFront
  simp only
  refine (SameButLinks.modify c e (f := fun x => { x with prev := 0, next := c.head })
    (fun _ => rfl)).trans ?_
  generalize c.modify e (fun x => { x with prev := 0, next := c.head }) = c₁
  have hhead : SameButLinks c₁
      (if c₁.head ≠ 0 then c₁.modify c₁.head (fun x => { x with prev := e }) else c₁) := by
    split
    · exact .modify _ _ (fun _ => rfl)
    · exact ⟨rfl, rfl, fun _ => rfl⟩
  refine hhead.trans ?_
  generalize (if c₁.head ≠ 0 then c₁.modify c₁.head (fun x => { x with prev := e }) else c₁) = c₂
  split
  · exact ⟨rfl, rfl, fun _ => rfl⟩
  · exact ⟨rfl, rfl, fun _ => rfl⟩

theorem same_listMoveFront (c : LruCache) (e : Nat) : SameButLinks c (listMoveFront c e) := by
  unfold listMoveFront
  split
  · exact ⟨rfl, rfl, fun _ => rfl⟩
  · exact (same_listUnlink c e).trans (same_listPushFront _ e)

/-! ## The representation -/

structure Rep (c : LruCache) (s : Shelf) : Prop where
  shelf : c.shelf s.order = s
  list : c.links.IsList s.order
  table : Refines c.table (s.order.map fun e => ((s.items e).key, e))
  eq : c.table.eq = keyEq
  num : c.numEntries = s.order.length

theorem Rep.heap (h : Rep c s) (e : Nat) : item (c.heap e) = s.items e :=
  congrFun (congrArg Shelf.items h.shelf) e

theorem Rep.shelf_order (h : Rep c s) (l : List Nat) : c.shelf l = { s with order := l } := by
  conv_rhs => rw [← h.shelf]
  rfl

/-- Changes to what `Rep` does not speak about. -/
theorem Rep.frame (h : Rep c s) (hshelf : c'.shelf s'.order = s') (hlinks : c'.links = c.links)
    (htable : c'.table = c.table) (hnum : c'.numEntries = c.numEntries)
    (horder : s'.order = s.order) (hkey : ∀ e, (s'.items e).key = (s.items e).key) :
    Rep c' s' where
  shelf := hshelf
  list := by
    rw [hlinks, horder]
    exact h.list
  table := by
    simp only [htable, horder, hkey]
    exact h.table
  eq := htable ▸ h.eq
  num := by
    rw [hnum, horder]
    exact h.num

/-- Changes to the links. -/
theorem Rep.relink (h : Rep c s) (hsame : SameButLinks c c') (hlist : c'.links.IsList l)
    (hperm : l.Perm s.order) : Rep c' { s with order := l } where
  shelf := (hsame.shelf l).trans (h.shelf_order l)
  list := hlist
  table := by
    rw [hsame.table]
    exact ⟨h.table.intact, h.table.perm.trans (hperm.symm.map _)⟩
  eq := hsame.table ▸ h.eq
  num := by
    rw [hsame.num, h.num]
    exact hperm.length_eq.symm

theorem Rep.lookup (h : Rep c s) (key : List UInt8) :
    htLookup c.table ⟨0, key⟩ = (s.find key).getD 0 := by
  rw [h.table.lookup, h.eq, KeyMap.find, KeyMap.entry, List.find?_map, Option.map_map]
  have hfun : (Prod.snd ∘ fun e => ((s.items e).key, e)) = id := rfl
  rw [hfun, Option.map_id]
  rfl

theorem Rep.nonnull (h : Rep c s) {e : Nat} (he : e ∈ s.order) : e ≠ 0 := by
  rintro rfl
  exact h.list.nonnull he

theorem Rep.moveFront (h : Rep c s) {e : Nat} (he : e ∈ s.order) :
    Rep (listMoveFront c e) (s.touch e) := by
  obtain ⟨a, b, hsplit⟩ := List.append_of_mem he
  have hlist := h.list
  rw [hsplit] at hlist
  have hnot : e ∉ a := by
    intro hea
    exact (List.nodup_append.mp hlist.nodup).2.2 e hea e List.mem_cons_self rfl
  have herase : s.order.erase e = a ++ b := by
    rw [hsplit, List.erase_append_right _ hnot, List.erase_cons_head]
  refine h.relink (same_listMoveFront c e) ?_ ?_
  · rw [links_moveFront, herase]
    exact hlist.moveFront
  · exact (List.perm_cons_erase he).symm

/-! ## Eviction -/

theorem Rep.modify (h : Rep c s) (e : Nat) {f : LruEntry → LruEntry} {g : Item → Item}
    (hfg : ∀ x, item (f x) = g (item x)) (hlinks : ∀ x, (f x).next = x.next ∧ (f x).prev = x.prev)
    (hkey : ∀ x, (g x).key = x.key) : Rep (c.modify e f) (s.modify e g) := by
  refine h.frame ?_ (links_keep c e hlinks) rfl rfl rfl fun u => ?_
  · change (c.modify e f).shelf s.order = _
    rw [shelf_modify c e s.order hfg, h.shelf]
  · rcases eq_or_ne u e with rfl | hne
    · simp [Shelf.modify, hkey]
    · simp [Shelf.modify, hne]

theorem Rep.entryFree (h : Rep c s) (e : Nat) : Rep (entryFree c e) (s.free (s.blocks e)) := by
  refine h.frame ?_ rfl rfl rfl rfl (fun _ => rfl)
  have hblocks : s.blocks e = [.payload (c.heap e).data, .key (c.heap e).key.addr, .entry e] := by
    rw [Shelf.blocks, ← h.heap]
    rfl
  rw [hblocks]
  conv_rhs => rw [← h.shelf]
  simp [HttpServer.entryFree, LruCache.free, LruCache.shelf, Shelf.free]

theorem Rep.entryMaybeFree (h : Rep c s) (e : Nat) : Rep (entryMaybeFree c e) (s.maybeFree e) := by
  have hremoved : (c.heap e).removed = (s.items e).removed := congrArg Item.removed (h.heap e)
  have hcount : (c.heap e).refcount = (s.items e).refcount := congrArg Item.refcount (h.heap e)
  unfold HttpServer.entryMaybeFree Shelf.maybeFree
  rw [← hremoved, ← hcount]
  by_cases hdead : (c.heap e).removed = true ∧ (c.heap e).refcount = 0
  · rw [if_pos hdead, if_pos hdead]
    exact h.entryFree e
  · rw [if_neg hdead, if_neg hdead]
    exact h

/-- The entry behind all others is taken off. -/
theorem Rep.detach (h : Rep c s) {v : Nat} (hlast : s.order = l ++ [v]) :
    Rep (entryDetach c v) { s.modify v (fun x => { x with removed := true }) with
      order := l, currentSize := subSize s.currentSize (s.items v).size } := by
  have hitem := h.heap v
  have hkey : (c.heap v).key = (s.items v).key := congrArg Item.key hitem
  have hsize : (c.heap v).size = (s.items v).size := congrArg Item.size hitem
  have hcur : c.currentSize = s.currentSize := congrArg Shelf.currentSize h.shelf
  have hvl : v ∉ l := by
    have hnodup := h.list.nodup
    rw [hlast] at hnodup
    intro hv
    exact (List.nodup_append.mp hnodup).2.2 v hv v List.mem_cons_self rfl
  -- unlinking changes the links only, and the rest of the entry is still what it was
  have hsame := same_listUnlink { c with table := (htRemove c.table (c.heap v).key).2 } v
  have hlinks := links_unlink { c with table := (htRemove c.table (c.heap v).key).2 } v
  rw [entryDetach]
  generalize listUnlink { c with table := (htRemove c.table (c.heap v).key).2 } v = c₁
    at hsame hlinks
  have hsize₁ : (c₁.heap v).size = (s.items v).size := (congrArg Item.size (hsame.item v)).trans hsize
  have hcur₁ : c₁.currentSize = s.currentSize := hsame.currentSize.trans hcur
  refine ⟨?_, ?_, ?_, ?_, ?_⟩
  · rw [shelf_modify (g := fun x => { x with removed := true }) _ _ _ (fun _ => rfl)]
    have hshelf : LruCache.shelf { c₁ with
        currentSize := subSize c₁.currentSize (c₁.heap v).size
        numEntries := c₁.numEntries - 1 } l =
        { c₁.shelf l with currentSize := subSize s.currentSize (s.items v).size } := by
      rw [hsize₁, hcur₁]
      rfl
    have hframe : LruCache.shelf { c with table := (htRemove c.table (c.heap v).key).2 } l =
        { s with order := l } := h.shelf_order l
    rw [hshelf, hsame.shelf, hframe]
    rfl
  · rw [links_keep (f := fun x => { x with removed := true }) _ _ (fun _ => ⟨rfl, rfl⟩)]
    have hlist : c.links.IsList (l ++ v :: []) := hlast ▸ h.list
    have hunlink := hlist.unlink
    rw [List.append_nil] at hunlink
    exact hlinks ▸ hunlink
  · change Refines c₁.table _
    rw [hsame.table]
    have hremove := (h.table.remove (c.heap v).key).2
    refine ⟨hremove.intact, hremove.perm.trans ?_⟩
    have hperm : (s.order.map fun e => ((s.items e).key, e)).Perm
        (((s.items v).key, v) :: l.map fun e => ((s.items e).key, e)) := by
      rw [hlast, List.map_append, List.map_singleton]
      exact List.perm_append_singleton _ _
    have hkeyEq := h.table.intact.hashing.keyEq
    have heq : c.table.eq (s.items v).key (c.heap v).key = true := by
      rw [hkey]
      exact hkeyEq.refl _
    refine (KeyMap.remove_present h.table.distinct hkeyEq hperm heq).trans (List.Perm.of_eq ?_)
    refine List.map_congr_left fun u hu => ?_
    have hne : u ≠ v := fun h0 => hvl (h0 ▸ hu)
    simp [Shelf.modify, hne]
  · change c₁.table.eq = keyEq
    rw [hsame.table, ← h.eq]
    simp only [htRemove]
    split
    · rfl
    · rfl
  · change c₁.numEntries - 1 = l.length
    rw [hsame.num]
    change c.numEntries - 1 = l.length
    rw [h.num, hlast]
    simp

theorem Rep.tail (h : Rep c s) : c.tail = s.order.getLast?.getD 0 := h.list.tail

theorem Rep.evictLru (h : Rep c s) {v : Nat} (hv : s.order.getLast? = some v) :
    Rep (evictLru c) (s.evict v) := by
  have hlast : s.order = s.order.dropLast ++ [v] := (List.dropLast_append_getLast? v hv).symm
  have htail : c.tail = v := by
    rw [h.tail, hv]
    rfl
  have hne : v ≠ 0 := h.nonnull (List.mem_of_getLast? hv)
  unfold HttpServer.evictLru Shelf.evict
  rw [htail, if_neg hne]
  refine Rep.entryMaybeFree ?_ v
  have hdetach := h.detach hlast
  have hsize : ((s.modify v (fun x => { x with removed := true })).items v).size =
      (s.items v).size := by
    simp [Shelf.modify]
  rw [hsize]
  have hevict : (entryDetach c v).evictions = s.evictions :=
    congrArg Shelf.evictions hdetach.shelf
  refine hdetach.frame ?_ rfl rfl rfl rfl (fun _ => rfl)
  have hshelf : LruCache.shelf { entryDetach c v with
      evictions := (entryDetach c v).evictions + 1 } s.order.dropLast =
      { (entryDetach c v).shelf s.order.dropLast with evictions := s.evictions + 1 } := by
    rw [hevict]
    rfl
  refine hshelf.trans ?_
  have hkeep : (entryDetach c v).shelf s.order.dropLast = _ := hdetach.shelf
  rw [hkeep]
  rfl

theorem Rep.admits (h : Rep c s) (size : Nat) : c.admits size = s.admits size := by
  have hcur : c.currentSize = s.currentSize := congrArg Shelf.currentSize h.shelf
  have hmax : c.maxSize = s.maxSize := congrArg Shelf.maxSize h.shelf
  have hmaxn : c.maxEntries = s.maxEntries := congrArg Shelf.maxEntries h.shelf
  rw [LruCache.admits, Shelf.admits, h.num, hcur, hmax, hmaxn]

theorem Rep.evictLoop (size n : Nat) :
    ∀ {c : LruCache} {s : Shelf}, Rep c s → Rep (evictLoop size n c) (s.makeRoom size n) := by
  induction n with
  | zero => exact fun h => h
  | succ n ih =>
      intro c s h
      rw [HttpServer.evictLoop, Shelf.makeRoom, h.admits size]
      split
      · exact h
      · cases hlast : s.order.getLast? with
        | none =>
            have htail : c.tail = 0 := by
              rw [h.tail, hlast]
              rfl
            rw [if_pos htail]
            exact h
        | some v =>
            have htail : c.tail ≠ 0 := by
              rw [h.tail, hlast]
              exact h.nonnull (List.mem_of_getLast? hlast)
            rw [if_neg htail]
            exact ih (h.evictLru hlast)

/-! ## The interface -/

theorem find_mem {key : List UInt8} {e : Nat} (h : s.find key = some e) : e ∈ s.order :=
  List.mem_of_find?_eq_some h

theorem Rep.get (h : Rep c s) (key : List UInt8) :
    (lruCacheGet c key).1 = (s.get key).1 ∧ Rep (lruCacheGet c key).2 (s.get key).2 := by
  unfold lruCacheGet Shelf.get
  rw [h.lookup key]
  cases hfind : s.find key with
  | none =>
      have hmiss : c.misses = s.misses := congrArg Shelf.misses h.shelf
      rw [if_neg (by simp)]
      refine ⟨rfl, h.frame ?_ rfl rfl rfl rfl (fun _ => rfl)⟩
      rw [← hmiss]
      exact congrArg (fun s : Shelf => { s with misses := c.misses + 1 }) h.shelf
  | some e =>
      have hmem := find_mem hfind
      rw [if_pos (show (some e).getD 0 ≠ 0 from h.nonnull hmem)]
      have hcount : Rep (c.modify e (fun x => { x with refcount := (x.refcount + 1) % refMod }))
          (s.modify e (fun x => { x with refcount := (x.refcount + 1) % refMod })) :=
        h.modify e (fun _ => rfl) (fun _ => ⟨rfl, rfl⟩) (fun _ => rfl)
      have hstep := hcount.moveFront hmem
      refine ⟨rfl, hstep.frame ?_ rfl rfl rfl rfl (fun _ => rfl)⟩
      have hshelf := congrArg (fun s : Shelf => { s with hits := s.hits + 1 }) hstep.shelf
      exact hshelf

theorem Rep.release (h : Rep c s) (e : Nat) : Rep (lruCacheRelease c e) (s.release e) := by
  unfold lruCacheRelease Shelf.release
  have hcount : (c.heap e).refcount = (s.items e).refcount := congrArg Item.refcount (h.heap e)
  split
  · exact h
  · refine Rep.entryMaybeFree ?_ e
    rw [hcount]
    split
    · exact h.modify e (fun _ => rfl) (fun _ => ⟨rfl, rfl⟩) (fun _ => rfl)
    · exact h

theorem Rep.free (h : Rep c s) (b : Block) : Rep (c.free b) (s.free [b]) :=
  h.frame (congrArg (fun s : Shelf => { s with frees := s.frees ++ [b] }) h.shelf) rfl rfl rfl rfl
    (fun _ => rfl)

theorem Rep.overwrite (h : Rep c s) {e : Nat} (he : e ∈ s.order) (data size : Nat) :
    Rep (putOverwrite c e data size) (s.overwrite e data size) := by
  unfold putOverwrite Shelf.overwrite
  refine Rep.moveFront ?_ he
  have hsize : (c.heap e).size = (s.items e).size := congrArg Item.size (h.heap e)
  have hdata : (c.heap e).data = (s.items e).data := congrArg Item.data (h.heap e)
  have hcur : c.currentSize = s.currentSize := congrArg Shelf.currentSize h.shelf
  have hmod : Rep (c.modify e (fun x => { x with data := data, size := size }))
      (s.modify e (fun x => { x with data := data, size := size })) :=
    h.modify e (fun _ => rfl) (fun _ => ⟨rfl, rfl⟩) (fun _ => rfl)
  refine (hmod.free (.payload (s.items e).data)).frame ?_ rfl rfl rfl rfl (fun _ => rfl)
  rw [← hsize, ← hdata, ← hcur]
  have hshelf := congrArg (fun s : Shelf => { s with
    currentSize := (subSize c.currentSize (c.heap e).size + size) % sizeMod
    frees := s.frees ++ [Block.payload (c.heap e).data] }) hmod.shelf
  exact hshelf

/-! ## Insertion -/

/-- The table takes one more entry: it need not grow, or it can. -/
def taken (c : LruCache) (alloc : Bool) : Bool :=
  !c.table.loaded || callocOk (c.table.capacity * 2) slotSize alloc

theorem entryDetach_table (c : LruCache) (e : Nat) :
    (entryDetach c e).table = (htRemove c.table (c.heap e).key).2 :=
  (same_listUnlink { c with table := (htRemove c.table (c.heap e).key).2 } e).table

theorem entryMaybeFree_table (c : LruCache) (e : Nat) : (entryMaybeFree c e).table = c.table := by
  unfold entryMaybeFree
  split
  · rfl
  · rfl

theorem evictLru_table (htail : c.tail ≠ 0) :
    (evictLru c).table = (htRemove c.table (c.heap c.tail).key).2 := by
  rw [evictLru, if_neg htail]
  exact (entryMaybeFree_table ..).trans (entryDetach_table ..)

/-- The table has the same size and the same load. -/
def SameLoad (c c' : LruCache) : Prop :=
  c'.table.capacity = c.table.capacity ∧
    c'.table.count + c'.table.tombstones = c.table.count + c.table.tombstones

theorem SameLoad.taken (h : SameLoad c c') (alloc : Bool) : c'.taken alloc = c.taken alloc := by
  obtain ⟨hcap, hload⟩ := h
  rw [LruCache.taken, LruCache.taken, HashTable.loaded, HashTable.loaded, hcap, hload]

theorem Rep.load_evictLru (h : Rep c s) : SameLoad c (HttpServer.evictLru c) := by
  by_cases htail : c.tail = 0
  · rw [HttpServer.evictLru, if_pos htail]
    exact ⟨rfl, rfl⟩
  · rw [SameLoad, evictLru_table htail]
    exact h.table.intact.balanced.remove_load (c.heap c.tail).key

/-- An eviction leaves a tombstone for the entry it takes out. -/
theorem Rep.load_evictLoop (size n : Nat) :
    ∀ {c : LruCache} {s : Shelf}, Rep c s → SameLoad c (HttpServer.evictLoop size n c) := by
  induction n with
  | zero => exact fun _ => ⟨rfl, rfl⟩
  | succ n ih =>
      intro c s h
      rw [HttpServer.evictLoop]
      split
      · exact ⟨rfl, rfl⟩
      · split
        · exact ⟨rfl, rfl⟩
        · rename_i htail
          cases hlast : s.order.getLast? with
          | none =>
              rw [h.tail, hlast] at htail
              exact absurd rfl htail
          | some v =>
              obtain ⟨hcap, hload⟩ := ih (h.evictLru hlast)
              obtain ⟨hcap', hload'⟩ := h.load_evictLru
              exact ⟨hcap.trans hcap', hload.trans hload'⟩

/-- A new entry is allocated and filled in. -/
theorem Rep.alloc (h : Rep c s) (hnew : s.fresh ∉ s.order) (key : List UInt8) (data size : Nat) :
    Rep ({ c with fresh := s.fresh + 1 }.modify s.fresh
      (fun _ => ⟨data, size, ⟨s.fresh, cstr key⟩, 0, false, 0, 0⟩)) (s.alloc key data size) := by
  have hne : ∀ u ∈ s.order, u ≠ s.fresh := fun u hu h0 => hnew (h0 ▸ hu)
  refine ⟨?_, ⟨h.list.nodup, h.list.nonnull, h.list.head, h.list.tail, ?_⟩, ?_, h.eq, h.num⟩
  · rw [shelf_modify (g := fun _ => ⟨data, size, ⟨s.fresh, cstr key⟩, 0, false⟩) _ _ _
      (fun _ => rfl)]
    exact congrArg (fun t : Shelf => ({ t with fresh := s.fresh + 1 } : Shelf).modify s.fresh
      (fun _ => ⟨data, size, ⟨s.fresh, cstr key⟩, 0, false⟩)) h.shelf
  · refine h.list.seg.congr fun u hu => ?_
    simp [links, LruCache.modify, hne u hu]
  · have hmap : (s.order.map fun u => (((s.alloc key data size).items u).key, u)) =
        s.order.map fun u => ((s.items u).key, u) := by
      refine List.map_congr_left fun u hu => ?_
      simp [Shelf.alloc, Shelf.modify, hne u hu]
    have htable := h.table
    rw [← hmap] at htable
    exact htable

/-- The entry `e` in front of the list, once a table `t` has taken it. -/
theorem Rep.pushed (h : Rep c s) {e : Nat} (size : Nat) (hnew : e ∉ s.order) (hne : e ≠ 0)
    (habs : KeyMap.contains c.table.eq (s.order.map fun u => ((s.items u).key, u))
      (s.items e).key = false) {t : HashTable KeyPtr Nat}
    (href : Refines t (KeyMap.insert c.table.eq (s.order.map fun u => ((s.items u).key, u))
      (s.items e).key e)) (heq : t.eq = c.table.eq) :
    Rep (listPushFront { c with
        table := t
        numEntries := c.numEntries + 1
        currentSize := (c.currentSize + size) % sizeMod } e)
      (s.pushed e size) := by
  have hcur : c.currentSize = s.currentSize := congrArg Shelf.currentSize h.shelf
  have hsame := same_listPushFront { c with
        table := t
        numEntries := c.numEntries + 1
        currentSize := (c.currentSize + size) % sizeMod } e
  refine ⟨?_, ?_, ?_, ?_, ?_⟩
  · refine (hsame.shelf _).trans ?_
    rw [Shelf.pushed, ← hcur]
    exact congrArg (fun t : Shelf => { t with
      order := e :: s.order
      currentSize := (c.currentSize + size) % sizeMod }) h.shelf
  · rw [links_pushFront]
    exact h.list.pushFront hnew hne
  · rw [hsame.table]
    -- the key is new, so it is put in front of the map as it is in the list
    rw [KeyMap.insert_absent habs] at href
    exact href
  · rw [hsame.table]
    exact heq.trans h.eq
  · rw [hsame.num]
    exact congrArg (· + 1) h.num

/-- A new entry is put in front, if the table takes it. -/
theorem Rep.insert (h : Rep c s) {e : Nat} (hnew : e ∉ s.order) (hne : e ≠ 0)
    (hkey : ∀ u ∈ s.order, keyEq (s.items u).key (s.items e).key = false)
    (data size : Nat) (alloc : Bool) :
    (putInsert c e data size alloc).1 = (s.insert e data size (c.taken alloc)).1 ∧
      Rep (putInsert c e data size alloc).2 (s.insert e data size (c.taken alloc)).2 := by
  have hshort := Shelf.makeRoom_shortened size s.order.length s
  have htaken := (h.load_evictLoop size s.order.length).taken alloc
  have hroom := h.evictLoop size s.order.length
  unfold putInsert Shelf.insert
  rw [h.num, ← htaken]
  generalize HttpServer.evictLoop size s.order.length c = c₁ at hroom ⊢
  generalize s.makeRoom size s.order.length = s₁ at hshort hroom ⊢
  have hkey₁ : (c₁.heap e).key = (s₁.items e).key := congrArg Item.key (hroom.heap e)
  have habs : KeyMap.contains c₁.table.eq (s₁.order.map fun u => ((s₁.items u).key, u))
      (s₁.items e).key = false := by
    rw [hroom.eq, KeyMap.contains_eq_false]
    intro p hp
    obtain ⟨u, hu, rfl⟩ := List.mem_map.mp hp
    simp only [hshort.keys]
    exact hkey u (hshort.order.subset hu)
  have hend := hroom.table.insert (s₁.items e).key e alloc
  simp only [hkey₁]
  have hgo : ∀ t : HashTable KeyPtr Nat,
      Refines t (KeyMap.insert c₁.table.eq (s₁.order.map fun u => ((s₁.items u).key, u))
        (s₁.items e).key e) → t.eq = c₁.table.eq → _ := fun _ href heq =>
    hroom.pushed size (fun hmem => hnew (hshort.order.subset hmem)) hne habs href heq
  -- the table takes the entry unless it would have to grow and cannot
  generalize htInsert c₁.table (s₁.items e).key e alloc = out at hend ⊢
  cases hend with
  | refused hload hcalloc =>
      have hno : c₁.taken alloc = false := by
        rw [taken, hload, hcalloc]
        rfl
      rw [hno]
      refine ⟨rfl, ?_⟩
      have hfree := ((hroom.free (.key (s₁.items e).key.addr)).free (.entry e)).free (.payload data)
      have hlist : ((s₁.free [.key (s₁.items e).key.addr]).free [.entry e]).free [.payload data] =
          s₁.free [.key (s₁.items e).key.addr, .entry e, .payload data] := by
        simp [Shelf.free]
      rw [hlist] at hfree
      exact hfree
  | here hload href _ _ _ heq =>
      have hyes : c₁.taken alloc = true := by
        rw [taken, hload]
        rfl
      rw [hyes]
      exact ⟨rfl, hgo _ href heq⟩
  | grown hload hcalloc href _ _ _ heq =>
      have hyes : c₁.taken alloc = true := by
        rw [taken, hcalloc, Bool.or_true]
      rw [hyes]
      exact ⟨rfl, hgo _ href heq⟩

theorem Rep.put (h : Rep c s) (hs : s.Sound) (key : List UInt8) (data size : Nat)
    (alloc : PutAlloc) :
    (lruCachePut c key data size alloc).1 =
        (s.put key data size alloc (c.taken alloc.table)).1 ∧
      Rep (lruCachePut c key data size alloc).2
        (s.put key data size alloc (c.taken alloc.table)).2 := by
  have hmax : c.maxSize = s.maxSize := congrArg Shelf.maxSize h.shelf
  have hfresh : c.fresh = s.fresh := congrArg Shelf.fresh h.shelf
  unfold lruCachePut Shelf.put
  rw [h.lookup key, hfresh]
  cases hfind : s.find key with
  | some e =>
      have hmem := find_mem hfind
      rw [if_pos (show (some e).getD 0 ≠ 0 from h.nonnull hmem)]
      exact ⟨rfl, h.overwrite hmem data size⟩
  | none =>
      rw [if_neg (by simp)]
      -- the branches of the source, in its order, each against the same branch of the shelf
      by_cases hsize : c.maxSize < size
      · simp only [if_pos hsize, if_pos (hmax ▸ hsize)]
        exact ⟨trivial, h.free _⟩
      · simp only [if_neg hsize, if_neg (hmax ▸ hsize)]
        cases hentry : alloc.entry with
        | false => exact ⟨rfl, h.free _⟩
        | true =>
            cases hkey : alloc.key with
            | false =>
                have hfree := (h.free (.entry s.fresh)).free (.payload data)
                refine ⟨rfl, hfree.frame ?_ rfl rfl rfl rfl (fun _ => rfl)⟩
                have hshelf := congrArg (fun t : Shelf => { t with fresh := s.fresh + 1 }) hfree.shelf
                refine hshelf.trans ?_
                simp [Shelf.free]
            | true =>
                have hnew := hs.new
                have halloc := h.alloc hnew key data size
                -- the key was not found, so no entry in the list has it
                have habs : ∀ u ∈ (s.alloc key data size).order,
                    keyEq ((s.alloc key data size).items u).key
                      ((s.alloc key data size).items s.fresh).key = false := by
                  intro u hu
                  have hne : u ≠ s.fresh := fun h0 => hnew (h0 ▸ hu)
                  have hno := List.find?_eq_none.mp hfind u hu
                  rw [Shelf.hasKey, decide_eq_true_eq] at hno
                  simpa [Shelf.alloc, Shelf.modify, hne, keyEq, cstr_eq_self (zero_not_mem_cstr key)] using hno
                exact halloc.insert hnew (Nat.ne_of_gt hs.pos) habs data size alloc.table

end HttpServer.LruCache
