import HttpServer.Cache.Run

set_option autoImplicit false

/-! # The limits of the cache

A `put` of a new key makes room before it inserts. A `put` of a key that is there replaces the
payload and makes no room, and with `max_entries = 0` there is no room to be made. Apart from
these two the limits are kept.

The two exceptions are `Fits`, a condition on the cache before the call. The invariant is on the
shelf (`Shelf.Within`): the two limits, and no single item larger than the whole. Making room
stops when the new item is admitted or when nothing is left, and in the second case the item has
the cache for itself.
-/

namespace HttpServer

open CLib HashTable

/-! ## Shelves within the limits -/

namespace Shelf

variable {s s' : Shelf}

structure Within (s : Shelf) : Prop where
  bytes : s.currentSize ≤ s.maxSize
  entries : s.order.length ≤ s.maxEntries
  items : ∀ e ∈ s.order, (s.items e).size ≤ s.maxSize

theorem Within.frame (h : Within s) (horder : s'.order.Perm s.order)
    (hitems : ∀ e ∈ s.order, (s'.items e).size = (s.items e).size)
    (hsize : s'.currentSize = s.currentSize) (hmax : s'.maxSize = s.maxSize)
    (hmaxn : s'.maxEntries = s.maxEntries) : Within s' where
  bytes := by
    rw [hsize, hmax]
    exact h.bytes
  entries := by
    rw [horder.length_eq, hmaxn]
    exact h.entries
  items := fun e he => by
    rw [hitems e (horder.mem_iff.mp he), hmax]
    exact h.items e (horder.mem_iff.mp he)

theorem Within.get (h : Within s) (key : List UInt8) : Within (s.get key).2 := by
  obtain ⟨hperm, _, hsize, hitems⟩ := get_frame s key
  refine h.frame hperm (fun e _ => ?_) hsize ?_ ?_
  · obtain ⟨n, hn⟩ := hitems e
    rw [hn]
  · rw [Shelf.get]
    cases s.find key with
    | none => rfl
    | some e => rfl
  · rw [Shelf.get]
    cases s.find key with
    | none => rfl
    | some e => rfl

theorem Within.release (h : Within s) (e : Nat) : Within (s.release e) := by
  obtain ⟨items, frees, heq, hitems⟩ := release_frame s e
  rw [heq]
  refine h.frame (.refl _) (fun u _ => ?_) rfl rfl rfl
  obtain ⟨n, hn⟩ := hitems u
  simp [hn]

theorem Within.overwrite (h : Within s) {e : Nat} (he : e ∈ s.order) (data : Nat) {size : Nat}
    (hsize : size ≤ s.maxSize)
    (hbytes : (subSize s.currentSize (s.items e).size + size) % sizeMod ≤ s.maxSize) :
    Within (s.overwrite e data size) := by
  have hperm := List.perm_cons_erase he
  refine ⟨hbytes, hperm.length_eq.symm.trans_le h.entries, fun u hu => ?_⟩
  rcases eq_or_ne u e with rfl | hne
  · simpa [Shelf.overwrite, touch, modify, free] using hsize
  · have hold := h.items u (hperm.mem_iff.mpr hu)
    simpa [Shelf.overwrite, touch, modify, free, hne] using hold

/-- What is left after making room is within the limits as far as its items go. -/
theorem Within.room (h : Within s) (hs : s.Sound) (key : List UInt8) (data size : Nat) :
    (s.room key data size).order.length ≤ s.maxEntries ∧
      ∀ e ∈ (s.room key data size).order, ((s.room key data size).items e).size ≤ s.maxSize := by
  have hshort := makeRoom_shortened size s.order.length (s.alloc key data size)
  have horder : (s.room key data size).order <+: s.order := hshort.order
  refine ⟨horder.length_le.trans h.entries, fun e he => ?_⟩
  have hmem := horder.subset he
  have hne : e ≠ s.fresh := fun h0 => hs.new (h0 ▸ hmem)
  have hsame : ((s.alloc key data size).items e).size = (s.items e).size := by
    simp [alloc, modify, hne]
  calc ((s.room key data size).items e).size
      = ((s.alloc key data size).items e).size := hshort.sizes e
    _ = (s.items e).size := hsame
    _ ≤ s.maxSize := h.items e hmem

theorem Within.inserted (h : Within s) (hs : s.Sound) (key : List UInt8) (data : Nat) {size : Nat}
    (hsize : size ≤ s.maxSize) (hfits : size < sizeMod) (hone : 1 ≤ s.maxEntries) :
    Within ((s.room key data size).pushed s.fresh size) := by
  obtain ⟨_, hitems⟩ := h.room hs key data size
  obtain ⟨_, _, hitem⟩ := room_new hs key data size
  have hsound : (s.room key data size).Sound := (hs.alloc key data size).makeRoom size _
  have hshort := makeRoom_shortened size s.order.length (s.alloc key data size)
  have hmax : (s.room key data size).maxSize = s.maxSize := hshort.maxSize
  have hmaxn : (s.room key data size).maxEntries = s.maxEntries := hshort.maxEntries
  -- the loop has ended: there is room, or nothing is left to evict
  have hdone : (s.room key data size).admits size = true ∨ (s.room key data size).order = [] :=
    makeRoom_done size s.order.length (Nat.le_refl _)
  generalize s.room key data size = s₁ at hitems hitem hsound hmax hmaxn hdone ⊢
  have hroom : s₁.order.length < s.maxEntries ∧
      (s₁.currentSize + size) % sizeMod ≤ s.maxSize := by
    rcases hdone with hadmits | hnil
    · rw [admits, Bool.and_eq_true, decide_eq_true_eq, decide_eq_true_eq, hmax, hmaxn] at hadmits
      exact hadmits
    · -- nothing is left, so the new item has the cache for itself
      have hzero : s₁.currentSize = 0 := by
        rw [hsound.sized, total, hnil]
        rfl
      rw [hnil, hzero, Nat.zero_add, Nat.mod_eq_of_lt hfits]
      exact ⟨hone, hsize⟩
  refine ⟨hroom.2.trans_eq hmax.symm, hroom.1.trans_eq hmaxn.symm, fun e he => ?_⟩
  rcases List.mem_cons.mp he with rfl | he
  · calc (s₁.items s.fresh).size
        = size := congrArg Item.size hitem
      _ ≤ s.maxSize := hsize
      _ = s₁.maxSize := hmax.symm
  · exact (hitems e he).trans_eq hmax.symm

theorem Within.refused (h : Within s) (hs : s.Sound) (key : List UInt8) (data size : Nat)
    (hsmall : s.total < sizeMod) (bs : List Block) : Within ((s.room key data size).free bs) := by
  obtain ⟨hlen, hitems⟩ := h.room hs key data size
  have halloc := hs.alloc key data size
  have hsound : (s.room key data size).Sound := halloc.makeRoom size _
  have hshort := makeRoom_shortened size s.order.length (s.alloc key data size)
  have hmax : (s.room key data size).maxSize = s.maxSize := hshort.maxSize
  have hmaxn : (s.room key data size).maxEntries = s.maxEntries := hshort.maxEntries
  have hle : (s.room key data size).total ≤ (s.alloc key data size).total :=
    makeRoom_total halloc size _
  have hsame : (s.alloc key data size).total = s.total := by
    refine total_congr (.refl _) fun e he => ?_
    have hne : e ≠ s.fresh := fun h0 => hs.new (h0 ▸ he)
    simp [alloc, modify, hne]
  have hbytes := h.bytes
  rw [hs.sized, Nat.mod_eq_of_lt hsmall] at hbytes
  refine ⟨?_, hlen.trans_eq hmaxn.symm, fun e he => (hitems e he).trans_eq hmax.symm⟩
  change (s.room key data size).currentSize ≤ (s.room key data size).maxSize
  rw [hsound.sized, Nat.mod_eq_of_lt (by omega), hmax]
  omega

end Shelf

/-! ## The condition -/

namespace LruCache

variable {c : LruCache} {s : Shelf}

/-- The bytes of the entries in the table. -/
def stored (c : LruCache) : Nat := (c.table.entries.map fun p => (c.heap p.2).size).sum

/-- A call that keeps the limits. A `put` of a key that is there must bring an item that fits
in the place of the old one. A `put` of a new key needs `max_entries ≥ 1` if it inserts, and if
the table cannot grow, which is found out after the evictions, sizes that do not overflow. -/
def Fits (c : LruCache) : LruOp → Prop
  | .put key _ size alloc =>
      if htLookup c.table ⟨0, key⟩ ≠ 0 then
        size.toNat ≤ c.maxSize ∧
          (subSize c.currentSize (c.heap (htLookup c.table ⟨0, key⟩)).size + size.toNat) % sizeMod ≤
            c.maxSize
      else
        c.maxSize < size.toNat ∨ alloc.entry = false ∨ alloc.key = false ∨
          if c.taken alloc.table then 1 ≤ c.maxEntries else c.stored < sizeMod
  | .get _ => True
  | .release _ => True

instance (c : LruCache) (op : LruOp) : Decidable (Fits c op) :=
  match op with
  | .put key _ size alloc =>
      inferInstanceAs (Decidable (if htLookup c.table ⟨0, key⟩ ≠ 0 then
        size.toNat ≤ c.maxSize ∧
          (subSize c.currentSize (c.heap (htLookup c.table ⟨0, key⟩)).size + size.toNat) % sizeMod ≤
            c.maxSize
      else
        c.maxSize < size.toNat ∨ alloc.entry = false ∨ alloc.key = false ∨
          if c.taken alloc.table then 1 ≤ c.maxEntries else c.stored < sizeMod))
  | .get _ => .isTrue trivial
  | .release _ => .isTrue trivial

theorem Rep.stored (h : Rep c s) : c.stored = s.total := by
  have hsize : ∀ e, (c.heap e).size = (s.items e).size := fun e => congrArg Item.size (h.heap e)
  rw [LruCache.stored, (h.table.perm.map _).sum_eq, List.map_map]
  simp only [Shelf.total, hsize]
  rfl

theorem Rep.put_within (h : Rep c s) (hs : s.Sound) (hw : s.Within) {key : List UInt8} {data : Nat}
    {size : UInt64} {alloc : PutAlloc} (hfits : Fits c (.put key data size alloc)) :
    (s.put key data size.toNat alloc (c.taken alloc.table)).2.Within := by
  have hmax : c.maxSize = s.maxSize := congrArg Shelf.maxSize h.shelf
  have hmaxn : c.maxEntries = s.maxEntries := congrArg Shelf.maxEntries h.shelf
  have hcur : c.currentSize = s.currentSize := congrArg Shelf.currentSize h.shelf
  have hfree : ∀ bs, (s.free bs).Within := fun bs => ⟨hw.bytes, hw.entries, hw.items⟩
  have hend := Shelf.put_cases s key data size.toNat alloc (c.taken alloc.table)
  rw [Fits, h.lookup key, hmax, hmaxn, hcur] at hfits
  generalize s.put key data size.toNat alloc (c.taken alloc.table) = out at hend ⊢
  -- only an overwrite and an insertion change what the limits are about
  cases hend with
  | @hit e hfind =>
      have hmem := find_mem hfind
      have hsize : (c.heap e).size = (s.items e).size := congrArg Item.size (h.heap e)
      rw [hfind, if_pos (show (some e).getD 0 ≠ 0 from h.nonnull hmem)] at hfits
      simp only [Option.getD_some, hsize] at hfits
      exact hw.overwrite hmem data hfits.1 hfits.2
  | big => exact hfree _
  | noEntry => exact hfree _
  | noKey => exact ⟨hw.bytes, hw.entries, hw.items⟩
  | refused hfind hsize htaken hentry hkey =>
      rw [hfind, if_neg (by simp), htaken, hentry, hkey, h.stored] at hfits
      have hsmall : s.total < sizeMod := by
        rcases hfits with hbig | h0 | h0 | hsmall
        · exact absurd hbig (Nat.not_lt.mpr hsize)
        · cases h0
        · cases h0
        · exact hsmall
      exact hw.refused hs key data size.toNat hsmall _
  | inserted hfind hsize htaken hentry hkey =>
      rw [hfind, if_neg (by simp), htaken, hentry, hkey] at hfits
      have hone : 1 ≤ s.maxEntries := by
        rcases hfits with hbig | h0 | h0 | hone
        · exact absurd hbig (Nat.not_lt.mpr hsize)
        · cases h0
        · cases h0
        · exact hone
      exact hw.inserted hs key data hsize size.toNat_lt hone

/-! ## The limits are kept -/

/-- Size and number of entries are within the limits, and no entry is larger than the cache. -/
structure Within (c : LruCache) : Prop where
  bytes : c.currentSize ≤ c.maxSize
  entries : c.numEntries ≤ c.maxEntries
  items : ∀ l, c.links.IsList l → ∀ e ∈ l, (c.heap e).size ≤ c.maxSize

theorem Rep.within (h : Rep c s) (hw : s.Within) : Within c := by
  have hmax : c.maxSize = s.maxSize := congrArg Shelf.maxSize h.shelf
  have hmaxn : c.maxEntries = s.maxEntries := congrArg Shelf.maxEntries h.shelf
  have hcur : c.currentSize = s.currentSize := congrArg Shelf.currentSize h.shelf
  refine ⟨?_, ?_, fun l hl e he => ?_⟩
  · rw [hcur, hmax]
    exact hw.bytes
  · rw [h.num, hmaxn]
    exact hw.entries
  · rw [hl.unique h.list] at he
    have hsize : (c.heap e).size = (s.items e).size := congrArg Item.size (h.heap e)
    rw [hsize, hmax]
    exact hw.items e he

/-- **The limits of the cache.** In every run whose calls all meet `Fits`, the cache is within
its limits in every state. -/
theorem limits_kept {maxSize maxEntries : Nat} {alloc : Bool}
    (hinit : lruCacheInit maxSize maxEntries alloc = some c) (ops : List LruOp)
    (hops : Along lruNext Fits c ops) : Within (lruRun c ops) := by
  have hstep : ∀ c s op, Rep c s → s.Sound → s.Within → Fits c op →
      (shelfStep s (c.takes op) op).2.Within := by
    intro c s op h hs hw hfits
    cases op with
    | put key data size alloc => exact h.put_within hs hw hfits
    | get key => exact hw.get key
    | release e => exact hw.release e
  have hempty : (emptyShelf maxSize maxEntries).Within :=
    ⟨Nat.zero_le _, Nat.zero_le _, fun _ h => (by cases h)⟩
  obtain ⟨s, hrep, _, hw⟩ :=
    run_invariant hstep (lruCacheInit_rep hinit) (emptyShelf_sound ..) hempty hops
  exact hrep.within hw

theorem limits_kept_sample :
    (lruRun (sampleCache 100) sampleOps).currentSize = 100 ∧
    Within (lruRun (sampleCache 100) sampleOps) :=
  ⟨by decide +kernel,
    limits_kept (show lruCacheInit 100 4 true = some (sampleCache 100) from rfl) sampleOps
      (by decide +kernel)⟩

/-- A key is put again with an item larger than the whole cache. -/
def growOps : List LruOp := [.put [97] 1 10 granted, .put [97] 2 200 granted]

theorem not_within_overwrite :
    lruCacheInit 100 4 true = some (sampleCache 100) ∧
    ¬ Within (lruRun (sampleCache 100) growOps) := by
  refine ⟨rfl, fun hw => ?_⟩
  have hcur : (lruRun (sampleCache 100) growOps).currentSize = 200 := by decide +kernel
  have hmax : (lruRun (sampleCache 100) growOps).maxSize = 100 := by decide +kernel
  have hbytes := hw.bytes
  omega

end LruCache

end HttpServer
