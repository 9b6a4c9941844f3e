import HttpServer.Cache.Lru

set_option autoImplicit false

/-! # The cache without its links and its table

A `Shelf` is what the cache of `Cache/Lru.lean` is about: the entries in order of use as a
list, and what is in each of them. Its operations say what the functions of the cache do to
these, with a search of the list in place of the table and list operations in place of the
links. `Cache/Rep.lean` shows that the cache does the same.
-/

namespace HttpServer

open CLib

/-- An entry without its links. -/
structure Item where
  data : Nat
  size : Nat
  key : KeyPtr
  refcount : Nat
  removed : Bool
  deriving DecidableEq, Repr

structure Shelf where
  order : List Nat
  items : Nat → Item
  currentSize : Nat
  maxSize : Nat
  maxEntries : Nat
  hits : UInt64
  misses : UInt64
  evictions : UInt64
  fresh : Nat
  frees : List Block

namespace Shelf

def modify (s : Shelf) (e : Nat) (f : Item → Item) : Shelf :=
  { s with items := Function.update s.items e (f (s.items e)) }

def free (s : Shelf) (bs : List Block) : Shelf := { s with frees := s.frees ++ bs }

/-- The entry has this key. -/
def hasKey (s : Shelf) (key : List UInt8) (e : Nat) : Bool :=
  decide (cstr (s.items e).key.str = cstr key)

def find (s : Shelf) (key : List UInt8) : Option Nat := s.order.find? (s.hasKey key)

/-- Move an entry to the front. -/
def touch (s : Shelf) (e : Nat) : Shelf := { s with order := e :: s.order.erase e }

/-- The blocks of an entry. -/
def blocks (s : Shelf) (e : Nat) : List Block :=
  [.payload (s.items e).data, .key (s.items e).key.addr, .entry e]

def maybeFree (s : Shelf) (e : Nat) : Shelf :=
  if (s.items e).removed = true ∧ (s.items e).refcount = 0 then s.free (s.blocks e) else s

/-- Take the last entry `v` off the shelf. -/
def evict (s : Shelf) (v : Nat) : Shelf :=
  let s := s.modify v (fun x => { x with removed := true })
  let s := { s with
    order := s.order.dropLast
    currentSize := subSize s.currentSize (s.items v).size
    evictions := s.evictions + 1 }
  s.maybeFree v

def admits (s : Shelf) (size : Nat) : Bool :=
  decide (s.order.length < s.maxEntries) && decide ((s.currentSize + size) % sizeMod ≤ s.maxSize)

/-- Evict until there is room, at most `n` times. -/
def makeRoom (size : Nat) : Nat → Shelf → Shelf
  | 0, s => s
  | n + 1, s =>
      if s.admits size then s
      else
        match s.order.getLast? with
        | none => s
        | some v => makeRoom size n (s.evict v)

def get (s : Shelf) (key : List UInt8) : Nat × Shelf :=
  match s.find key with
  | some e =>
      let s := s.modify e (fun x => { x with refcount := (x.refcount + 1) % refMod })
      let s := s.touch e
      (e, { s with hits := s.hits + 1 })
  | none => (0, { s with misses := s.misses + 1 })

def release (s : Shelf) (e : Nat) : Shelf :=
  if e = 0 then s
  else
    let s :=
      if 0 < (s.items e).refcount then s.modify e (fun x => { x with refcount := x.refcount - 1 })
      else s
    s.maybeFree e

def overwrite (s : Shelf) (e data size : Nat) : Shelf :=
  let s := { s with currentSize := subSize s.currentSize (s.items e).size }
  let s := s.free [.payload (s.items e).data]
  let s := s.modify e (fun x => { x with data := data, size := size })
  let s := { s with currentSize := (s.currentSize + size) % sizeMod }
  s.touch e

/-- Allocate an entry, not yet on the shelf. -/
def alloc (s : Shelf) (key : List UInt8) (data size : Nat) : Shelf :=
  { s with fresh := s.fresh + 1 }.modify s.fresh
    (fun _ => ⟨data, size, ⟨s.fresh, cstr key⟩, 0, false⟩)

/-- Put the entry `e` in front. -/
def pushed (s : Shelf) (e size : Nat) : Shelf :=
  { s with
    order := e :: s.order
    currentSize := (s.currentSize + size) % sizeMod }

/-- Make room for the new entry `e` and put it in front, when the table takes it. -/
def insert (s : Shelf) (e data size : Nat) (taken : Bool) : Bool × Shelf :=
  let s := makeRoom size s.order.length s
  if taken then (true, s.pushed e size)
  else (false, s.free [.key (s.items e).key.addr, .entry e, .payload data])

/-- `taken` says whether the table takes a new entry. -/
def put (s : Shelf) (key : List UInt8) (data size : Nat) (alloc : PutAlloc) (taken : Bool) :
    Bool × Shelf :=
  match s.find key with
  | some e => (true, s.overwrite e data size)
  | none =>
      if s.maxSize < size then (false, s.free [.payload data])
      else if alloc.entry = false then (false, s.free [.payload data])
      else if alloc.key = false then
        (false, { s with fresh := s.fresh + 1 }.free [.entry s.fresh, .payload data])
      else (s.alloc key data size).insert s.fresh data size taken

/-! ## Equations -/

theorem get_hit {s : Shelf} {key : List UInt8} {e : Nat} (hfind : s.find key = some e) :
    s.get key = (e, { s with
      order := e :: s.order.erase e
      items := Function.update s.items e
        { s.items e with refcount := ((s.items e).refcount + 1) % refMod }
      hits := s.hits + 1 }) := by
  rw [get, hfind]
  rfl

theorem get_miss {s : Shelf} {key : List UInt8} (hfind : s.find key = none) :
    s.get key = (0, { s with misses := s.misses + 1 }) := by
  rw [get, hfind]

theorem overwrite_eq (s : Shelf) (e data size : Nat) :
    s.overwrite e data size = { s with
      order := e :: s.order.erase e
      items := Function.update s.items e { s.items e with data := data, size := size }
      currentSize := (subSize s.currentSize (s.items e).size + size) % sizeMod
      frees := s.frees ++ [.payload (s.items e).data] } := rfl

theorem maybeFree_eq (s : Shelf) (e : Nat) :
    s.maybeFree e = { s with frees := s.frees ++
      if (s.items e).removed = true ∧ (s.items e).refcount = 0 then s.blocks e else [] } := by
  rw [maybeFree]
  split
  · rfl
  · rw [List.append_nil]

/-! ## Eviction -/

theorem evict_eq (s : Shelf) (v : Nat) :
    s.evict v = { s with
      order := s.order.dropLast
      items := Function.update s.items v { s.items v with removed := true }
      currentSize := subSize s.currentSize (s.items v).size
      evictions := s.evictions + 1
      frees := s.frees ++ if (s.items v).refcount = 0 then s.blocks v else [] } := by
  rw [evict, maybeFree_eq]
  simp [modify, blocks]

/-- What holds before the evictions and is kept by each of them holds after them. -/
theorem makeRoom_induct {P : Shelf → Prop} {size : Nat}
    (hstep : ∀ s v, P s → s.admits size = false → s.order.getLast? = some v → P (s.evict v))
    (n : Nat) : ∀ {s : Shelf}, P s → P (s.makeRoom size n) := by
  induction n with
  | zero => exact fun h => h
  | succ n ih =>
      intro s h
      rw [makeRoom]
      by_cases hadmits : s.admits size = true
      · rw [if_pos hadmits]
        exact h
      · rw [if_neg hadmits]
        cases hlast : s.order.getLast? with
        | none => exact h
        | some v => exact ih (hstep s v h (Bool.eq_false_iff.mpr hadmits) hlast)

/-- The evictions stop when there is room, or nothing left to evict. -/
theorem makeRoom_done (size n : Nat) :
    ∀ {s : Shelf}, s.order.length ≤ n →
      (s.makeRoom size n).admits size = true ∨ (s.makeRoom size n).order = [] := by
  induction n with
  | zero => exact fun h => .inr (List.length_eq_zero_iff.mp (Nat.le_zero.mp h))
  | succ n ih =>
      intro s h
      rw [makeRoom]
      by_cases hadmits : s.admits size = true
      · rw [if_pos hadmits]
        exact .inl hadmits
      · rw [if_neg hadmits]
        cases hlast : s.order.getLast? with
        | none => exact .inr (List.getLast?_eq_none_iff.mp hlast)
        | some v =>
            refine ih ?_
            rw [evict_eq]
            simp only [List.length_dropLast]
            omega

/-- What the evictions leave alone: they take entries off the end, and mark them. -/
structure Shortened (s s' : Shelf) : Prop where
  order : s'.order <+: s.order
  items : ∀ e, ∃ b, s'.items e = { s.items e with removed := b }
  other : ∀ e, e ∉ s.order → s'.items e = s.items e
  fresh : s'.fresh = s.fresh
  maxSize : s'.maxSize = s.maxSize
  maxEntries : s'.maxEntries = s.maxEntries
  hits : s'.hits = s.hits
  misses : s'.misses = s.misses
  evictions : s'.evictions = s.evictions + UInt64.ofNat (s.order.length - s'.order.length)

theorem Shortened.keys {s s' : Shelf} (h : Shortened s s') (e : Nat) :
    (s'.items e).key = (s.items e).key := by
  obtain ⟨b, hb⟩ := h.items e
  rw [hb]

theorem Shortened.sizes {s s' : Shelf} (h : Shortened s s') (e : Nat) :
    (s'.items e).size = (s.items e).size := by
  obtain ⟨b, hb⟩ := h.items e
  rw [hb]

theorem makeRoom_shortened (size n : Nat) (s : Shelf) : Shortened s (s.makeRoom size n) := by
  refine makeRoom_induct (P := Shortened s) ?_ n
    ⟨List.prefix_rfl, fun e => ⟨(s.items e).removed, rfl⟩, fun _ _ => rfl, rfl, rfl, rfl, rfl, rfl,
      by simp⟩
  intro s' v h _ hlast
  have hpos : 0 < s'.order.length := List.length_pos_of_mem (List.mem_of_getLast? hlast)
  have hlen := h.order.length_le
  rw [evict_eq]
  refine ⟨(List.dropLast_prefix _).trans h.order, fun e => ?_, fun e he => ?_, h.fresh, h.maxSize,
    h.maxEntries, h.hits, h.misses, ?_⟩
  · obtain ⟨b, hb⟩ := h.items e
    rcases eq_or_ne e v with rfl | hne
    · exact ⟨true, by simp [hb]⟩
    · exact ⟨b, by simp [hne, hb]⟩
  · have hne : e ≠ v := by
      rintro rfl
      exact he (h.order.subset (List.mem_of_getLast? hlast))
    simp [hne, h.other e he]
  · have hone : s.order.length - (s'.order.length - 1) = s.order.length - s'.order.length + 1 := by
      omega
    simp only [List.length_dropLast, h.evictions, hone, UInt64.ofNat_add, UInt64.add_assoc]
    rfl

/-! ## What a `put` can do -/

/-- The shelf with room made for a new entry, which is allocated. -/
def room (s : Shelf) (key : List UInt8) (data size : Nat) : Shelf :=
  (s.alloc key data size).makeRoom size s.order.length

inductive PutEnd (s : Shelf) (key : List UInt8) (data size : Nat) (alloc : PutAlloc) (taken : Bool) :
    Bool × Shelf → Prop
  | hit {e : Nat} (hfind : s.find key = some e) :
      PutEnd s key data size alloc taken (true, s.overwrite e data size)
  | big (hfind : s.find key = none) (hsize : s.maxSize < size) :
      PutEnd s key data size alloc taken (false, s.free [.payload data])
  | noEntry (hfind : s.find key = none) (hsize : size ≤ s.maxSize) (halloc : alloc.entry = false) :
      PutEnd s key data size alloc taken (false, s.free [.payload data])
  | noKey (hfind : s.find key = none) (hsize : size ≤ s.maxSize) (hentry : alloc.entry = true)
      (halloc : alloc.key = false) :
      PutEnd s key data size alloc taken
        (false, { s with fresh := s.fresh + 1 }.free [.entry s.fresh, .payload data])
  | refused (hfind : s.find key = none) (hsize : size ≤ s.maxSize) (htaken : taken = false)
      (hentry : alloc.entry = true) (hkey : alloc.key = true) :
      PutEnd s key data size alloc taken
        (false, (s.room key data size).free
          [.key ((s.room key data size).items s.fresh).key.addr, .entry s.fresh, .payload data])
  | inserted (hfind : s.find key = none) (hsize : size ≤ s.maxSize) (htaken : taken = true)
      (hentry : alloc.entry = true) (hkey : alloc.key = true) :
      PutEnd s key data size alloc taken (true, (s.room key data size).pushed s.fresh size)

theorem put_cases (s : Shelf) (key : List UInt8) (data size : Nat) (alloc : PutAlloc) (taken : Bool) :
    PutEnd s key data size alloc taken (s.put key data size alloc taken) := by
  cases hfind : s.find key with
  | some e =>
      have hput : s.put key data size alloc taken = (true, s.overwrite e data size) := by
        rw [put, hfind]
      rw [hput]
      exact .hit hfind
  | none =>
      rw [put, hfind]
      by_cases hsize : s.maxSize < size
      · rw [if_pos hsize]
        exact .big hfind hsize
      · rw [if_neg hsize]
        have hle := Nat.le_of_not_lt hsize
        cases hentry : alloc.entry with
        | false => exact .noEntry hfind hle hentry
        | true =>
            cases hkey : alloc.key with
            | false => exact .noKey hfind hle hentry hkey
            | true =>
                cases htaken : taken with
                | false => exact .refused hfind hle rfl hentry hkey
                | true => exact .inserted hfind hle rfl hentry hkey

/-! ## Sound shelves -/

/-- The bytes on the shelf. -/
def total (s : Shelf) : Nat := (s.order.map fun e => (s.items e).size).sum

structure Sound (s : Shelf) : Prop where
  nodup : s.order.Nodup
  pos : 0 < s.fresh
  born : ∀ e ∈ s.order, e < s.fresh
  live : ∀ e ∈ s.order, (s.items e).removed = false
  fits : ∀ e ∈ s.order, (s.items e).size < sizeMod
  sized : s.currentSize = s.total % sizeMod

variable {s s' : Shelf}

theorem Sound.new (h : s.Sound) : s.fresh ∉ s.order :=
  fun hmem => Nat.lt_irrefl _ (h.born _ hmem)

/-- Taking `b` bytes off a sum that has them. -/
theorem subSize_mod (a : Nat) {b : Nat} (hb : b < sizeMod) :
    subSize ((a + b) % sizeMod) b = a % sizeMod := by
  rw [subSize, Nat.mod_add_mod, show a + b + (sizeMod - b) = a + sizeMod by omega,
    Nat.add_mod_right]

theorem total_congr (horder : s'.order.Perm s.order)
    (hitems : ∀ e ∈ s.order, (s'.items e).size = (s.items e).size) : s'.total = s.total := by
  rw [total, total, (horder.map _).sum_eq]
  exact congrArg List.sum (List.map_congr_left hitems)

/-- Changes to what `Sound` does not speak about, and to the order. -/
theorem Sound.frame (h : s.Sound) (horder : s'.order.Perm s.order) (hfresh : s.fresh ≤ s'.fresh)
    (hitems : ∀ e ∈ s.order, (s'.items e).size = (s.items e).size ∧
      (s'.items e).removed = (s.items e).removed)
    (hsize : s'.currentSize = s.currentSize) : s'.Sound where
  nodup := horder.nodup_iff.mpr h.nodup
  pos := h.pos.trans_le hfresh
  born := fun e he => (h.born e (horder.mem_iff.mp he)).trans_le hfresh
  live := fun e he => (hitems e (horder.mem_iff.mp he)).2.trans (h.live e (horder.mem_iff.mp he))
  fits := fun e he => by
    rw [(hitems e (horder.mem_iff.mp he)).1]
    exact h.fits e (horder.mem_iff.mp he)
  sized := by
    rw [hsize, total_congr horder (fun e he => (hitems e he).1), h.sized]

theorem evict_total (h : s.Sound) {v : Nat} (hlast : s.order.getLast? = some v) :
    s.total = (s.evict v).total + (s.items v).size := by
  have hl : s.order = s.order.dropLast ++ [v] := (List.dropLast_append_getLast? v hlast).symm
  have hnodup := h.nodup
  rw [hl] at hnodup
  have hrest : (s.evict v).total = (s.order.dropLast.map fun e => (s.items e).size).sum := by
    rw [total, evict_eq]
    refine congrArg List.sum (List.map_congr_left fun e he => ?_)
    have hne : e ≠ v := by
      rintro rfl
      exact (List.nodup_append.mp hnodup).2.2 e he e List.mem_cons_self rfl
    simp only [Function.update_of_ne hne]
  rw [hrest, total]
  nth_rewrite 1 [hl]
  rw [List.map_append, List.sum_append]
  simp

theorem Sound.evict (h : s.Sound) {v : Nat} (hlast : s.order.getLast? = some v) :
    (s.evict v).Sound := by
  have hv : v ∈ s.order := List.mem_of_getLast? hlast
  have hl : s.order = s.order.dropLast ++ [v] := (List.dropLast_append_getLast? v hlast).symm
  have hnodup := h.nodup
  rw [hl] at hnodup
  -- the evicted entry is at the end of the list, and nowhere else
  have hne : ∀ e ∈ s.order.dropLast, e ≠ v := by
    rintro e he rfl
    exact (List.nodup_append.mp hnodup).2.2 e he e List.mem_cons_self rfl
  have hmem : ∀ e ∈ s.order.dropLast, e ∈ s.order := fun e he => List.mem_of_mem_dropLast he
  have htotal := evict_total h hlast
  have hsized : (s.evict v).currentSize = (s.evict v).total % sizeMod := by
    rw [← subSize_mod _ (h.fits v hv), ← htotal, ← h.sized, evict_eq]
  refine ⟨?_, ?_, ?_, ?_, ?_, hsized⟩
  · rw [evict_eq]
    exact (List.nodup_append.mp hnodup).1
  · rw [evict_eq]
    exact h.pos
  · rw [evict_eq]
    exact fun e he => h.born e (hmem e he)
  · rw [evict_eq]
    intro e he
    simp only [Function.update_of_ne (hne e he)]
    exact h.live e (hmem e he)
  · rw [evict_eq]
    intro e he
    simp only [Function.update_of_ne (hne e he)]
    exact h.fits e (hmem e he)

theorem Sound.makeRoom (h : s.Sound) (size n : Nat) : (s.makeRoom size n).Sound :=
  makeRoom_induct (P := Sound) (fun _ _ hs _ hlast => hs.evict hlast) n h

theorem makeRoom_total (h : s.Sound) (size n : Nat) : (s.makeRoom size n).total ≤ s.total := by
  have hroom : (s.makeRoom size n).Sound ∧ (s.makeRoom size n).total ≤ s.total := by
    refine makeRoom_induct (P := fun s' => s'.Sound ∧ s'.total ≤ s.total) ?_ n ⟨h, Nat.le_refl _⟩
    rintro s' v ⟨hs', hle⟩ _ hlast
    have htotal := evict_total hs' hlast
    exact ⟨hs'.evict hlast, by omega⟩
  exact hroom.2

/-- The new entry is still there when room has been made. -/
theorem room_new (h : s.Sound) (key : List UInt8) (data size : Nat) :
    s.fresh ∉ (s.room key data size).order ∧ s.fresh < (s.room key data size).fresh ∧
      (s.room key data size).items s.fresh = ⟨data, size, ⟨s.fresh, cstr key⟩, 0, false⟩ := by
  have hshort := makeRoom_shortened size s.order.length (s.alloc key data size)
  refine ⟨fun hmem => h.new (hshort.order.subset hmem), ?_, ?_⟩
  · exact (Nat.lt_succ_self _).trans_eq hshort.fresh.symm
  · rw [room, hshort.other s.fresh h.new]
    simp [alloc, modify]

/-- A new number of borrows is all that changes in an item. -/
theorem recount_frame (items : Nat → Item) (e n u : Nat) :
    ∃ m, Function.update items e { items e with refcount := n } u = { items u with refcount := m } := by
  rcases eq_or_ne u e with rfl | hne
  · exact ⟨n, Function.update_self ..⟩
  · exact ⟨(items u).refcount, Function.update_of_ne hne ..⟩

theorem get_frame (s : Shelf) (key : List UInt8) :
    (s.get key).2.order.Perm s.order ∧ (s.get key).2.fresh = s.fresh ∧
      (s.get key).2.currentSize = s.currentSize ∧
      ∀ e, ∃ n, (s.get key).2.items e = { s.items e with refcount := n } := by
  cases hfind : s.find key with
  | none =>
      rw [get_miss hfind]
      exact ⟨.refl _, rfl, rfl, fun e => ⟨(s.items e).refcount, rfl⟩⟩
  | some e =>
      have hmem : e ∈ s.order := List.mem_of_find?_eq_some hfind
      rw [get_hit hfind]
      exact ⟨(List.perm_cons_erase hmem).symm, rfl, rfl, recount_frame s.items e _⟩

theorem get_total (s : Shelf) (key : List UInt8) : (s.get key).2.total = s.total := by
  obtain ⟨hperm, _, _, hitems⟩ := get_frame s key
  refine total_congr hperm fun e _ => ?_
  obtain ⟨n, hn⟩ := hitems e
  rw [hn]

theorem Sound.get (h : s.Sound) (key : List UInt8) : (s.get key).2.Sound := by
  obtain ⟨hperm, hfresh, hsize, hitems⟩ := get_frame s key
  refine h.frame hperm hfresh.ge (fun e _ => ?_) hsize
  obtain ⟨n, hn⟩ := hitems e
  rw [hn]
  exact ⟨rfl, rfl⟩

theorem release_eq (s : Shelf) {e : Nat} (he : e ≠ 0) :
    s.release e = { s with
      items := Function.update s.items e { s.items e with refcount := (s.items e).refcount - 1 }
      frees := s.frees ++
        if (s.items e).removed = true ∧ (s.items e).refcount - 1 = 0 then s.blocks e else [] } := by
  rw [release, if_neg he]
  by_cases hpos : 0 < (s.items e).refcount
  · rw [if_pos hpos, maybeFree_eq]
    simp [modify, blocks]
  · have hzero : (s.items e).refcount = 0 := Nat.eq_zero_of_not_pos hpos
    have hitem : { s.items e with refcount := 0 } = s.items e := by rw [← hzero]
    rw [if_neg hpos, maybeFree_eq]
    simp [hzero, hitem]

/-- A release changes the count of borrows only, and may free. -/
theorem release_frame (s : Shelf) (e : Nat) :
    ∃ items frees, s.release e = { s with items := items, frees := frees } ∧
      ∀ u, ∃ n, items u = { s.items u with refcount := n } := by
  rcases eq_or_ne e 0 with rfl | he
  · exact ⟨s.items, s.frees, rfl, fun u => ⟨(s.items u).refcount, rfl⟩⟩
  · exact ⟨_, _, release_eq s he, recount_frame s.items e _⟩

theorem Sound.release (h : s.Sound) (e : Nat) : (s.release e).Sound := by
  obtain ⟨items, frees, heq, hitems⟩ := release_frame s e
  rw [heq]
  refine h.frame (.refl _) (Nat.le_refl _) (fun u _ => ?_) rfl
  obtain ⟨n, hn⟩ := hitems u
  simp [hn]

theorem overwrite_total (h : s.Sound) {e : Nat} (he : e ∈ s.order) (data size : Nat) :
    (s.overwrite e data size).total + (s.items e).size = s.total + size := by
  have hnew : (s.overwrite e data size).total =
      size + ((s.order.erase e).map fun u => (s.items u).size).sum := by
    have hrest : ((s.order.erase e).map fun u => ((s.overwrite e data size).items u).size) =
        (s.order.erase e).map fun u => (s.items u).size := by
      refine List.map_congr_left fun u hu => ?_
      have hne : u ≠ e := (h.nodup.mem_erase_iff.mp hu).1
      simp [overwrite, touch, modify, free, hne]
    rw [← hrest]
    simp [total, overwrite, touch, modify, free]
  have hold : s.total = (s.items e).size + ((s.order.erase e).map fun u => (s.items u).size).sum := by
    rw [total, ((List.perm_cons_erase he).map _).sum_eq, List.map_cons, List.sum_cons]
  omega

theorem Sound.overwrite (h : s.Sound) {e : Nat} (he : e ∈ s.order) (data : Nat) {size : Nat}
    (hsize : size < sizeMod) : (s.overwrite e data size).Sound := by
  have hperm := List.perm_cons_erase he
  have hmem : ∀ u ∈ e :: s.order.erase e, u ∈ s.order := fun u hu => hperm.mem_iff.mpr hu
  refine ⟨hperm.nodup_iff.mp h.nodup, h.pos, fun u hu => h.born u (hmem u hu), ?_, ?_, ?_⟩
  · intro u hu
    have hlive := h.live u (hmem u hu)
    rcases eq_or_ne u e with rfl | hue
    · simpa [Shelf.overwrite, touch, modify, free] using hlive
    · simpa [Shelf.overwrite, touch, modify, free, hue] using hlive
  · intro u hu
    have hfits := h.fits u (hmem u hu)
    rcases eq_or_ne u e with rfl | hue
    · simpa [Shelf.overwrite, touch, modify, free] using hsize
    · simpa [Shelf.overwrite, touch, modify, free, hue] using hfits
  · have htotal := overwrite_total h he data size
    change (subSize s.currentSize (s.items e).size + size) % sizeMod = _
    have hfits := h.fits e he
    rw [h.sized, subSize, Nat.mod_add_mod, Nat.add_assoc, Nat.mod_add_mod,
      show s.total + (sizeMod - (s.items e).size + size) =
        (s.overwrite e data size).total + sizeMod by omega, Nat.add_mod_right]

theorem Sound.alloc (h : s.Sound) (key : List UInt8) (data size : Nat) :
    (s.alloc key data size).Sound := by
  refine h.frame (.refl _) (Nat.le_succ _) (fun u hu => ?_) rfl
  have hne : u ≠ s.fresh := fun h0 => h.new (h0 ▸ hu)
  simp [Shelf.alloc, modify, hne]

theorem pushed_total {e size : Nat} (hsize : (s.items e).size = size) :
    (s.pushed e size).total = size + s.total := by
  rw [← hsize]
  exact List.sum_cons

theorem Sound.pushed (h : s.Sound) {e size : Nat} (he : e ∉ s.order) (hborn : e < s.fresh)
    (hlive : (s.items e).removed = false) (hsize : (s.items e).size = size)
    (hfits : size < sizeMod) : (s.pushed e size).Sound := by
  refine ⟨List.nodup_cons.mpr ⟨he, h.nodup⟩, h.pos, ?_, ?_, ?_, ?_⟩
  · intro u hu
    rcases List.mem_cons.mp hu with rfl | hu
    · exact hborn
    · exact h.born u hu
  · intro u hu
    rcases List.mem_cons.mp hu with rfl | hu
    · exact hlive
    · exact h.live u hu
  · intro u hu
    rcases List.mem_cons.mp hu with rfl | hu
    · exact hsize.trans_lt hfits
    · exact h.fits u hu
  · rw [pushed_total hsize]
    change (s.currentSize + size) % sizeMod = _
    rw [h.sized, Nat.mod_add_mod, Nat.add_comm]

theorem Sound.put (h : s.Sound) (key : List UInt8) (data : Nat) {size : Nat}
    (hsize : size < sizeMod) (alloc : PutAlloc) (taken : Bool) :
    (s.put key data size alloc taken).2.Sound := by
  have hfree : ∀ {s : Shelf} bs, s.Sound → (s.free bs).Sound := fun bs hs =>
    hs.frame (.refl _) (Nat.le_refl _) (fun _ _ => ⟨rfl, rfl⟩) rfl
  have hend := put_cases s key data size alloc taken
  generalize s.put key data size alloc taken = out at hend ⊢
  cases hend with
  | hit hfind => exact h.overwrite (List.mem_of_find?_eq_some hfind) data hsize
  | big => exact hfree _ h
  | noEntry => exact hfree _ h
  | noKey =>
      have hnext : Sound { s with fresh := s.fresh + 1 } :=
        h.frame (.refl _) (Nat.le_succ _) (fun _ _ => ⟨rfl, rfl⟩) rfl
      exact hfree _ hnext
  | refused => exact hfree _ ((h.alloc key data size).makeRoom size _)
  | inserted =>
      have hroom : (s.room key data size).Sound := (h.alloc key data size).makeRoom size _
      obtain ⟨hnew, hborn, hitem⟩ := room_new h key data size
      exact hroom.pushed hnew hborn (by rw [hitem]) (by rw [hitem]) hsize

end Shelf

end HttpServer
