import HttpServer.Cache.Shelf

set_option autoImplicit false

/-! # Who owns which block

All blocks that have been given to the cache or allocated by it are either freed or belong to an
entry that is on the shelf or gone from it with borrows outstanding (`Kept`). The count of an
entry is the number of its borrows.

The heart of `Kept` is one equation between lists, up to order: what was ever handed over is what
was freed together with the blocks of the entries still there. That a block is freed once, that
nothing is lost and that a borrowed payload is still there all follow from it, so each operation
is shown to keep it. The other fields tie the counts to the borrows. An entry moves from the
shelf to `gone` when it is evicted while borrowed, and leaves `gone` with the release of its last
borrow.
-/

namespace HttpServer

open CLib

/-- An entry that a client has got and not released yet, and what the client saw in it. -/
structure Loan where
  entry : Nat
  data : Nat
  size : Nat
  deriving DecidableEq, Repr

/-- The number of borrows of an entry. -/
def borrows (loans : List Loan) (e : Nat) : Nat := loans.countP (fun x => decide (x.entry = e))

theorem borrows_cons (x : Loan) (loans : List Loan) (e : Nat) :
    borrows (x :: loans) e = borrows loans e + if x.entry = e then 1 else 0 := by
  rw [borrows, List.countP_cons]
  simp [borrows]

/-- The loan at one position is returned. -/
theorem perm_eraseIdx {loans : List Loan} {i : Nat} {x : Loan} (h : loans[i]? = some x) :
    loans.Perm (x :: loans.eraseIdx i) := by
  obtain ⟨hi, rfl⟩ := List.getElem?_eq_some_iff.mp h
  exact (List.getElem_cons_eraseIdx_perm hi).symm

theorem borrows_pos {loans : List Loan} {x : Loan} (h : x ∈ loans) : 0 < borrows loans x.entry :=
  List.countP_pos_iff.mpr ⟨x, h, decide_eq_true rfl⟩

namespace Shelf

variable {s s' : Shelf} {loans loans' : List Loan} {allocs : List Block} {gone : List Nat}

/-- The blocks `allocs` are freed, or belong to an entry on the shelf or to one of the entries
`gone`, which have been taken off with borrows outstanding. -/
structure Kept (s : Shelf) (loans : List Loan) (allocs : List Block) (gone : List Nat) : Prop where
  ledger : allocs.Perm (s.frees ++ (s.order ++ gone).flatMap s.blocks)
  nodup : (s.order ++ gone).Nodup
  nonnull : 0 ∉ s.order ++ gone
  born : ∀ e ∈ gone, e < s.fresh
  dead : ∀ e ∈ gone, (s.items e).removed = true ∧ (s.items e).refcount ≠ 0
  count : ∀ e ∈ s.order ++ gone, (s.items e).refcount = borrows loans e
  held : ∀ x ∈ loans, x.entry ∈ s.order ++ gone

theorem Kept.new (h : Kept s loans allocs gone) (hs : s.Sound) : s.fresh ∉ s.order ++ gone := by
  intro hmem
  rcases List.mem_append.mp hmem with hmem | hmem
  · exact hs.new hmem
  · exact Nat.lt_irrefl _ (h.born _ hmem)

/-- Steps that free nothing and take nothing off. -/
theorem Kept.frame (h : Kept s loans allocs gone) (horder : s'.order.Perm s.order)
    (hfrees : s'.frees = s.frees) (hfresh : s.fresh ≤ s'.fresh)
    (hblocks : ∀ e ∈ s.order ++ gone, s'.blocks e = s.blocks e)
    (hdead : ∀ e ∈ gone, (s'.items e).removed = true ∧ (s'.items e).refcount ≠ 0)
    (hcount : ∀ e ∈ s.order ++ gone, (s'.items e).refcount = borrows loans' e)
    (hheld : ∀ x ∈ loans', x.entry ∈ s.order ++ gone) : Kept s' loans' allocs gone := by
  have hperm : (s'.order ++ gone).Perm (s.order ++ gone) := horder.append_right gone
  refine ⟨?_, hperm.nodup_iff.mpr h.nodup, fun h0 => h.nonnull (hperm.mem_iff.mp h0),
    fun e he => (h.born e he).trans_le hfresh, hdead, fun e he => hcount e (hperm.mem_iff.mp he), fun x hx => hperm.mem_iff.mpr (hheld x hx)⟩
  rw [hfrees]
  refine h.ledger.trans (List.Perm.append_left _ ?_)
  refine (hperm.symm.flatMap_right s.blocks).trans (List.Perm.of_eq ?_)
  refine List.flatMap_congr fun e he => ?_
  exact (hblocks e (hperm.mem_iff.mp he)).symm

/-- Blocks that come and go in one call. -/
theorem Kept.passed (h : Kept s loans allocs gone) {bs bs' : List Block} (hbs : bs.Perm bs') :
    Kept (s.free bs') loans (allocs ++ bs) gone := by
  refine ⟨?_, h.nodup, h.nonnull, h.born, h.dead, h.count, h.held⟩
  refine (h.ledger.append hbs).trans ?_
  change ((s.frees ++ _) ++ bs').Perm ((s.frees ++ bs') ++ _)
  rw [List.append_assoc, List.append_assoc]
  exact List.Perm.append_left _ List.perm_append_comm

/-- The blocks of an entry are freed that nobody has borrowed any more. -/
theorem Kept.discard (h : Kept s loans allocs gone) {e : Nat} {gone' : List Nat}
    (hsplit : (s.order ++ gone).Perm (e :: (s'.order ++ gone')))
    (hfrees : s'.frees = s.frees ++ s.blocks e) (hfresh : s'.fresh = s.fresh)
    (hblocks : ∀ u, s'.blocks u = s.blocks u) (hsub : gone' ⊆ gone)
    (hdead : ∀ u ∈ gone', (s'.items u).removed = true ∧ (s'.items u).refcount ≠ 0)
    (hcount : ∀ u ∈ s.order ++ gone, (s'.items u).refcount = borrows loans' u)
    (hheld : ∀ x ∈ loans', x.entry ∈ s.order ++ gone) (hnone : borrows loans' e = 0) :
    Kept s' loans' allocs gone' := by
  have hmem : ∀ u ∈ s'.order ++ gone', u ∈ s.order ++ gone :=
    fun u hu => hsplit.mem_iff.mpr (List.mem_cons_of_mem _ hu)
  refine ⟨?_, (List.nodup_cons.mp (hsplit.nodup_iff.mp h.nodup)).2,
    fun h0 => h.nonnull (hmem 0 h0), fun u hu => (h.born u (hsub hu)).trans_eq hfresh.symm, hdead,
    fun u hu => hcount u (hmem u hu), fun x hx => ?_⟩
  · refine h.ledger.trans ?_
    rw [hfrees, List.append_assoc, List.flatMap_congr (fun u _ => hblocks u)]
    exact (hsplit.flatMap_right s.blocks).append_left s.frees
  · rcases List.mem_cons.mp (hsplit.mem_iff.mp (hheld x hx)) with heq | hin
    · have hpos := borrows_pos hx
      rw [heq] at hpos
      omega
    · exact hin

/-! ## Borrowing and returning -/

theorem Kept.get (h : Kept s loans allocs gone) {key : List UInt8} {e : Nat}
    (hfind : s.find key = some e) (hmax : (s.items e).refcount + 1 < refMod) (data size : Nat) :
    Kept (s.get key).2 (⟨e, data, size⟩ :: loans) allocs gone := by
  have hmem : e ∈ s.order := List.mem_of_find?_eq_some hfind
  rw [get_hit hfind, Nat.mod_eq_of_lt hmax]
  refine h.frame (List.perm_cons_erase hmem).symm rfl (Nat.le_refl _) (fun u _ => ?_)
    (fun u hu => ?_) (fun u hu => ?_) (fun x hx => ?_)
  · rcases eq_or_ne u e with rfl | hne
    · simp [blocks]
    · simp [blocks, hne]
  · have hne : u ≠ e := by
      rintro rfl
      exact (List.nodup_append.mp h.nodup).2.2 u hmem u hu rfl
    simp only [Function.update_of_ne hne]
    exact h.dead u hu
  · have hcount := h.count u hu
    rw [borrows_cons]
    rcases eq_or_ne u e with rfl | hne
    · simp [hcount]
    · simp [hne, Ne.symm hne, hcount]
  · rcases List.mem_cons.mp hx with rfl | hx
    · exact List.mem_append_left _ hmem
    · exact h.held x hx

theorem Kept.release (h : Kept s loans allocs gone) (hs : s.Sound) {i : Nat} {x : Loan}
    (hx : loans[i]? = some x) : ∃ gone', Kept (s.release x.entry) (loans.eraseIdx i) allocs gone' := by
  have hperm := perm_eraseIdx hx
  -- exactly one borrow of the entry is given back
  have hborrows : ∀ u, borrows loans u =
      borrows (loans.eraseIdx i) u + if x.entry = u then 1 else 0 := by
    intro u
    rw [← borrows_cons]
    exact hperm.countP_eq _
  have hheld : ∀ y ∈ loans.eraseIdx i, y.entry ∈ s.order ++ gone :=
    fun y hy => h.held y (hperm.mem_iff.mpr (List.mem_cons_of_mem _ hy))
  have hmem := h.held x (hperm.mem_iff.mpr List.mem_cons_self)
  generalize x.entry = e at hborrows hmem ⊢
  have he : e ≠ 0 := fun h0 => h.nonnull (h0 ▸ hmem)
  have hone := hborrows e
  rw [if_pos rfl, ← h.count _ hmem] at hone
  rw [release_eq s he]
  have hself : Function.update s.items e { s.items e with refcount := (s.items e).refcount - 1 } e =
      { s.items e with refcount := (s.items e).refcount - 1 } := Function.update_self ..
  have hother : ∀ u, u ≠ e → Function.update s.items e
      { s.items e with refcount := (s.items e).refcount - 1 } u = s.items u :=
    fun u hu => Function.update_of_ne hu ..
  generalize Function.update s.items e { s.items e with refcount := (s.items e).refcount - 1 } = items
    at hself hother ⊢
  -- so the counts agree again: only that of the entry went down
  have hcount : ∀ u ∈ s.order ++ gone, (items u).refcount = borrows (loans.eraseIdx i) u := by
    intro u hu
    have hu' := h.count u hu
    rw [hborrows u] at hu'
    rcases eq_or_ne u e with rfl | hne
    · rw [hself]
      simp only
      omega
    · rw [hother u hne, hu', if_neg (Ne.symm hne), Nat.add_zero]
  have hblocks : ∀ u, blocks { s with items := items } u = s.blocks u := by
    intro u
    rcases eq_or_ne u e with rfl | hne
    · simp [blocks, hself]
    · simp [blocks, hother u hne]
  by_cases hlast : (s.items e).removed = true ∧ (s.items e).refcount - 1 = 0
  · -- the last borrow of an entry that is gone
    have hgone : e ∈ gone := by
      rcases List.mem_append.mp hmem with horder | hgone
      · rw [hs.live e horder] at hlast
        cases hlast.1
      · exact hgone
    have hsplit : (s.order ++ gone).Perm (e :: (s.order ++ gone.erase e)) :=
      ((List.perm_cons_erase hgone).append_left s.order).trans List.perm_middle
    have hnodup := List.nodup_cons.mp (hsplit.nodup_iff.mp h.nodup)
    have hzero := hcount e hmem
    rw [hself, hlast.2] at hzero
    rw [if_pos hlast]
    refine ⟨gone.erase e, h.discard hsplit rfl rfl hblocks List.erase_subset (fun u hu => ?_)
      hcount hheld hzero.symm⟩
    have hne : u ≠ e := by
      rintro rfl
      exact hnodup.1 (List.mem_append_right _ hu)
    simp only [hother u hne]
    exact h.dead u (List.mem_of_mem_erase hu)
  -- it is still borrowed, or still in the list: nothing is freed
  · rw [if_neg hlast, List.append_nil]
    refine ⟨gone, h.frame (.refl _) rfl (Nat.le_refl _) (fun u _ => hblocks u) (fun u hu => ?_)
      hcount hheld⟩
    rcases eq_or_ne u e with rfl | hne
    · have hdead := h.dead u hu
      simp only [hself]
      exact ⟨hdead.1, fun h0 => hlast ⟨hdead.1, h0⟩⟩
    · simp only [hother u hne]
      exact h.dead u hu

/-! ## Putting -/

theorem Kept.evict (h : Kept s loans allocs gone) (hs : s.Sound) {v : Nat}
    (hlast : s.order.getLast? = some v) :
    ∃ gone', Kept (s.evict v) loans allocs gone' ∧
      ∀ e ∈ (s.evict v).order ++ gone', e ∈ s.order ++ gone := by
  have hl : s.order = s.order.dropLast ++ [v] := (List.dropLast_append_getLast? v hlast).symm
  have hv : v ∈ s.order := List.mem_of_getLast? hlast
  have hsplit : (s.order ++ gone).Perm (v :: (s.order.dropLast ++ gone)) := by
    nth_rewrite 1 [hl]
    rw [List.append_assoc]
    exact List.perm_middle
  have hnodup := List.nodup_cons.mp (hsplit.nodup_iff.mp h.nodup)
  have hsub : ∀ u ∈ s.order.dropLast ++ gone, u ∈ s.order ++ gone :=
    fun u hu => hsplit.mem_iff.mpr (List.mem_cons_of_mem _ hu)
  have hcountv := h.count v (List.mem_append_left _ hv)
  rw [evict_eq]
  -- only the mark of the last entry changes: counts and blocks are as before
  have hself : Function.update s.items v { s.items v with removed := true } v =
      { s.items v with removed := true } := Function.update_self ..
  have hother : ∀ u, u ≠ v → Function.update s.items v { s.items v with removed := true } u =
      s.items u := fun u hu => Function.update_of_ne hu ..
  generalize Function.update s.items v { s.items v with removed := true } = items at hself hother ⊢
  have hcount : ∀ u ∈ s.order ++ gone, (items u).refcount = borrows loans u := by
    intro u hu
    rcases eq_or_ne u v with rfl | hne
    · rw [hself]
      exact hcountv
    · rw [hother u hne]
      exact h.count u hu
  have hblocks : ∀ u, blocks { s with items := items } u = s.blocks u := by
    intro u
    rcases eq_or_ne u v with rfl | hne
    · simp [blocks, hself]
    · simp [blocks, hother u hne]
  have hdead : ∀ u ∈ gone, (items u).removed = true ∧ (items u).refcount ≠ 0 := by
    intro u hu
    have hne : u ≠ v := by
      rintro rfl
      exact hnodup.1 (List.mem_append_right _ hu)
    rw [hother u hne]
    exact h.dead u hu
  by_cases hzero : (s.items v).refcount = 0
  -- nobody has borrowed it: its blocks are freed now
  · rw [if_pos hzero]
    exact ⟨gone, h.discard hsplit rfl rfl hblocks (List.Subset.refl _) hdead hcount h.held
      (hcountv.symm.trans hzero), hsub⟩
  · -- the entry is borrowed: it is kept until its last borrow is returned
    have hmove : (s.order.dropLast ++ v :: gone).Perm (s.order ++ gone) :=
      List.perm_middle.trans hsplit.symm
    rw [if_neg hzero, List.append_nil]
    refine ⟨v :: gone, ⟨?_, hmove.nodup_iff.mpr h.nodup,
      fun h0 => h.nonnull (hmove.mem_iff.mp h0), fun u hu => ?_, fun u hu => ?_,
      fun u hu => hcount u (hmove.mem_iff.mp hu),
      fun x hx => hmove.mem_iff.mpr (h.held x hx)⟩, fun u hu => hmove.mem_iff.mp hu⟩
    · refine h.ledger.trans (List.Perm.append_left s.frees ?_)
      change ((s.order ++ gone).flatMap s.blocks).Perm
        ((s.order.dropLast ++ v :: gone).flatMap (blocks { s with items := items }))
      rw [List.flatMap_congr (fun u _ => hblocks u)]
      exact hmove.symm.flatMap_right s.blocks
    · rcases List.mem_cons.mp hu with rfl | hu
      · exact hs.born u hv
      · exact h.born u hu
    · rcases List.mem_cons.mp hu with rfl | hu
      · simp only [hself]
        exact ⟨trivial, hzero⟩
      · exact hdead u hu

theorem Kept.makeRoom (h : Kept s loans allocs gone) (hs : s.Sound) (size n : Nat) :
    ∃ gone', Kept (s.makeRoom size n) loans allocs gone' ∧
      ∀ e ∈ (s.makeRoom size n).order ++ gone', e ∈ s.order ++ gone := by
  have hroom : (s.makeRoom size n).Sound ∧ ∃ gone', Kept (s.makeRoom size n) loans allocs gone' ∧
      ∀ e ∈ (s.makeRoom size n).order ++ gone', e ∈ s.order ++ gone := by
    refine makeRoom_induct (P := fun s' => s'.Sound ∧ ∃ gone', Kept s' loans allocs gone' ∧
      ∀ e ∈ s'.order ++ gone', e ∈ s.order ++ gone) ?_ n ⟨hs, gone, h, fun _ he => he⟩
    rintro s' v ⟨hs', gone', h', hsub⟩ _ hlast
    obtain ⟨gone'', h'', hsub'⟩ := h'.evict hs' hlast
    exact ⟨hs'.evict hlast, gone'', h'', fun e he => hsub e (hsub' e he)⟩
  exact hroom.2

theorem Kept.alloc (h : Kept s loans allocs gone) (hs : s.Sound) (key : List UInt8)
    (data size : Nat) : Kept (s.alloc key data size) loans allocs gone := by
  have hother : ∀ u ∈ s.order ++ gone, (s.alloc key data size).items u = s.items u := by
    intro u hu
    have hne : u ≠ s.fresh := fun h0 => h.new hs (h0 ▸ hu)
    simp [Shelf.alloc, modify, hne]
  refine h.frame (.refl _) rfl (Nat.le_succ _) (fun u hu => ?_) (fun u hu => ?_) (fun u hu => ?_)
    h.held
  · rw [blocks, blocks, hother u hu]
  · rw [hother u (List.mem_append_right _ hu)]
    exact h.dead u hu
  · rw [hother u hu]
    exact h.count u hu

theorem Kept.overwrite (h : Kept s loans allocs gone) {e : Nat} (he : e ∈ s.order)
    (data size : Nat) :
    Kept (s.overwrite e data size) loans (allocs ++ [.payload data]) gone := by
  have hsplit : (s.order ++ gone).Perm (e :: (s.order.erase e ++ gone)) :=
    (List.perm_cons_erase he).append_right gone
  have hnodup := List.nodup_cons.mp (hsplit.nodup_iff.mp h.nodup)
  rw [overwrite_eq]
  have hself : Function.update s.items e { s.items e with data := data, size := size } e =
      { s.items e with data := data, size := size } := Function.update_self ..
  have hother : ∀ u, u ≠ e → Function.update s.items e
      { s.items e with data := data, size := size } u = s.items u :=
    fun u hu => Function.update_of_ne hu ..
  generalize Function.update s.items e { s.items e with data := data, size := size } = items
    at hself hother ⊢
  refine ⟨?_, hsplit.nodup_iff.mp h.nodup, fun h0 => h.nonnull (hsplit.mem_iff.mpr h0), h.born,
    fun u hu => ?_, fun u hu => ?_, fun x hx => hsplit.mem_iff.mp (h.held x hx)⟩
  · -- the old payload is freed and the new one takes its place
    have hrest : (s.order.erase e ++ gone).flatMap (blocks { s with items := items }) =
        (s.order.erase e ++ gone).flatMap s.blocks := by
      refine List.flatMap_congr fun u hu => ?_
      have hne : u ≠ e := fun h0 => hnodup.1 (h0 ▸ hu)
      simp [blocks, hother u hne]
    have hold := h.ledger.trans ((hsplit.flatMap_right s.blocks).append_left s.frees)
    change (allocs ++ [Block.payload data]).Perm ((s.frees ++ [Block.payload (s.items e).data]) ++
      (e :: (s.order.erase e ++ gone)).flatMap (blocks { s with items := items }))
    rw [List.flatMap_cons, hrest]
    rw [List.flatMap_cons] at hold
    rw [List.perm_iff_count] at hold ⊢
    intro b
    have hb := hold b
    simp only [blocks, hself, List.count_append, List.count_cons, List.count_nil] at hb ⊢
    omega
  -- a dead entry is another one, and is as it was
  · have hne : u ≠ e := by
      rintro rfl
      exact hnodup.1 (List.mem_append_right _ hu)
    simp only [hother u hne]
    exact h.dead u hu
  · have hu' := h.count u (hsplit.mem_iff.mpr hu)
    rcases eq_or_ne u e with rfl | hne
    · simp only [hself]
      exact hu'
    · simp only [hother u hne]
      exact hu'

/-- The blocks a `put` is given or allocates: the payload, an entry and the copy of the key. -/
def putBlocks (s : Shelf) (key : List UInt8) (data size : Nat) (alloc : PutAlloc) : List Block :=
  match s.find key with
  | some _ => [.payload data]
  | none =>
      if s.maxSize < size then [.payload data]
      else if alloc.entry = false then [.payload data]
      else if alloc.key = false then [.payload data, .entry s.fresh]
      else [.payload data, .entry s.fresh, .key s.fresh]

theorem Kept.pushed (h : Kept s loans allocs gone) {e size : Nat} (he : e ∉ s.order ++ gone)
    (h0 : e ≠ 0) (hcount : (s.items e).refcount = 0) {bs : List Block} (hbs : bs.Perm (s.blocks e)) :
    Kept (s.pushed e size) loans (allocs ++ bs) gone := by
  refine ⟨?_, List.nodup_cons.mpr ⟨he, h.nodup⟩, fun hmem => ?_, h.born, h.dead, fun u hu => ?_,
    fun x hx => List.mem_cons_of_mem _ (h.held x hx)⟩
  · refine (h.ledger.append hbs).trans ?_
    change ((s.frees ++ (s.order ++ gone).flatMap s.blocks) ++ s.blocks e).Perm
      (s.frees ++ (s.blocks e ++ (s.order ++ gone).flatMap s.blocks))
    rw [List.append_assoc]
    exact List.Perm.append_left _ List.perm_append_comm
  · rcases List.mem_cons.mp hmem with heq | hmem
    · exact h0 heq.symm
    · exact h.nonnull hmem
  · rcases List.mem_cons.mp hu with rfl | hu
    · refine hcount.trans (Eq.symm (List.countP_eq_zero.mpr fun x hx heq => he ?_))
      rw [← of_decide_eq_true heq]
      exact h.held x hx
    · exact h.count u hu

theorem Kept.put (h : Kept s loans allocs gone) (hs : s.Sound) (key : List UInt8) (data size : Nat)
    (alloc : PutAlloc) (taken : Bool) :
    ∃ gone', Kept (s.put key data size alloc taken).2 loans
      (allocs ++ s.putBlocks key data size alloc) gone' := by
  have hend := put_cases s key data size alloc taken
  obtain ⟨gone', hroom, hsub⟩ := (h.alloc hs key data size).makeRoom (hs.alloc key data size) size
    s.order.length
  change Kept (s.room key data size) loans allocs gone' at hroom
  change ∀ e ∈ (s.room key data size).order ++ gone', e ∈ s.order ++ gone at hsub
  obtain ⟨_, _, hitem⟩ := room_new hs key data size
  -- making room changes what is kept, but nothing gets the new address
  have hnew : s.fresh ∉ (s.room key data size).order ++ gone' :=
    fun hmem => h.new hs (hsub _ hmem)
  generalize s.put key data size alloc taken = out at hend ⊢
  rw [putBlocks]
  cases hend with
  | hit hfind =>
      rw [hfind]
      exact ⟨gone, h.overwrite (List.mem_of_find?_eq_some hfind) data size⟩
  | big hfind hbig =>
      rw [hfind]
      simp only [if_pos hbig]
      exact ⟨gone, h.passed (.refl _)⟩
  | noEntry hfind hsize halloc =>
      rw [hfind]
      simp only [if_neg (Nat.not_lt.mpr hsize), if_pos halloc]
      exact ⟨gone, h.passed (.refl _)⟩
  | noKey hfind hsize hentry halloc =>
      rw [hfind]
      simp only [if_neg (Nat.not_lt.mpr hsize), hentry, Bool.true_eq_false, if_false, if_pos halloc]
      have hgrow : Kept { s with fresh := s.fresh + 1 } loans allocs gone :=
        h.frame (.refl _) rfl (Nat.le_succ _) (fun _ _ => rfl) h.dead h.count h.held
      exact ⟨gone, hgrow.passed (.swap ..)⟩
  | refused hfind hsize _ hentry hkey =>
      rw [hfind]
      simp only [if_neg (Nat.not_lt.mpr hsize), hentry, hkey, Bool.true_eq_false, if_false, hitem]
      -- the blocks that were given out are exactly those that are freed
      refine ⟨gone', hroom.passed ?_⟩
      rw [List.perm_iff_count]
      intro b
      simp only [List.count_cons, List.count_nil]
      omega
  | inserted hfind hsize _ hentry hkey =>
      rw [hfind]
      simp only [if_neg (Nat.not_lt.mpr hsize), hentry, hkey, Bool.true_eq_false, if_false]
      refine ⟨gone', hroom.pushed hnew (Nat.ne_of_gt hs.pos) (by rw [hitem]) ?_⟩
      rw [blocks, hitem, List.perm_iff_count]
      intro b
      simp only [List.count_cons, List.count_nil]
      omega

end Shelf

end HttpServer
