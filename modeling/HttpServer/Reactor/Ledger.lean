import HttpServer.Reactor.Dialogue

set_option autoImplicit false

/-! # The book of descriptors

The kernel numbers the descriptors it gives out. `Ledger` says that these numbers tell the
descriptors apart: each one given out is open and has not been closed, or has been closed
exactly once. That a connection closes only what is its own (`Ev.Proper`) is no property of
the kernel. `Stable` lists the calls a connection makes as long as it does, and `Action.stable`
carries what they keep through the handlers.
-/

namespace HttpServer

open CLib

variable {site : Site} {os os' : Os} {r r' : Reactor} {c c' : Conn} {cid : Nat}

/-! ## The book -/

/-- The number of the descriptor a call closes. -/
def Ev.closing : Ev → Option Nat
  | .closed _ _ (some d) => some d.serial
  | _ => none

/-- The numbers of the descriptors that have been closed. -/
def Os.closings (os : Os) : List Nat := os.trace.filterMap Ev.closing

/-- The descriptor with number `s` is open. -/
def Os.IsOpen (os : Os) (s : Nat) : Prop := ∃ fd d, os.fds.get fd = some d ∧ d.serial = s

/-- The book is in order; the descriptors open before the reactor was created have no number
of their own, but share `0`. -/
structure Ledger (os : Os) : Prop where
  pos : 0 < os.serial
  lt : ∀ fd d, os.fds.get fd = some d → d.serial < os.serial
  inj : ∀ fd fd' d d', os.fds.get fd = some d → os.fds.get fd' = some d' →
    d.serial = d'.serial → d.serial ≠ 0 → fd = fd'
  once : ∀ s, s ≠ 0 → os.IsOpen s → os.closings.count s = 0
  gone : ∀ s, s ≠ 0 → s < os.serial → ¬ os.IsOpen s → os.closings.count s = 1
  unborn : ∀ s, os.serial ≤ s → os.closings.count s = 0

/-- The book stays in order when the same numbers are open at the same descriptors. -/
theorem Ledger.of_same (h : Ledger os)
    (hfds : ∀ k, (os'.fds.get k).map Desc.serial = (os.fds.get k).map Desc.serial)
    (hserial : os'.serial = os.serial) (hclos : os'.closings = os.closings) : Ledger os' := by
  have hold : ∀ k d, os'.fds.get k = some d →
      ∃ d', os.fds.get k = some d' ∧ d'.serial = d.serial := by
    intro k d hd
    have hk := hfds k
    rw [hd, Option.map_some, eq_comm, Option.map_eq_some_iff] at hk
    exact hk
  -- the same descriptors are open
  have hopen : ∀ s, os'.IsOpen s ↔ os.IsOpen s := by
    intro s
    constructor
    · rintro ⟨k, d, hd, rfl⟩
      obtain ⟨d', hd', hs⟩ := hold k d hd
      exact ⟨k, d', hd', hs⟩
    · rintro ⟨k, d, hd, rfl⟩
      have hk := hfds k
      rw [hd, Option.map_some, Option.map_eq_some_iff] at hk
      obtain ⟨d', hd', hs⟩ := hk
      exact ⟨k, d', hd', hs⟩
  refine ⟨by rw [hserial]; exact h.pos, ?_, ?_, ?_, ?_, ?_⟩
  · intro k d hd
    obtain ⟨d', hd', hs⟩ := hold k d hd
    rw [hserial, ← hs]
    exact h.lt k d' hd'
  · intro k k' d d' hd hd' heq hne
    obtain ⟨e, he, hs⟩ := hold k d hd
    obtain ⟨e', he', hs'⟩ := hold k' d' hd'
    exact h.inj k k' e e' he he' (by rw [hs, hs', heq]) (by rw [hs]; exact hne)
  · intro s hs ho
    rw [hclos]
    exact h.once s hs ((hopen s).mp ho)
  · intro s hs hlt ho
    rw [hclos]
    exact h.gone s hs (hserial ▸ hlt) (fun h0 => ho ((hopen s).mpr h0))
  · rw [hserial, hclos]
    exact h.unborn

theorem closings_log (os : Os) {e : Ev} (h : e.closing = none) :
    (os.log e).closings = os.closings := by
  simp [Os.closings, Os.log, h]

theorem Ledger.log (h : Ledger os) {e : Ev} (he : e.closing = none) : Ledger (os.log e) :=
  h.of_same (fun _ => rfl) rfl (closings_log os he)

/-- A new descriptor gets a new number. -/
theorem Ledger.alloc (h : Ledger os) (hint : Nat) (owner : Option Nat) (res : Resource) :
    Ledger (os.alloc hint owner res).2 := by
  have hcases : ∀ fd d, (os.alloc hint owner res).2.fds.get fd = some d →
      (fd = os.fds.pick hint ∧ d.serial = os.serial) ∨ os.fds.get fd = some d := by
    intro fd d hd
    rcases eq_or_ne fd (os.fds.pick hint) with rfl | hne
    · refine .inl ⟨rfl, ?_⟩
      simp only [Os.alloc, FdTable.get_insert_self, Option.some.injEq] at hd
      rw [← hd]
    · simp only [Os.alloc, os.fds.get_insert_of_ne _ hne] at hd
      exact .inr hd
  have hold : ∀ fd d, os.fds.get fd = some d →
      (os.alloc hint owner res).2.fds.get fd = some d := by
    intro fd d hd
    have hne : fd ≠ os.fds.pick hint := by
      rintro rfl
      rw [os.fds.pick_free] at hd
      cases hd
    simp only [Os.alloc, os.fds.get_insert_of_ne _ hne]
    exact hd
  refine ⟨Nat.succ_pos _, ?_, ?_, ?_, ?_, ?_⟩
  · intro fd d hd
    rcases hcases fd d hd with ⟨_, hs⟩ | hd
    · rw [hs]; exact Nat.lt_succ_self _
    · exact (h.lt fd d hd).trans (Nat.lt_succ_self _)
  · intro fd fd' d d' hd hd' heq hne
    rcases hcases fd d hd with ⟨hfd, hs⟩ | hd
    · rcases hcases fd' d' hd' with ⟨hfd', _⟩ | hd'
      · rw [hfd, hfd']
      · have := h.lt fd' d' hd'
        omega
    · rcases hcases fd' d' hd' with ⟨_, hs'⟩ | hd'
      · have := h.lt fd d hd
        omega
      · exact h.inj fd fd' d d' hd hd' heq hne
  · rintro s hs ⟨fd, d, hd, rfl⟩
    rcases hcases fd d hd with ⟨_, heq⟩ | hd
    · rw [heq]; exact h.unborn _ (Nat.le_refl _)
    · exact h.once _ hs ⟨fd, d, hd, rfl⟩
  · intro s hs hlt hnot
    have hne : s ≠ os.serial := by
      rintro rfl
      exact hnot ⟨os.fds.pick hint, ⟨os.serial, owner, res⟩, FdTable.get_insert_self .., rfl⟩
    have hlt' : s < os.serial + 1 := hlt
    refine h.gone s hs (by omega) ?_
    rintro ⟨fd, d, hd, heq⟩
    exact hnot ⟨fd, d, hold fd d hd, heq⟩
  · intro s hle
    exact h.unborn s ((Nat.le_succ _).trans hle)

/-- A descriptor that is closed is closed for good. -/
theorem Ledger.close (h : Ledger os) (by_ : Option Nat) (k : Nat) : Ledger (os.close by_ k) := by
  have hold : ∀ fd d, (os.close by_ k).fds.get fd = some d → os.fds.get fd = some d ∧ fd ≠ k := by
    intro fd d hd
    rcases eq_or_ne fd k with rfl | hne
    · simp [Os.close] at hd
    · simp only [Os.close, os.fds.get_erase_of_ne hne] at hd
      exact ⟨hd, hne⟩
  have hkeep : ∀ fd d, os.fds.get fd = some d → fd ≠ k →
      (os.close by_ k).fds.get fd = some d := by
    intro fd d hd hne
    simp only [Os.close, os.fds.get_erase_of_ne hne]
    exact hd
  cases hget : os.fds.get k with
  | none =>
      -- `EBADF`
      have hfds : (os.close by_ k).fds.get = os.fds.get := by
        funext fd
        rcases eq_or_ne fd k with rfl | hne
        · rw [hget]; exact FdTable.get_erase_self ..
        · exact os.fds.get_erase_of_ne hne
      refine h.of_same (fun k => by rw [hfds]) rfl ?_
      simp [Os.closings, Os.close, hget, Ev.closing]
  | some d₀ =>
      -- the serial number of `d₀` is closed for the first time
      have hclos : (os.close by_ k).closings = os.closings ++ [d₀.serial] := by
        simp [Os.closings, Os.close, hget, Ev.closing]
      have hcount : ∀ s, (os.close by_ k).closings.count s =
          os.closings.count s + if s = d₀.serial then 1 else 0 := by
        intro s
        rw [hclos, List.count_append, List.count_singleton]
        by_cases heq : s = d₀.serial
        · rw [heq]
          simp
        · have hne : d₀.serial ≠ s := fun h0 => heq h0.symm
          simp [heq, hne]
      refine ⟨h.pos, fun fd d hd => h.lt fd d (hold fd d hd).1,
        fun fd fd' d d' hd hd' => h.inj fd fd' d d' (hold fd d hd).1 (hold fd' d' hd').1, ?_, ?_, ?_⟩
      · rintro s hs ⟨fd, d, hd, rfl⟩
        obtain ⟨hd₁, hne⟩ := hold fd d hd
        have hdiff : d.serial ≠ d₀.serial := fun heq => hne (h.inj fd k d d₀ hd₁ hget heq hs)
        rw [hcount, if_neg hdiff]
        exact h.once _ hs ⟨fd, d, hd₁, rfl⟩
      · intro s hs hlt hnot
        rw [hcount]
        by_cases heq : s = d₀.serial
        · rw [if_pos heq, h.once s hs ⟨k, d₀, hget, heq.symm⟩]
        · rw [if_neg heq]
          refine h.gone s hs hlt ?_
          rintro ⟨fd, d, hd, hs'⟩
          have hne : fd ≠ k := by
            rintro rfl
            cases hget.symm.trans hd
            exact heq hs'.symm
          exact hnot ⟨fd, d, hkeep fd d hd hne, hs'⟩
      · intro s hle
        have hne : s ≠ d₀.serial := by
          have := h.lt k d₀ hget
          have hle' : os.serial ≤ s := hle
          omega
        rw [hcount, if_neg hne]
        exact h.unborn s hle

theorem Ledger.consume (h : Ledger os) (fd n : Nat) : Ledger (os.consume fd n) := by
  refine h.of_same (fun k => ?_) (by rw [consume_eq]) (by rw [consume_eq]; rfl)
  unfold Os.consume
  split
  · rename_i hget
    rcases eq_or_ne k fd with rfl | hne
    · simp [hget]
    · simp [os.fds.get_insert_of_ne _ hne]
  · rfl

theorem Ledger.openFile (h : Ledger os) (site : Site) (cid : Nat) (path : List UInt8) :
    Ledger (os.openFile site cid path).2 := by
  have hsched : Ledger { os with sched := { os.sched with opens := os.sched.opens.tail } } :=
    h.of_same (fun _ => rfl) rfl rfl
  unfold Os.openFile
  simp only
  split
  · exact (hsched.alloc _ _ _).log rfl
  · exact hsched.log rfl

/-! ## Calls of one connection -/

/-- Descriptor `k` is open, and is the socket of connection `cid` or a file opened for it. -/
def Os.Mine (os : Os) (cid k : Nat) : Prop :=
  (∃ bs, os.fds.get k = some ⟨cid, some cid, .socket bs⟩) ∨
    ∃ s bs, os.fds.get k = some ⟨s, some cid, .file bs⟩

/-- A connection closes only what is its own, and open. -/
def Ev.Proper : Ev → Prop
  | .closed (some cid) _ found =>
      (∃ bs, found = some ⟨cid, some cid, .socket bs⟩) ∨ ∃ s bs, found = some ⟨s, some cid, .file bs⟩
  | _ => True

/-- The property `P` of the system outlasts the calls of connection `cid` with socket `fd`,
as long as it closes only what is its own. -/
structure Stable (site : Site) (cid fd : Nat) (P : Os → Prop) : Prop where
  sched : ∀ os s, P os → P { os with sched := s }
  interest : ∀ os f g ctls, P os → P { os with interest := f, registered := g, ctls := ctls }
  log : ∀ os e, e.closing = none → e.Proper → P os → P (os.log e)
  openFile : ∀ os path, P os → P (os.openFile site cid path).2
  consume : ∀ os n, os.Mine cid fd → P os → P (os.consume fd n)
  close : ∀ os k, os.Mine cid k → P os → P (os.close (some cid) k)

/-- The kernel keeps its book whatever is called. -/
theorem stable_ledger (site : Site) (cid fd : Nat) : Stable site cid fd Ledger where
  sched := fun _ _ h => h.of_same (fun _ => rfl) rfl rfl
  interest := fun _ _ _ _ h => h.of_same (fun _ => rfl) rfl rfl
  log := fun _ _ he _ h => h.log he
  openFile := fun _ path h => h.openFile site cid path
  consume := fun _ n _ h => h.consume fd n
  close := fun _ k _ h => h.close (some cid) k

/-- Every close so far was proper. -/
def Os.Proper (os : Os) : Prop := ∀ e ∈ os.trace, e.Proper

theorem Os.Proper.log (h : os.Proper) {e : Ev} (he : e.Proper) : (os.log e).Proper := by
  intro e' he'
  rcases List.mem_append.mp he' with he' | he'
  · exact h e' he'
  · rw [List.mem_singleton.mp he']
    exact he

theorem Os.Proper.close (h : os.Proper) {cid k : Nat} (hk : os.Mine cid k) :
    (os.close (some cid) k).Proper :=
  Os.Proper.log h (e := .closed (some cid) k (os.fds.get k)) hk

theorem stable_proper (site : Site) (cid fd : Nat) : Stable site cid fd Os.Proper where
  sched := fun _ _ h => h
  interest := fun _ _ _ _ h => h
  log := fun _ _ _ he h => h.log he
  openFile := by
    intro os path h
    unfold Os.openFile
    simp only
    split
    · exact Os.Proper.log h trivial
    · exact Os.Proper.log h trivial
  consume := by
    intro os n _ h
    rw [consume_eq]
    exact h
  close := fun _ _ hk h => h.close hk

theorem Os.Mine.owner {k : Nat} (h : os.Mine cid k) :
    ∃ d, os.fds.get k = some d ∧ d.owner = some cid := by
  rcases h with ⟨bs, h⟩ | ⟨s, bs, h⟩
  · exact ⟨_, h, rfl⟩
  · exact ⟨_, h, rfl⟩

theorem get_consume_of_ne (os : Os) (n : Nat) {k fd : Nat} (h : k ≠ fd) :
    (os.consume fd n).fds.get k = os.fds.get k := by
  unfold Os.consume
  split
  · exact os.fds.get_insert_of_ne _ h
  · rfl

/-- Reading from a socket leaves its number and its owner. -/
theorem get_consume_self {fd : Nat} {d : Desc} (n : Nat) (h : os.fds.get fd = some d) :
    ∃ res, (os.consume fd n).fds.get fd = some { d with res := res } := by
  unfold Os.consume
  split
  · rename_i hget
    cases h.symm.trans hget
    exact ⟨_, FdTable.get_insert_self ..⟩
  · exact ⟨d.res, h⟩

/-- The descriptors opened for `o` are the same in `os` and `os'`. -/
def SameOwned (o : Option Nat) (os os' : Os) : Prop :=
  ∀ k d, d.owner = o → (os'.fds.get k = some d ↔ os.fds.get k = some d)

/-- The calls of a connection leave alone what was opened for another, or for none. -/
theorem stable_sameOwned (site : Site) {cid : Nat} {o : Option Nat} (hne : o ≠ some cid) (fd : Nat)
    (os₀ : Os) : Stable site cid fd (SameOwned o os₀) where
  sched := fun _ _ h => h
  interest := fun _ _ _ _ h => h
  log := fun _ _ _ _ h => h
  openFile := by
    intro os path h
    unfold Os.openFile
    simp only
    split
    · rename_i content hint _ _
      intro k d hd
      rw [← h k d hd]
      rcases eq_or_ne k (os.fds.pick hint) with rfl | hk
      · simp only [Os.log, Os.alloc, FdTable.get_insert_self, os.fds.pick_free]
        -- a descriptor just opened belongs to the acting connection, and was nobody's before
        constructor
        · intro h0
          cases Option.some.inj h0
          exact absurd hd.symm hne
        · intro h0
          cases h0
      · simp only [Os.log, Os.alloc, os.fds.get_insert_of_ne _ hk]
    · exact h
  consume := by
    intro os n hmine h k d hd
    rw [← h k d hd]
    rcases eq_or_ne k fd with rfl | hk
    · obtain ⟨d₀, hget, howner⟩ := hmine.owner
      obtain ⟨res, hget'⟩ := get_consume_self n hget
      -- what is consumed belongs to the acting connection
      have hother : d.owner ≠ d₀.owner := by
        rw [hd, howner]
        exact hne
      rw [hget, hget']
      exact ⟨fun h0 => absurd (by cases h0; rfl) hother, fun h0 => absurd (by cases h0; rfl) hother⟩
    · rw [get_consume_of_ne os n hk]
  close := by
    intro os k hmine h j d hd
    rw [← h j d hd]
    rcases eq_or_ne j k with rfl | hj
    · obtain ⟨d₀, hget, howner⟩ := hmine.owner
      rw [hget]
      constructor
      · intro h0
        simp [Os.close] at h0
      · intro h0
        cases h0
        exact absurd (hd.symm.trans howner) hne
    · simp only [Os.close, os.fds.get_erase_of_ne hj]

/-! ## Handlers -/

/-- A file that has been opened is the connection's own, at a descriptor that was free. -/
theorem openFile_some {path : List UInt8} {k : Nat} {os₁ : Os}
    (h : os.openFile site cid path = (some k, os₁)) :
    os.fds.get k = none ∧
      ∃ bs, os₁.fds = os.fds.insert k ⟨os.serial, some cid, .file bs⟩ := by
  unfold Os.openFile at h
  simp only at h
  split at h
  · rename_i content hint _ _
    obtain ⟨h1, rfl⟩ := Prod.mk.inj h
    cases Option.some.inj h1
    exact ⟨os.fds.pick_free hint, content, rfl⟩
  · cases (Prod.mk.inj h).1

theorem openFile_none {path : List UInt8} {os₁ : Os}
    (h : os.openFile site cid path = (none, os₁)) : os₁.fds = os.fds := by
  unfold Os.openFile at h
  simp only at h
  split at h
  · cases (Prod.mk.inj h).1
  · obtain ⟨_, rfl⟩ := Prod.mk.inj h
    rfl

theorem openFile_mine {path : List UInt8} {k : Nat} {os₁ : Os}
    (h : os.openFile site cid path = (some k, os₁)) : os₁.Mine cid k := by
  obtain ⟨_, bs, hfds⟩ := openFile_some h
  refine .inr ⟨os.serial, bs, ?_⟩
  rw [hfds]
  exact FdTable.get_insert_self ..

theorem Mallocs.fds (h : Mallocs os os') : os'.fds = os.fds := by
  obtain ⟨_, _, rfl⟩ := h
  rfl

theorem Os.Mine.of_fds {k : Nat} (h : os.Mine cid k) (hfds : os'.fds = os.fds) :
    os'.Mine cid k := by
  rw [Os.Mine, hfds]
  exact h

variable {P : Os → Prop}

theorem Stable.mallocs {fd : Nat} (hP : Stable site cid fd P) (h : Mallocs os os') (hos : P os) :
    P os' := by
  obtain ⟨_, _, rfl⟩ := h
  exact hP.sched _ _ hos

theorem Built.stable {fd : Nat} (h : Built site os c os' c') (hP : Stable site c.cid fd P)
    (hos : P os) : P os' := by
  have hopened := hP.openFile os (c.req.pathname site) hos
  cases h with
  | plain _ hm _ => exact hP.mallocs hm hos
  | unopened _ hopen hm _ =>
      rw [hopen] at hopened
      exact hP.mallocs hm hopened
  | aborted _ hopen hfail hm _ =>
      have hm₁ := Mallocs.of_malloc hfail
      rw [hopen] at hopened
      exact hP.mallocs hm (hP.close _ _ ((openFile_mine hopen).of_fds hm₁.fds)
        (hP.mallocs hm₁ hopened))
  | headOnly _ hopen hm =>
      rw [hopen] at hopened
      exact hP.close _ _ ((openFile_mine hopen).of_fds hm.fds) (hP.mallocs hm hopened)
  | withFile _ hopen hm =>
      rw [hopen] at hopened
      exact hP.mallocs hm hopened

/-- The connection's own file, if it has one, is what its record says. -/
def HoldsFile (os : Os) (c : Conn) : Prop := ∀ k, c.fileFd = some k → os.Mine c.cid k

theorem Stable.closeFile {fd : Nat} (hP : Stable site c.cid fd P) (hfile : HoldsFile os c)
    (hos : P os) : P (closeFile os c) := by
  unfold HttpServer.closeFile
  split
  · rename_i k hk
    exact hP.close os k (hfile k hk) hos
  · exact hos

theorem Stable.modEvents {fd : Nat} (hP : Stable site c.cid fd P) (i : Interest) (hos : P r.os) :
    P (modEvents r c i).os := by
  unfold HttpServer.modEvents Os.epollMod
  simp only
  split
  · exact hP.interest _ _ _ _ hos
  · exact hos

/-- What outlasts the calls of a connection outlasts its actions, as long as it holds what its
record says. -/
theorem Action.stable (h : Action site (r, c) (r', c')) (hP : Stable site c.cid c.fd P)
    (hsock : r.os.Mine c.cid c.fd) (hfile : c.state = .writing → HoldsFile r.os c)
    (hos : P r.os) : P r'.os := by
  cases h with
  | receive => exact hP.log _ _ rfl trivial (hP.consume _ _ hsock (hP.sched _ _ hos))
  | retry => exact hP.sched _ _ hos
  | parse => exact hP.log _ _ rfl trivial hos
  | @request _ _ b p req _ _ _ _ _ hbuild =>
      have hlog₁ : P (r.os.log (.parsed c.cid b)) := hP.log _ _ rfl trivial hos
      have hlog₂ : P ((r.os.log (.parsed c.cid b)).log (.request c.cid req)) :=
        hP.log _ _ rfl trivial hlog₁
      exact (buildResponse_built site hbuild).stable hP hlog₂
  | reject _ _ _ hbuild =>
      exact hP.mallocs (buildErrorResponse_plain hbuild).1 (hP.log _ _ rfl trivial hos)
  | answers => exact hP.sched _ _ hos
  | sendHead => exact hP.log _ _ rfl trivial hos
  | sendBody => exact hP.log _ _ rfl trivial hos
  | bodySent hs => exact hP.closeFile (hfile hs) hos
  | park => exact hP.modEvents _ hos
  | listen => exact hP.modEvents _ hos
  | _ => exact hos

/-- A connection may be closed that holds what its record says, and a file that is not its
socket. -/
theorem Stable.connClose (hP : Stable site c.cid c.fd P)
    (hsock : ∃ bs, r.os.fds.get c.fd = some ⟨c.cid, some c.cid, .socket bs⟩)
    (hfile : ∀ k, c.fileFd = some k → ∃ s bs, r.os.fds.get k = some ⟨s, some c.cid, .file bs⟩)
    (hos : P r.os) : P (connClose r c).os := by
  have hclosed : P ((r.os.epollDel c.fd).close (some c.cid) c.fd) :=
    hP.close _ _ (.inl hsock) (hP.interest _ _ _ _ hos)
  refine hP.closeFile (fun k hk => .inr ?_) hclosed
  obtain ⟨bs, hget⟩ := hsock
  obtain ⟨s, bs', hk'⟩ := hfile k hk
  have hne : k ≠ c.fd := by
    rintro rfl
    cases hget.symm.trans hk'
  exact ⟨s, bs', (r.os.fds.get_erase_of_ne hne).trans hk'⟩

end HttpServer
