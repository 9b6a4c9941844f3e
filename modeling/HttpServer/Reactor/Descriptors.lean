import HttpServer.Reactor.Ownership

set_option autoImplicit false

/-! # Descriptors over whole runs

In a run in which no connection is closed before its first response is set up, every close of a
connection is of its own socket or of a file opened for it, each descriptor is closed once, and
the table of connections agrees with the descriptors that are open.

The condition is needed because the record of a connection comes from `calloc`: until a response
is set up its `file_fd` is `0`, and closing it then closes descriptor `0`, whoever has it. The
invariant is `Sound`, kept by every step (`Step.sound`). It combines the ledger of closings, the
ownership of every open descriptor and the agreement of the table with the counter of
connections. `reactor_destroy` is a run over the table of its own (`destroyed_exists`).
-/

namespace HttpServer

open CLib

variable {site : Site} {os os' : Os} {r r' : Reactor} {c c' : Conn} {ref : ConnRef}

/-! ## The end of a connection -/

theorem get_close {by_ : Option Nat} {fd k : Nat} {d : Desc}
    (h : (os.close by_ fd).fds.get k = some d) : os.fds.get k = some d ∧ k ≠ fd := by
  rcases eq_or_ne k fd with rfl | hne
  · simp [Os.close] at h
  · exact ⟨(os.fds.get_erase_of_ne hne).symm.trans h, hne⟩

theorem get_closeFile {k : Nat} {d : Desc} (h : (closeFile os c).fds.get k = some d) :
    os.fds.get k = some d ∧ c.fileFd ≠ some k := by
  unfold closeFile at h
  split at h
  · rename_i j hj
    obtain ⟨hget, hne⟩ := get_close h
    refine ⟨hget, fun h0 => hne ?_⟩
    exact (Option.some.inj (hj.symm.trans h0)).symm
  · rename_i hnone
    exact ⟨h, fun h0 => by cases hnone.symm.trans h0⟩

/-- A connection that is closed leaves nothing open behind. -/
theorem Owns.released (h : Owns r.os c) {k : Nat} {d : Desc}
    (hget : (connClose r c).os.fds.get k = some d) : d.owner ≠ some c.cid := by
  intro hd
  obtain ⟨hget, hfile⟩ := get_closeFile hget
  obtain ⟨hget, hne⟩ := get_close hget
  rcases h.all k d hget hd with hk | ⟨_, hk⟩
  · exact hne hk
  · exact hfile hk

theorem Owns.connClose_stable (h : Owns r.os c) (hans : Answered r.os c) {P : Os → Prop}
    (hP : Stable site c.cid c.fd P) (hos : P r.os) : P (connClose r c).os :=
  hP.connClose h.sock (h.file hans) hos

theorem Outcome.stable (h : Outcome site r c r' ref) (ht : Tenant site r.os c) {P : Os → Prop}
    (hP : Stable site c.cid c.fd P) (hos : P r.os) : P r'.os := by
  cases h with
  | live hacts => exact hacts.stable ht hP hos
  | @closed r₁ c₁ hacts hwhy =>
      have ht₁ := hacts.tenant ht
      rw [← hacts.confined.cid, ← hacts.confined.fd] at hP
      exact ht₁.owns.connClose_stable (ht₁.closing hwhy) hP
        (hacts.stable ht (by rw [← hacts.confined.cid, ← hacts.confined.fd]; exact hP) hos)
  | @closedFile r₁ c₁ hacts hs hphase hwhy =>
      have ht₁ := hacts.tenant ht
      have hP₁ := hacts.stable ht hP hos
      rw [← hacts.confined.cid, ← hacts.confined.fd] at hP
      have hown := ht₁.owns.bodySent hs
      have hfile : HoldsFile r₁.os c₁ := fun k hk =>
        .inr (ht₁.owns.file (ht₁.owns.answered hs) k hk)
      exact Owns.connClose_stable (r := { r₁ with os := closeFile r₁.os c₁ })
        (c := { c₁ with fileFd := none, phase := .done }) hown (hown.answered hs) hP
        (hP.closeFile hfile hP₁)
  | crashed hacts => exact hP.log _ _ rfl trivial (hacts.stable ht hP hos)

theorem Outcome.released (h : Outcome site r c r' .closed) (ht : Tenant site r.os c) {k : Nat}
    {d : Desc} (hget : r'.os.fds.get k = some d) : d.owner ≠ some c.cid := by
  cases h with
  | @closed r₁ c₁ hacts hwhy =>
      rw [← hacts.confined.cid]
      exact (hacts.tenant ht).owns.released hget
  | @closedFile r₁ c₁ hacts hs hphase hwhy =>
      have hown := (hacts.tenant ht).owns.bodySent hs
      rw [← hacts.confined.cid]
      exact Owns.released (r := { r₁ with os := closeFile r₁.os c₁ })
        (c := { c₁ with fileFd := none, phase := .done }) hown hget

/-! ## All connections -/

/-- The descriptors of the connections there are. -/
def Reactor.live (r : Reactor) : Finset Nat :=
  (Finset.range connMax).filter (fun fd => (r.conns fd).isSome)

/-- The books of the reactor are right. `os₀` is the system as it was when the reactor was
created. -/
structure Sound (os₀ : Os) (r : Reactor) : Prop where
  ledger : Ledger r.os
  proper : r.os.Proper
  reserved : SameOwned none os₀ r.os
  below : ∀ fd c, r.conns fd = some c → fd < connMax
  count : r.activeConns = r.live.card
  owns : r.crashed = none → ∀ fd c, r.conns fd = some c → Owns r.os c ∧ Buffered r.os c
  owned : r.crashed = none → ∀ k d i, r.os.fds.get k = some d → d.owner = some i →
    ∃ fd c, r.conns fd = some c ∧ c.cid = i

theorem Owns.of_others (h : Owns os c) (hsame : SameOwned (some c.cid) os os')
    (hhist : os'.history c.cid = os.history c.cid) : Owns os' c := by
  have hans : Answered os' c ↔ Answered os c := answered_iff rfl rfl (exchanges_of_history hhist)
  refine ⟨?_, ?_, ?_, ?_, ?_, h.done⟩
  · obtain ⟨bs, hget⟩ := h.sock
    exact ⟨bs, (hsame _ _ rfl).mpr hget⟩
  · intro hans' k hk
    obtain ⟨s, bs, hget⟩ := h.file (hans.mp hans') k hk
    exact ⟨s, bs, (hsame _ _ rfl).mpr hget⟩
  · intro k d hget hd
    rw [hans]
    exact h.all k d ((hsame k d hd).mp hget) hd
  · rw [hans]; exact h.asking
  · rw [hans]; exact h.idle

/-! ## Counting -/

theorem Reactor.mem_live {k : Nat} : k ∈ r.live ↔ k < connMax ∧ ∃ c, r.conns k = some c := by
  rw [Reactor.live, Finset.mem_filter, Finset.mem_range, Option.isSome_iff_exists]

/-- One connection less. -/
theorem live_close (hbelow : c.fd < connMax) (hc : r.conns c.fd = some c)
    (hconns : r'.conns = Function.update r.conns c.fd none) : r'.live.card + 1 = r.live.card := by
  have hmem : c.fd ∈ r.live := Reactor.mem_live.mpr ⟨hbelow, c, hc⟩
  have herase : r'.live = r.live.erase c.fd := by
    ext k
    rw [Finset.mem_erase, Reactor.mem_live, Reactor.mem_live, hconns]
    rcases eq_or_ne k c.fd with rfl | hne
    · simp
    · simp [hne]
  rw [herase, Finset.card_erase_add_one hmem]

/-- One connection more. -/
theorem live_accept {fd : Nat} (hbelow : fd < connMax) (hfree : r.conns fd = none)
    (hconns : r'.conns = Function.update r.conns fd (some c)) :
    r'.live.card = r.live.card + 1 := by
  have hnot : fd ∉ r.live := by
    intro hmem
    obtain ⟨_, c', hc'⟩ := Reactor.mem_live.mp hmem
    cases hfree.symm.trans hc'
  have hinsert : r'.live = insert fd r.live := by
    ext k
    rw [Finset.mem_insert, Reactor.mem_live, Reactor.mem_live, hconns]
    rcases eq_or_ne k fd with rfl | hne
    · simp [hbelow]
    · simp [hne]
  rw [hinsert, Finset.card_insert_of_notMem hnot]

/-- The same connections. -/
theorem live_same (hconns : ∀ k, (r'.conns k).isSome = (r.conns k).isSome) : r'.live = r.live := by
  ext k
  rw [Reactor.live, Reactor.live, Finset.mem_filter, Finset.mem_filter, hconns]

/-! ## Steps -/

/-- From `r` to `r'` connection `c` has made calls, and closed only what is its own. -/
structure Conducted (site : Site) (c : Conn) (r r' : Reactor) : Prop where
  stable : ∀ P : Os → Prop, Stable site c.cid c.fd P → P r.os → P r'.os
  history : ∀ i, i ≠ c.cid → r'.os.history i = r.os.history i

theorem Conducted.sameOwned (h : Conducted site c r r') {o : Option Nat} (ho : o ≠ some c.cid) :
    SameOwned o r.os r'.os :=
  h.stable _ (stable_sameOwned site ho c.fd r.os) (fun _ _ _ => Iff.rfl)

/-- The books are right after the calls of one connection, if they are right about itself. -/
theorem Sound.conducted {os₀ : Os} (h : Sound os₀ r) (hcr : r.crashed = none) (hn : Numbered r)
    (hc : r.conns c.fd = some c) (hcond : Conducted site c r r')
    (hothers : ∀ k, k ≠ c.fd → r'.conns k = r.conns k)
    (hcount : r'.activeConns = r'.live.card)
    (hself : r'.crashed = none → ∀ d, r'.conns c.fd = some d →
      d.cid = c.cid ∧ Owns r'.os d ∧ Buffered r'.os d)
    (hgone : r'.crashed = none → r'.conns c.fd = none →
      ∀ k d, r'.os.fds.get k = some d → d.owner ≠ some c.cid) : Sound os₀ r' where
  ledger := hcond.stable _ (stable_ledger ..) h.ledger
  proper := hcond.stable _ (stable_proper ..) h.proper
  reserved := hcond.stable _ (stable_sameOwned site (by simp) c.fd os₀) h.reserved
  below := by
    intro k d hd
    rcases eq_or_ne k c.fd with rfl | hne
    · exact h.below _ c hc
    · rw [hothers k hne] at hd
      exact h.below k d hd
  count := hcount
  owns := by
    intro hcr' k d hd
    rcases eq_or_ne k c.fd with rfl | hne
    · exact (hself hcr' d hd).2
    · rw [hothers k hne] at hd
      -- other connections have other numbers, and what they own is not touched
      have hcid : d.cid ≠ c.cid := fun h0 => hne (hn.inj k c.fd d c hd hc h0)
      obtain ⟨hown, hbuf⟩ := h.owns hcr k d hd
      exact ⟨hown.of_others (hcond.sameOwned fun h0 => hcid (Option.some.inj h0))
        (hcond.history d.cid hcid), hbuf.of_history (hcond.history d.cid hcid)⟩
  owned := by
    intro hcr' k d i hget hd
    by_cases hi : i = c.cid
    · subst hi
      cases hc' : r'.conns c.fd with
      | none => exact absurd hd (hgone hcr' hc' k d hget)
      | some d' => exact ⟨c.fd, d', hc', (hself hcr' d' hc').1⟩
    · have hsame := hcond.sameOwned (o := some i) (fun h0 => hi (Option.some.inj h0))
      obtain ⟨fd, d', hd', hcid⟩ := h.owned hcr k d i ((hsame k d hd).mp hget) hd
      have hne : fd ≠ c.fd := by
        rintro rfl
        cases hc.symm.trans hd'
        exact hi hcid.symm
      exact ⟨fd, d', (hothers fd hne).trans hd', hcid⟩

theorem Outcome.conducted (h : Outcome site r c r' ref) (ht : Tenant site r.os c) :
    Conducted site c r r' :=
  ⟨fun _ hP hos => h.stable ht hP hos, fun _ hi => h.history_of_ne hi⟩

/-- Closing takes the connection out of the table and off the count. -/
theorem Outcome.table_closed (h : Outcome site r c r' .closed) :
    r'.conns = Function.update r.conns c.fd none ∧ r'.activeConns = r.activeConns - 1 := by
  cases h with
  | closed hacts =>
      have hconf := hacts.confined
      rw [← hconf.fd, connClose, hconf.reactor]
      exact ⟨rfl, rfl⟩
  | closedFile hacts =>
      have hconf := hacts.confined
      rw [← hconf.fd, connClose, hconf.reactor]
      exact ⟨rfl, rfl⟩

theorem Outcome.table_open (h : Outcome site r c r' ref) (hne : ref ≠ .closed) :
    r'.conns = r.conns ∧ r'.activeConns = r.activeConns := by
  cases h with
  | live hacts => rw [hacts.confined.reactor]; exact ⟨rfl, rfl⟩
  | crashed hacts => rw [hacts.confined.reactor]; exact ⟨rfl, rfl⟩
  | closed => exact absurd rfl hne
  | closedFile => exact absurd rfl hne

theorem settle_sound {os₀ : Os} (h : Sound os₀ r) (hcr : r.crashed = none) (hn : Numbered r)
    (hc : r.conns c.fd = some c) (ht : Tenant site r.os c) (hout : Outcome site r c r' ref) :
    Sound os₀ (r'.settle c.fd ref) := by
  have hcond := hout.conducted ht
  have hothers : ∀ k, k ≠ c.fd → (r'.settle c.fd ref).conns k = r.conns k :=
    fun k hk => hout.settle_of_ne hk
  -- the record is written back, taken out of the table, or left in a reactor that has crashed
  cases ref with
  | live c' =>
      obtain ⟨hconns, hactive⟩ := hout.table_open (by simp)
      refine h.conducted hcr hn hc ⟨hcond.stable, hcond.history⟩ hothers ?_ (fun _ d hd => ?_)
        (fun _ hnone => ?_)
      · have hlive : (r'.settle c.fd (.live c')).live = r.live := by
          refine live_same fun k => ?_
          rcases eq_or_ne k c.fd with rfl | hne
          · simp [Reactor.settle, hc]
          · rw [hothers k hne]
        rw [hlive, ← h.count]
        exact hactive
      · cases hout with
        | live hacts =>
            simp only [Reactor.settle, Function.update_self, Option.some.injEq] at hd
            subst hd
            have ht' := hacts.tenant ht
            exact ⟨hacts.confined.cid, ht'.owns, ht'.buffered⟩
      · simp [Reactor.settle] at hnone
  | closed =>
      obtain ⟨hconns, hactive⟩ := hout.table_closed
      refine h.conducted hcr hn hc ⟨hcond.stable, hcond.history⟩ hothers ?_ (fun _ d hd => ?_)
        (fun _ _ k d hget => hout.released ht hget)
      · have hlive := live_close (h.below _ c hc) hc hconns
        have hcount := h.count
        change r'.activeConns = r'.live.card
        rw [hactive, hcount, ← hlive]
        push_cast
        omega
      · rw [Reactor.settle, hout.gone] at hd
        cases hd
  | crashed f =>
      obtain ⟨hconns, hactive⟩ := hout.table_open (by simp)
      refine h.conducted hcr hn hc ⟨hcond.stable, hcond.history⟩ hothers ?_
        (fun h0 => (by cases h0)) (fun h0 => (by cases h0))
      have hlive : (r'.settle c.fd (.crashed f)).live = r.live :=
        live_same fun k => by rw [Reactor.settle, hconns]
      rw [hlive, ← h.count]
      exact hactive

/-- A hangup closes the connection, which has had its first response. -/
theorem hangup_sound (site : Site) {os₀ : Os} (h : Sound os₀ r) (hcr : r.crashed = none) (hn : Numbered r)
    (hc : r.conns c.fd = some c) (hans : Answered r.os c) : Sound os₀ (connClose r c) := by
  have hown := (h.owns hcr _ c hc).1
  have hcond : Conducted site c r (connClose r c) :=
    ⟨fun P hP hos => hown.connClose_stable hans hP hos,
      fun i _ => congrFun (history_connClose r c) i⟩
  refine h.conducted hcr hn hc hcond (fun k hk => connClose_conns r c hk) ?_
    (fun _ d hd => ?_) (fun _ _ k d hget => hown.released hget)
  · have hlive : (connClose r c).live.card + 1 = r.live.card :=
      live_close (h.below _ c hc) hc rfl
    have hcount := h.count
    change r.activeConns - 1 = _
    rw [hcount, ← hlive]
    push_cast
    omega
  · rw [connClose_gone] at hd
    cases hd

/-! ## Accepting -/

theorem Owns.fresh {fd cid : Nat} {bs : List UInt8} (h : os.history cid = ⟨[], [], [], []⟩)
    (hsock : os.fds.get fd = some ⟨cid, some cid, .socket bs⟩)
    (hall : ∀ k d, os.fds.get k = some d → d.owner = some cid → k = fd) :
    Owns os (Conn.calloc fd cid) := by
  have hnot : ¬ Answered os (Conn.calloc fd cid) := by
    have hpar : os.parsed cid = [] := congrArg History.parsed h
    have hdia : os.dialogue cid = Transcript.start := congrArg Transcript.start.run hpar
    change ¬ (os.dialogue cid).exchanges ≠ []
    rw [hdia]
    exact fun h0 => h0 rfl
  exact ⟨⟨bs, hsock⟩, fun h0 => absurd h0 hnot, fun k d hget hd => .inl (hall k d hget hd),
    fun _ => rfl, fun h0 => absurd h0 hnot, fun h0 => (by cases h0)⟩

/-- What is open right after `accept`: what was open, and the new socket. -/
theorem get_acceptedOs {a : AcceptRes} {k : Nat} {d : Desc}
    (h : (r.acceptedOs a).fds.get k = some d) :
    (k = r.os.fds.pick a.hint ∧ d = ⟨r.os.serial, some r.os.serial, .socket a.incoming⟩) ∨
      (k ≠ r.os.fds.pick a.hint ∧ r.os.fds.get k = some d) := by
  rcases eq_or_ne k (r.os.fds.pick a.hint) with rfl | hne
  · exact .inl ⟨rfl, (Option.some.inj ((FdTable.get_insert_self ..).symm.trans h)).symm⟩
  · exact .inr ⟨hne, (r.os.fds.get_insert_of_ne _ hne).symm.trans h⟩

theorem sameOwned_acceptedOs (r : Reactor) (a : AcceptRes) {o : Option Nat}
    (ho : o ≠ some r.os.serial) : SameOwned o r.os (r.acceptedOs a) := by
  intro k d hd
  constructor
  · intro hget
    rcases get_acceptedOs hget with ⟨_, rfl⟩ | ⟨_, hget⟩
    · exact absurd hd.symm ho
    · exact hget
  · intro hget
    have hne : k ≠ r.os.fds.pick a.hint := by
      rintro rfl
      cases (r.os.fds.pick_free a.hint).symm.trans hget
    exact (r.os.fds.get_insert_of_ne _ hne).trans hget

theorem SameOwned.trans {o : Option Nat} {os₁ os₂ os₃ : Os} (h₁ : SameOwned o os₁ os₂)
    (h₂ : SameOwned o os₂ os₃) : SameOwned o os₁ os₃ :=
  fun k d hd => (h₂ k d hd).trans (h₁ k d hd)

/-- A socket that is closed at once leaves the descriptors as they were; a new connection has
its socket, and the others have what they had. -/
theorem Accepted.sound {os₀ : Os} {a : AcceptRes} (hacc : Accepted r a r') (hcr : r.crashed = none)
    (hrest : AtRest r) (hfol : Followed site r) (h : Sound os₀ r) : Sound os₀ r' := by
  have hproper : (r.acceptedOs a).Proper := Os.Proper.log h.proper trivial
  have hledger : Ledger (r.acceptedOs a) := (h.ledger.alloc ..).log rfl
  have hhist := history_acceptedOs r a
  cases hacc with
  | refused =>
      -- the descriptor is opened and closed again
      have hfds : ((r.acceptedOs a).close none (r.os.fds.pick a.hint)).fds.get = r.os.fds.get :=
        get_erase_insert _ _ (r.os.fds.pick_free a.hint)
      have hhist' : ((r.acceptedOs a).close none (r.os.fds.pick a.hint)).history = r.os.history :=
        (Os.history_close ..).trans hhist
      refine ⟨hledger.close .., Os.Proper.log hproper trivial, ?_, h.below, h.count, ?_, ?_⟩
      · intro k d hd
        rw [hfds]
        exact h.reserved k d hd
      · intro _ k d hd
        obtain ⟨hown, hbuf⟩ := h.owns hcr k d hd
        exact ⟨hown.still rfl rfl rfl rfl hown.done hfds
          (exchanges_of_history (congrFun hhist' d.cid)), hbuf.of_history (congrFun hhist' d.cid)⟩
      · simp only [hfds]
        exact h.owned
  | welcomed hbelow =>
      -- a connection there would own an open socket, and the kernel picks a free number
      have hfree : r.conns (r.os.fds.pick a.hint) = none := by
        cases hc : r.conns (r.os.fds.pick a.hint) with
        | none => rfl
        | some c =>
            obtain ⟨bs, hsock⟩ := (h.owns hcr _ c hc).1.sock
            rw [(hrest.orderly hcr _ c hc).1, r.os.fds.pick_free] at hsock
            cases hsock
      have hnew : (r.acceptedOs a).history r.os.serial = ⟨[], [], [], []⟩ :=
        (congrFun hhist _).trans (hfol.unborn _ (Nat.le_refl _))
      refine ⟨hledger.of_same (fun _ => rfl) rfl rfl, hproper,
        h.reserved.trans (sameOwned_acceptedOs r a (by simp)), ?_, ?_, ?_, ?_⟩
      · intro k d hd
        rcases eq_or_ne k (r.os.fds.pick a.hint) with rfl | hne
        · exact hbelow
        · exact h.below k d ((Function.update_of_ne hne ..).symm.trans hd)
      · have hlive : (Reactor.live { r with
            os := (r.acceptedOs a).epollAdd (r.os.fds.pick a.hint) .input
            conns := Function.update r.conns (r.os.fds.pick a.hint)
              (some (Conn.calloc (r.os.fds.pick a.hint) r.os.serial))
            activeConns := r.activeConns + 1 }).card = r.live.card + 1 :=
          live_accept hbelow hfree rfl
        rw [hlive, h.count]
        push_cast
        rfl
      · intro _ k d hd
        rcases eq_or_ne k (r.os.fds.pick a.hint) with rfl | hne
        · simp only [Function.update_self, Option.some.injEq] at hd
          subst hd
          refine ⟨.fresh hnew (FdTable.get_insert_self ..) (fun k d hget hd => ?_),
            .fresh _ hnew⟩
          rcases get_acceptedOs hget with ⟨hk, _⟩ | ⟨_, hget⟩
          · exact hk
          · obtain ⟨_, c, hc, hcid⟩ := h.owned hcr k d _ hget hd
            exact absurd (hrest.numbered.lt _ c hc) (by omega)
        · simp only [Function.update_of_ne hne] at hd
          obtain ⟨hown, hbuf⟩ := h.owns hcr k d hd
          have hlt := hrest.numbered.lt k d hd
          have hsame := sameOwned_acceptedOs r a (o := some d.cid)
            (fun h0 => by have := Option.some.inj h0; omega)
          exact ⟨hown.of_others hsame (congrFun hhist d.cid), hbuf.of_history (congrFun hhist d.cid)⟩
      · intro _ k d i hget hd
        rcases get_acceptedOs hget with ⟨hk, rfl⟩ | ⟨_, hget⟩
        · exact ⟨_, _, Function.update_self .., Option.some.inj hd⟩
        · obtain ⟨fd, c, hc, hcid⟩ := h.owned hcr k d i hget hd
          have hne : fd ≠ r.os.fds.pick a.hint := by
            rintro rfl
            cases hfree.symm.trans hc
          exact ⟨fd, c, (Function.update_of_ne hne ..).trans hc, hcid⟩

/-! ## Runs -/

/-- The event `e` does not close a connection before its first response is set up: there is
no hangup on one, and what `read` and `malloc` will answer lets the first response come. -/
def Careful (site : Site) (r : Reactor) (e : Event) : Prop :=
  r.stop = false → r.crashed = none → ∀ c, r.conns e.fd = some c → ¬ Answered r.os c →
    e.evs.err = false ∧
      (e.evs.input = true → ∀ incoming, r.os.incoming e.fd = some incoming →
        Safe (e.sched.answers site) (r.os.dialogue c.cid) incoming e.sched.reads)

instance (os : Os) (c : Conn) : Decidable (Answered os c) :=
  inferInstanceAs (Decidable (¬ _ = []))

instance decidableCareful (site : Site) (r : Reactor) (e : Event) : Decidable (Careful site r e) :=
  inferInstanceAs (Decidable (r.stop = false → r.crashed = none → ∀ c ∈ r.conns e.fd,
    ¬ Answered r.os c → e.evs.err = false ∧
      (e.evs.input = true → ∀ incoming ∈ r.os.incoming e.fd,
        Safe (e.sched.answers site) (r.os.dialogue c.cid) incoming e.sched.reads)))

theorem Careful.hope {e : Event} (h : Careful site r e) (hgo : r.stop = false)
    (hcr : r.crashed = none) (hc : r.conns e.fd = some c) (hfd : c.fd = e.fd) (hwait : Waiting r c)
    (hin : c.state = .reading → e.evs.input = true) (hown : Owns r.os c) (hbuf : Buffered r.os c) :
    Hope site (r.begin e).os c := by
  intro (hnot : ¬ Answered r.os c)
  have hreading := hown.asking hnot
  obtain ⟨bs, hsock⟩ := hown.sock
  have hincoming : r.os.incoming c.fd = some bs := by rw [Os.incoming, hsock]
  have hsafe := (h hgo hcr c hc hnot).2 (hin hreading) bs (hfd ▸ hincoming)
  have hall : r.os.received c.cid = r.os.parsed c.cid := by
    cases hwait with
    | input _ hlen => rw [hbuf.buffer, hlen, List.drop_length, List.append_nil]
    | output hs => cases hs.symm.trans hreading
  refine ⟨bs, hincoming, ?_⟩
  change Outlook _ (Transcript.start.run (r.os.received c.cid))
    (Safe _ (Transcript.start.run (r.os.received c.cid)) bs _)
  have hnone : (r.os.dialogue c.cid).exchanges = [] := by
    by_contra h0
    exact hnot h0
  rw [hall]
  change Outlook _ (r.os.dialogue c.cid) (Safe _ (r.os.dialogue c.cid) bs _)
  simp only [Outlook, hnone, List.head?_nil]
  exact .inr hsafe

theorem Sound.begin {os₀ : Os} (h : Sound os₀ r) (e : Event) : Sound os₀ (r.begin e) :=
  ⟨h.ledger.of_same (fun _ => rfl) rfl rfl, h.proper, h.reserved, h.below, h.count,
    fun hcr k d hd => ⟨(h.owns hcr k d hd).1.still rfl rfl rfl rfl (h.owns hcr k d hd).1.done rfl rfl,
      (h.owns hcr k d hd).2.of_history rfl⟩, h.owned⟩

theorem Step.sound {os₀ : Os} {e : Event} (hstep : Step site r e r') (hrest : AtRest r)
    (hcare : Careful site r e) (hfol : Followed site r) (h : Sound os₀ r) : Sound os₀ r' := by
  have hbegin := h.begin e
  cases hstep with
  | idle => exact h
  | woken => exact ⟨hbegin.ledger, hbegin.proper, hbegin.reserved, hbegin.below, hbegin.count,
      hbegin.owns, hbegin.owned⟩
  | ignored => exact hbegin
  | accepted hcr hfd =>
      have hall := reactorAccept_rule (I := fun r => AtRest r ∧ Followed site r ∧ Sound os₀ r)
        (fun r a r' hcr' hacc h' =>
          ⟨⟨hacc.orderly hcr' h'.1.orderly, hacc.numbered h'.1.numbered⟩,
            hacc.followed hcr' h'.2.1, hacc.sound hcr' h'.1 h'.2.1 h'.2.2⟩)
        e.accepts hcr (r := r.begin e)
        ⟨⟨hrest.orderly.begin e, ⟨hrest.numbered.lt, hrest.numbered.inj⟩⟩, hfol.begin e, hbegin⟩
      exact hall.2.2
  | @hangup c hgo hcr hc hfd hwait herr =>
      rw [← hfd] at hc
      refine hangup_sound site hbegin hcr ⟨hrest.numbered.lt, hrest.numbered.inj⟩ hc ?_
      by_contra hnot
      rw [hfd] at hc
      cases herr.symm.trans (hcare hgo hcr c hc hnot).1
  | @handled c r' ref hgo hcr hc hfd hwait herr hin hout =>
      obtain ⟨hown, hbuf⟩ := h.owns hcr _ c hc
      -- a careful step lets the handler act on what its connection owns
      have ht : Tenant site (r.begin e).os c :=
        ⟨(hfol.begin e).attuned hcr _ c hc, (hbegin.owns hcr _ c hc).2, (hbegin.owns hcr _ c hc).1,
          hcare.hope hgo hcr hc hfd hwait hin hown hbuf⟩
      rw [← hfd] at hc ⊢
      exact settle_sound hbegin hcr ⟨hrest.numbered.lt, hrest.numbered.inj⟩ hc ht hout

theorem get_bootCtl {inherited : List Nat} {ctls : List Bool} {fd : Nat} {d : Desc}
    (h : (bootCtl inherited ctls).fds.get fd = some d) : d = ⟨0, none, .other⟩ := by
  simp only [bootCtl, FdTable.ofList] at h
  split at h
  · exact (Option.some.inj h).symm
  · cases h

theorem bootCtl_ledger (inherited : List Nat) (ctls : List Bool) :
    Ledger (bootCtl inherited ctls) where
  pos := Nat.one_pos
  lt := fun fd d hd => by rw [get_bootCtl hd]; exact Nat.one_pos
  inj := fun fd fd' d d' hd _ _ hne => absurd (by rw [get_bootCtl hd]) hne
  once := fun _ _ _ => rfl
  gone := fun s hs hlt _ => absurd hlt (by change ¬ s < 1; omega)
  unborn := fun _ _ => rfl

/-- Nothing is open for a connection. -/
def Unowned (os : Os) : Prop := ∀ k d, os.fds.get k = some d → d.owner = none

theorem Unowned.alloc (h : Unowned os) (hint : Nat) (res : Resource) :
    Unowned (os.alloc hint none res).2 := by
  intro k d hd
  rcases eq_or_ne k (os.fds.pick hint) with rfl | hne
  · cases Option.some.inj ((FdTable.get_insert_self os.fds _ _).symm.trans hd)
    rfl
  · exact h k d ((os.fds.get_insert_of_ne _ hne).symm.trans hd)

theorem reactorCreateCtl_sound (inherited : List Nat) (ctls : List Bool) :
    Sound (reactorCreateCtl inherited ctls).os (reactorCreateCtl inherited ctls) where
  ledger :=
    ((((bootCtl_ledger inherited ctls).alloc 0 none .other).alloc 0 none .other).alloc
      0 none .other).of_same (fun _ => rfl) rfl rfl
  proper := fun e he => by cases he
  reserved := fun _ _ _ => Iff.rfl
  below := fun fd c hc => by cases hc
  count := by
    have hlive : (reactorCreateCtl inherited ctls).live = ∅ := by
      ext k
      rw [Reactor.mem_live]
      constructor
      · rintro ⟨_, c, hc⟩
        cases hc
      · exact fun h => absurd h (Finset.notMem_empty k)
    rw [hlive]
    rfl
  owns := fun _ fd c hc => by cases hc
  owned := by
    intro _ k d i hget hd
    have hboot : Unowned (bootCtl inherited ctls) := fun k d hd => by rw [get_bootCtl hd]
    have hnone := ((hboot.alloc 0 .other).alloc 0 .other).alloc 0 .other k d hget
    cases hnone.symm.trans hd

theorem reactorCreate_sound (inherited : List Nat) :
    Sound (reactorCreate inherited).os (reactorCreate inherited) :=
  reactorCreateCtl_sound inherited []

theorem reactorRun_sound (site : Site) (inherited : List Nat) (es : List Event)
    (hes : Along site (Careful site) (reactorCreate inherited) es) :
    AtRest (reactorRun site (reactorCreate inherited) es) ∧
      Sound (reactorCreate inherited).os (reactorRun site (reactorCreate inherited) es) := by
  have hrun := reactorRun_rule site
    (I := fun r => Followed site r ∧ Sound (reactorCreate inherited).os r)
    (fun r e r' hrest hcare h hstep =>
      ⟨hstep.followed hrest.numbered h.1, hstep.sound hrest hcare h.1 h.2⟩)
    es hes (reactorCreate_atRest inherited)
    ⟨reactorCreate_followed site inherited, reactorCreate_sound inherited⟩
  exact ⟨hrun.1, hrun.2.2⟩

/-! ## Destruction -/

/-- The reactor whose connections below `n` have been closed. -/
structure Destroyed (os₀ : Os) (r : Reactor) (n : Nat) (r' : Reactor) : Prop where
  os : r'.os = (List.range n).foldl (destroyConn r.conns) r.os
  serial : r'.os.serial = r.os.serial
  crashed : r'.crashed = none
  history : r'.os.history = r.os.history
  conns : ∀ fd, r'.conns fd = if fd < n then none else r.conns fd
  sound : Sound os₀ r'

theorem destroyed_exists (site : Site) {os₀ : Os} (hrest : AtRest r) (h : Sound os₀ r)
    (hcr : r.crashed = none) (hans : ∀ fd c, r.conns fd = some c → Answered r.os c) (n : Nat) :
    ∃ r', Destroyed os₀ r n r' := by
  -- by induction on the loop of `reactor_destroy`, which closes the slots one after the other
  induction n with
  | zero => exact ⟨r, rfl, rfl, hcr, rfl, fun _ => rfl, h⟩
  | succ n ih =>
      obtain ⟨r₁, h₁⟩ := ih
      have hos : (List.range (n + 1)).foldl (destroyConn r.conns) r.os =
          destroyConn r.conns r₁.os n := by
        rw [List.range_succ, List.foldl_append, ← h₁.os]
        rfl
      have hn : r₁.conns n = r.conns n := by rw [h₁.conns, if_neg (Nat.lt_irrefl n)]
      cases hc : r.conns n with
      | none =>
          refine ⟨r₁, ?_, h₁.serial, h₁.crashed, h₁.history, fun fd => ?_, h₁.sound⟩
          · rw [hos, destroyConn, hc]
          · rcases Nat.lt_trichotomy fd n with hlt | rfl | hlt
            · rw [h₁.conns, if_pos hlt, if_pos (by omega)]
            · rw [hn, hc, if_pos (by omega)]
            · rw [h₁.conns, if_neg (by omega), if_neg (by omega)]
      | some c =>
          have hfd : c.fd = n := (hrest.orderly hcr n c hc).1
          have hold : ∀ fd d, r₁.conns fd = some d → r.conns fd = some d := by
            intro fd d hd
            rw [h₁.conns] at hd
            split at hd
            · cases hd
            · exact hd
          have hnum : Numbered r₁ :=
            hrest.numbered.of_conns h₁.serial.ge (fun k d hd => ⟨d, hold k d hd, rfl⟩)
          -- closing others has not changed what this connection has answered
          have hans₁ : Answered r₁.os c :=
            (answered_iff rfl rfl (exchanges_of_history (congrFun h₁.history c.cid))).mpr
              (hans n c hc)
          refine ⟨connClose r₁ c, ?_, (serial_connClose ..).trans h₁.serial, h₁.crashed,
            (history_connClose ..).trans h₁.history, fun fd => ?_,
            hangup_sound site h₁.sound h₁.crashed hnum (by rw [hfd, hn, hc]) hans₁⟩
          · rw [hos, destroyConn, hc, ← hfd]
            rfl
          · rcases eq_or_ne fd n with rfl | hne
            · rw [← hfd, connClose_gone, if_pos (by omega)]
            · rw [connClose_conns _ _ (by rw [hfd]; exact hne), h₁.conns]
              rcases Nat.lt_trichotomy fd n with hlt | heq | hlt
              · rw [if_pos hlt, if_pos (by omega)]
              · exact absurd heq hne
              · rw [if_neg (by omega), if_neg (by omega)]

theorem Ledger.count_le (h : Ledger os) {s : Nat} (hs : s ≠ 0) : os.closings.count s ≤ 1 := by
  by_cases hopen : os.IsOpen s
  · rw [h.once s hs hopen]
    exact Nat.zero_le 1
  · rcases Nat.lt_or_ge s os.serial with hlt | hge
    · exact (h.gone s hs hlt hopen).le
    · rw [h.unborn s hge]
      exact Nat.zero_le 1

/-- Nothing that was opened after the reactor was created is still open. -/
theorem Destroyed.gone {os₀ : Os} (h : Destroyed os₀ r connMax r') (h₀ : Ledger os₀) {fd : Nat}
    {d : Desc} (hget : r'.os.fds.get fd = some d) : d.serial < os₀.serial := by
  cases howner : d.owner with
  | none => exact h₀.lt fd d ((h.sound.reserved fd d howner).mp hget)
  | some i =>
      obtain ⟨k, c, hc, _⟩ := h.sound.owned h.crashed fd d i hget howner
      have hlt := h.sound.below k c hc
      rw [h.conns, if_pos hlt] at hc
      cases hc

/-! ## Descriptors that are accounted for -/

/-- The descriptors of the connections are accounted for: a connection closes its own socket
or a file opened for it, and nothing twice; while a connection is in the table its socket is
open, and what is open belongs to a connection in the table, of which there are as many as
are counted. -/
structure Accounted (r : Reactor) : Prop where
  own : r.os.Proper
  once : ∀ s, s ≠ 0 → r.os.closings.count s ≤ 1
  sock : r.crashed = none → ∀ fd c, r.conns fd = some c →
    ∃ bs, r.os.fds.get fd = some ⟨c.cid, some c.cid, .socket bs⟩
  owned : r.crashed = none → ∀ k d i, r.os.fds.get k = some d → d.owner = some i →
    ∃ fd c, r.conns fd = some c ∧ c.cid = i
  count : r.activeConns = r.live.card

theorem Sound.accounted {os₀ : Os} (h : Sound os₀ r) (hrest : AtRest r) : Accounted r where
  own := h.proper
  once := fun _ hs => h.ledger.count_le hs
  sock := by
    intro hcr fd c hc
    obtain ⟨bs, hsock⟩ := (h.owns hcr fd c hc).1.sock
    rw [(hrest.orderly hcr fd c hc).1] at hsock
    exact ⟨bs, hsock⟩
  owned := h.owned
  count := h.count

/-- **The descriptors are accounted for** after any events that close no connection before its
first response is set up; and if all connections have had theirs when the reactor is
destroyed, every descriptor opened since its creation has been closed exactly once. -/
theorem descriptors_accounted (site : Site) (inherited : List Nat) (es : List Event)
    (hes : Along site (Careful site) (reactorCreate inherited) es) :
    Accounted (reactorRun site (reactorCreate inherited) es) ∧
    ((reactorRun site (reactorCreate inherited) es).crashed = none →
      (∀ fd c, (reactorRun site (reactorCreate inherited) es).conns fd = some c →
        Answered (reactorRun site (reactorCreate inherited) es).os c) →
      (reactorDestroy (reactorRun site (reactorCreate inherited) es)).Proper ∧
      ∀ s, (reactorCreate inherited).os.serial ≤ s →
        s < (reactorRun site (reactorCreate inherited) es).os.serial →
        (reactorDestroy (reactorRun site (reactorCreate inherited) es)).closings.count s = 1) := by
  obtain ⟨hrest, hsound⟩ := reactorRun_sound site inherited es hes
  have h₀ := (reactorCreate_sound inherited).ledger
  generalize reactorRun site (reactorCreate inherited) es = r at hrest hsound ⊢
  refine ⟨hsound.accounted hrest, fun hcr hans => ?_⟩
  -- the loop over the connections closes them all, and then the reactor's own three go
  obtain ⟨r', h'⟩ := destroyed_exists site hrest hsound hcr hans connMax
  rw [reactorDestroy, ← h'.os]
  have hbook : Ledger (((r'.os.close none r.listenFd).close none r.wakeupFd).close none r.epfd) :=
    ((h'.sound.ledger.close ..).close ..).close ..
  refine ⟨?_, fun s hle hlt => ?_⟩
  · have h1 : (r'.os.close none r.listenFd).Proper := Os.Proper.log h'.sound.proper trivial
    have h2 : ((r'.os.close none r.listenFd).close none r.wakeupFd).Proper :=
      Os.Proper.log h1 trivial
    exact Os.Proper.log h2 trivial
  · have hpos := h₀.pos
    refine hbook.gone s (by omega) (h'.serial.symm ▸ hlt) ?_
    rintro ⟨fd, d, hget, rfl⟩
    have hlast := h'.gone h₀ (get_close (get_close (get_close hget).1).1).1
    omega


/-! A page that is on its way when the reactor is destroyed; and three connections of which
two are closed by their clients before they have sent anything. -/

def pageSite : Site where
  docRoot := ascii "w"
  stat := fun p => if p = ascii "w/p" then .file (ascii "!") true else .absent
  stat_long := by
    intro p hp
    refine if_neg ?_
    rintro rfl
    exact absurd hp (by decide)

def pageEvents : List Event :=
  [⟨5, ⟨true, false, false⟩, ⟨[], [], [], []⟩, [⟨6, ascii "GET /p a\n\n", true⟩]⟩,
    ⟨6, ⟨true, false, false⟩, ⟨[.bytes 4, .again], [], [], []⟩, []⟩,
    ⟨6, ⟨true, false, false⟩, ⟨[.intr, .bytes 9, .again], [.bytes 9], [some 0], []⟩, []⟩]

theorem descriptors_accounted_page :
    Accounted (reactorRun pageSite (reactorCreate [0, 1, 2]) pageEvents) ∧
    (reactorDestroy (reactorRun pageSite (reactorCreate [0, 1, 2]) pageEvents)).Proper ∧
    ∀ s, 4 ≤ s → s < 6 →
      (reactorDestroy (reactorRun pageSite (reactorCreate [0, 1, 2]) pageEvents)).closings.count s =
        1 := by
  have hes : Along pageSite (Careful pageSite) (reactorCreate [0, 1, 2]) pageEvents := by
    refine ⟨?_, ?_, ?_, trivial⟩
    · decide +kernel
    · decide +kernel
    · decide +kernel
  obtain ⟨hacc, hend⟩ := descriptors_accounted pageSite [0, 1, 2] pageEvents hes
  have hbelow := (reactorRun_sound pageSite [0, 1, 2] pageEvents hes).2.below
  have hone : (reactorRun pageSite (reactorCreate [0, 1, 2]) pageEvents).live.card ≤ 1 := by
    have hcount := hacc.count
    rw [show (reactorRun pageSite (reactorCreate [0, 1, 2]) pageEvents).activeConns = 1 by
      decide +kernel] at hcount
    omega
  have hsix : 6 ∈ (reactorRun pageSite (reactorCreate [0, 1, 2]) pageEvents).live :=
    Finset.mem_filter.mpr ⟨Finset.mem_range.mpr (by decide), by decide +kernel⟩
  have hfirst : (reactorCreate [0, 1, 2]).os.serial = 4 := rfl
  have hlast : (reactorRun pageSite (reactorCreate [0, 1, 2]) pageEvents).os.serial = 6 := by
    decide +kernel
  rw [hfirst, hlast] at hend
  refine ⟨hacc, hend (by decide +kernel) (fun fd c hc => ?_)⟩
  -- one connection is left, and it has answered
  have hfd : fd = 6 :=
    Finset.card_le_one.mp hone fd (Reactor.mem_live.mpr ⟨hbelow fd c hc, c, hc⟩) 6 hsix
  subst hfd
  have hall : ∀ c ∈ (reactorRun pageSite (reactorCreate [0, 1, 2]) pageEvents).conns 6,
      Answered (reactorRun pageSite (reactorCreate [0, 1, 2]) pageEvents).os c := by
    decide +kernel
  exact hall c hc

def silentEvents : List Event :=
  [⟨5, ⟨true, false, false⟩, ⟨[], [], [], []⟩, [⟨6, [], true⟩]⟩,
    ⟨6, ⟨true, false, false⟩, ⟨[.eof], [], [], []⟩, []⟩,
    ⟨5, ⟨true, false, false⟩, ⟨[], [], [], []⟩, [⟨0, [], true⟩, ⟨6, [], true⟩]⟩,
    ⟨6, ⟨true, false, false⟩, ⟨[.eof], [], [], []⟩, []⟩]

/-- The third connection closes descriptor `0`, which is the socket of the second: it is in
the table and its socket is not open. -/
theorem not_accounted_silent :
    ¬ Accounted (reactorRun pageSite (reactorCreate [0, 1, 2]) silentEvents) ∧
    ((reactorRun pageSite (reactorCreate [0, 1, 2]) silentEvents).conns 0).isSome = true ∧
    (reactorRun pageSite (reactorCreate [0, 1, 2]) silentEvents).os.fds.get 0 = none ∧
    Ev.closed (some 6) 0 (some ⟨5, some 5, .socket []⟩) ∈
      (reactorRun pageSite (reactorCreate [0, 1, 2]) silentEvents).os.trace := by
  have hconn : ((reactorRun pageSite (reactorCreate [0, 1, 2]) silentEvents).conns 0).isSome =
      true := by decide +kernel
  have hnone : (reactorRun pageSite (reactorCreate [0, 1, 2]) silentEvents).os.fds.get 0 = none := by
    decide +kernel
  refine ⟨fun hacc => ?_, hconn, hnone, by decide +kernel⟩
  obtain ⟨c, hc⟩ := Option.isSome_iff_exists.mp hconn
  obtain ⟨bs, hsock⟩ := hacc.sock (by decide +kernel) 0 c hc
  cases hnone.symm.trans hsock

end HttpServer
