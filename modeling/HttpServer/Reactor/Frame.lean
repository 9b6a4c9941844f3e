import HttpServer.Reactor.Transcript

set_option autoImplicit false

/-! # What the calls of one connection leave alone

The bytes a connection has received, parsed and sent and the requests it has recognised are read
off the list of calls: they are its `History`. Most calls concern something else; `Os.Same`
collects what they leave as it was, seen from one connection.

A schedule without failures is `Benign`. Since the answers are used up one by one, this has to be
carried along: what is left of a schedule is `Later` than the whole, and `Benign` is kept.
-/

namespace HttpServer

open CLib

/-! ## The history of a connection -/

def Ev.received (cid : Nat) : Ev → List UInt8
  | .read i bs => if i = cid then bs else []
  | _ => []

def Ev.parse (cid : Nat) : Ev → List UInt8
  | .parsed i b => if i = cid then [b] else []
  | _ => []

def Ev.recognised (cid : Nat) : Ev → List HttpRequest
  | .request i req => if i = cid then [req] else []
  | _ => []

def Ev.sent (cid : Nat) : Ev → List UInt8
  | .wrote i bs => if i = cid then bs else []
  | _ => []

def Ev.opening (cid : Nat) : Ev → List (List UInt8)
  | .opened i path _ => if i = cid then [path] else []
  | _ => []

/-- The connection whose history a call adds to. -/
def Ev.about : Ev → Option Nat
  | .read i _ => some i
  | .parsed i _ => some i
  | .request i _ => some i
  | .wrote i _ => some i
  | _ => none

structure History where
  received : List UInt8
  parsed : List UInt8
  requests : List HttpRequest
  sent : List UInt8

namespace Os

/-- The bytes read from the socket of connection `cid`. -/
def received (os : Os) (cid : Nat) : List UInt8 := os.trace.flatMap (Ev.received cid)

/-- The bytes connection `cid` has fed to its parser. -/
def parsed (os : Os) (cid : Nat) : List UInt8 := os.trace.flatMap (Ev.parse cid)

/-- The requests connection `cid` has recognised. -/
def requests (os : Os) (cid : Nat) : List HttpRequest := os.trace.flatMap (Ev.recognised cid)

/-- The bytes written to the socket of connection `cid`. -/
def sent (os : Os) (cid : Nat) : List UInt8 := os.trace.flatMap (Ev.sent cid)

/-- The pathnames connection `cid` has called `open` with. -/
def opened (os : Os) (cid : Nat) : List (List UInt8) := os.trace.flatMap (Ev.opening cid)

def history (os : Os) (cid : Nat) : History :=
  ⟨os.received cid, os.parsed cid, os.requests cid, os.sent cid⟩

@[simp] theorem received_log (os : Os) (e : Ev) (cid : Nat) :
    (os.log e).received cid = os.received cid ++ e.received cid := by
  simp [received, log]

@[simp] theorem parsed_log (os : Os) (e : Ev) (cid : Nat) :
    (os.log e).parsed cid = os.parsed cid ++ e.parse cid := by
  simp [parsed, log]

@[simp] theorem requests_log (os : Os) (e : Ev) (cid : Nat) :
    (os.log e).requests cid = os.requests cid ++ e.recognised cid := by
  simp [requests, log]

@[simp] theorem sent_log (os : Os) (e : Ev) (cid : Nat) :
    (os.log e).sent cid = os.sent cid ++ e.sent cid := by
  simp [sent, log]

@[simp] theorem opened_log (os : Os) (e : Ev) (cid : Nat) :
    (os.log e).opened cid = os.opened cid ++ e.opening cid := by
  simp [opened, log]

/-- What a call adds to the history of a connection. -/
theorem history_log_append (os : Os) (e : Ev) (cid : Nat) :
    (os.log e).history cid = ⟨os.received cid ++ e.received cid, os.parsed cid ++ e.parse cid,
      os.requests cid ++ e.recognised cid, os.sent cid ++ e.sent cid⟩ := by
  rw [history, received_log, parsed_log, requests_log, sent_log]

/-- A call adds to the history of no other connection. -/
theorem history_log_of_ne (os : Os) {e : Ev} {cid : Nat} (h : e.about ≠ some cid) :
    (os.log e).history cid = os.history cid := by
  rw [history_log_append]
  cases e with
  | read i bs =>
      have hne : i ≠ cid := fun h0 => h (by rw [h0]; rfl)
      simp [history, Ev.received, Ev.parse, Ev.recognised, Ev.sent, hne]
  | parsed i b =>
      have hne : i ≠ cid := fun h0 => h (by rw [h0]; rfl)
      simp [history, Ev.received, Ev.parse, Ev.recognised, Ev.sent, hne]
  | request i req =>
      have hne : i ≠ cid := fun h0 => h (by rw [h0]; rfl)
      simp [history, Ev.received, Ev.parse, Ev.recognised, Ev.sent, hne]
  | wrote i bs =>
      have hne : i ≠ cid := fun h0 => h (by rw [h0]; rfl)
      simp [history, Ev.received, Ev.parse, Ev.recognised, Ev.sent, hne]
  | _ => simp [history, Ev.received, Ev.parse, Ev.recognised, Ev.sent]

theorem history_log (os : Os) {e : Ev} (h : e.about = none) :
    (os.log e).history = os.history := by
  funext cid
  exact os.history_log_of_ne (by rw [h]; simp)

theorem history_close (os : Os) (by_ : Option Nat) (fd : Nat) :
    (os.close by_ fd).history = os.history :=
  os.history_log (e := .closed by_ fd (os.fds.get fd)) rfl

theorem history_openFile (site : Site) (os : Os) (cid : Nat) (path : List UInt8) :
    (os.openFile site cid path).2.history = os.history := by
  unfold openFile
  simp only
  split
  · exact history_log _ rfl
  · exact history_log _ rfl

theorem opened_close (os : Os) (by_ : Option Nat) (fd : Nat) :
    (os.close by_ fd).opened = os.opened := by
  funext cid
  exact (os.opened_log (.closed by_ fd (os.fds.get fd)) cid).trans (List.append_nil _)

theorem opened_openFile (site : Site) (os : Os) (cid i : Nat) (path : List UInt8) :
    (os.openFile site cid path).2.opened i =
      os.opened i ++ if cid = i then [path] else [] := by
  unfold openFile
  simp only
  split
  · rw [opened_log]
    rfl
  · rw [opened_log]
    rfl

end Os

/-! ## Schedules without failures -/

/-- Nothing fails: `read` and `write` may be interrupted, return early or find the socket
not ready, and `read` may report the end of the input; there are no errors, every descriptor
and every block of memory asked for is given, and a `write` that succeeds takes a byte. -/
structure Sched.Benign (s : Sched) : Prop where
  reads : .fail ∉ s.reads
  writes : .fail ∉ s.writes ∧ .bytes 0 ∉ s.writes
  opens : none ∉ s.opens
  mallocs : false ∉ s.mallocs

/-- The answers of a kernel that does not fail. -/
def WriteRes.Good (w : WriteRes) : Prop := w ≠ .fail ∧ w ≠ .bytes 0

theorem Sched.Benign.good {s : Sched} (h : s.Benign) {w : WriteRes} (hw : w ∈ s.writes) : w.Good :=
  ⟨fun h0 => h.writes.1 (h0 ▸ hw), fun h0 => h.writes.2 (h0 ▸ hw)⟩

theorem headD_of_not_mem_false {l : List Bool} (h : false ∉ l) : l.headD true = true := by
  cases l with
  | nil => rfl
  | cons a t =>
      cases a with
      | true => rfl
      | false => exact absurd List.mem_cons_self h

theorem not_mem_tail {α : Type} {a : α} {l : List α} (h : a ∉ l) : a ∉ l.tail :=
  fun hmem => h (List.mem_of_mem_tail hmem)

/-- The answers left over after some calls. -/
structure Sched.Later (s s' : Sched) : Prop where
  reads : s'.reads <:+ s.reads
  writes : s'.writes <:+ s.writes
  opens : s'.opens <:+ s.opens
  mallocs : s'.mallocs <:+ s.mallocs

theorem Sched.Later.refl (s : Sched) : s.Later s :=
  ⟨List.suffix_rfl, List.suffix_rfl, List.suffix_rfl, List.suffix_rfl⟩

theorem Sched.Later.trans {s s₁ s₂ : Sched} (h₁ : s.Later s₁) (h₂ : s₁.Later s₂) : s.Later s₂ :=
  ⟨h₂.reads.trans h₁.reads, h₂.writes.trans h₁.writes, h₂.opens.trans h₁.opens,
    h₂.mallocs.trans h₁.mallocs⟩

theorem Sched.Benign.later {s s' : Sched} (h : s.Benign) (hl : s.Later s') : s'.Benign where
  reads := fun hr => h.reads (hl.reads.subset hr)
  writes := ⟨fun hw => h.writes.1 (hl.writes.subset hw), fun hw => h.writes.2 (hl.writes.subset hw)⟩
  opens := fun ho => h.opens (hl.opens.subset ho)
  mallocs := fun hm => h.mallocs (hl.mallocs.subset hm)

/-! ## The frame -/

/-- From `os` to `os'` nothing has happened on any connection, and the socket `fd` and its
registration are the same. -/
structure Os.Same (fd : Nat) (os os' : Os) : Prop where
  sock : os'.fds.get fd = os.fds.get fd
  interest : os'.interest fd = os.interest fd
  history : os'.history = os.history
  benign : os.sched.Benign → os'.sched.Benign

namespace Os

variable {fd : Nat} {os os₁ os₂ : Os}

theorem Same.trans (h₁ : Same fd os os₁) (h₂ : Same fd os₁ os₂) : Same fd os os₂ where
  sock := h₂.sock.trans h₁.sock
  interest := h₂.interest.trans h₁.interest
  history := h₂.history.trans h₁.history
  benign := fun h => h₂.benign (h₁.benign h)

theorem same_malloc (fd : Nat) (os : Os) : Same fd os os.malloc.2 where
  sock := rfl
  interest := rfl
  history := rfl
  benign := fun h => ⟨h.reads, h.writes, h.opens, not_mem_tail h.mallocs⟩

theorem same_close (os : Os) (by_ : Option Nat) {k : Nat} (h : k ≠ fd) :
    Same fd os (os.close by_ k) where
  sock := os.fds.get_erase_of_ne h.symm
  interest := Function.update_of_ne h.symm ..
  history := os.history_close by_ k
  benign := id

/-- `open` returns a descriptor other than every open one. -/
theorem same_openFile (site : Site) (os : Os) (owner : Nat) (path : List UInt8)
    (h : os.fds.get fd ≠ none) : Same fd os (os.openFile site owner path).2 := by
  have hpick : ∀ hint, fd ≠ os.fds.pick hint := by
    rintro hint rfl
    exact h (os.fds.pick_free hint)
  have hhist := os.history_openFile site owner path
  unfold openFile at hhist ⊢
  simp only at hhist ⊢
  split at hhist
  · exact ⟨os.fds.get_insert_of_ne _ (hpick _), rfl, hhist,
      fun hb => ⟨hb.reads, hb.writes, not_mem_tail hb.opens, hb.mallocs⟩⟩
  · exact ⟨rfl, rfl, hhist,
      fun hb => ⟨hb.reads, hb.writes, not_mem_tail hb.opens, hb.mallocs⟩⟩

end Os

/-- Without failures a readable file is opened, at a descriptor that was free. -/
theorem openFile_readable {site : Site} {os : Os} {path content : List UInt8} (owner : Nat)
    (h : os.sched.Benign) (hstat : site.stat path = .file content true) :
    ∃ k, (os.openFile site owner path).1 = some k ∧ os.fds.get k = none ∧
      (os.openFile site owner path).2.content k = some content := by
  obtain ⟨hint, hhint⟩ : ∃ hint, os.sched.opens.headD (some 0) = some hint := by
    cases hopens : os.sched.opens with
    | nil => exact ⟨0, rfl⟩
    | cons a t =>
        cases a with
        | none => exact absurd (by rw [hopens]; exact List.mem_cons_self) h.opens
        | some hint => exact ⟨hint, rfl⟩
  refine ⟨os.fds.pick hint, ?_, os.fds.pick_free hint, ?_⟩
  · simp only [Os.openFile, hstat, hhint, Os.alloc]
  · simp only [Os.openFile, hstat, hhint, Os.alloc, Os.content, Os.log, FdTable.get_insert_self]

theorem openFile_unreadable {site : Site} (os : Os) {path content : List UInt8} (owner : Nat)
    (hstat : site.stat path = .file content false) : (os.openFile site owner path).1 = none := by
  simp [Os.openFile, hstat]

end HttpServer
