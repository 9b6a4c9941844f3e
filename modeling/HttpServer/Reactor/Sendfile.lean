import HttpServer.Lib.Run
import HttpServer.Reactor.Conn

set_option autoImplicit false

/-! # The `sendfile` loop on a file that changes

`file_len` is the size `stat` reported; the file itself may change while it is sent. Here the
loop of `conn_write` runs against a kernel that gives any answers, one for each call, on a file
that may have another content at each of them. A file that has shrunk to `file_off` or less
makes `sendfile` return zero, and the loop calls it again.
-/

namespace HttpServer

open CLib

/-! ## The loop -/

/-- The content of the file at each call, and the answer to it. -/
structure SendEnv where
  content : Nat → List UInt8
  answer : Nat → WriteRes

/-- Another process writes to the file that is open at `fd`. -/
def Os.rewriteFile (os : Os) (fd : Nat) (content : List UInt8) : Os :=
  match os.fds.get fd with
  | some ⟨s, o, .file _⟩ => { os with fds := os.fds.insert fd ⟨s, o, .file content⟩ }
  | _ => os

/-- The file of the connection has this content now. -/
def rewritten (r : Reactor) (c : Conn) (content : List UInt8) : Reactor :=
  match c.fileFd with
  | some fd => { r with os := r.os.rewriteFile fd content }
  | none => r

/-- One turn of the loop. -/
def sendTurn (env : SendEnv) (n : Nat) (r : Reactor) (c : Conn) : Reactor × Flush :=
  fileCall (rewritten r c (env.content n)) c (env.answer n)

/-- The loop after `n` turns. -/
def sendLoop (env : SendEnv) (r : Reactor) (c : Conn) : Nat → Reactor × Flush
  | 0 => (r, .more c)
  | n + 1 =>
      match sendLoop env r c n with
      | (r, .more c) => if c.fileOff < c.fileLen then sendTurn env n r c else fileDone r c
      | out => out

/-- The loop is at the start of turn `n`, in this state. -/
def AtTurn (env : SendEnv) (r : Reactor) (c : Conn) (n : Nat) (r' : Reactor) (c' : Conn) : Prop :=
  sendLoop env r c n = (r', .more c') ∧ c'.fileOff < c'.fileLen

/-- Every turn of the loop advances `file_off`, leaves the loop, or is an interrupted call; with
finitely many of these the loop ends. -/
structure MakesProgress (env : SendEnv) (r : Reactor) (c : Conn) : Prop where
  turn : ∀ n r' c', AtTurn env r c n r' c' → ∀ r'' c'', sendTurn env n r' c' = (r'', .more c'') →
    c'.fileOff < c''.fileOff ∨ env.answer n = .intr
  ends : (∃ N, ∀ n ≥ N, env.answer n ≠ .intr) →
    ∃ n, ∀ r' c', sendLoop env r c n ≠ (r', .more c')

/-- A call of the loop returns zero: the descriptors are open, and the kernel takes no byte or
the file does not reach beyond `file_off` any more. -/
def SendsNothing (env : SendEnv) (n : Nat) (r : Reactor) (c : Conn) : Prop :=
  (c.fileFd.bind r.os.content).isSome ∧ (r.os.incoming c.fd).isSome ∧
    ∃ k, env.answer n = .bytes k ∧ (k = 0 ∨ (env.content n).length ≤ c.fileOff)

/-! ## One turn -/

section Turn

variable {env : SendEnv} {n : Nat} {r r' : Reactor} {c c' : Conn}

theorem Os.content_rewriteFile (os : Os) (fd : Nat) (content : List UInt8) :
    (os.rewriteFile fd content).content fd = (os.content fd).map fun _ => content := by
  unfold Os.rewriteFile Os.content
  rcases hget : os.fds.get fd with _ | ⟨s, o, res⟩
  · simp [hget]
  · cases res with
    | file old => simp
    | socket bs => simp [hget]
    | other => simp [hget]

/-- Writing to a file does not touch a socket. -/
theorem Os.incoming_rewriteFile (os : Os) (fd fd' : Nat) (content : List UInt8) :
    (os.rewriteFile fd content).incoming fd' = os.incoming fd' := by
  unfold Os.rewriteFile Os.incoming
  rcases hget : os.fds.get fd with _ | ⟨s, o, res⟩
  · rfl
  · cases res with
    | file old =>
        rcases eq_or_ne fd' fd with rfl | hne
        · simp [hget]
        · simp [FdTable.get_insert_of_ne _ _ hne]
    | socket bs => rfl
    | other => rfl

theorem rewritten_content (r : Reactor) (c : Conn) (content : List UInt8) :
    c.fileFd.bind (rewritten r c content).os.content =
      (c.fileFd.bind r.os.content).map fun _ => content := by
  unfold rewritten
  cases hfd : c.fileFd with
  | none => rfl
  | some fd => exact r.os.content_rewriteFile fd content

theorem rewritten_incoming (r : Reactor) (c : Conn) (content : List UInt8) (fd : Nat) :
    (rewritten r c content).os.incoming fd = r.os.incoming fd := by
  unfold rewritten
  cases c.fileFd with
  | none => rfl
  | some k => exact r.os.incoming_rewriteFile k fd content

/-- The bytes that a call with the answer `k` sends. -/
def sentBytes (env : SendEnv) (n : Nat) (c : Conn) (k : Nat) : List UInt8 :=
  ((env.content n).drop c.fileOff).take (min k (min (c.fileLen - c.fileOff) sendfileMax))

theorem sentBytes_eq_nil (hlt : c.fileOff < c.fileLen) (k : Nat) :
    sentBytes env n c k = [] ↔ k = 0 ∨ (env.content n).length ≤ c.fileOff := by
  have hcount : 0 < min (c.fileLen - c.fileOff) sendfileMax :=
    lt_min (by omega) (by decide)
  rw [sentBytes, List.take_eq_nil_iff, List.drop_eq_nil_iff]
  omega

/-- A turn after which the loop goes on: an interrupted call, or one that sends bytes. -/
theorem sendTurn_more (h : sendTurn env n r c = (r', .more c')) :
    env.answer n = .intr ∧ c' = c ∨
    ∃ k, env.answer n = .bytes k ∧ (c.fileFd.bind r.os.content).isSome ∧
      (r.os.incoming c.fd).isSome ∧
      c' = { c with fileOff := c.fileOff + (sentBytes env n c k).length } := by
  unfold sendTurn fileCall at h
  rw [rewritten_content, rewritten_incoming] at h
  cases hfile : c.fileFd.bind r.os.content with
  | none =>
      rw [hfile] at h
      cases congrArg Prod.snd h
  | some old =>
      cases hsock : r.os.incoming c.fd with
      | none =>
          rw [hfile, hsock] at h
          cases congrArg Prod.snd h
      | some bs =>
          rw [hfile, hsock] at h
          cases ha : env.answer n with
          | again => rw [ha] at h; cases congrArg Prod.snd h
          | intr => rw [ha] at h; cases congrArg Prod.snd h; exact .inl ⟨rfl, rfl⟩
          | fail => rw [ha] at h; cases congrArg Prod.snd h
          | bytes k =>
              rw [ha] at h
              cases congrArg Prod.snd h
              exact .inr ⟨k, rfl, rfl, rfl, rfl⟩

/-- A call that returns zero leaves the loop where it was. -/
theorem SendsNothing.turn (h : SendsNothing env n r c) (hlt : c.fileOff < c.fileLen) :
    ∃ r', sendTurn env n r c = (r', .more c) ∧ (c.fileFd.bind r'.os.content).isSome ∧
      (r'.os.incoming c.fd).isSome := by
  obtain ⟨hfile, hsock, k, hk, hzero⟩ := h
  obtain ⟨old, hold⟩ := Option.isSome_iff_exists.mp hfile
  obtain ⟨bs, hbs⟩ := Option.isSome_iff_exists.mp hsock
  have hnil := (sentBytes_eq_nil hlt k : sentBytes env n c k = [] ↔ _).mpr hzero
  rw [sentBytes] at hnil
  refine ⟨{ rewritten r c (env.content n) with
    os := (rewritten r c (env.content n)).os.log (.wrote c.cid []) }, ?_, ?_, ?_⟩
  · unfold sendTurn fileCall
    rw [rewritten_content, rewritten_incoming, hold, hbs, hk]
    simp only [Option.map_some, hnil, List.length_nil, Nat.add_zero]
  · show (c.fileFd.bind (rewritten r c (env.content n)).os.content).isSome
    rw [rewritten_content, hold]
    rfl
  · show ((rewritten r c (env.content n)).os.incoming c.fd).isSome
    rw [rewritten_incoming, hbs]
    rfl

theorem sendTurn_progress (h : sendTurn env n r c = (r', .more c')) (hlt : c.fileOff < c.fileLen)
    (hnot : ¬ SendsNothing env n r c) :
    c'.fileLen = c.fileLen ∧ (c.fileOff < c'.fileOff ∨ env.answer n = .intr) := by
  rcases sendTurn_more h with ⟨ha, rfl⟩ | ⟨k, hk, hfile, hsock, rfl⟩
  · exact ⟨rfl, .inr ha⟩
  · refine ⟨rfl, .inl ?_⟩
    have hne : sentBytes env n c k ≠ [] :=
      fun h0 => hnot ⟨hfile, hsock, k, hk, (sentBytes_eq_nil hlt k).mp h0⟩
    exact Nat.lt_add_of_pos_right (List.length_pos_iff.mpr hne)

end Turn

/-! ## The whole loop -/

section Loop

variable {env : SendEnv} {r : Reactor} {c : Conn}

/-- The connection while the loop goes on. -/
def inLoop (env : SendEnv) (r : Reactor) (c : Conn) (n : Nat) : Option Conn :=
  match sendLoop env r c n with
  | (_, .more c') => some c'
  | _ => none

theorem inLoop_eq_some {n : Nat} {c' : Conn} (h : inLoop env r c n = some c') :
    ∃ r', sendLoop env r c n = (r', .more c') := by
  unfold inLoop at h
  split at h
  · next r' c'' heq => cases h; exact ⟨r', heq⟩
  · cases h

/-- What leads from a turn to the next. -/
theorem inLoop_succ {n : Nat} {c' c'' : Conn} (h : inLoop env r c n = some c')
    (h' : inLoop env r c (n + 1) = some c'') :
    ∃ r' r'', AtTurn env r c n r' c' ∧ sendTurn env n r' c' = (r'', .more c'') := by
  obtain ⟨r', hloop⟩ := inLoop_eq_some h
  obtain ⟨r'', hloop'⟩ := inLoop_eq_some h'
  rw [sendLoop, hloop] at hloop'
  simp only at hloop'
  split at hloop'
  · next hlt => exact ⟨r', r'', ⟨hloop, hlt⟩, hloop'⟩
  · cases congrArg Prod.snd hloop'

/-- A loop none of whose calls returns zero ends, once the interruptions do. -/
theorem sendLoop_ends (hnot : ∀ n r' c', AtTurn env r c n r' c' → ¬ SendsNothing env n r' c')
    {N : Nat} (hintr : ∀ n ≥ N, env.answer n ≠ .intr) :
    ∃ n, ∀ r' c', sendLoop env r c n ≠ (r', .more c') := by
  obtain ⟨n, hn⟩ := exists_stop (f := inLoop env r c) (fun c' => c'.fileLen - c'.fileOff) N (by
    intro n hn c' c'' h h'
    obtain ⟨r', r'', hat, hturn⟩ := inLoop_succ h h'
    obtain ⟨hlen, hoff | ha⟩ := sendTurn_progress hturn hat.2 (hnot n r' c' hat)
    · have hlt := hat.2
      omega
    · exact absurd ha (hintr n hn))
  refine ⟨n, fun r' c' hloop => ?_⟩
  rw [inLoop, hloop] at hn
  cases hn

/-- A file that stays cut off at `file_off` keeps the loop going for ever. -/
theorem sendLoop_stuck (hlt : c.fileOff < c.fileLen) (hfile : (c.fileFd.bind r.os.content).isSome)
    (hsock : (r.os.incoming c.fd).isSome)
    (henv : ∀ n, (∃ k, env.answer n = .bytes k) ∧ (env.content n).length ≤ c.fileOff) (n : Nat) :
    ∃ r', sendLoop env r c n = (r', .more c) ∧ (c.fileFd.bind r'.os.content).isSome ∧
      (r'.os.incoming c.fd).isSome := by
  induction n with
  | zero => exact ⟨r, rfl, hfile, hsock⟩
  | succ n ih =>
      obtain ⟨r', hloop, hfile', hsock'⟩ := ih
      obtain ⟨⟨k, hk⟩, hshort⟩ := henv n
      have hzero : SendsNothing env n r' c := ⟨hfile', hsock', k, hk, .inr hshort⟩
      rw [sendLoop, hloop]
      simp only [if_pos hlt]
      exact hzero.turn hlt

/-- **Sending a file makes progress** exactly if no `sendfile` of the loop returns zero, which it
does once the file has shrunk to `file_off`. -/
theorem makes_progress_iff (env : SendEnv) (r : Reactor) (c : Conn) :
    MakesProgress env r c ↔ ∀ n r' c', AtTurn env r c n r' c' → ¬ SendsNothing env n r' c' := by
  constructor
  · intro h n r' c' hat hzero
    obtain ⟨r'', hturn, -⟩ := hzero.turn hat.2
    obtain ⟨-, -, k, hk, -⟩ := hzero
    rcases h.turn n r' c' hat r'' c' hturn with hlt | ha
    · exact absurd hlt (Nat.lt_irrefl _)
    · rw [hk] at ha
      cases ha
  · intro hnot
    refine ⟨fun n r' c' hat r'' c'' hturn => ?_, ?_⟩
    · exact (sendTurn_progress hturn hat.2 (hnot n r' c' hat)).2
    · rintro ⟨N, hintr⟩
      exact sendLoop_ends hnot hintr

end Loop

/-- A file of one byte that is emptied before the first call. -/
def emptied : SendEnv := ⟨fun _ => [], fun _ => .bytes 1⟩

/-- A reactor with a socket at descriptor 4 and a file of one byte at descriptor 5. -/
def sendingReactor : Reactor where
  epfd := 0
  listenFd := 1
  wakeupFd := 2
  activeConns := 1
  conns := fun _ => none
  stop := false
  crashed := none
  os :=
    { sched := ⟨[], [], [], []⟩
      fds := (FdTable.ofList [] ⟨0, none, .other⟩).insert 4 ⟨1, some 1, .socket []⟩ |>.insert 5
        ⟨2, some 1, .file [97]⟩
      serial := 3
      interest := fun _ => none
      registered := fun _ => none
      ctls := []
      trace := [] }

def sendingConn : Conn :=
  { Conn.calloc 4 1 with state := .writing, phase := .sendfile, fileFd := some 5, fileLen := 1 }

/-- On the emptied file the loop goes on for ever. -/
theorem not_makesProgress_emptied :
    ¬ MakesProgress emptied sendingReactor sendingConn ∧
      ∀ n, ∃ r', sendLoop emptied sendingReactor sendingConn n = (r', .more sendingConn) := by
  have hstuck : ∀ n, ∃ r', sendLoop emptied sendingReactor sendingConn n = (r', .more sendingConn) := by
    intro n
    obtain ⟨r', hloop, -⟩ := sendLoop_stuck (show sendingConn.fileOff < sendingConn.fileLen by decide)
      (show (sendingConn.fileFd.bind sendingReactor.os.content).isSome by decide) (by decide)
      (fun _ => ⟨⟨1, rfl⟩, Nat.zero_le 0⟩ : ∀ n, (∃ k, emptied.answer n = .bytes k) ∧
        (emptied.content n).length ≤ sendingConn.fileOff) n
    exact ⟨r', hloop⟩
  refine ⟨fun h => ?_, hstuck⟩
  obtain ⟨n, hn⟩ := h.ends ⟨0, fun _ _ h => (by cases h)⟩
  obtain ⟨r', hloop⟩ := hstuck n
  exact hn r' sendingConn hloop

end HttpServer
