import HttpServer.Reactor.Frame

set_option autoImplicit false

/-! # Setting up a response

Two specifications of `build_response` and `build_error_response`. Without failures the answer is
ready to be sent (`Ready`) and nothing else has changed. In general `Built` lists what they can
do to the system and to the connection, whatever fails.

Both functions fall back on a plain error page when something is missing, and the page itself
needs two allocations. `Sched.spares` says whether these are granted; without them the connection
stays as it was, and `Plain` covers both cases so that the callers need not tell them apart.
-/

namespace HttpServer

open CLib

/-! ## Without failures -/

/-- The bytes of the file that are still to be sent. -/
def Conn.body (os : Os) (c : Conn) : List UInt8 :=
  ((c.fileFd.bind os.content).getD []).drop c.fileOff

/-- The file a connection sends is open, is not its socket, and has the length it expects. -/
def FileOk (os : Os) (c : Conn) : Prop :=
  ∀ k, c.fileFd = some k → k ≠ c.fd ∧ ∃ bs, os.content k = some bs ∧ c.fileLen = bs.length ∧
    c.fileOff ≤ c.fileLen

/-- The connection `c'` is `c` with the response `reply` set up, none of it sent yet. -/
structure Ready (os : Os) (c c' : Conn) (reply : List UInt8) (keepAlive : Bool) : Prop where
  frame : c' = { c with
    keepAlive := keepAlive
    phase := .head
    head := c'.head
    headOff := 0
    fileFd := c'.fileFd
    fileOff := c'.fileOff
    fileLen := c'.fileLen }
  file : FileOk os c'
  whole : c'.head ++ c'.body os = reply

variable (site : Site) {os : Os} {c : Conn}

theorem malloc_eq (h : os.sched.Benign) : os.malloc = (true, os.malloc.2) := by
  rw [Os.malloc, headD_of_not_mem_false h.mallocs]

theorem buildHead_eq (h : os.sched.Benign) (code : StatusCode) (ctype : List UInt8) (n : Nat)
    (ka : Bool) :
    buildHead os code ctype n ka = (some (headText code ctype n ka), os.malloc.2) := by
  rw [buildHead, malloc_eq h]

theorem respondSimple_ready (code : StatusCode) (body : List UInt8) (h : os.sched.Benign) :
    ∃ os' c', respondSimple os c code (ascii "text/plain") body = (os', c') ∧
      os.Same c.fd os' ∧
      Ready os' c c' (simpleReply code body c.keepAlive) c.keepAlive := by
  have h' : os.malloc.2.sched.Benign := (Os.same_malloc 0 os).benign h
  refine ⟨os.malloc.2.malloc.2, { c with
      head := headText code (ascii "text/plain") body.length c.keepAlive ++ body
      headOff := 0
      fileFd := none
      phase := .head }, ?_, (Os.same_malloc _ os).trans (Os.same_malloc _ _), ?_⟩
  · rw [respondSimple, buildHead_eq h]
    simp only
    rw [malloc_eq h']
  · refine ⟨rfl, fun k hk => (by cases hk), ?_⟩
    simp [simpleReply, Conn.body]

/-- Without failures the file is opened and the head set up; for `HEAD` it is closed again. -/
theorem respondFound_ready (rel : List UInt8) {full content : List UInt8} (h : os.sched.Benign)
    (hsock : os.fds.get c.fd ≠ none) (hstat : site.stat full = .file content true) :
    ∃ os' c', respondFound site os c rel full content = (os', c') ∧ os.Same c.fd os' ∧
      Ready os' c c' (headText .ok (reactorMimeType rel) content.length c.keepAlive ++
        if c.req.method = .head then [] else content) c.keepAlive := by
  have hopened := Os.same_openFile site os c.cid full hsock
  obtain ⟨k, hk, hfree, hcontent⟩ := openFile_readable c.cid h hstat
  have hne : k ≠ c.fd := by
    rintro rfl
    exact hsock hfree
  unfold respondFound
  generalize os.openFile site c.cid full = out at hk hcontent hopened ⊢
  obtain ⟨fd, os₁⟩ := out
  cases hk
  simp only at hcontent hopened ⊢
  rw [buildHead_eq (hopened.benign h)]
  have hmalloc : os.Same c.fd os₁.malloc.2 := hopened.trans (Os.same_malloc _ os₁)
  by_cases hhead : c.req.method = .head
  · simp only [if_pos hhead]
    refine ⟨_, _, rfl, hmalloc.trans (Os.same_close _ _ hne), rfl, fun j hj => (by cases hj), ?_⟩
    simp [Conn.body]
  · simp only [if_neg hhead]
    refine ⟨_, _, rfl, hmalloc, rfl, ?_, ?_⟩
    · rintro j ⟨⟩
      exact ⟨hne, content, hcontent, rfl, Nat.zero_le _⟩
    · have hcontent' : os₁.malloc.2.content k = some content := hcontent
      simp [Conn.body, hcontent']

/-- Without failures `respond_file` sets up the answer. -/
theorem respondFile_ready (path : List UInt8) (h : os.sched.Benign)
    (hsock : os.fds.get c.fd ≠ none) :
    ∃ os' c', respondFile site os c path = (os', c') ∧ os.Same c.fd os' ∧
      Ready os' c c' (fileAnswer site path (decide (c.req.method = .head)) c.keepAlive)
        c.keepAlive := by
  unfold respondFile fileAnswer
  split
  · exact respondSimple_ready _ _ h
  · cases hstat : site.stat (fullPath site.docRoot (relPath path)) with
    | absent => exact respondSimple_ready _ _ h
    | dir => exact respondSimple_ready _ _ h
    | special => exact respondSimple_ready _ _ h
    | file content readable =>
        cases readable with
        | true => simpa using respondFound_ready site (relPath path) h hsock hstat
        | false =>
            have hnone := openFile_unreadable os c.cid hstat
            have hopened := Os.same_openFile site os c.cid
              (fullPath site.docRoot (relPath path)) hsock
            simp only [respondFound]
            generalize os.openFile site c.cid _ = out at hnone hopened ⊢
            obtain ⟨fd, os₁⟩ := out
            cases hnone
            obtain ⟨os', c', heq, hsame, hready⟩ := respondSimple_ready (c := c) .internalError
              (ascii "500 Internal Server Error\n") (hopened.benign h)
            exact ⟨os', c', heq, hopened.trans hsame, hready⟩

theorem buildResponse_ready (os : Os) (h : os.sched.Benign) (hsock : os.fds.get c.fd ≠ none) :
    ∃ os' c', buildResponse site os c = (os', c') ∧ os.Same c.fd os' ∧
      Ready os' c c' (answer site c.req) c.req.keepAlive := by
  unfold buildResponse answer
  simp only
  split
  · obtain ⟨os', c', heq, hsame, hready⟩ := respondFile_ready site
      (c := { c with keepAlive := c.req.keepAlive }) c.req.path.str h hsock
    exact ⟨os', c', heq, hsame, ⟨hready.frame, hready.file, hready.whole⟩⟩
  · obtain ⟨os', c', heq, hsame, hready⟩ := respondSimple_ready
      (c := { c with keepAlive := c.req.keepAlive }) .methodNotAllowed
      (ascii "405 Method Not Allowed\n") h
    exact ⟨os', c', heq, hsame, ⟨hready.frame, hready.file, hready.whole⟩⟩

theorem buildErrorResponse_ready (code : StatusCode) (h : os.sched.Benign) :
    ∃ os' c', buildErrorResponse os c code = (os', c') ∧ os.Same c.fd os' ∧
      Ready os' c c' (simpleReply code (errorMessage code) false) false := by
  obtain ⟨os', c', heq, hsame, hready⟩ := respondSimple_ready (c := { c with keepAlive := false })
    code (errorMessage code) h
  exact ⟨os', c', heq, hsame, ⟨hready.frame, hready.file, hready.whole⟩⟩

/-! ## In general -/

/-- Only some blocks of memory have been asked for. -/
def Mallocs (os os' : Os) : Prop :=
  ∃ ms, ms <:+ os.sched.mallocs ∧ os' = { os with sched := { os.sched with mallocs := ms } }

theorem Mallocs.trans {os os₁ os₂ : Os} (h₁ : Mallocs os os₁) (h₂ : Mallocs os₁ os₂) :
    Mallocs os os₂ := by
  obtain ⟨ms₁, hs₁, rfl⟩ := h₁
  obtain ⟨ms₂, hs₂, rfl⟩ := h₂
  exact ⟨ms₂, hs₂.trans hs₁, rfl⟩

theorem mallocs_malloc (os : Os) : Mallocs os os.malloc.2 := ⟨_, List.tail_suffix _, rfl⟩

theorem Mallocs.of_malloc {os os' : Os} {ok : Bool} (h : os.malloc = (ok, os')) :
    Mallocs os os' := by
  have hm := mallocs_malloc os
  rw [h] at hm
  exact hm

/-- There is memory for a text response. -/
def Sched.spares (s : Sched) : Bool := s.mallocs.headD true && s.mallocs.tail.headD true

/-- A text response or, where there is no memory for one, no response. -/
def Plain (spares : Bool) (c c' : Conn) : Prop :=
  if spares then ∃ head, c' = { c with head := head, headOff := 0, fileFd := none, phase := .head }
  else c' = c

def Node.isFile : Node → Bool
  | .file _ _ => true
  | _ => false

/-- The file a request path names is there and would be opened. -/
def Found (site : Site) (path : List UInt8) : Prop :=
  strstr path (ascii "..") = false ∧
    (site.stat (fullPath site.docRoot (relPath path))).isFile = true

/-- The request is answered from a file. -/
def Servable (site : Site) (req : HttpRequest) : Prop :=
  (req.method = .get ∨ req.method = .head) ∧ Found site req.path.str

instance (site : Site) (path : List UInt8) : Decidable (Found site path) :=
  inferInstanceAs (Decidable (_ ∧ _))

instance (site : Site) (req : HttpRequest) : Decidable (Servable site req) :=
  inferInstanceAs (Decidable (_ ∧ _))

/-- The pathname `respond_file` looks at. -/
def HttpRequest.pathname (site : Site) (req : HttpRequest) : List UInt8 :=
  fullPath site.docRoot (relPath req.path.str)

/-- What `build_response` can do, once it has set the keep-alive flag. The file, if it gets
opened, is closed again unless its body is to be sent. -/
inductive Built (site : Site) (os : Os) (c : Conn) : Os → Conn → Prop
  | plain {os' : Os} {c' : Conn} (hno : ¬ Servable site c.req) (hm : Mallocs os os')
      (hc : Plain os.sched.spares c c') : Built site os c os' c'
  | unopened {os₁ os' : Os} {c' : Conn} (hserve : Servable site c.req)
      (hopen : os.openFile site c.cid (c.req.pathname site) = (none, os₁))
      (hm : Mallocs os₁ os') (hc : Plain os₁.sched.spares c c') : Built site os c os' c'
  | aborted {os₁ os₂ os' : Os} {c' : Conn} {k : Nat} (hserve : Servable site c.req)
      (hopen : os.openFile site c.cid (c.req.pathname site) = (some k, os₁))
      (hfail : os₁.malloc = (false, os₂)) (hm : Mallocs (os₂.close (some c.cid) k) os')
      (hc : Plain os₂.sched.spares c c') : Built site os c os' c'
  | headOnly {os₁ os₂ : Os} {k : Nat} {head : List UInt8} (hserve : Servable site c.req)
      (hopen : os.openFile site c.cid (c.req.pathname site) = (some k, os₁))
      (hm : Mallocs os₁ os₂) :
      Built site os c (os₂.close (some c.cid) k)
        { c with head := head, headOff := 0, phase := .head, fileFd := none }
  | withFile {os₁ os₂ : Os} {k n : Nat} {head : List UInt8} (hserve : Servable site c.req)
      (hopen : os.openFile site c.cid (c.req.pathname site) = (some k, os₁))
      (hm : Mallocs os₁ os₂) :
      Built site os c os₂
        { c with
          head := head
          headOff := 0
          phase := .head
          fileFd := some k
          fileOff := 0
          fileLen := n }

theorem respondSimple_plain (os : Os) (c : Conn) (code : StatusCode) (ctype body : List UInt8) :
    Mallocs os (respondSimple os c code ctype body).1 ∧
      Plain os.sched.spares c (respondSimple os c code ctype body).2 := by
  have h₁ := mallocs_malloc os
  have h₂ := mallocs_malloc os.malloc.2
  unfold respondSimple buildHead Plain Sched.spares
  cases hok₁ : os.sched.mallocs.headD true with
  | false =>
      have hmalloc : os.malloc = (false, os.malloc.2) := by rw [Os.malloc, hok₁]
      rw [hmalloc]
      exact ⟨h₁, rfl⟩
  | true =>
      have hmalloc : os.malloc = (true, os.malloc.2) := by rw [Os.malloc, hok₁]
      rw [hmalloc]
      simp only
      cases hok₂ : os.sched.mallocs.tail.headD true with
      | false =>
          have hmalloc₂ : os.malloc.2.malloc = (false, os.malloc.2.malloc.2) := by
            rw [Os.malloc, Os.malloc, hok₂]
          rw [hmalloc₂]
          exact ⟨h₁.trans h₂, rfl⟩
      | true =>
          have hmalloc₂ : os.malloc.2.malloc = (true, os.malloc.2.malloc.2) := by
            rw [Os.malloc, Os.malloc, hok₂]
          rw [hmalloc₂]
          exact ⟨h₁.trans h₂, _, rfl⟩

theorem respondFile_built (os : Os) (c : Conn) (hmethod : c.req.method = .get ∨ c.req.method = .head) :
    Built site os c (respondFile site os c c.req.path.str).1
      (respondFile site os c c.req.path.str).2 := by
  -- all answers but one are plain pages
  have hplain : ¬ Found site c.req.path.str → ∀ code ctype body, Built site os c
      (respondSimple os c code ctype body).1 (respondSimple os c code ctype body).2 := by
    intro hno code ctype body
    obtain ⟨hm, hc⟩ := respondSimple_plain os c code ctype body
    exact .plain (fun hs => hno hs.2) hm hc
  unfold respondFile
  by_cases hdots : strstr c.req.path.str (ascii "..") = true
  · rw [if_pos hdots]
    exact hplain (fun hf => by rw [hf.1] at hdots; cases hdots) ..
  · rw [if_neg hdots]
    cases hstat : site.stat (fullPath site.docRoot (relPath c.req.path.str)) with
    | absent => exact hplain (fun hf => by cases hstat ▸ hf.2) ..
    | dir => exact hplain (fun hf => by cases hstat ▸ hf.2) ..
    | special => exact hplain (fun hf => by cases hstat ▸ hf.2) ..
    | file content readable =>
        have hserve : Servable site c.req :=
          ⟨hmethod, by simpa using hdots, by rw [hstat]; rfl⟩
        simp only [respondFound]
        cases hopen : os.openFile site c.cid (fullPath site.docRoot (relPath c.req.path.str)) with
        | mk fd os₁ =>
            cases fd with
            | none =>
                obtain ⟨hm, hc⟩ := respondSimple_plain os₁ c .internalError (ascii "text/plain")
                  (ascii "500 Internal Server Error\n")
                exact .unopened hserve hopen hm hc
            | some k =>
                -- the file is open now: it is closed again if there is no memory for the head
                have hm := mallocs_malloc os₁
                simp only [buildHead]
                generalize hmalloc : os₁.malloc = out at hm ⊢
                obtain ⟨ok, os₂⟩ := out
                cases ok with
                | false =>
                    obtain ⟨hm', hc⟩ := respondSimple_plain (os₂.close (some c.cid) k) c
                      .internalError (ascii "text/plain") (ascii "500 Internal Server Error\n")
                    exact .aborted hserve hopen hmalloc hm' hc
                | true =>
                    simp only
                    split
                    · exact .headOnly hserve hopen hm
                    · exact .withFile hserve hopen hm

theorem buildResponse_built {os os' : Os} {c c' : Conn}
    (h : buildResponse site os c = (os', c')) :
    Built site os { c with keepAlive := c.req.keepAlive } os' c' := by
  unfold buildResponse at h
  simp only at h
  split at h
  · rename_i hmethod
    have hbuilt := respondFile_built site os { c with keepAlive := c.req.keepAlive } hmethod
    simp only [h] at hbuilt
    exact hbuilt
  · rename_i hmethod
    have hplain := respondSimple_plain os { c with keepAlive := c.req.keepAlive }
      .methodNotAllowed (ascii "text/plain") (ascii "405 Method Not Allowed\n")
    rw [h] at hplain
    exact .plain (fun hs => hmethod hs.1) hplain.1 hplain.2

theorem buildErrorResponse_plain {os os' : Os} {c c' : Conn} {code : StatusCode}
    (h : buildErrorResponse os c code = (os', c')) :
    Mallocs os os' ∧ Plain os.sched.spares { c with keepAlive := false } c' := by
  have hplain := respondSimple_plain os { c with keepAlive := false } code (ascii "text/plain")
    (errorMessage code)
  rw [buildErrorResponse] at h
  rw [h] at hplain
  exact hplain

end HttpServer
