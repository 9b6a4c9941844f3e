import HttpServer.Reactor.Ownership

set_option autoImplicit false

/-! # Responses when memory is short

What `build_response` and `build_error_response` make of a request, whichever of their calls of
`malloc` and `open` fail: a complete response, which for a file may be an error page, or nothing
at all (`Furnished`). `Sched.answers` tells which of the two, and `Sched.after` which answers of
the kernel are left.
-/

namespace HttpServer

open CLib

variable {site : Site} {os os' : Os} {c c' : Conn}

/-! ## What is used up -/

/-- The answers left after `respond_simple`. -/
def Sched.spent (s : Sched) : Sched :=
  { s with mallocs := if s.mallocs.headD true then s.mallocs.tail.tail else s.mallocs.tail }

/-- The answers left after a response has been set up, or tried to. -/
def Sched.after (site : Site) (s : Sched) : Option HttpRequest → Sched
  | none => s.spent
  | some req =>
      if Servable site req then
        if s.opensFile site req then
          if s.mallocs.headD true then
            { s with opens := s.opens.tail, mallocs := s.mallocs.tail }
          else Sched.spent { s with opens := s.opens.tail, mallocs := s.mallocs.tail }
        else Sched.spent { s with opens := s.opens.tail }
      else s.spent

/-- There is memory for all responses that keep the connection open, to the exchanges `es` one
after the other. -/
def Sched.Supplies (site : Site) : Sched → List Exchange → Prop
  | _, [] => True
  | s, e :: es => (e.keepAlive = true → s.answers site e.request = true) ∧
      (s.after site e.request).Supplies site es

instance Sched.decidableSupplies (site : Site) :
    (s : Sched) → (es : List Exchange) → Decidable (s.Supplies site es)
  | _, [] => inferInstanceAs (Decidable True)
  | s, e :: es =>
      have := Sched.decidableSupplies site (s.after site e.request) es
      inferInstanceAs (Decidable (_ ∧ _))

/-! ## What is made -/

/-- The page for a request whose response cannot be made as it should. -/
def failureAnswer (keepAlive : Bool) : List UInt8 :=
  simpleReply .internalError (ascii "500 Internal Server Error\n") keepAlive

/-- `reply` is a complete response in the exchange. -/
def Exchange.AnsweredBy (site : Site) (e : Exchange) (reply : List UInt8) : Prop :=
  reply = e.reply site ∨ ∃ req, e.request = some req ∧ reply = failureAnswer req.keepAlive

/-- What becomes of the connection `c` when the response to `request` is set up. -/
inductive Furnished (site : Site) (request : Option HttpRequest) (os : Os) (c : Conn) (os' : Os) :
    Conn → Prop
  | made {c' : Conn} (reply : List UInt8) (hans : os.sched.answers site request = true)
      (hreply : ∀ head, Exchange.AnsweredBy site ⟨head, request⟩ reply)
      (hready : Ready os' c c' reply c.keepAlive) (hfiles : Equipped os c os' c') :
      Furnished site request os c os' c'
  | starved (hno : os.sched.answers site request = false) (hfds : os'.fds.get = os.fds.get) :
      Furnished site request os c os' c

/-- The socket is not concerned by what is done for a response. -/
theorem Furnished.sock {request : Option HttpRequest} (h : Furnished site request os c os' c')
    (hsock : os.fds.get c.fd ≠ none) : os'.fds.get c.fd = os.fds.get c.fd := by
  cases h with
  | made reply hans hreply hready hfiles =>
      rcases hfiles with ⟨_, hget⟩ | ⟨j, s, bs, _, _, hfree, hget⟩
      · rw [hget]
      · have hne : c.fd ≠ j := by
          rintro rfl
          exact hsock hfree
        rw [hget, Function.update_of_ne hne]
  | starved hno hget => rw [hget]

theorem respondSimple_eq (os : Os) (c : Conn) (code : StatusCode) (ctype body : List UInt8) :
    respondSimple os c code ctype body =
      ({ os with sched := os.sched.spent },
        if os.sched.spares then
          { c with
            head := headText code ctype body.length c.keepAlive ++ body
            headOff := 0
            fileFd := none
            phase := .head }
        else c) := by
  unfold respondSimple buildHead Sched.spares Sched.spent Os.malloc
  cases os.sched.mallocs.headD true with
  | false => rfl
  | true =>
      simp only [Bool.true_and, if_true]
      cases os.sched.mallocs.tail.headD true with
      | false => rfl
      | true => rfl

/-- A text response, or none. -/
theorem respondSimple_furnished {request : Option HttpRequest} (os : Os) (c : Conn) (code : StatusCode)
    (body : List UInt8) {os₀ : Os} (hfds : os.fds.get = os₀.fds.get)
    (hans : os₀.sched.answers site request = os.sched.spares)
    (hreply : ∀ head, Exchange.AnsweredBy site ⟨head, request⟩ (simpleReply code body c.keepAlive)) :
    Furnished site request os₀ c (respondSimple os c code (ascii "text/plain") body).1
      (respondSimple os c code (ascii "text/plain") body).2 := by
  rw [respondSimple_eq]
  cases hspare : os.sched.spares with
  | false => exact .starved (hans.trans hspare) hfds
  | true =>
      refine .made _ (hans.trans hspare) hreply ⟨rfl, fun k hk => (by cases hk), ?_⟩
        (.inl ⟨rfl, hfds⟩)
      simp [simpleReply, Conn.body]

theorem sched_openFile (site : Site) (os : Os) (cid : Nat) (path : List UInt8) :
    (os.openFile site cid path).2.sched = { os.sched with opens := os.sched.opens.tail } := by
  unfold Os.openFile
  simp only
  split
  · rfl
  · rfl

/-- A file that gets opened is the one at the pathname. -/
theorem openFile_file {cid k : Nat} {path content : List UInt8} {readable : Bool} {os₁ : Os}
    (h : os.openFile site cid path = (some k, os₁)) (hstat : site.stat path = .file content readable) :
    readable = true ∧ os₁.fds.get k = some ⟨os.serial, some cid, .file content⟩ := by
  unfold Os.openFile at h
  simp only at h
  split at h
  · rename_i content' hint hfile _
    cases hstat.symm.trans hfile
    obtain ⟨h1, rfl⟩ := Prod.mk.inj h
    cases Option.some.inj h1
    exact ⟨rfl, FdTable.get_insert_self ..⟩
  · cases (Prod.mk.inj h).1

/-- The part of `respond_file` after `stat`. -/
theorem respondFound_furnished (os : Os) (c : Conn) {content : List UInt8} {readable : Bool}
    (hserve : Servable site c.req) (hka : c.keepAlive = c.req.keepAlive)
    (hsock : os.fds.get c.fd ≠ none)
    (hstat : site.stat (c.req.pathname site) = .file content readable)
    (hanswer : readable = true → answer site c.req =
      headText .ok (reactorMimeType (relPath c.req.path.str)) content.length c.keepAlive ++
        if c.req.method = .head then [] else content) :
    Furnished site (some c.req) os c
        (respondFound site os c (relPath c.req.path.str) (c.req.pathname site) content).1
        (respondFound site os c (relPath c.req.path.str) (c.req.pathname site) content).2 ∧
      (respondFound site os c (relPath c.req.path.str) (c.req.pathname site) content).1.sched =
        os.sched.after site (some c.req) := by
  have hpage : ∀ head, Exchange.AnsweredBy site ⟨head, some c.req⟩
      (simpleReply .internalError (ascii "500 Internal Server Error\n") c.keepAlive) :=
    fun _ => .inr ⟨c.req, rfl, by rw [hka]; rfl⟩
  have hsched := sched_openFile site os c.cid (c.req.pathname site)
  unfold respondFound
  cases hopen : os.openFile site c.cid (c.req.pathname site) with
  | mk fd os₁ =>
      obtain ⟨hopens, hmallocs⟩ := openFile_opensFile hopen
      rw [hopen] at hsched
      simp only at hsched
      cases fd with
      | none =>
          have hnot : ¬ (Servable site c.req ∧ os.sched.opensFile site c.req = true) := by
            rw [hopens]
            exact fun h => by cases h.2
          simp only
          refine ⟨respondSimple_furnished os₁ c .internalError _ (by rw [openFile_none hopen]) ?_ hpage,
            ?_⟩
          · rw [Sched.answers, if_neg hnot, Sched.spares, Sched.spares, hmallocs]
          · rw [respondSimple_eq, Sched.after, if_pos hserve, hopens, hsched]
            rfl
      | some k =>
          obtain ⟨hfree, bs, hfds⟩ := openFile_some hopen
          obtain ⟨hread, hget⟩ := openFile_file hopen hstat
          have hpos : Servable site c.req ∧ os.sched.opensFile site c.req = true :=
            ⟨hserve, by rw [hopens]; rfl⟩
          -- the file is closed again
          have hclosed : ∀ os₂ : Os, os₂.fds = os₁.fds →
              (os₂.close (some c.cid) k).fds.get = os.fds.get := by
            intro os₂ hos₂
            change (FdTable.erase os₂.fds k).get = _
            rw [hos₂, hfds, get_erase_insert _ _ hfree]
          simp only [buildHead, Os.malloc]
          cases hm : os.sched.mallocs.headD true with
          | false =>
              rw [← hmallocs] at hm
              simp only [hm]
              refine ⟨respondSimple_furnished _ c .internalError _ (hclosed _ rfl) ?_ hpage, ?_⟩
              · rw [Sched.answers, if_pos hpos, ← hmallocs, hm]
                rfl
              · have hafter : os.sched.after site (some c.req) =
                    Sched.spent { os₁.sched with mallocs := os₁.sched.mallocs.tail } := by
                  rw [Sched.after, if_pos hserve, if_pos hpos.2, ← hmallocs, hm, hsched]
                  rfl
                rw [respondSimple_eq, hafter]
                rfl
          | true =>
              have hans : os.sched.answers site (some c.req) = true := by
                rw [Sched.answers, if_pos hpos, hm]
                rfl
              have hafter : { os₁.sched with mallocs := os₁.sched.mallocs.tail } =
                  os.sched.after site (some c.req) := by
                rw [Sched.after, if_pos hserve, if_pos hpos.2, if_pos hm, hsched]
              rw [← hmallocs] at hm
              simp only [hm]
              have hreply : ∀ head, Exchange.AnsweredBy site ⟨head, some c.req⟩ (answer site c.req) :=
                fun _ => .inl rfl
              rw [hanswer hread] at hreply
              by_cases hmethod : c.req.method = .head
              · simp only [if_pos hmethod, List.append_nil] at hreply ⊢
                refine ⟨.made _ hans hreply ⟨rfl, fun j hj => (by cases hj), ?_⟩
                  (.inl ⟨rfl, hclosed _ rfl⟩), hafter⟩
                simp [Conn.body]
              · simp only [if_neg hmethod] at hreply ⊢
                refine ⟨.made _ hans hreply ⟨rfl, ?_, ?_⟩
                  (.inr ⟨k, os.serial, bs, rfl, rfl, hfree, ?_⟩), hafter⟩
                · rintro j ⟨⟩
                  refine ⟨fun h0 => hsock (h0 ▸ hfree), content, ?_, rfl, Nat.zero_le _⟩
                  simp [Os.content, hget]
                · simp [Conn.body, Os.content, hget]
                · rw [hfds]
                  rfl

/-- A request that no file answers. -/
theorem respondSimple_request (os : Os) (c : Conn) (hka : c.keepAlive = c.req.keepAlive)
    (hno : ¬ Servable site c.req) (code : StatusCode) (body : List UInt8)
    (hanswer : answer site c.req = simpleReply code body c.req.keepAlive) :
    Furnished site (some c.req) os c (respondSimple os c code (ascii "text/plain") body).1
        (respondSimple os c code (ascii "text/plain") body).2 ∧
      (respondSimple os c code (ascii "text/plain") body).1.sched =
        os.sched.after site (some c.req) := by
  refine ⟨respondSimple_furnished os c code body rfl ?_ (fun _ => .inl ?_), ?_⟩
  · rw [Sched.answers, if_neg (fun h => hno h.1)]
  · rw [hka, ← hanswer]
    rfl
  · rw [respondSimple_eq, Sched.after, if_neg hno]

theorem respondFile_furnished (os : Os) (c : Conn) (hka : c.keepAlive = c.req.keepAlive)
    (hmethod : c.req.method = .get ∨ c.req.method = .head) (hsock : os.fds.get c.fd ≠ none) :
    Furnished site (some c.req) os c (respondFile site os c c.req.path.str).1
        (respondFile site os c c.req.path.str).2 ∧
      (respondFile site os c c.req.path.str).1.sched = os.sched.after site (some c.req) := by
  have hanswer : answer site c.req = fileAnswer site c.req.path.str
      (decide (c.req.method = .head)) c.req.keepAlive := by
    rw [answer, if_pos hmethod]
  unfold fileAnswer at hanswer
  unfold respondFile
  by_cases hdots : strstr c.req.path.str (ascii "..") = true
  · rw [if_pos hdots] at hanswer ⊢
    exact respondSimple_request os c hka
      (fun hs => by rw [hs.2.1] at hdots; cases hdots) _ _ hanswer
  · rw [if_neg hdots] at hanswer ⊢
    -- only a regular file is opened
    have hno : (site.stat (c.req.pathname site)).isFile = false → ¬ Servable site c.req := by
      intro hfile hs
      cases hfile.symm.trans hs.2.2
    have hpath : fullPath site.docRoot (relPath c.req.path.str) = c.req.pathname site := rfl
    rw [hpath] at hanswer ⊢
    cases hstat : site.stat (c.req.pathname site) with
    | absent =>
        rw [hstat] at hanswer
        exact respondSimple_request os c hka (hno (by rw [hstat]; rfl)) _ _ hanswer
    | dir =>
        rw [hstat] at hanswer
        exact respondSimple_request os c hka (hno (by rw [hstat]; rfl)) _ _ hanswer
    | special =>
        rw [hstat] at hanswer
        exact respondSimple_request os c hka (hno (by rw [hstat]; rfl)) _ _ hanswer
    | file content readable =>
        have hserve : Servable site c.req := by
          refine ⟨hmethod, by simpa using hdots, ?_⟩
          change (site.stat (c.req.pathname site)).isFile = true
          rw [hstat]
          rfl
        refine respondFound_furnished os c hserve hka hsock hstat ?_
        rintro rfl
        rw [hstat] at hanswer
        rw [hanswer, hka]
        simp

/-- **What becomes of a request**, whatever fails. -/
theorem buildResponse_furnished {os os' : Os} {c c' : Conn}
    (h : buildResponse site os c = (os', c')) (hsock : os.fds.get c.fd ≠ none) :
    Furnished site (some c.req) os { c with keepAlive := c.req.keepAlive } os' c' ∧
      os'.sched = os.sched.after site (some c.req) := by
  obtain rfl : os' = (buildResponse site os c).1 := by rw [h]
  obtain rfl : c' = (buildResponse site os c).2 := by rw [h]
  clear h
  unfold buildResponse
  by_cases hmethod : c.req.method = .get ∨ c.req.method = .head
  · simp only [if_pos hmethod]
    exact respondFile_furnished os { c with keepAlive := c.req.keepAlive } rfl hmethod hsock
  · simp only [if_neg hmethod]
    refine respondSimple_request os { c with keepAlive := c.req.keepAlive } rfl
      (fun hs => hmethod hs.1) _ _ ?_
    rw [answer, if_neg hmethod]

/-- What becomes of bytes that are no request. -/
theorem buildErrorResponse_furnished (site : Site) {os os' : Os} {c c' : Conn}
    (h : buildErrorResponse os c .badRequest = (os', c')) :
    Furnished site none os { c with keepAlive := false } os' c' ∧
      os'.sched = os.sched.after site none := by
  obtain rfl : os' = (buildErrorResponse os c .badRequest).1 := by rw [h]
  obtain rfl : c' = (buildErrorResponse os c .badRequest).2 := by rw [h]
  clear h
  unfold buildErrorResponse
  refine ⟨respondSimple_furnished os { c with keepAlive := false } .badRequest _ rfl rfl
    (fun _ => .inl rfl), ?_⟩
  rw [respondSimple_eq]
  rfl

end HttpServer
