import HttpServer.Reactor.Action

set_option autoImplicit false

/-! # The handlers, action by action

The handlers of `src/reactor.c` are nested loops: `conn_read` reads until `EAGAIN` and parses
after every read, and `conn_write` flushes a response, parses what is left of the input and
starts over with the next response. Each of them is followed here once, to one lemma that says
which actions it takes and how it stops. Invariants need nothing else of the handlers.

* Parsing is followed byte by byte, by induction on the unparsed rest of the buffer. It stops at
  the end of the buffer, at the end of a request, at a bad one or at a fault (`ProcessOutcome`).
* A turn of the read loop starts with all input parsed (`Drained`), and that is also what it
  needs to go on: `readTurn_outcome` is the step, `connRead_outcome` the induction on the answers
  of the kernel.
* Head and file are sent by the same loop. `writeLoop_outcome` is proved for any call that keeps
  an invariant, by induction on the answers. What is special to `send` and to `sendfile` is in
  `headCall_outcome` and `fileCall_outcome`.
* `conn_write` and `conn_process_input` call each other. One round of this is a `WriteStep`, and
  `connWriteN_outcome` is an induction on the number of rounds.

`connEvent_outcome` puts them together: whatever is reported, and whatever the calls answer, the
handling of an event is an `Outcome`.
-/

namespace HttpServer

open CLib

variable {site : Site} {r r' : Reactor} {c c' : Conn} {ref : ConnRef}

/-! ## Parsing -/

theorem getElem?_of_drop_eq_cons {α : Type} {l t : List α} {i : Nat} {a : α}
    (h : l.drop i = a :: t) : l[i]? = some a := by
  have := congrArg List.head? h
  rwa [List.head?_drop] at this

theorem drop_succ_of_drop_eq_cons {α : Type} {l t : List α} {i : Nat} {a : α}
    (h : l.drop i = a :: t) : l.drop (i + 1) = t := by
  rw [← List.drop_drop, h]
  rfl

/-- Where `conn_process_input` stops: all of the buffer is parsed and no head is complete, or
a head is and its bytes are used up. -/
structure Processed (os : Os) (c : Conn) (os' : Os) (c' : Conn) : Prop where
  inbuf : c'.inbuf = c.inbuf
  inHead : c'.inHead ≤ c'.inbuf.length
  headOff : c.headOff = 0 → c'.headOff = 0
  stop : (c'.state = .reading ∧ c'.inHead = c'.inbuf.length ∧ os'.interest = os.interest ∧
      os'.sched = os.sched) ∨
    (c'.state = .writing ∧ c.inHead < c'.inHead)

/-- What `conn_process_input` does on the connection `c` of the reactor `r`. -/
def ProcessOutcome (site : Site) (r : Reactor) (c : Conn) : Os × Except Fault Conn → Prop
  | (os, .ok c') => Actions site (r, c) ({ r with os := os }, c') ∧ Processed r.os c os c'
  | (os, .error f) => Outcome site r c { r with os := os } (.crashed f)

/-- After a byte that ends a head. -/
theorem Processed.ready {os os' : Os} {p : HttpParser} {req : HttpRequest} {ka : Bool} {b : UInt8}
    (hset : SetUp { c with parser := p, req := req, inHead := c.inHead + 1, keepAlive := ka } c')
    (hget : c.inbuf[c.inHead]? = some b) :
    Processed os c os' { c' with state := .writing } := by
  have hlt : c.inHead < c.inbuf.length := (List.getElem?_eq_some_iff.mp hget).1
  have hin : c'.inHead = c.inHead + 1 := hset.inHead
  have hbuf : c'.inbuf = c.inbuf := hset.inbuf
  refine ⟨hbuf, ?_, hset.headOff, .inr ⟨rfl, ?_⟩⟩
  · simp only [hin, hbuf]
    exact hlt
  · simp only [hin]
    exact Nat.lt_succ_self _

theorem processLoop_outcome (bs : List UInt8) (r : Reactor) (c : Conn) (hs : c.state = .reading)
    (hin : c.inHead ≤ c.inbuf.length) (hbuf : c.inbuf.drop c.inHead = bs) :
    ProcessOutcome site r c (processLoop site r.os c bs) := by
  -- by induction on the bytes left in the buffer: one parsing action each, up to a head
  induction bs generalizing r c with
  | nil =>
      have hall : c.inHead = c.inbuf.length :=
        Nat.le_antisymm hin (List.drop_eq_nil_iff.mp hbuf)
      exact ⟨.refl, ⟨rfl, hin, id, .inl ⟨hs, hall, rfl, rfl⟩⟩⟩
  | cons b bs ih =>
      have hget := getElem?_of_drop_eq_cons hbuf
      have hlt : c.inHead < c.inbuf.length := (List.getElem?_eq_some_iff.mp hget).1
      rw [processLoop]
      cases hfeed : httpParserFeed c.parser c.req [b] with
      | error f => exact .crashed .refl hs hget hfeed
      | ok out =>
          obtain ⟨st, p, req⟩ := out
          cases st with
          | incomplete =>
              have hact : Actions site (r, c) ({ r with os := r.os.log (.parsed c.cid b) },
                  { c with parser := p, req := req, inHead := c.inHead + 1 }) :=
                .single (.parse hs hget hfeed)
              have hrec := ih { r with os := r.os.log (.parsed c.cid b) }
                { c with parser := p, req := req, inHead := c.inHead + 1 } hs hlt
                (drop_succ_of_drop_eq_cons hbuf)
              simp only at hrec ⊢
              generalize processLoop site _ _ bs = out at hrec ⊢
              obtain ⟨os', res⟩ := out
              cases res with
              | error f => exact .after hact hrec
              | ok c' =>
                  obtain ⟨hacts, hbuf', hin', hoff', hstop⟩ := hrec
                  refine ⟨hact.trans hacts, hbuf', hin', hoff', ?_⟩
                  rcases hstop with hstop | ⟨hw, hlt'⟩
                  · exact .inl hstop
                  · exact .inr ⟨hw, Nat.lt_of_succ_lt hlt'⟩
          | done =>
              simp only
              generalize hbuild : buildResponse site _ _ = out
              obtain ⟨os', c'⟩ := out
              exact ⟨.single (.request hs hget hfeed hbuild),
                .ready (buildResponse_setUp hbuild) hget⟩
          | error =>
              simp only
              generalize hbuild : buildErrorResponse _ _ .badRequest = out
              obtain ⟨os', c'⟩ := out
              exact ⟨.single (.reject hs hget hfeed hbuild),
                .ready (buildErrorResponse_setUp hbuild) hget⟩

theorem connProcessInput_outcome (site : Site) (r : Reactor) (c : Conn) (hs : c.state = .reading)
    (hin : c.inHead ≤ c.inbuf.length) :
    ProcessOutcome site r c (connProcessInput site r.os c) := by
  rw [connProcessInput, if_pos hs]
  exact processLoop_outcome _ r c hs hin rfl

/-! ## Reading -/

/-- The connection has parsed all it has read. -/
structure Drained (r : Reactor) (c : Conn) (i : Option Interest) : Prop where
  state : c.state = .reading
  inHead : c.inHead = c.inbuf.length
  headOff : c.headOff = 0
  interest : r.os.interest c.fd = i

/-- A response has just been asked for. -/
structure Answering (c : Conn) : Prop where
  state : c.state = .writing
  inHead : c.inHead ≤ c.inbuf.length
  headOff : c.headOff = 0

/-- What reading leaves of a connection that is still there. -/
def ReadOutcome (site : Site) (r : Reactor) (c : Conn) (r' : Reactor) : ConnRef → Prop
  | .live c' => Actions site (r, c) (r', c') ∧
      (Drained r' c' (r.os.interest c.fd) ∨ Answering c')
  | ref => Outcome site r c r' ref

/-- What one turn does; `rest` is what it leaves of the answers if the loop goes on. -/
def TurnOutcome (site : Site) (rest : List ReadRes) (r : Reactor) (c : Conn) (r' : Reactor) :
    ReadTurn → Prop
  | .more c' => Actions site (r, c) (r', c') ∧ Drained r' c' (r.os.interest c.fd) ∧
      r'.os.sched.reads = rest
  | .stop ref => ReadOutcome site r c r' ref

theorem readTurn_outcome (site : Site) {i : Option Interest} (h : Drained r c i) (a : ReadRes)
    (rest : List ReadRes) (ha : r.os.sched.reads = a :: rest ∨ a = .again) :
    TurnOutcome site rest r c (readTurn site r c a rest).1 (readTurn site r c a rest).2 := by
  have hcomp : compact c = { c with inbuf := [], inHead := 0 } := if_pos h.inHead
  have hrewind : Actions site (r, c) (r, { c with inbuf := [], inHead := 0 }) :=
    .single (.rewind h.state h.inHead)
  have hdrain : Drained r { c with inbuf := [], inHead := 0 } (r.os.interest c.fd) :=
    ⟨h.state, rfl, h.headOff, rfl⟩
  unfold readTurn
  simp only [hcomp, List.length_nil, bufferSize, Nat.reduceEqDiff, if_false]
  cases hsock : r.os.incoming c.fd with
  | none => exact .closed hrewind (.lost h.state hsock)
  | some incoming =>
      cases a with
      | again => exact ⟨hrewind, .inl hdrain⟩
      | intr =>
          have hreads := ha.resolve_right (by simp)
          exact ⟨hrewind.tail (.retry h.state hreads), ⟨h.state, rfl, h.headOff, rfl⟩, rfl⟩
      | eof =>
          have hreads := ha.resolve_right (by simp)
          exact .closed hrewind (.eof h.state rfl (by rw [hreads]; rfl))
      | fail =>
          have hreads := ha.resolve_right (by simp)
          exact .closed hrewind (.broken h.state rfl (by rw [hreads]; rfl))
      | bytes n =>
          have hreads := ha.resolve_right (by simp)
          simp only [List.nil_append]
          generalize hbs : incoming.take (min n (8192 - 0)) = bs
          split
          · exact ⟨hrewind, .inl hdrain⟩
          · rename_i hne
            -- the bytes are parsed in the same turn
            have hrecv := hrewind.tail (.receive h.state ⟨rfl, rfl⟩ hreads hsock hbs.symm hne)
            have hproc := connProcessInput_outcome site
              { r with
                os := ((r.os.setReads rest).consume c.fd bs.length).log (.read c.cid bs) }
              { c with inbuf := bs, inHead := 0 } h.state (Nat.zero_le _)
            have hcons := consume_eq (r.os.setReads rest) c.fd bs.length
            simp only at hproc
            generalize connProcessInput site _ _ = out at hproc ⊢
            obtain ⟨os', res⟩ := out
            cases res with
            | error f => exact .after hrecv hproc
            | ok c' =>
                obtain ⟨hacts, hbuf', hin', hoff', hstop⟩ := hproc
                have hall : Actions site (r, c) ({ r with os := os' }, c') := hrecv.trans hacts
                have hfd : c'.fd = c.fd := hall.confined.fd
                rcases hstop with ⟨hs', hdr, hint', hsched'⟩ | ⟨hs', _⟩
                · simp only [hs', reduceCtorEq, if_false]
                  refine ⟨hall, ⟨hs', hdr, hoff' h.headOff, ?_⟩, ?_⟩
                  · change os'.interest c'.fd = _
                    rw [hint', hfd, hcons]
                    rfl
                  · change os'.sched.reads = _
                    rw [hsched', hcons]
                    rfl
                · simp only [hs', if_true]
                  exact ⟨hall, .inr ⟨hs', hin', hoff' h.headOff⟩⟩

theorem ReadOutcome.after {r₁ : Reactor} {c₁ : Conn} (h : Actions site (r, c) (r₁, c₁))
    (hint : r₁.os.interest c₁.fd = r.os.interest c.fd) (hout : ReadOutcome site r₁ c₁ r' ref) :
    ReadOutcome site r c r' ref := by
  cases ref with
  | live c' =>
      obtain ⟨hacts, hstop⟩ := hout
      rw [hint] at hstop
      exact ⟨h.trans hacts, hstop⟩
  | closed => exact Outcome.after h hout
  | crashed f => exact Outcome.after h hout

theorem connRead_outcome (site : Site) (answers : List ReadRes) {i : Option Interest} (r : Reactor)
    (c : Conn) (ha : r.os.sched.reads = answers) (h : Drained r c i) :
    ReadOutcome site r c (connRead site r c answers).1 (connRead site r c answers).2 := by
  induction answers generalizing r c i with
  | nil =>
      have hturn := readTurn_outcome site h .again [] (.inr rfl)
      rw [connRead]
      generalize readTurn site r c .again [] = out at hturn ⊢
      obtain ⟨r', t⟩ := out
      cases t with
      | more c' => exact ⟨hturn.1, .inl hturn.2.1⟩
      | stop ref => exact hturn
  | cons a rest ih =>
      have hturn := readTurn_outcome site h a rest (.inl ha)
      rw [connRead]
      generalize readTurn site r c a rest = out at hturn ⊢
      obtain ⟨r₁, t⟩ := out
      cases t with
      | stop ref => exact hturn
      | more c₁ =>
          obtain ⟨hacts, hdrain, hrest⟩ := hturn
          exact .after hacts hdrain.interest (ih r₁ c₁ hrest hdrain)

/-! ## Writing -/

/-- The rule for the loops of `conn_write`. With the answers `ws` left, `P ws` holds before
every call; a call that lets the loop go on keeps it, and the loop ends with `Q`. -/
theorem writeLoop_rule {todo : Conn → Bool} {call : Reactor → Conn → WriteRes → Reactor × Flush}
    {finish : Reactor → Conn → Reactor × Flush} (P : List WriteRes → Reactor → Conn → Prop)
    (Q : Reactor → Flush → Prop)
    (hpark : ∀ r c, P [] r c → todo c = true →
      Q (call (r.setWrites []) c .again).1 (call (r.setWrites []) c .again).2)
    (hcall : ∀ w ws r c, P (w :: ws) r c → todo c = true →
      (∃ c', (call (r.setWrites ws) c w).2 = .more c' ∧ P ws (call (r.setWrites ws) c w).1 c') ∨
        ((∀ c', (call (r.setWrites ws) c w).2 ≠ .more c') ∧
          Q (call (r.setWrites ws) c w).1 (call (r.setWrites ws) c w).2))
    (hfinish : ∀ ws r c, P ws r c → todo c = false →
      Q (finish (r.setWrites ws) c).1 (finish (r.setWrites ws) c).2)
    (ws : List WriteRes) (r : Reactor) (c : Conn) (hP : P ws r c) :
    Q (writeLoop todo call finish r c ws).1 (writeLoop todo call finish r c ws).2 := by
  -- by induction on the answers that are left
  induction ws generalizing r c with
  | nil =>
      rw [writeLoop]
      split
      · rename_i htodo
        exact hpark r c hP htodo
      · rename_i htodo
        exact hfinish [] r c hP (by simpa using htodo)
  | cons w ws ih =>
      rw [writeLoop]
      split
      · rename_i htodo
        have hstep := hcall w ws r c hP htodo
        generalize call (r.setWrites ws) c w = out at hstep ⊢
        obtain ⟨r', f⟩ := out
        rcases hstep with ⟨c', rfl, hP'⟩ | ⟨hmore, hQ⟩
        · exact ih r' c' hP'
        · cases f with
          | more c' => exact absurd rfl (hmore c')
          | sent c' => exact hQ
          | parked c' => exact hQ
          | closed => exact hQ
      · rename_i htodo
        exact hfinish (w :: ws) r c hP (by simpa using htodo)

/-- The input side of a connection that is sending. -/
structure Sending (c c' : Conn) : Prop where
  state : c'.state = .writing
  inbuf : c'.inbuf = c.inbuf
  inHead : c'.inHead = c.inHead

/-- How a loop of `conn_write` ends; `good` holds when all is sent. -/
def FlushOutcome (site : Site) (good : Conn → Prop) (r : Reactor) (c : Conn) (r' : Reactor) :
    Flush → Prop
  | .more _ => False
  | .sent c' => Actions site (r, c) (r', c') ∧ Sending c c' ∧ good c'
  | .parked c' => Actions site (r, c) (r', c') ∧ Sending c c' ∧ Unfinished c' ∧
      (r'.os.interest c'.fd = some .output ∨ r'.os.interest c'.fd = none)
  | .closed => Outcome site r c r' .closed

theorem FlushOutcome.after {good : Conn → Prop} {r₁ : Reactor} {c₁ : Conn} {f : Flush}
    (h : Actions site (r, c) (r₁, c₁)) (hsend : Sending c c₁)
    (hout : FlushOutcome site good r₁ c₁ r' f) : FlushOutcome site good r c r' f := by
  have hin : ∀ c', Sending c₁ c' → Sending c c' := fun c' h' =>
    ⟨h'.state, h'.inbuf.trans hsend.inbuf, h'.inHead.trans hsend.inHead⟩
  cases f with
  | more c' => exact hout
  | sent c' => exact ⟨h.trans hout.1, hin c' hout.2.1, hout.2.2⟩
  | parked c' => exact ⟨h.trans hout.1, hin c' hout.2.1, hout.2.2⟩
  | closed => exact Outcome.after h hout

theorem interest_epollMod (os : Os) (fd : Nat) (i : Interest) :
    (os.epollMod fd i).interest fd = some i ∨ (os.epollMod fd i).interest fd = none := by
  unfold Os.epollMod
  split
  · exact .inl (Function.update_self ..)
  · rename_i hnone
    exact .inr (by simpa using hnone)

/-- The state of an output loop: it is in its phase, and the answers left are in order. -/
structure InLoop (site : Site) (I : Conn → Prop) (r₀ : Reactor) (c₀ : Conn) (ws : List WriteRes)
    (r : Reactor) (c : Conn) : Prop where
  acts : Actions site (r₀, c₀) (r, c)
  sending : Sending c₀ c
  here : I c
  answers : ws <:+ r.os.sched.writes

/-- A call of an output loop: the loop goes on, waits, or the call fails. -/
inductive CallOutcome (site : Site) (I : Conn → Prop) (w : WriteRes) (r : Reactor) (c : Conn) :
    Reactor × Flush → Prop
  | more {r' : Reactor} {c' : Conn} (hacts : Actions site (r, c) (r', c')) (hsend : Sending c c')
      (hI : I c') (hws : r'.os.sched.writes = r.os.sched.writes) :
      CallOutcome site I w r c (r', .more c')
  | parked (hleft : Unfinished c) : CallOutcome site I w r c (park r c)
  | closed (hwhy : ¬ w.Good ∨ r.os.incoming c.fd = none) :
      CallOutcome site I w r c (connClose r c, .closed)
  | closedFile (hphase : c.phase = .sendfile)
      (hwhy : ¬ w.Good ∨ r.os.incoming c.fd = none ∨ c.fileFd.bind r.os.content = none) :
      CallOutcome site I w r c (fileFail r c)

/-- Where a call stops the loop, the whole loop has the outcome wanted of it. -/
theorem CallOutcome.stop {I good : Conn → Prop} {w : WriteRes} {r₀ : Reactor} {c₀ : Conn}
    {out : Reactor × Flush} (hacts : Actions site (r₀, c₀) (r, c)) (hsend : Sending c₀ c)
    (hw : r₀.os.sched.Benign → w.Good) (hmore : ∀ c', out.2 ≠ .more c')
    (h : CallOutcome site I w r c out) : FlushOutcome site good r₀ c₀ out.1 out.2 := by
  cases h with
  | more => exact absurd rfl (hmore _)
  | parked hleft =>
      exact ⟨hacts.tail (.park hsend.state hleft), hsend, hleft,
        interest_epollMod r.os c.fd .output⟩
  | closed hwhy =>
      refine .closed hacts (.failed hsend.state ?_)
      rcases hwhy with hbad | hsock
      · exact .inl (fun hb => hbad (hw hb))
      · exact .inr (.inl hsock)
  | closedFile hphase hwhy =>
      refine .closedFile hacts hsend.state hphase ?_
      rcases hwhy with hbad | hsock | hfile
      · exact .inl (fun hb => hbad (hw hb))
      · exact .inr (.inl hsock)
      · exact .inr (.inr ⟨hsend.state, hphase, hfile⟩)

/-- Both output loops, given what a call and what their end does. -/
theorem writeLoop_outcome {todo : Conn → Bool} {call : Reactor → Conn → WriteRes → Reactor × Flush}
    {finish : Reactor → Conn → Reactor × Flush} {I good : Conn → Prop}
    (hcall : ∀ r c w, c.state = .writing → I c → todo c = true →
      CallOutcome site I w r c (call r c w))
    (hagain : ∀ r c c', (call r c .again).2 ≠ .more c')
    (hfinish : ∀ r c, c.state = .writing → I c → todo c = false →
      FlushOutcome site good r c (finish r c).1 (finish r c).2)
    (r : Reactor) (c : Conn) (hs : c.state = .writing) (hI : I c) :
    FlushOutcome site good r c (writeLoop todo call finish r c r.os.sched.writes).1
      (writeLoop todo call finish r c r.os.sched.writes).2 := by
  refine writeLoop_rule (fun ws r' c' => InLoop site I r c ws r' c')
    (FlushOutcome site good r c) ?_ ?_ ?_ _ r c
    ⟨.refl, ⟨hs, rfl, rfl⟩, hI, List.suffix_rfl⟩
  · intro r' c' hin htodo
    have hacts := hin.acts.tail (.answers hin.answers)
    exact (hcall _ c' .again hin.sending.state hin.here htodo).stop hacts hin.sending
      (fun _ => ⟨by simp, by simp⟩) (hagain _ c')
  · intro w ws r' c' hin htodo
    have hsuf : ws <:+ r'.os.sched.writes := (List.suffix_cons w ws).trans hin.answers
    have hacts := hin.acts.tail (.answers hsuf)
    -- the answer to this call is one of those that were listed at the start
    have hgood : r.os.sched.Benign → w.Good := fun hb =>
      hb.good ((hin.answers.trans hin.acts.later.writes).subset List.mem_cons_self)
    have hone := hcall (r'.setWrites ws) c' w hin.sending.state hin.here htodo
    generalize call (r'.setWrites ws) c' w = out at hone ⊢
    by_cases hmore : ∃ c'', out.2 = .more c''
    · obtain ⟨c'', hout⟩ := hmore
      cases hone with
      | more hacts' hsend hI' hws =>
          refine .inl ⟨_, rfl, hacts.trans hacts', ⟨hsend.state, hsend.inbuf.trans hin.sending.inbuf,
            hsend.inHead.trans hin.sending.inHead⟩, hI', ?_⟩
          rw [hws]
          exact List.suffix_rfl
      | parked => cases hout
      | closed => cases hout
      | closedFile => cases hout
    · have hnot : ∀ c'', out.2 ≠ .more c'' := fun c'' h0 => hmore ⟨c'', h0⟩
      exact .inr ⟨hnot, hone.stop hacts hin.sending hgood hnot⟩
  · intro ws r' c' hin htodo
    exact .after (hin.acts.tail (.answers hin.answers)) hin.sending
      (hfinish _ c' hin.sending.state hin.here htodo)

/-! ## The two phases -/

theorem headCall_outcome (w : WriteRes) (hs : c.state = .writing) (hphase : c.phase = .head)
    (htodo : c.headOff < c.head.length) :
    CallOutcome site (fun c => c.phase = .head) w r c (headCall r c w) := by
  unfold headCall
  cases hsock : r.os.incoming c.fd with
  | none => exact .closed (.inr hsock)
  | some _ =>
      cases w with
      | again => exact .parked (.inl ⟨hphase, htodo⟩)
      | intr => exact .more .refl ⟨hs, rfl, rfl⟩ hphase rfl
      | fail => exact .closed (.inl fun hg => hg.1 rfl)
      | bytes n =>
          simp only
          split
          · rename_i hempty
            refine .closed (.inl fun hg => ?_)
            rcases List.take_eq_nil_iff.mp hempty with hn | hdrop
            · exact hg.2 (by rw [hn])
            · rw [List.drop_eq_nil_iff] at hdrop
              omega
          · exact .more (.single (.sendHead n hs hphase)) ⟨hs, rfl, rfl⟩ hphase rfl

theorem fileCall_outcome (w : WriteRes) (hs : c.state = .writing)
    (hphase : c.phase = .sendfile ∧ c.headOff = 0) (htodo : c.fileOff < c.fileLen) :
    CallOutcome site (fun c => c.phase = .sendfile ∧ c.headOff = 0) w r c (fileCall r c w) := by
  unfold fileCall
  cases hfile : c.fileFd.bind r.os.content with
  | none => exact .closedFile hphase.1 (.inr (.inr hfile))
  | some content =>
      cases hsock : r.os.incoming c.fd with
      | none => exact .closedFile hphase.1 (.inr (.inl hsock))
      | some _ =>
          cases w with
          | again => exact .parked (.inr ⟨hphase.1, hphase.2, htodo⟩)
          | intr => exact .more .refl ⟨hs, rfl, rfl⟩ hphase rfl
          | fail => exact .closedFile hphase.1 (.inl fun hg => hg.1 rfl)
          | bytes n =>
              exact .more (.single (.sendBody _ hs hphase.1 hfile)) ⟨hs, rfl, rfl⟩ hphase rfl

theorem headCall_again (r : Reactor) (c c' : Conn) : (headCall r c .again).2 ≠ .more c' := by
  unfold headCall
  split
  · simp
  · simp [park]

theorem fileCall_again (r : Reactor) (c c' : Conn) : (fileCall r c .again).2 ≠ .more c' := by
  unfold fileCall
  split
  · simp [park]
  · simp [fileFail]

theorem flushHead_outcome (hs : c.state = .writing) (hphase : c.phase = .head) :
    FlushOutcome site
      (fun c' => c'.headOff = 0 ∧ c'.phase = if c'.fileFd.isSome then .sendfile else .done)
      r c (flushHead r c).1 (flushHead r c).2 := by
  refine writeLoop_outcome
    (fun r c w hs hp htodo => headCall_outcome w hs hp (by simpa using htodo)) headCall_again
    (fun r c hs hp htodo => ?_) r c hs hphase
  exact ⟨.single (.headSent hs hp (by simpa using htodo)), ⟨hs, rfl, rfl⟩, rfl, rfl⟩

theorem flushFile_outcome (hs : c.state = .writing)
    (hphase : c.phase = .sendfile ∧ c.headOff = 0) :
    FlushOutcome site (fun c' => c'.headOff = 0 ∧ c'.phase = .done) r c (flushFile r c).1
      (flushFile r c).2 := by
  refine writeLoop_outcome
    (fun r c w hs hp htodo => fileCall_outcome w hs hp (by simpa using htodo)) fileCall_again
    (fun r c hs hp htodo => ?_) r c hs hphase
  exact ⟨.single (.bodySent hs hp.1 (by simpa using htodo)), ⟨hs, rfl, rfl⟩, hp.2, rfl⟩

/-- Where `conn_write` may be entered: within a response, or at its start. -/
def Enterable (c : Conn) : Prop := c.phase = .head ∨ c.headOff = 0

theorem flush_outcome (hs : c.state = .writing) (henter : Enterable c) :
    FlushOutcome site (fun c' => c'.headOff = 0 ∧ c'.phase = .done) r c (flush r c).1
      (flush r c).2 := by
  -- what comes after the head, from wherever the head was done with
  have hbody : ∀ r' c', Actions site (r, c) (r', c') → Sending c c' → c'.headOff = 0 →
      c'.phase ≠ .head → FlushOutcome site (fun c' => c'.headOff = 0 ∧ c'.phase = .done) r c
      (if c'.phase = .sendfile then flushFile r' c' else (r', .sent c')).1
      (if c'.phase = .sendfile then flushFile r' c' else (r', .sent c')).2 := by
    intro r' c' hacts hsend hoff hne
    split
    · rename_i hphase
      exact .after hacts hsend (flushFile_outcome hsend.state ⟨hphase, hoff⟩)
    · rename_i hphase
      refine ⟨hacts, hsend, hoff, ?_⟩
      cases hp : c'.phase with
      | head => exact absurd hp hne
      | sendfile => exact absurd hp hphase
      | done => rfl
  unfold flush
  by_cases hphase : c.phase = .head
  · rw [if_pos hphase]
    have hhead : FlushOutcome site
        (fun c' => c'.headOff = 0 ∧ c'.phase = if c'.fileFd.isSome then .sendfile else .done)
        r c (flushHead r c).1 (flushHead r c).2 := flushHead_outcome hs hphase
    generalize flushHead r c = out at hhead ⊢
    obtain ⟨r', f⟩ := out
    cases f with
    | more c' => exact hhead
    | parked c' => exact hhead
    | closed => exact hhead
    | sent c' =>
        obtain ⟨hacts, hsend, hoff, hphase'⟩ := hhead
        refine hbody r' c' hacts hsend hoff ?_
        rw [hphase']
        split
        · simp
        · simp
  · rw [if_neg hphase]
    exact hbody r c .refl ⟨hs, rfl, rfl⟩ (henter.resolve_left hphase) hphase

/-- What a call of `conn_write` comes to: it returns, or it calls itself. -/
inductive WriteStep
  | ret (r : Reactor) (ref : ConnRef)
  | call (r : Reactor) (c : Conn)

def writeStep (site : Site) (r : Reactor) (c : Conn) : WriteStep :=
  match flush r c with
  | (r, .more c) => .ret r (.live c)
  | (r, .parked c) => .ret r (.live c)
  | (r, .closed) => .ret r .closed
  | (r, .sent c) =>
      if c.phase ≠ .done then .ret r (.live c)
      else if c.keepAlive = false then .ret (connClose r c) .closed
      else
        match connProcessInput site r.os { c with state := .reading, parser := httpParserInit } with
        | (os, .error f) => .ret { r with os := os } (.crashed f)
        | (os, .ok c) =>
            if c.state = .writing then
              .call { r with os := os } { c with phase := .head, headOff := 0 }
            else .ret (modEvents { r with os := os } c .input) (.live c)

/-- `conn_write` runs such calls, one inside the other. -/
theorem connWriteN_succ (site : Site) (n : Nat) (r : Reactor) (c : Conn) :
    connWriteN site (n + 1) r c =
      match writeStep site r c with
      | .ret r ref => (r, ref)
      | .call r c => connWriteN site n r c := by
  rw [connWriteN, writeStep]
  generalize flush r c = out
  obtain ⟨r₁, f⟩ := out
  cases f with
  | more c₁ => rfl
  | parked c₁ => rfl
  | closed => rfl
  | sent c₁ =>
      simp only
      split
      · rfl
      split
      · rfl
      generalize connProcessInput site r₁.os _ = out
      obtain ⟨os, res⟩ := out
      cases res with
      | error f => rfl
      | ok c₂ =>
          simp only
          split
          · rfl
          · rfl

/-- What a call does before it returns or calls itself; then it has parsed a byte or more. -/
def WriteStep.Outcome (site : Site) (r : Reactor) (c : Conn) : WriteStep → Prop
  | .ret r' ref => HttpServer.Outcome site r c r' ref
  | .call r' c' => Actions site (r, c) (r', c') ∧ c'.state = .writing ∧ Enterable c' ∧
      c'.inbuf = c.inbuf ∧ c.inHead < c'.inHead ∧ c'.inHead ≤ c.inbuf.length

theorem writeStep_outcome (site : Site) (r : Reactor) (hs : c.state = .writing)
    (hin : c.inHead ≤ c.inbuf.length) (henter : Enterable c) :
    (writeStep site r c).Outcome site r c := by
  have hflush : FlushOutcome site (fun c' => c'.headOff = 0 ∧ c'.phase = .done) r c
    (flush r c).1 (flush r c).2 := flush_outcome hs henter
  rw [writeStep]
  generalize flush r c = out at hflush ⊢
  obtain ⟨r₁, f⟩ := out
  -- what is sent in full is followed by the next head; all else ends the call
  cases f with
  | more c₁ => exact hflush.elim
  | closed => exact hflush
  | parked c₁ =>
      obtain ⟨hacts, hsend, hleft, hint⟩ := hflush
      refine .live hacts (.output hsend.state ?_ hleft hint)
      rw [hsend.inHead, hsend.inbuf]
      exact hin
  | sent c₁ =>
      obtain ⟨hacts, hsend, hoff, hphase⟩ := hflush
      simp only [if_neg (not_not_intro hphase)]
      by_cases hka : c₁.keepAlive = false
      · simp only [if_pos hka]
        exact .closed hacts (.last hsend.state hphase hka)
      · simp only [if_neg hka]
        have hnext := hacts.tail (.next hsend.state hphase (by simpa using hka))
        have hproc := connProcessInput_outcome site r₁
          { c₁ with state := .reading, parser := httpParserInit } rfl (by
            rw [hsend.inHead, hsend.inbuf]
            exact hin)
        generalize connProcessInput site r₁.os _ = out at hproc ⊢
        obtain ⟨os₂, res⟩ := out
        cases res with
        | error f => exact .after hnext hproc
        | ok c₂ =>
            obtain ⟨hacts', hbuf, hin₂, hoff₂, hstop⟩ := hproc
            have hacts₂ := hnext.trans hacts'
            have hbuf' : c₂.inbuf = c.inbuf := hbuf.trans hsend.inbuf
            rcases hstop with ⟨hs₂, hdr, _⟩ | ⟨hs₂, hlt⟩
            · -- the rest of the buffer holds no complete head
              simp only [hs₂, reduceCtorEq, if_false]
              exact .live (hacts₂.tail (.listen hs₂))
                (.input hs₂ hdr (hoff₂ hoff) (interest_epollMod os₂ c₂.fd .input))
            · simp only [if_pos hs₂]
              -- another head was complete in the buffer, and its response is sent by a nested
              -- call
              refine ⟨hacts₂.tail (.restart hs₂ (hoff₂ hoff)), hs₂, .inl rfl, hbuf', ?_, ?_⟩
              · rw [← hsend.inHead]
                exact hlt
              · rw [← hbuf']
                exact hin₂

theorem connWriteN_outcome (n : Nat) (r : Reactor) (c : Conn) (hs : c.state = .writing)
    (hin : c.inHead ≤ c.inbuf.length) (henter : Enterable c)
    (hn : c.inbuf.length - c.inHead < n) :
    Outcome site r c (connWriteN site n r c).1 (connWriteN site n r c).2 := by
  -- each nested call has parsed at least one byte more, so the bound is not reached
  induction n generalizing r c with
  | zero => omega
  | succ n ih =>
      have hstep := writeStep_outcome site r hs hin henter
      rw [connWriteN_succ]
      cases hout : writeStep site r c with
      | ret r' ref =>
          rw [hout] at hstep
          exact hstep
      | call r' c' =>
          rw [hout] at hstep
          obtain ⟨hacts, hs', henter', hbuf, hlt, hle⟩ := hstep
          rw [← hbuf] at hle
          exact .after hacts (ih r' c' hs' hle henter' (by rw [hbuf] at hle ⊢; omega))

theorem connWrite_outcome (site : Site) (r : Reactor) (hs : c.state = .writing)
    (hin : c.inHead ≤ c.inbuf.length) (henter : Enterable c) :
    Outcome site r c (connWrite site r c).1 (connWrite site r c).2 :=
  connWriteN_outcome _ r c hs hin henter (Nat.lt_succ_self _)

/-! ## Events -/

theorem Unfinished.enterable (h : Unfinished c) : Enterable c := by
  rcases h with ⟨hphase, _⟩ | ⟨_, hoff, _⟩
  · exact .inl hphase
  · exact .inr hoff

/-- What a waiting connection is registered for says what it waits for. -/
theorem Waiting.registered (hwait : Waiting r c) {i : Interest} (hi : r.os.interest c.fd = some i) :
    i = .input ∧ Drained r c (some .input) ∨
      i = .output ∧ c.state = .writing ∧ c.inHead ≤ c.inbuf.length ∧ Enterable c := by
  have hnot : r.os.interest c.fd ≠ none := by
    rw [hi]
    simp
  cases hwait with
  | input hs hin hoff hint =>
      cases hi.symm.trans (hint.resolve_right hnot)
      exact .inl ⟨rfl, hs, hin, hoff, hi⟩
  | output hs hin hleft hint =>
      cases hi.symm.trans (hint.resolve_right hnot)
      exact .inr ⟨rfl, hs, hin, hleft.enterable⟩

/-- An error on the socket ends the connection, whatever else is reported. -/
theorem connEvent_err (site : Site) (r : Reactor) (c : Conn) {evs : Evs} (i : Interest)
    (herr : evs.err = true) : connEvent site r c (evs.report i) = (connClose r c, .closed) := by
  rw [connEvent, Evs.report, herr]
  rfl

theorem onInput_outcome (site : Site) (h : Drained r c (some .input)) :
    Outcome site r c (onInput site r c).1 (onInput site r c).2 := by
  have hread := connRead_outcome site r.os.sched.reads r c rfl h
  unfold onInput
  generalize connRead site r c r.os.sched.reads = out at hread ⊢
  obtain ⟨r₁, ref⟩ := out
  cases ref with
  | closed => exact hread
  | crashed f => exact hread
  | live c₁ =>
      obtain ⟨hacts, hdrain | hans⟩ := hread
      · simp only [hdrain.state, reduceCtorEq, if_false]
        exact .live hacts (.input hdrain.state hdrain.inHead hdrain.headOff
          (.inl (hdrain.interest.trans h.interest)))
      · simp only [hans.state, if_true]
        exact .after hacts (connWrite_outcome site r₁ hans.state hans.inHead (.inr hans.headOff))

/-- **What an event does.** The handling of an event that is no error, on a connection that
waits, is a sequence of actions. -/
theorem connEvent_outcome (site : Site) {evs : Evs} {i : Interest} (hwait : Waiting r c)
    (hi : r.os.interest c.fd = some i) (herr : evs.err = false) :
    Outcome site r c (connEvent site r c (evs.report i)).1
      (connEvent site r c (evs.report i)).2 := by
  have hidle : Outcome site r c r (.live c) := .live .refl hwait
  unfold connEvent Evs.report
  simp only [herr, Bool.false_eq_true, if_false]
  rcases hwait.registered hi with ⟨rfl, hdrained⟩ | ⟨rfl, hs, hin, henter⟩
  · have hon := onInput_outcome site hdrained
    cases evs.input with
    | false => simpa using hidle
    | true =>
        simp only [decide_true, Bool.and_self, if_true, reduceCtorEq, decide_false,
          Bool.and_false, Bool.false_eq_true, if_false]
        generalize onInput site r c = out at hon ⊢
        obtain ⟨r₁, ref⟩ := out
        cases ref with
        | live c₁ => exact hon
        | closed => exact hon
        | crashed f => exact hon
  · cases evs.output with
    | false => simpa using hidle
    | true => simpa using connWrite_outcome site r hs hin henter

end HttpServer
