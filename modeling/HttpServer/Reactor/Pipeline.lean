import HttpServer.Parser.Accept
import HttpServer.Parser.Refine
import HttpServer.Reactor.Step

set_option autoImplicit false

/-! # Pipelined requests

When a response is sent and the connection is kept alive, `conn_write` parses what is left of
the input buffer, and calls itself if that completes the next head. `writeStep` is one such call
up to the next one. The call takes the bytes of a head, at least six, from the buffer, or it
answers a head that was rejected, and then the connection is closed.
-/

namespace HttpServer

open CLib

variable {site : Site} {r r' : Reactor} {c c' : Conn}

/-! ## One call -/

/-- How a call comes to call itself. -/
structure CallsItself (site : Site) (r : Reactor) (c : Conn) (r' : Reactor) (c' : Conn)
    (r₁ : Reactor) (c₁ c₂ : Conn) : Prop where
  sent : flush r c = (r₁, .sent c₁)
  keepAlive : c₁.keepAlive = true
  parsed : connProcessInput site r₁.os { c₁ with state := .reading, parser := httpParserInit } =
    (r'.os, .ok c₂)
  state : c₂.state = .writing
  eq : c' = { c₂ with phase := .head, headOff := 0 }

theorem writeStep_call (h : writeStep site r c = .call r' c') :
    ∃ r₁ c₁ c₂, CallsItself site r c r' c' r₁ c₁ c₂ := by
  rw [writeStep] at h
  -- only one path through the body ends in the nested call
  cases hflush : flush r c with
  | mk r₁ f =>
      rw [hflush] at h
      cases f with
      | more c₁ => cases h
      | parked c₁ => cases h
      | closed => cases h
      | sent c₁ =>
          simp only at h
          by_cases hphase : c₁.phase ≠ .done
          · rw [if_pos hphase] at h
            cases h
          rw [if_neg hphase] at h
          by_cases hka : c₁.keepAlive = false
          · rw [if_pos hka] at h
            cases h
          rw [if_neg hka] at h
          cases hproc : connProcessInput site r₁.os
              { c₁ with state := .reading, parser := httpParserInit } with
          | mk os res =>
              rw [hproc] at h
              cases res with
              | error f => cases h
              | ok c₂ =>
                  simp only at h
                  by_cases hw : c₂.state = .writing
                  · rw [if_pos hw] at h
                    cases h
                    exact ⟨r₁, c₁, c₂, hflush, by simpa using hka, hproc, hw, rfl⟩
                  · rw [if_neg hw] at h
                    cases h

/-! ## Sending -/

/-- Sending leaves the input side of a connection alone. -/
structure InputKept (c c' : Conn) : Prop where
  inbuf : c'.inbuf = c.inbuf
  inHead : c'.inHead = c.inHead
  keepAlive : c'.keepAlive = c.keepAlive

theorem InputKept.refl (c : Conn) : InputKept c c := ⟨rfl, rfl, rfl⟩

theorem InputKept.trans {c₁ : Conn} (h : InputKept c c₁) (h' : InputKept c₁ c') : InputKept c c' :=
  ⟨h'.inbuf.trans h.inbuf, h'.inHead.trans h.inHead, h'.keepAlive.trans h.keepAlive⟩

/-- The same of the connection that a turn of an output loop goes on with. -/
def Flush.Keeps (c : Conn) : Flush → Prop
  | .more c' => InputKept c c'
  | .sent c' => InputKept c c'
  | .parked _ => True
  | .closed => True

theorem Flush.Keeps.after {c₁ : Conn} {f : Flush} (h : InputKept c c₁) (hf : f.Keeps c₁) :
    f.Keeps c := by
  cases f with
  | more c' => exact h.trans hf
  | sent c' => exact h.trans hf
  | parked c' => trivial
  | closed => trivial

theorem writeLoop_keeps {todo : Conn → Bool} {call : Reactor → Conn → WriteRes → Reactor × Flush}
    {finish : Reactor → Conn → Reactor × Flush} (hcall : ∀ r c w, (call r c w).2.Keeps c)
    (hfinish : ∀ r c, (finish r c).2.Keeps c) (ws : List WriteRes) (r : Reactor) (c : Conn) :
    (writeLoop todo call finish r c ws).2.Keeps c := by
  refine writeLoop_rule (fun _ _ c₁ => InputKept c c₁) (fun _ f => f.Keeps c) ?_ ?_ ?_ ws r c (.refl c)
  · exact fun r₁ c₁ hkept _ => .after hkept (hcall _ c₁ .again)
  · intro w ws r₁ c₁ hkept _
    have hkeeps := Flush.Keeps.after hkept (hcall (r₁.setWrites ws) c₁ w)
    generalize call (r₁.setWrites ws) c₁ w = out at hkeeps ⊢
    obtain ⟨r₂, f⟩ := out
    cases f with
    | more c₂ => exact .inl ⟨c₂, rfl, hkeeps⟩
    | sent c₂ => exact .inr ⟨by simp, hkeeps⟩
    | parked c₂ => exact .inr ⟨by simp, hkeeps⟩
    | closed => exact .inr ⟨by simp, hkeeps⟩
  · exact fun ws r₁ c₁ hkept _ => .after hkept (hfinish _ c₁)

theorem headCall_keeps (r : Reactor) (c : Conn) (w : WriteRes) : (headCall r c w).2.Keeps c := by
  unfold headCall
  split
  · trivial
  cases w with
  | again => trivial
  | fail => trivial
  | intr => exact .refl c
  | bytes n =>
      simp only
      split
      · trivial
      · exact ⟨rfl, rfl, rfl⟩

theorem fileCall_keeps (r : Reactor) (c : Conn) (w : WriteRes) : (fileCall r c w).2.Keeps c := by
  unfold fileCall
  split
  · cases w with
    | again => trivial
    | fail => trivial
    | intr => exact .refl c
    | bytes n => exact ⟨rfl, rfl, rfl⟩
  · trivial

theorem headDone_keeps (r : Reactor) (c : Conn) : (headDone r c).2.Keeps c := ⟨rfl, rfl, rfl⟩

theorem fileDone_keeps (r : Reactor) (c : Conn) : (fileDone r c).2.Keeps c := ⟨rfl, rfl, rfl⟩

theorem flush_keeps (r : Reactor) (c : Conn) : (flush r c).2.Keeps c := by
  have hhead : ∀ r c, (flushHead r c).2.Keeps c := fun r c =>
    writeLoop_keeps headCall_keeps headDone_keeps _ r c
  have hfile : ∀ r c, (flushFile r c).2.Keeps c := fun r c =>
    writeLoop_keeps fileCall_keeps fileDone_keeps _ r c
  have hbody : ∀ r₁ c₁, InputKept c c₁ →
      (if c₁.phase = .sendfile then flushFile r₁ c₁ else (r₁, .sent c₁)).2.Keeps c := by
    intro r₁ c₁ hkept
    split
    · exact .after hkept (hfile r₁ c₁)
    · exact hkept
  unfold flush
  by_cases hphase : c.phase = .head
  · rw [if_pos hphase]
    have hkept := hhead r c
    generalize flushHead r c = out at hkept ⊢
    obtain ⟨r₁, f⟩ := out
    cases f with
    | sent c₁ => exact hbody r₁ c₁ hkept
    | more c₁ => exact hkept
    | parked c₁ => trivial
    | closed => trivial
  · rw [if_neg hphase]
    exact hbody r c (.refl c)

/-! ## Parsing -/

/-- The shortest heads: a method, a path or a question mark, the two blanks behind them, and two
line feeds. -/
theorem Head.WF.six_le {h : Head} (hw : h.WF) : 6 ≤ h.text.length := by
  have hmethod := List.length_pos_iff.mpr hw.line_wf.start_wf.method_pos
  have htarget : 1 ≤ h.line.start.path.length + (queryText h.line.start.query).length := by
    cases hq : h.line.start.query with
    | none =>
        have hpath := List.length_pos_iff.mpr (hw.line_wf.start_wf.path_pos hq)
        simp only [queryText, List.length_nil]
        omega
    | some q =>
        simp only [queryText, List.length_cons]
        omega
  have heol : ∀ e : Eol, 1 ≤ e.text.length := fun e => by cases e <;> decide
  have hline := heol h.line.eol
  have hblank := heol h.blank
  simp only [Head.text, RequestLine.text, Start.text, List.length_append, List.length_cons,
    List.length_nil]
  omega

/-- What the status of a byte says about the step of the scanner. -/
def ByteRead (req₀ : HttpRequest) (out : ScanStep) : ParseStatus → HttpParser → HttpRequest → Prop
  | .incomplete, p, req => ∃ s, out = .more s ∧ Agrees req₀ p req s
  | .done, _, _ => ∃ h, out = .head h
  | .error, _, _ => True

theorem byteRead {req₀ req req' : HttpRequest} {p p' : HttpParser} {s : Scan} {b : UInt8}
    {st : ParseStatus} (h : Agrees req₀ p req s)
    (hfeed : httpParserFeed p req [b] = .ok (st, p', req')) :
    ByteRead req₀ (s.step (maxHeaders - req₀.numHeaders) b) st p' req' := by
  have hm : MatchesRun req₀ (httpParserFeed p req [b])
      (s.run (maxHeaders - req₀.numHeaders) [b]) := httpParserFeed_matches rfl h [b]
  rw [Scan.run_singleton, hfeed] at hm
  cases hs : s.step (maxHeaders - req₀.numHeaders) b with
  | more s' =>
      rw [hs] at hm
      obtain ⟨_, _, heq, h'⟩ := hm
      cases heq
      exact ⟨s', rfl, h'⟩
  -- a head is accepted, or rejected for want of a host
  | head hd =>
      rw [hs, MatchesRun] at hm
      split at hm
      · obtain ⟨_, _, heq, _⟩ := hm
        cases heq
        exact ⟨hd, rfl⟩
      · obtain ⟨_, _, heq⟩ := hm
        cases heq
        trivial
  | reject =>
      rw [hs] at hm
      obtain ⟨_, _, heq⟩ := hm
      cases heq
      trivial
  | fault f =>
      rw [hs] at hm
      cases hm

/-- What parsing the rest of the buffer comes to, if the parser has read `n` bytes of a head. -/
structure Consumed (n : Nat) (c c' : Conn) : Prop where
  inbuf : c'.inbuf = c.inbuf
  inHead : c.inHead ≤ c'.inHead
  ready : c'.state = .writing →
    c.inHead + 6 ≤ c'.inHead + n ∨ c.inHead < c'.inHead ∧ c'.keepAlive = false

theorem processLoop_consumed (site : Site) {req₀ : HttpRequest} (bs : List UInt8) :
    ∀ (os : Os) {c : Conn} {s : Scan} {os' : Os} {c' : Conn}, c.state = .reading → s.WF →
      Agrees req₀ c.parser c.req s → processLoop site os c bs = (os', .ok c') →
      Consumed s.text.length c c' := by
  induction bs with
  | nil =>
      intro os c s os' c' hs hw h hloop
      cases hloop
      exact ⟨rfl, Nat.le_refl _, fun hw' => by rw [hs] at hw'; cases hw'⟩
  | cons b bs ih =>
      intro os c s os' c' hs hw h hloop
      rw [processLoop] at hloop
      cases hfeed : httpParserFeed c.parser c.req [b] with
      | error f =>
          rw [hfeed] at hloop
          cases hloop
      | ok out =>
          obtain ⟨st, p, req⟩ := out
          have hread := byteRead h hfeed
          rw [hfeed] at hloop
          cases st with
          | incomplete =>
              obtain ⟨s', hstep, h'⟩ := hread
              have htext := congrArg List.length (Scan.step_text hstep)
              rw [List.length_append, List.length_singleton] at htext
              obtain ⟨hbuf, hhead, hready⟩ := ih (os.log (.parsed c.cid b))
                (c := { c with parser := p, req := req, inHead := c.inHead + 1 }) hs (hw.step hstep) h'
                hloop
              refine ⟨hbuf, Nat.le_of_succ_le hhead, fun hw' => ?_⟩
              rcases hready hw' with hlong | ⟨hlt, hka⟩
              · simp only at hlong
                exact .inl (by omega)
              · exact .inr ⟨Nat.lt_of_succ_lt hlt, hka⟩
          | done =>
              -- the head is the bytes read and this one
              obtain ⟨hd, hstep⟩ := hread
              have hlong := (hw.step_head hstep).six_le
              rw [Scan.step_head_text hstep, List.length_append, List.length_singleton] at hlong
              simp only at hloop
              generalize hbuild : buildResponse site _ _ = out at hloop
              obtain ⟨os₁, c₁⟩ := out
              cases hloop
              have hset := buildResponse_setUp hbuild
              have hhead : c₁.inHead = c.inHead + 1 := hset.inHead
              exact ⟨hset.inbuf, by simp only; omega, fun _ => .inl (by simp only; omega)⟩
          | error =>
              -- the response to a malformed head closes the connection
              simp only at hloop
              generalize hbuild : buildErrorResponse _ _ .badRequest = out at hloop
              obtain ⟨os₁, c₁⟩ := out
              cases hloop
              have hset := buildErrorResponse_setUp hbuild
              have hhead : c₁.inHead = c.inHead + 1 := hset.inHead
              exact ⟨hset.inbuf, by simp only; omega, fun _ => .inr ⟨by simp only; omega, hset.keepAlive⟩⟩

/-- No more is parsed than the buffer holds. -/
theorem connProcessInput_inHead {os' : Os} (hin : c.inHead ≤ c.inbuf.length)
    (h : connProcessInput site r.os c = (os', .ok c')) :
    c'.inbuf = c.inbuf ∧ c'.inHead ≤ c'.inbuf.length := by
  by_cases hs : c.state = .reading
  · have hout := connProcessInput_outcome site r c hs hin
    rw [h] at hout
    exact ⟨hout.2.inbuf, hout.2.inHead⟩
  · rw [connProcessInput, if_neg hs] at h
    cases h
    exact ⟨rfl, hin⟩

/-- What a call has taken from the buffer when it calls itself, with a response ready. -/
structure HeadTaken (c c' : Conn) : Prop where
  state : c'.state = .writing
  phase : c'.phase = .head
  inbuf : c'.inbuf = c.inbuf
  inHead : c'.inHead ≤ c.inbuf.length
  took : c.inHead + 6 ≤ c'.inHead ∨ c.inHead < c'.inHead ∧ c'.keepAlive = false

theorem writeStep_headTaken (h : writeStep site r c = .call r' c') : HeadTaken c c' := by
  obtain ⟨r₁, c₁, c₂, hcall⟩ := writeStep_call h
  obtain ⟨hbuf, hhead, -⟩ : InputKept c c₁ := by
    have hkept := flush_keeps r c
    rwa [hcall.sent] at hkept
  have hproc := hcall.parsed
  have hloop := hproc
  rw [connProcessInput, if_pos rfl] at hloop
  have hread := processLoop_consumed site _ r₁.os
    (c := { c₁ with state := .reading, parser := httpParserInit }) rfl Scan.wf_start
    (agrees_init c₁.req) hloop
  have htook := hread.ready hcall.state
  simp only [Scan.text, List.length_nil, Nat.add_zero] at htook
  have hin : c₁.inHead ≤ c₁.inbuf.length := by
    by_contra hout
    -- there is nothing left to parse
    rw [show c₁.inbuf.drop c₁.inHead = [] from List.drop_eq_nil_of_le (Nat.le_of_not_le hout),
      processLoop] at hloop
    cases (Prod.mk.inj hloop).2
    cases hcall.state
  obtain ⟨hbuf₂, hin₂⟩ := connProcessInput_inHead (r := r₁)
    (c := { c₁ with state := .reading, parser := httpParserInit }) hin hproc
  simp only at hbuf₂
  rw [hcall.eq]
  refine ⟨hcall.state, rfl, hbuf₂.trans hbuf, ?_, ?_⟩
  · rw [← hbuf, ← hbuf₂]
    exact hin₂
  · rw [← hhead]
    exact htook

/-- A connection that is not kept alive is closed once its response is sent ... -/
theorem writeStep_closes {r₁ : Reactor} {c₁ : Conn} (hs : c.state = .writing) (hphase : c.phase = .head)
    (hka : c.keepAlive = false) (hsent : flush r c = (r₁, .sent c₁)) :
    writeStep site r c = .ret (connClose r₁ c₁) .closed := by
  have hout : FlushOutcome site (fun c' => c'.headOff = 0 ∧ c'.phase = .done) r c (flush r c).1
    (flush r c).2 := flush_outcome hs (.inl hphase)
  have hkept := flush_keeps r c
  rw [hsent] at hout hkept
  obtain ⟨-, -, -, hdone⟩ := hout
  rw [writeStep, hsent]
  simp only [hdone, ne_eq, not_true_eq_false, if_false, hkept.keepAlive.trans hka, if_true]

/-- ... and `conn_write` does not call itself for it. -/
theorem writeStep_last (hka : c.keepAlive = false) : writeStep site r c ≠ .call r' c' := by
  intro h
  obtain ⟨r₁, c₁, c₂, hcall⟩ := writeStep_call h
  have hkept := flush_keeps r c
  rw [hcall.sent] at hkept
  cases hcall.keepAlive.symm.trans (hkept.keepAlive.trans hka)

/-! ## Nested calls -/

/-- A call for `s` makes `k` calls of itself, one inside the other; the last is for `s'`. -/
inductive NestedCalls (site : Site) : Nat → Reactor × Conn → Reactor × Conn → Prop
  | zero (s : Reactor × Conn) : NestedCalls site 0 s s
  | succ {k : Nat} {r r' : Reactor} {c c' : Conn} {s : Reactor × Conn}
      (hcall : writeStep site r c = .call r' c') (hrest : NestedCalls site k (r', c') s) :
      NestedCalls site (k + 1) (r, c) s

theorem NestedCalls.le {k : Nat} {s : Reactor × Conn} (h : NestedCalls site k (r, c) s) :
    k ≤ (c.inbuf.length - c.inHead) / 6 + 1 := by
  induction k generalizing r c with
  | zero => exact Nat.zero_le _
  | succ k ih =>
      cases h with
      | @succ _ _ r' _ c' _ hcall hrest =>
          obtain ⟨-, -, hbuf, hin, hlong | ⟨-, hka⟩⟩ := writeStep_headTaken hcall
          · have hle := ih hrest
            rw [hbuf] at hle
            omega
          · cases hrest with
            | zero => omega
            | succ hcall' => exact absurd hcall' (writeStep_last hka)

/-- The recursion ends, and with what `conn_write` returns. -/
theorem connWriteN_returns (site : Site) (n : Nat) :
    ∀ (r : Reactor) (c : Conn), c.inbuf.length - c.inHead < n →
      ∃ k r' c', NestedCalls site k (r, c) (r', c') ∧
        writeStep site r' c' = .ret (connWriteN site n r c).1 (connWriteN site n r c).2 := by
  induction n with
  | zero => exact fun _ _ h => absurd h (Nat.not_lt_zero _)
  | succ n ih =>
      intro r c hn
      rw [connWriteN_succ]
      cases hstep : writeStep site r c with
      | ret r' ref => exact ⟨0, r, c, .zero _, hstep⟩
      | call r' c' =>
          obtain ⟨-, -, hbuf, hin, htook⟩ := writeStep_headTaken hstep
          have hless : c'.inbuf.length - c'.inHead < n := by
            rw [hbuf]
            omega
          obtain ⟨k, r'', c'', hcalls, hret⟩ := ih r' c' hless
          exact ⟨k + 1, r'', c'', .succ hstep hcalls, hret⟩

/-! ## The bounds of the buffer -/

/-- `in_head <= in_tail <= BUFFER_SIZE`. -/
structure InBounds (c : Conn) : Prop where
  inHead : c.inHead ≤ c.inbuf.length
  inTail : c.inbuf.length ≤ bufferSize

theorem NestedCalls.inBounds {k : Nat} {s : Reactor × Conn} (h : NestedCalls site k (r, c) s)
    (hc : InBounds c) : InBounds s.2 := by
  induction k generalizing r c with
  | zero => cases h; exact hc
  | succ k ih =>
      cases h with
      | succ hcall hrest =>
          obtain ⟨-, -, hbuf, hin, -⟩ := writeStep_headTaken hcall
          exact ih hrest ⟨by rw [hbuf]; exact hin, by rw [hbuf]; exact hc.inTail⟩

theorem Action.inBounds (h : Action site (r, c) (r', c')) (hc : InBounds c) : InBounds c' := by
  have hnext : ∀ {b : UInt8} {d : Conn}, c.inbuf[c.inHead]? = some b → d.inbuf = c.inbuf →
      d.inHead = c.inHead + 1 → InBounds d := by
    intro b d hget hbuf hhead
    have hlt := (List.getElem?_eq_some_iff.mp hget).1
    exact ⟨by rw [hbuf, hhead]; exact hlt, by rw [hbuf]; exact hc.inTail⟩
  cases h with
  | rewind => exact ⟨Nat.le_refl _, Nat.zero_le _⟩
  | receive _ hempty _ _ hbs =>
      refine ⟨?_, ?_⟩
      · simp only [hempty.2]
        exact Nat.zero_le _
      · simp only [hbs]
        exact (List.length_take_le ..).trans (Nat.min_le_right ..)
  | parse _ hget => exact hnext hget rfl rfl
  | request _ hget _ hbuild =>
      have hset := buildResponse_setUp hbuild
      exact hnext hget hset.inbuf hset.inHead
  | reject _ hget _ hbuild =>
      have hset := buildErrorResponse_setUp hbuild
      exact hnext hget hset.inbuf hset.inHead
  | _ => exact ⟨hc.inHead, hc.inTail⟩

theorem Actions.inBounds (h : Actions site (r, c) (r', c')) (hc : InBounds c) : InBounds c' :=
  Actions.rule (I := fun _ c => InBounds c) (fun _ _ _ _ hact => hact.inBounds) h hc

/-- The buffer of every connection is within its bounds. -/
def BufferBounds (r : Reactor) : Prop := ∀ fd c, r.conns fd = some c → InBounds c

theorem Accepted.bufferBounds {a : AcceptRes} (hacc : Accepted r a r') (h : BufferBounds r) :
    BufferBounds r' := by
  cases hacc with
  | refused => exact h
  | welcomed =>
      intro fd c hc
      rcases eq_or_ne fd (r.os.fds.pick a.hint) with rfl | hne
      · simp only [Function.update_self, Option.some.injEq] at hc
        subst hc
        exact ⟨Nat.le_refl _, Nat.zero_le _⟩
      · simp only [Function.update_of_ne hne] at hc
        exact h fd c hc

theorem Step.bufferBounds {e : Event} (hstep : Step site r e r') (h : BufferBounds r) : BufferBounds r' := by
  cases hstep with
  | idle => exact h
  | woken => exact h
  | ignored => exact h
  | accepted hcr _ =>
      exact reactorAccept_rule (fun _ _ _ _ hacc hI => hacc.bufferBounds hI) e.accepts hcr h
  | hangup =>
      intro fd c hc
      exact h fd c (conns_of_connClose hc).1
  | @handled c r' ref hgo hcr hc hfd hwait herr hin hout =>
      intro fd d hd
      rw [← hfd] at hd hc
      -- only the connection of the event has changed
      rcases eq_or_ne fd c.fd with rfl | hne
      · cases ref with
        | live c' =>
            cases hout with
            | live hacts =>
                simp only [Reactor.settle, Function.update_self, Option.some.injEq] at hd
                subst hd
                exact hacts.inBounds (h _ c hc)
        | closed =>
            rw [Reactor.settle, hout.gone] at hd
            cases hd
        | crashed f =>
            cases hout with
            | crashed hacts =>
                rw [Reactor.settle, hacts.confined.reactor] at hd
                exact h _ d hd
      · rw [hout.settle_of_ne hne] at hd
        exact h fd d hd

theorem reactorRun_bufferBounds (site : Site) (inherited : List Nat) (es : List Event) :
    BufferBounds (reactorRun site (reactorCreate inherited) es) :=
  (reactorRun_rule site (I := BufferBounds) (fun _ _ _ _ _ hI hstep => hstep.bufferBounds hI) es
    (along_of_forall (G := fun _ => True) (fun _ _ => trivial) _) (reactorCreate_atRest inherited)
    (fun fd c hc => by cases hc)).2

/-! ## Reading -/

/-- The connection a turn of `conn_read` leaves is within its bounds. -/
def ReadTurn.BufferBounds : ReadTurn → Prop
  | .more c => InBounds c
  | .stop (.live c) => InBounds c
  | .stop _ => True

theorem InBounds.compact (hc : InBounds c) : InBounds (compact c) := by
  unfold HttpServer.compact
  split
  · exact ⟨Nat.le_refl _, Nat.zero_le _⟩
  · exact hc

theorem readTurn_bufferBounds (site : Site) (r : Reactor) (hc : InBounds c) (a : ReadRes)
    (rest : List ReadRes) : (readTurn site r c a rest).2.BufferBounds := by
  have hcomp := hc.compact
  unfold readTurn
  generalize compact c = d at hcomp ⊢
  simp only
  split
  · generalize hbuild : buildErrorResponse _ _ .tooLarge = out
    obtain ⟨os', d'⟩ := out
    have hset := buildErrorResponse_setUp hbuild
    exact ⟨by rw [hset.inHead, hset.inbuf]; exact hcomp.inHead, by rw [hset.inbuf]; exact hcomp.inTail⟩
  cases r.os.incoming d.fd with
  | none => trivial
  | some incoming =>
      cases a with
      | again => exact hcomp
      | intr => exact hcomp
      | eof => trivial
      | fail => trivial
      | bytes n =>
          simp only
          generalize hbs : incoming.take (min n (bufferSize - d.inbuf.length)) = bs
          split
          · exact hcomp
          -- `read` is given what is free of the buffer
          have hlen : bs.length ≤ bufferSize - d.inbuf.length := by
            rw [← hbs]
            exact (List.length_take_le ..).trans (Nat.min_le_right ..)
          have hin : d.inHead ≤ (d.inbuf ++ bs).length := by
            rw [List.length_append]
            exact hcomp.inHead.trans (Nat.le_add_right ..)
          have htail : (d.inbuf ++ bs).length ≤ bufferSize := by
            have := hcomp.inTail
            rw [List.length_append]
            omega
          generalize hproc : connProcessInput site _ { d with inbuf := d.inbuf ++ bs } = out
          obtain ⟨os', res⟩ := out
          cases res with
          | error f => trivial
          | ok d' =>
              obtain ⟨hbuf, hin'⟩ := connProcessInput_inHead
                (r := { r with os := ((r.os.setReads rest).consume d.fd bs.length).log (.read d.cid bs) })
                (c := { d with inbuf := d.inbuf ++ bs }) hin hproc
              have hd' : InBounds d' := ⟨hin', by rw [hbuf]; exact htail⟩
              simp only
              split
              · exact hd'
              · exact hd'

theorem connRead_bufferBounds (site : Site) (answers : List ReadRes) :
    ∀ {r : Reactor} {c : Conn} {r' : Reactor} {c' : Conn}, InBounds c →
      connRead site r c answers = (r', .live c') → InBounds c' := by
  induction answers with
  | nil =>
      intro r c r' c' hc h
      have hturn := readTurn_bufferBounds site r hc .again []
      rw [connRead] at h
      generalize readTurn site r c .again [] = out at h hturn
      obtain ⟨r₁, t⟩ := out
      cases t with
      | more c₁ => cases h; exact hturn
      | stop ref => cases h; exact hturn
  | cons a rest ih =>
      intro r c r' c' hc h
      have hturn := readTurn_bufferBounds site r hc a rest
      rw [connRead] at h
      generalize readTurn site r c a rest = out at h hturn
      obtain ⟨r₁, t⟩ := out
      cases t with
      | more c₁ => exact ih hturn h
      | stop ref => cases h; exact hturn

/-! ## The recursion is bounded -/

/-- What bounds the recursion of `conn_write` on a connection. -/
structure BoundedCalls (site : Site) (r : Reactor) (c : Conn) : Prop where
  depth : ∀ k s, NestedCalls site k (r, c) s → k ≤ (c.inbuf.length - c.inHead) / 6 + 1
  why : ∀ k r₁ c₁ r₂ c₂, NestedCalls site k (r, c) (r₁, c₁) → writeStep site r₁ c₁ = .call r₂ c₂ →
    c₁.inHead + 6 ≤ c₂.inHead ∨
      c₁.inHead < c₂.inHead ∧ ∀ r₃ c₃, writeStep site r₂ c₂ ≠ .call r₃ c₃ ∧
        (flush r₂ c₂ = (r₃, .sent c₃) → writeStep site r₂ c₂ = .ret (connClose r₃ c₃) .closed)
  inBounds : InBounds c → ∀ k s, NestedCalls site k (r, c) s → InBounds s.2
  returns : ∃ k r' c', NestedCalls site k (r, c) (r', c') ∧
    writeStep site r' c' = .ret (connWrite site r c).1 (connWrite site r c).2

/-- **The recursion over pipelined requests is bounded** by the bytes in the buffer, in every
state of a connection, and it ends. In every run the buffer is within its bounds: between two
events, when `conn_read` passes the connection on to `conn_write`, and in the nested calls. -/
theorem pipelining_bounded (site : Site) :
    (∀ r c, BoundedCalls site r c) ∧
      ∀ inherited es fd c, (reactorRun site (reactorCreate inherited) es).conns fd = some c →
        InBounds c ∧ ∀ e r' c',
          connRead site ((reactorRun site (reactorCreate inherited) es).begin e) c e.sched.reads =
            (r', .live c') → InBounds c' := by
  constructor
  · intro r c
    refine ⟨fun k s h => h.le, fun k r₁ c₁ r₂ c₂ _ hcall => ?_, fun hc k s h => h.inBounds hc, ?_⟩
    · obtain ⟨hs, hphase, -, -, hlong | ⟨hlt, hka⟩⟩ := writeStep_headTaken hcall
      · exact .inl hlong
      · exact .inr ⟨hlt, fun r₃ c₃ => ⟨writeStep_last hka, writeStep_closes hs hphase hka⟩⟩
    · exact connWriteN_returns site _ r c (Nat.lt_succ_self _)
  · intro inherited es fd c hc
    have hin := reactorRun_bufferBounds site inherited es fd c hc
    exact ⟨hin, fun e r' c' h => connRead_bufferBounds site _ hin h⟩

end HttpServer
