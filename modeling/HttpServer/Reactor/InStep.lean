import HttpServer.Reactor.Supply
import HttpServer.Reactor.Stream

set_option autoImplicit false

/-! # Responses in step with the requests

When a response cannot be set up for want of memory, `conn_write` acts on what the response
before it has left in the connection's record. If the request does not keep the connection open
this closes it. If it does, the connection goes on with the next request as though the response
had been sent, and the client takes every later response for the answer to an earlier request.
As long as there is memory for the requests that keep the connection open, every request is
answered in full before the next one is parsed (`responses_in_step`).
-/

namespace HttpServer

open CLib

variable {site : Site} {stream : List UInt8} {os os' : Os} {r r' : Reactor} {c c' : Conn} {ref : ConnRef} {cid fd : Nat}

/-! ## Answers in full -/

/-- Every exchange of connection `cid` has been answered in full, in order. -/
def InFull (site : Site) (os : Os) (cid : Nat) : Prop :=
  ∃ replies, List.Forall₂ (Exchange.AnsweredBy site) (os.dialogue cid).exchanges replies ∧
    os.sent cid = replies.flatten

/-- This was so whenever a byte of the connection was parsed. -/
def Punctual (site : Site) (os : Os) (cid : Nat) : Prop :=
  ∀ before b after, os.trace = before ++ .parsed cid b :: after →
    InFull site { os with trace := before } cid

/-- What has been sent are responses to the first exchanges, in order, the last of them perhaps
in part. -/
def Aligned (site : Site) (os : Os) (cid : Nat) : Prop :=
  ∃ n replies, List.Forall₂ (Exchange.AnsweredBy site) ((os.dialogue cid).exchanges.take n) replies ∧
    os.sent cid <+: replies.flatten

/-! ## The list of calls -/

/-- From `os` to `os'` calls are added to the list, none of which parses a byte of `cid`. -/
def Quietly (cid : Nat) (os os' : Os) : Prop :=
  ∃ evs, os'.trace = os.trace ++ evs ∧ ∀ e ∈ evs, e.parse cid = []

theorem Quietly.of_trace (h : os'.trace = os.trace) : Quietly cid os os' :=
  ⟨[], by rw [h, List.append_nil], by simp⟩

theorem Quietly.log (os : Os) {e : Ev} (he : e.parse cid = []) : Quietly cid os (os.log e) :=
  ⟨[e], rfl, fun e' he' => by rw [List.mem_singleton.mp he']; exact he⟩

theorem Quietly.trans {os₁ : Os} (h₁ : Quietly cid os os₁) (h₂ : Quietly cid os₁ os') :
    Quietly cid os os' := by
  obtain ⟨evs₁, ht₁, hq₁⟩ := h₁
  obtain ⟨evs₂, ht₂, hq₂⟩ := h₂
  refine ⟨evs₁ ++ evs₂, by rw [ht₂, ht₁, List.append_assoc], fun e he => ?_⟩
  rcases List.mem_append.mp he with he | he
  · exact hq₁ e he
  · exact hq₂ e he

theorem quietly_openFile (site : Site) (os : Os) (i : Nat) (path : List UInt8) :
    Quietly cid os (os.openFile site i path).2 := by
  unfold Os.openFile
  simp only
  split
  · exact ⟨[_], rfl, fun e he => by rw [List.mem_singleton.mp he]; rfl⟩
  · exact ⟨[_], rfl, fun e he => by rw [List.mem_singleton.mp he]; rfl⟩

theorem quietly_close (os : Os) (by_ : Option Nat) (k : Nat) : Quietly cid os (os.close by_ k) :=
  ⟨[_], rfl, fun e he => by rw [List.mem_singleton.mp he]; rfl⟩

theorem quietly_closeFile (os : Os) (c : Conn) : Quietly cid os (closeFile os c) := by
  unfold closeFile
  split
  · exact quietly_close ..
  · exact .of_trace rfl

theorem quietly_connClose (r : Reactor) (c : Conn) : Quietly cid r.os (connClose r c).os := by
  have hdel : Quietly cid r.os (r.os.epollDel c.fd) := .of_trace rfl
  exact hdel.trans ((quietly_close ..).trans (quietly_closeFile ..))

theorem Mallocs.quietly (h : Mallocs os os') : Quietly cid os os' := by
  obtain ⟨_, _, rfl⟩ := h
  exact .of_trace rfl

theorem Built.quietly (h : Built site os c os' c') : Quietly cid os os' := by
  have hopened : Quietly cid os (os.openFile site c.cid (c.req.pathname site)).2 :=
    quietly_openFile ..
  cases h with
  | plain _ hm _ => exact hm.quietly
  | unopened _ hopen hm _ =>
      rw [hopen] at hopened
      exact hopened.trans hm.quietly
  | aborted _ hopen hfail hm _ =>
      rw [hopen] at hopened
      exact hopened.trans ((Mallocs.of_malloc hfail).quietly.trans
        ((quietly_close ..).trans hm.quietly))
  | headOnly _ hopen hm =>
      rw [hopen] at hopened
      exact hopened.trans (hm.quietly.trans (quietly_close ..))
  | withFile _ hopen hm =>
      rw [hopen] at hopened
      exact hopened.trans hm.quietly

theorem Quietly.parsed (h : Quietly cid os os') : os'.parsed cid = os.parsed cid := by
  obtain ⟨evs, ht, hq⟩ := h
  have hnone : evs.flatMap (Ev.parse cid) = [] := List.flatMap_eq_nil_iff.mpr hq
  rw [Os.parsed, ht, List.flatMap_append, hnone, List.append_nil]
  rfl

theorem Punctual.quietly (h : Punctual site os cid) (hq : Quietly cid os os') :
    Punctual site os' cid := by
  obtain ⟨evs, ht, hquiet⟩ := hq
  intro before b after htrace
  rw [ht] at htrace
  rcases List.append_eq_append_iff.mp htrace with ⟨l, hbefore, hevs⟩ | ⟨l, hos, hl⟩
  · have hb := hquiet (.parsed cid b) (by rw [hevs]; simp)
    simp [Ev.parse] at hb
  · cases l with
    | nil =>
        have hb := hquiet (.parsed cid b) (by rw [← List.nil_append evs, ← hl]; simp)
        simp [Ev.parse] at hb
    | cons e l =>
        rw [List.cons_append, List.cons.injEq] at hl
        rw [← hl.1] at hos
        exact h before b l hos

/-- A byte is parsed when all is answered. -/
theorem Punctual.parsed (h : Punctual site os cid) (hfull : InFull site os cid) (b : UInt8) :
    Punctual site (os.log (.parsed cid b)) cid := by
  intro before b' after htrace
  have hlast : os.trace ++ [.parsed cid b] = before ++ .parsed cid b' :: after := htrace
  rcases List.append_eq_append_iff.mp hlast with ⟨l, hbefore, hl⟩ | ⟨l, hos, hl⟩
  · cases l with
    | nil =>
        rw [List.append_nil] at hbefore
        rw [hbefore]
        exact hfull
    | cons e l =>
        have hlen := congrArg List.length hl
        simp at hlen
  · cases l with
    | nil =>
        rw [List.append_nil] at hos
        rw [← hos]
        exact hfull
    | cons e l =>
        rw [List.cons_append, List.cons.injEq] at hl
        rw [← hl.1] at hos
        exact h before b' l hos

/-- An action parses one byte, of a reading connection, or none. -/
theorem Action.calls (h : Action site (r, c) (r', c')) :
    Quietly c.cid r.os r'.os ∨
      c.state = .reading ∧ ∃ b, Quietly c.cid (r.os.log (.parsed c.cid b)) r'.os := by
  cases h with
  | @receive _ _ n rest incoming bs _ _ _ _ _ _ =>
      have hcons : Quietly c.cid r.os ((r.os.setReads rest).consume c.fd bs.length) := by
        rw [consume_eq]
        exact .of_trace rfl
      exact .inl (hcons.trans (.log _ rfl))
  | parse hs => exact .inr ⟨hs, _, .of_trace rfl⟩
  | request hs _ _ hbuild =>
      exact .inr ⟨hs, _, (Quietly.log _ rfl).trans (buildResponse_built site hbuild).quietly⟩
  | reject hs _ _ hbuild => exact .inr ⟨hs, _, (buildErrorResponse_plain hbuild).1.quietly⟩
  | sendHead => exact .inl (.log _ rfl)
  | sendBody => exact .inl (.log _ rfl)
  | bodySent => exact .inl (quietly_closeFile ..)
  | park => exact .inl (.of_trace (trace_modEvents ..))
  | listen => exact .inl (.of_trace (trace_modEvents ..))
  | _ => exact .inl (.of_trace rfl)

theorem Action.punctual (h : Action site (r, c) (r', c'))
    (hfull : c.state = .reading → InFull site r.os c.cid) (hp : Punctual site r.os c.cid) :
    Punctual site r'.os c.cid := by
  rcases h.calls with hq | ⟨hs, b, hq⟩
  · exact hp.quietly hq
  · exact (hp.parsed (hfull hs) b).quietly hq

/-! ## What is left of the answers of `open` and `malloc` -/

/-- The same is left for `open` and `malloc`. -/
structure SameStock (s s' : Sched) : Prop where
  opens : s'.opens = s.opens
  mallocs : s'.mallocs = s.mallocs

theorem SameStock.eq {s s' : Sched} (h : SameStock s s') :
    s' = { s with reads := s'.reads, writes := s'.writes } := by
  rw [← h.opens, ← h.mallocs]

theorem SameStock.answers {s s' : Sched} (h : SameStock s s') (request : Option HttpRequest) :
    s'.answers site request = s.answers site request := by
  rw [h.eq]
  cases request with
  | none => rfl
  | some req => rfl

theorem SameStock.after {s s' : Sched} (h : SameStock s s') (request : Option HttpRequest) :
    SameStock (s.after site request) (s'.after site request) := by
  rw [h.eq]
  cases request with
  | none => exact ⟨rfl, rfl⟩
  | some req =>
      have hopens : Sched.opensFile site { s with reads := s'.reads, writes := s'.writes } req =
        s.opensFile site req := rfl
      simp only [Sched.after, hopens]
      split_ifs
      all_goals exact ⟨rfl, rfl⟩

theorem SameStock.supplies {s s' : Sched} (h : SameStock s s') {es : List Exchange}
    (hs : s.Supplies site es) : s'.Supplies site es := by
  induction es generalizing s s' with
  | nil => exact trivial
  | cons e es ih =>
      refine ⟨fun hka => ?_, ih (h.after e.request) hs.2⟩
      rw [h.answers]
      exact hs.1 hka

/-- The exchange a byte completes on which the parser returns `st`. -/
def completion (head : List UInt8) (req : HttpRequest) : ParseStatus → List Exchange
  | .incomplete => []
  | .done => [⟨head, some req⟩]
  | .error => [⟨head, none⟩]

theorem Attuned.completes {b : UInt8} {st : ParseStatus} {p : HttpParser} {req : HttpRequest}
    (hatt : Attuned os c) (hs : c.state = .reading)
    (hfeed : httpParserFeed c.parser c.req [b] = .ok (st, p, req))
    (hparsed : os'.parsed c.cid = os.parsed c.cid ++ [b]) :
    (os'.dialogue c.cid).exchanges = (os.dialogue c.cid).exchanges ++
      completion ((os.dialogue c.cid).partialHead ++ [b]) req st := by
  rw [hatt.dialogue_step hs hparsed, hfeed]
  cases st with
  | incomplete => exact (List.append_nil _).symm
  | done => rfl
  | error => rfl

/-- What an action completes and uses up: nothing, or an exchange and what its response takes. -/
theorem Action.stock (h : Action site (r, c) (r', c')) (hatt : Attuned r.os c)
    (hsock : c.state = .reading → r.os.fds.get c.fd ≠ none) :
    ((r'.os.dialogue c.cid).exchanges = (r.os.dialogue c.cid).exchanges ∧
      SameStock r.os.sched r'.os.sched) ∨
    ∃ e, (r'.os.dialogue c.cid).exchanges = (r.os.dialogue c.cid).exchanges ++ [e] ∧
      SameStock (r.os.sched.after site e.request) r'.os.sched := by
  -- an action that parses nothing
  have hcalm : r'.os.parsed c.cid = r.os.parsed c.cid → SameStock r.os.sched r'.os.sched →
      (r'.os.dialogue c.cid).exchanges = (r.os.dialogue c.cid).exchanges ∧
        SameStock r.os.sched r'.os.sched := by
    intro hparsed hstock
    exact ⟨by rw [Os.dialogue, Os.dialogue, hparsed], hstock⟩
  cases h with
  | receive =>
      refine .inl (hcalm ?_ (by rw [consume_eq]; exact ⟨rfl, rfl⟩))
      rw [Os.parsed_log]
      exact (List.append_nil _).trans (congrArg History.parsed (congrFun (history_consume ..) c.cid))
  | parse hs hget hfeed =>
      refine .inl ⟨?_, ⟨rfl, rfl⟩⟩
      exact (hatt.completes hs hfeed (parsed_log_parsed ..)).trans (List.append_nil _)
  | @request _ _ b p req os c' hs hget hfeed hbuild =>
      have hparsed : os.parsed c.cid = r.os.parsed c.cid ++ [b] :=
        congrArg History.parsed (history_request hbuild)
      have hsched := (buildResponse_furnished hbuild (hsock hs)).2
      refine .inr ⟨_, hatt.completes hs hfeed hparsed, ?_⟩
      exact ⟨congrArg Sched.opens hsched, congrArg Sched.mallocs hsched⟩
  | @reject _ _ b p req os c' hs hget hfeed hbuild =>
      have hparsed : os.parsed c.cid = r.os.parsed c.cid ++ [b] :=
        congrArg History.parsed (history_reject hbuild)
      have hsched := (buildErrorResponse_furnished site hbuild).2
      refine .inr ⟨_, hatt.completes hs hfeed hparsed, ?_⟩
      exact ⟨congrArg Sched.opens hsched, congrArg Sched.mallocs hsched⟩
  | sendHead => exact .inl (hcalm (by simp [Ev.parse]) ⟨rfl, rfl⟩)
  | sendBody => exact .inl (hcalm (by simp [Ev.parse]) ⟨rfl, rfl⟩)
  | bodySent =>
      refine .inl (hcalm (quietly_closeFile ..).parsed ?_)
      simp only [sched_closeFile]
      exact ⟨rfl, rfl⟩
  | park =>
      refine .inl (hcalm (Quietly.of_trace (trace_modEvents ..)).parsed ?_)
      rw [sched_modEvents]
      exact ⟨rfl, rfl⟩
  | listen =>
      refine .inl (hcalm (Quietly.of_trace (trace_modEvents ..)).parsed ?_)
      rw [sched_modEvents]
      exact ⟨rfl, rfl⟩
  | _ => exact .inl (hcalm rfl ⟨rfl, rfl⟩)

/-! ## One connection -/

/-- The record of a connection names nothing to send. -/
structure Idle (c : Conn) : Prop where
  head : c.head = []
  file : c.fileFd = none ∨ c.fileLen ≤ c.fileOff
  phase : InPhase c

/-- How a connection stands whose kept-alive requests are all supplied: all is answered; the last
response is being sent; or the last request ends the connection and got no response. No file is
open but the one that is being sent. -/
inductive Talk (site : Site) (os : Os) (c : Conn) : Prop
  | listening (hs : c.state = .reading) (hfull : InFull site os c.cid) (hidle : Idle c)
      (hnone : ∀ k, os.content k = none) (hsock : os.fds.get c.fd ≠ none)
  | answering (hs : c.state = .writing) (replies : List (List UInt8))
      (hreplies : List.Forall₂ (Exchange.AnsweredBy site) (os.dialogue c.cid).exchanges replies)
      (hdraft : Draft replies.flatten os c) (honly : ∀ k, c.fileFd ≠ some k → os.content k = none)
      (hsock : os.fds.get c.fd ≠ none)
  | leaving (hs : c.state = .writing) (hka : c.keepAlive = false) (hidle : Idle c)
      (hnone : ∀ k, os.content k = none) (replies : List (List UInt8))
      (hreplies : List.Forall₂ (Exchange.AnsweredBy site) (os.dialogue c.cid).exchanges.dropLast
        replies)
      (hsent : os.sent c.cid = replies.flatten)

theorem Talk.listens (h : Talk site os c) (hs : c.state = .reading) :
    InFull site os c.cid ∧ os.fds.get c.fd ≠ none := by
  cases h with
  | listening _ hfull _ _ hsock => exact ⟨hfull, hsock⟩
  | answering hs' => cases hs.symm.trans hs'
  | leaving hs' => cases hs.symm.trans hs'

/-- In any case the bytes sent are in line. -/
theorem Talk.aligned (h : Talk site os c) : Aligned site os c.cid := by
  cases h with
  | listening _ hfull =>
      obtain ⟨replies, hreplies, hsent⟩ := hfull
      exact ⟨_, replies, by rw [List.take_length]; exact hreplies, by rw [hsent]⟩
  | answering _ replies hreplies hdraft =>
      refine ⟨_, replies, by rw [List.take_length]; exact hreplies, ?_⟩
      rw [← hdraft.output]
      exact List.prefix_append ..
  | leaving _ _ _ _ replies hreplies hsent =>
      refine ⟨(os.dialogue c.cid).exchanges.length - 1, replies, ?_, by rw [hsent]⟩
      rw [← List.dropLast_eq_take]
      exact hreplies

/-- An action that sends nothing, completes no exchange and opens nothing, with the input side of
the connection as it leaves it. -/
theorem Talk.still (h : Talk site os c) (inbuf : List UInt8) (inHead : Nat) (p : HttpParser)
    (req : HttpRequest) (hsent : os'.sent c.cid = os.sent c.cid)
    (hex : (os'.dialogue c.cid).exchanges = (os.dialogue c.cid).exchanges)
    (hcontent : os'.content = os.content)
    (hsock : os.fds.get c.fd ≠ none → os'.fds.get c.fd ≠ none) :
    Talk site os' { c with inbuf := inbuf, inHead := inHead, parser := p, req := req } := by
  cases h with
  | listening hs hfull hidle hnone hopen =>
      obtain ⟨replies, hreplies, hflat⟩ := hfull
      exact .listening hs ⟨replies, hex ▸ hreplies, hsent.trans hflat⟩
        ⟨hidle.head, hidle.file, ⟨hidle.phase.sendfile, hidle.phase.done⟩⟩
        (by rw [hcontent]; exact hnone) (hsock hopen)
  | answering hs replies hreplies hdraft honly hopen =>
      refine .answering hs replies (hex ▸ hreplies) ⟨?_, fun _ => ?_, fun _ => ?_⟩
        (by rw [hcontent]; exact honly) (hsock hopen)
      · rw [← hdraft.output]
        change os'.sent c.cid ++ _ = _
        rw [hsent]
        simp only [Conn.unsent, Conn.body, hcontent]
      · simp only [FileOk, hcontent]
        exact hdraft.file hs
      · exact ⟨(hdraft.phase hs).sendfile, (hdraft.phase hs).done⟩
  | leaving hs hka hidle hnone replies hreplies hflat =>
      exact .leaving hs hka ⟨hidle.head, hidle.file, ⟨hidle.phase.sendfile, hidle.phase.done⟩⟩
        (by rw [hcontent]; exact hnone) replies (hex ▸ hreplies) (hsent.trans hflat)

theorem content_of_get {k : Nat} (h : os'.fds.get k = os.fds.get k) : os'.content k = os.content k := by
  rw [Os.content, Os.content, h]

theorem content_consume (os : Os) (fd n : Nat) : (os.consume fd n).content = os.content := by
  funext k
  unfold Os.consume
  split
  · rename_i s o bs hget
    rcases eq_or_ne k fd with rfl | hne
    · simp [Os.content, hget]
    · exact content_of_get (FdTable.get_insert_of_ne _ _ hne)
  · rfl

theorem content_closeFile {k : Nat} (h : os.content k = none ∨ c.fileFd = some k) :
    (closeFile os c).content k = none := by
  unfold closeFile
  split
  · rename_i j hj
    rcases eq_or_ne k j with rfl | hne
    · simp [Os.content, Os.close]
    · rcases h with h | h
      · rw [← h]
        exact content_of_get (FdTable.get_erase_of_ne _ hne)
      · exact absurd (Option.some.inj (h.symm.trans hj)) hne
  · rename_i hno
    rcases h with h | h
    · exact h
    · cases hno.symm.trans h

/-- A head is complete and its response is set up, or could not be. -/
theorem Talk.exchange (h : Talk site os c) (hs : c.state = .reading) {os₁ : Os} {p : HttpParser}
    {req : HttpRequest} {n : Nat} {ka : Bool} {request : Option HttpRequest} {head : List UInt8}
    (hfds : os₁.fds = os.fds)
    (hfurn : Furnished site request os₁
      { c with parser := p, req := req, inHead := n, keepAlive := ka } os' c')
    (hguard : ka = true → os₁.sched.answers site request = true)
    (hex : (os'.dialogue c.cid).exchanges = (os.dialogue c.cid).exchanges ++ [⟨head, request⟩])
    (hsent : os'.sent c.cid = os.sent c.cid) : Talk site os' { c' with state := .writing } := by
  cases h with
  | answering hs' => cases hs.symm.trans hs'
  | leaving hs' => cases hs.symm.trans hs'
  | listening _ hfull hidle hnone hsock =>
      obtain ⟨replies, hreplies, hflat⟩ := hfull
      have hkeep : os'.fds.get c.fd = os₁.fds.get c.fd := hfurn.sock (by rw [hfds]; exact hsock)
      cases hfurn with
      | made reply hans hreply hready hfiles =>
          have hcid : c'.cid = c.cid := by rw [hready.frame]
          have hfd : c'.fd = c.fd := by rw [hready.frame]
          refine .answering rfl (replies ++ [reply]) ?_ ?_ (fun k hk => ?_) ?_
          · simp only [hcid]
            rw [hex]
            exact List.rel_append hreplies (.cons (hreply head) .nil)
          · rw [List.flatten_append, List.flatten_singleton]
            exact hready.draft (hsent.trans hflat)
          -- of the files only the one that was opened for this response is new
          · rcases hfiles with ⟨_, hget⟩ | ⟨j, s, bs, hj, _, _, hget⟩
            · rw [content_of_get (congrFun hget k), ← hnone k]
              exact content_of_get (by rw [hfds])
            · have hne : k ≠ j := fun h0 => hk (h0 ▸ hj)
              have hsame : os'.fds.get k = os₁.fds.get k := by rw [hget, Function.update_of_ne hne]
              rw [content_of_get hsame, ← hnone k]
              exact content_of_get (by rw [hfds])
          · simp only [hfd]
            rw [hkeep, hfds]
            exact hsock
      | starved hno hget =>
          -- there was no memory for the response, which only the last one may lack
          have hka : ka = false := by
            cases ka with
            | false => rfl
            | true => rw [hguard rfl] at hno; cases hno
          refine .leaving rfl hka ⟨hidle.head, hidle.file, ⟨hidle.phase.sendfile, hidle.phase.done⟩⟩
            (fun k => ?_) replies ?_ (hsent.trans hflat)
          · rw [content_of_get (congrFun hget k), ← hnone k]
            exact content_of_get (by rw [hfds])
          · change List.Forall₂ _ (os'.dialogue c.cid).exchanges.dropLast replies
            rw [hex, List.dropLast_concat]
            exact hreplies

/-- The file is sent, or there never was one. -/
theorem Talk.bodySent (h : Talk site os c) (hs : c.state = .writing) (hphase : c.phase = .sendfile)
    (hall : c.fileLen ≤ c.fileOff) :
    Talk site (closeFile os c) { c with fileFd := none, phase := .done } := by
  have hex : ((closeFile os c).dialogue c.cid).exchanges = (os.dialogue c.cid).exchanges :=
    congrArg Transcript.exchanges (dialogue_of_history (congrFun (history_closeFile ..) c.cid))
  have hsent : (closeFile os c).sent c.cid = os.sent c.cid :=
    congrArg History.sent (congrFun (history_closeFile ..) c.cid)
  cases h with
  | listening hs' => cases hs.symm.trans hs'
  | answering _ replies hreplies hdraft honly hsock =>
      refine .answering hs replies (by rw [hex]; exact hreplies) (hdraft.bodySent hs hphase hall)
        (fun k _ => content_closeFile ?_) ?_
      · by_cases hk : c.fileFd = some k
        · exact .inr hk
        · exact .inl (honly k hk)
      · obtain ⟨k, hk⟩ := Option.isSome_iff_exists.mp ((hdraft.phase hs).sendfile hphase).2
        have hclose : closeFile os c = os.close (some c.cid) k := by rw [closeFile, hk]
        rw [hclose]
        change (FdTable.erase os.fds k).get c.fd ≠ none
        rw [FdTable.get_erase_of_ne _ (hdraft.file hs k hk).1.symm]
        exact hsock
  | leaving _ hka hidle hnone replies hreplies hflat =>
      exact .leaving hs hka
        ⟨hidle.head, .inl rfl, ⟨fun h0 => (by cases h0), fun _ => ⟨hidle.head, rfl⟩⟩⟩
        (fun k => content_closeFile (.inl (hnone k))) replies (by rw [hex]; exact hreplies)
        (hsent.trans hflat)

/-- The connection goes on with the next request, once the response is sent. -/
theorem Talk.next (h : Talk site os c) (hs : c.state = .writing) (hphase : c.phase = .done)
    (hka : c.keepAlive = true) :
    Talk site os { c with state := .reading, parser := httpParserInit } := by
  cases h with
  | listening hs' => cases hs.symm.trans hs'
  | answering _ replies hreplies hdraft honly hsock =>
      obtain ⟨hhead, hfile⟩ := (hdraft.phase hs).done hphase
      have hout := hdraft.output
      rw [hdraft.unsent_done hs hphase, List.append_nil] at hout
      exact .listening rfl ⟨replies, hreplies, hout⟩
        ⟨hhead, .inl hfile, ⟨(hdraft.phase hs).sendfile, (hdraft.phase hs).done⟩⟩
        (fun k => honly k (by simp [hfile])) hsock
  | leaving _ hka' => cases hka.symm.trans hka'

theorem Talk.modEvents (h : Talk site r.os c) (i : Interest) :
    Talk site (modEvents r c i).os c := by
  have htrace : (HttpServer.modEvents r c i).os.trace = r.os.trace := trace_modEvents ..
  have hfds : (HttpServer.modEvents r c i).os.fds = r.os.fds := fds_modEvents ..
  refine h.still c.inbuf c.inHead c.parser c.req ?_ ?_ ?_ ?_
  · rw [Os.sent, htrace]
    rfl
  · rw [Os.dialogue, Os.parsed, htrace]
    rfl
  · funext k
    exact content_of_get (by rw [hfds])
  · rw [hfds]
    exact id

/-- An action keeps the connection in line, if a kept-alive request it completes is supplied. -/
theorem Action.talk (h : Action site (r, c) (r', c')) (hatt : Attuned r.os c)
    (hguard : ∀ e, (r'.os.dialogue c.cid).exchanges = (r.os.dialogue c.cid).exchanges ++ [e] →
      e.keepAlive = true → r.os.sched.answers site e.request = true)
    (ht : Talk site r.os c) : Talk site r'.os c' := by
  cases h with
  | rewind => exact ht.still _ _ _ _ rfl rfl rfl id
  | @receive _ _ n rest incoming bs hs _ _ hsock _ _ =>
      obtain ⟨_, hpar, hsent⟩ := log_receive (r.os.setReads rest) c.cid c.fd bs
      refine ht.still _ _ _ _ hsent ?_ (content_consume ..) (fun _ h0 => ?_)
      · rw [Os.dialogue, hpar]
        rfl
      -- a socket that was open is still open
      · have hsock' : (r.os.setReads rest).incoming c.fd = some incoming := hsock
        have hleft := incoming_consume (n := bs.length) hsock'
        rw [Os.incoming, show ((r.os.setReads rest).consume c.fd bs.length).fds.get c.fd = none
          from h0] at hleft
        cases hleft
  | retry => exact ht.still _ _ _ _ rfl rfl rfl id
  | parse hs hget hfeed =>
      refine ht.still _ _ _ _ (by simp [Ev.sent]) ?_ rfl id
      exact (hatt.completes hs hfeed (parsed_log_parsed ..)).trans (List.append_nil _)
  | @request _ _ b p req os c' hs hget hfeed hbuild =>
      have hhist := history_request hbuild
      have hparsed : os.parsed c.cid = r.os.parsed c.cid ++ [b] := congrArg History.parsed hhist
      have hsent : os.sent c.cid = r.os.sent c.cid := congrArg History.sent hhist
      have hdia := hatt.completes hs hfeed hparsed
      -- a request completes an exchange, and its response is drawn up at the same time
      have hfurn := (buildResponse_furnished hbuild (ht.listens hs).2).1
      refine ht.exchange hs ?_ hfurn (fun hka => ?_) hdia hsent
      · rfl
      · exact hguard _ hdia hka
  | @reject _ _ b p req os c' hs hget hfeed hbuild =>
      have hhist := history_reject hbuild
      have hparsed : os.parsed c.cid = r.os.parsed c.cid ++ [b] := congrArg History.parsed hhist
      have hsent : os.sent c.cid = r.os.sent c.cid := congrArg History.sent hhist
      have hdia := hatt.completes hs hfeed hparsed
      have hfurn := (buildErrorResponse_furnished site hbuild).1
      refine ht.exchange hs ?_ hfurn (fun hka => ?_) hdia hsent
      · rfl
      -- the answer to a rejected head never keeps the connection open
      · cases hka
  | answers => exact ht.still _ _ _ _ rfl rfl rfl id
  | sendHead n hs =>
      have hdia : (r.os.log (.wrote c.cid ((c.head.drop c.headOff).take n))).dialogue c.cid =
          r.os.dialogue c.cid := congrArg Transcript.start.run (by simp [Ev.parse])
      cases ht with
      | listening hs' => cases hs.symm.trans hs'
      | answering _ replies hreplies hdraft honly hsock =>
          exact .answering hs replies (by rw [hdia]; exact hreplies) (hdraft.sendHead hs n) honly
            hsock
      -- a connection that is leaving has nothing drawn up, so the call takes no byte of it
      | leaving _ hka hidle hnone replies hreplies hflat =>
          refine .leaving hs hka ⟨hidle.head, hidle.file, ⟨hidle.phase.sendfile, hidle.phase.done⟩⟩
            hnone replies (by rw [hdia]; exact hreplies) ?_
          rw [hidle.head]
          simpa [Ev.sent] using hflat
  | headSent hs _ hall =>
      cases ht with
      | listening hs' => cases hs.symm.trans hs'
      | answering _ replies hreplies hdraft honly hsock =>
          exact .answering hs replies hreplies (hdraft.headSent hs hall) honly hsock
      | leaving _ hka hidle hnone replies hreplies hflat =>
          exact .leaving hs hka ⟨rfl, hidle.file, .headSent c⟩ hnone replies hreplies hflat
  | sendBody n hs hphase hfile =>
      cases ht with
      | listening hs' => cases hs.symm.trans hs'
      | answering _ replies hreplies hdraft honly hsock =>
          refine .answering hs replies ?_ (hdraft.sendBody hs hphase hfile n) honly hsock
          rw [Os.dialogue, Os.parsed_log]
          exact (List.append_nil (r.os.parsed c.cid)).symm ▸ hreplies
      | leaving _ _ _ hnone =>
          obtain ⟨k, _, hk⟩ := Option.bind_eq_some_iff.mp hfile
          cases (hnone k).symm.trans hk
  | bodySent hs hphase hall => exact ht.bodySent hs hphase hall
  | park => exact ht.modEvents .output
  | next hs hphase hka => exact ht.next hs hphase hka
  | restart hs hoff =>
      cases ht with
      | listening hs' => cases hs.symm.trans hs'
      | answering _ replies hreplies hdraft honly hsock =>
          exact .answering hs replies hreplies (hdraft.restart hs hoff) honly hsock
      | leaving _ hka hidle hnone replies hreplies hflat =>
          exact .leaving hs hka
            ⟨hidle.head, hidle.file, ⟨fun h0 => (by cases h0), fun h0 => (by cases h0)⟩⟩ hnone
            replies hreplies hflat
  | listen => exact ht.modEvents .input

/-! ## The input -/

/-- What has been received came off the front of the stream, and the rest is still to come. -/
structure Drawn (stream : List UInt8) (os : Os) (c : Conn) : Prop where
  received : os.received c.cid <+: stream
  rest : ∀ bs, os.incoming c.fd = some bs → stream = os.received c.cid ++ bs

theorem Drawn.still (h : Drawn stream os c) (hfd : c'.fd = c.fd) (hcid : c'.cid = c.cid)
    (hrec : os'.received c.cid = os.received c.cid)
    (hsock : ∀ bs, os'.incoming c.fd = some bs → os.incoming c.fd = some bs) :
    Drawn stream os' c' := by
  refine ⟨?_, fun bs hbs => ?_⟩
  · rw [hcid, hrec]
    exact h.received
  · rw [hcid, hrec]
    exact h.rest bs (hsock bs (hfd ▸ hbs))

theorem incoming_of_get {k : Nat} (h : os'.fds.get k = os.fds.get k) :
    os'.incoming k = os.incoming k := by
  rw [Os.incoming, Os.incoming, h]

theorem incoming_closeFile (os : Os) (c : Conn) {fd : Nat} {bs : List UInt8}
    (h : (closeFile os c).incoming fd = some bs) : os.incoming fd = some bs := by
  unfold closeFile at h
  split at h
  · rename_i k hk
    rcases eq_or_ne fd k with rfl | hne
    · simp [Os.incoming, Os.close] at h
    · rw [← h]
      exact (incoming_of_get (FdTable.get_erase_of_ne _ hne)).symm
  · exact h

theorem Action.drawn (h : Action site (r, c) (r', c')) (ht : Talk site r.os c)
    (hd : Drawn stream r.os c) : Drawn stream r'.os c' := by
  cases h with
  | @receive _ _ n rest incoming bs hs hempty hreads hsock hbs hne =>
      obtain ⟨hrec, _, _⟩ := log_receive (r.os.setReads rest) c.cid c.fd bs
      have hpre : bs <+: incoming := hbs ▸ List.take_prefix ..
      obtain ⟨left, hleft⟩ := hpre
      have hstream := hd.rest incoming hsock
      -- what has been read moves from the socket to the bytes received
      have hnow : stream = r.os.received c.cid ++ bs ++ left := by
        rw [hstream, ← hleft, List.append_assoc]
      have hin : ((r.os.setReads rest).consume c.fd bs.length).incoming c.fd = some left := by
        have hsock' : (r.os.setReads rest).incoming c.fd = some incoming := hsock
        rw [incoming_consume hsock', ← hleft, List.drop_left]
      refine ⟨?_, fun bs' hbs' => ?_⟩
      · rw [hrec]
        exact ⟨left, hnow.symm⟩
      · rw [hrec]
        cases hin.symm.trans hbs'
        exact hnow
  | @request _ _ b p req os c' hs hget hfeed hbuild =>
      have hset := buildResponse_setUp hbuild
      have hfurn := (buildResponse_furnished hbuild (ht.listens hs).2).1.sock (ht.listens hs).2
      refine hd.still hset.fd hset.cid (congrArg History.received (history_request hbuild))
        (fun bs hbs => ?_)
      rw [← hbs]
      exact (incoming_of_get hfurn).symm
  | @reject _ _ b p req os c' hs hget hfeed hbuild =>
      have hset := buildErrorResponse_setUp hbuild
      have hfds := (buildErrorResponse_plain hbuild).1.fds
      refine hd.still hset.fd hset.cid (congrArg History.received (history_reject hbuild))
        (fun bs hbs => ?_)
      rw [← hbs]
      exact (incoming_of_get (by rw [hfds]; rfl)).symm
  | parse => exact hd.still rfl rfl (by simp [Ev.received]) (fun _ => id)
  | sendHead => exact hd.still rfl rfl (by simp [Ev.received]) (fun _ => id)
  | sendBody => exact hd.still rfl rfl (by simp [Ev.received]) (fun _ => id)
  | bodySent =>
      exact hd.still rfl rfl (congrArg History.received (congrFun (history_closeFile ..) _))
        (fun _ => incoming_closeFile _ _)
  | park =>
      refine hd.still rfl rfl (by simp only [Os.received, trace_modEvents]) (fun bs hbs => ?_)
      rw [← hbs]
      exact (incoming_of_get (by rw [fds_modEvents])).symm
  | listen =>
      refine hd.still rfl rfl (by simp only [Os.received, trace_modEvents]) (fun bs hbs => ?_)
      rw [← hbs]
      exact (incoming_of_get (by rw [fds_modEvents])).symm
  | _ => exact hd.still rfl rfl rfl (fun _ => id)

/-! ## Events -/

/-- The exchanges of the stream that are still to come. -/
def pending (stream : List UInt8) (os : Os) (cid : Nat) : List Exchange :=
  (Transcript.start.run stream).exchanges.drop (os.dialogue cid).exchanges.length

/-- A connection as its events are handled. -/
structure InLine (site : Site) (stream : List UInt8) (os : Os) (c : Conn) : Prop where
  attuned : Attuned os c
  buffered : Buffered os c
  drawn : Drawn stream os c
  punctual : Punctual site os c.cid
  talk : Talk site os c

/-- The exchanges of a connection are those at the beginning of the stream. -/
theorem Drawn.exchanges (h : Drawn stream os c) (hbuf : Buffered os c) :
    (os.dialogue c.cid).exchanges <+: (Transcript.start.run stream).exchanges := by
  obtain ⟨left, hleft⟩ := hbuf.parsed_prefix.trans h.received
  rw [← hleft, Transcript.run_append]
  exact Transcript.run_exchanges ..

/-- An action keeps the connection in line as long as what it completes is supplied. -/
theorem Action.inLine (h : Action site (r, c) (r', c')) (hst : InLine site stream r.os c)
    (hsup : r.os.sched.Supplies site (pending stream r.os c.cid)) :
    InLine site stream r'.os c' ∧ r'.os.sched.Supplies site (pending stream r'.os c'.cid) := by
  obtain ⟨hatt, hbuf, hdrawn, hp, ht⟩ := hst
  have hcid : c'.cid = c.cid := h.confined.cid
  have hbuf' := h.buffered hbuf
  have hdrawn' := h.drawn ht hdrawn
  have hp' : Punctual site r'.os c'.cid := by
    rw [hcid]
    exact h.punctual (fun hs => (ht.listens hs).1) hp
  -- the action completes no exchange and leaves the supply, or completes one and takes its share
  rcases h.stock hatt (fun hs => (ht.listens hs).2) with ⟨hsame, hstock⟩ | ⟨e, hone, hstock⟩
  · refine ⟨⟨h.attuned hatt, hbuf', hdrawn', hp', h.talk hatt (fun e he => ?_) ht⟩, ?_⟩
    · have hlen := congrArg List.length (hsame.symm.trans he)
      simp at hlen
    · rw [hcid, pending, hsame]
      exact hstock.supplies hsup
  · -- what the action completes comes first among what is supplied
    have hnext : pending stream r.os c.cid = e :: pending stream r'.os c.cid := by
      obtain ⟨more, hmore⟩ := hdrawn'.exchanges hbuf'
      rw [hcid, hone] at hmore
      rw [pending, pending, ← hmore, hone, List.drop_left, List.append_assoc, List.drop_left]
      rfl
    rw [hnext] at hsup
    refine ⟨⟨h.attuned hatt, hbuf', hdrawn', hp', h.talk hatt (fun e' he => ?_) ht⟩, ?_⟩
    · have hlast : e' = e := List.head_eq_of_cons_eq (List.append_cancel_left (he.symm.trans hone))
      rw [hlast]
      exact hsup.1
    · rw [hcid]
      exact hstock.supplies hsup.2

theorem Actions.inLine (h : Actions site (r, c) (r', c')) (hst : InLine site stream r.os c)
    (hsup : r.os.sched.Supplies site (pending stream r.os c.cid)) :
    InLine site stream r'.os c' :=
  (Actions.rule (I := fun r c => InLine site stream r.os c ∧
      r.os.sched.Supplies site (pending stream r.os c.cid))
    (fun _ _ _ _ hact hI => hact.inLine hI.1 hI.2) h ⟨hst, hsup⟩).1

theorem Aligned.of_history (h : Aligned site os cid) (hhist : os'.history cid = os.history cid) :
    Aligned site os' cid := by
  obtain ⟨n, replies, hreplies, hsent⟩ := h
  refine ⟨n, replies, ?_, ?_⟩
  · rw [dialogue_of_history hhist]
    exact hreplies
  · rw [show os'.sent cid = os.sent cid from congrArg History.sent hhist]
    exact hsent

/-- The reactor has had connection `cid`, at `fd`, and no other. -/
structure Tracked (site : Site) (stream : List UInt8) (cid fd : Nat) (r : Reactor) : Prop where
  alone : ∀ k, k ≠ fd → r.conns k = none
  punctual : Punctual site r.os cid
  aligned : Aligned site r.os cid
  live : r.crashed = none → ∀ c, r.conns fd = some c → c.cid = cid ∧ InLine site stream r.os c

/-- A connection that the parser has written outside an array on, with all answered before. -/
theorem Talk.crashed (h : Talk site os c) (hatt : Attuned os c) (hs : c.state = .reading)
    {b : UInt8} {f : Fault} (hfeed : httpParserFeed c.parser c.req [b] = .error f)
    (hp : Punctual site os c.cid) :
    Punctual site (os.log (.parsed c.cid b)) c.cid ∧
      Aligned site (os.log (.parsed c.cid b)) c.cid := by
  have hdia := hatt.dialogue_step hs (parsed_log_parsed os c.cid b)
  rw [hfeed] at hdia
  obtain ⟨n, replies, hreplies, hsent⟩ := h.aligned
  refine ⟨hp.parsed (h.listens hs).1 b, n, replies, ?_, ?_⟩
  · rw [hdia]
    exact hreplies
  · rw [Os.sent_log]
    exact (List.append_nil (os.sent c.cid)).symm ▸ hsent

/-- The connection is closed. -/
theorem Tracked.of_gone (hnone : ∀ k, r'.conns k = none) (hp : Punctual site r.os cid)
    (ha : Aligned site r.os cid) (hq : Quietly cid r.os r'.os)
    (hhist : r'.os.history cid = r.os.history cid) : Tracked site stream cid fd r' := by
  refine ⟨fun k _ => hnone k, hp.quietly hq, ha.of_history hhist, fun _ d hd => ?_⟩
  cases (hnone fd).symm.trans hd

theorem Tracked.settle (h : Tracked site stream cid fd r) (hcr : r.crashed = none)
    (hc : r.conns fd = some c) (hfd : c.fd = fd) (hout : Outcome site r c r' ref)
    (hsup : r.os.sched.Supplies site (pending stream r.os cid)) :
    Tracked site stream cid fd (r'.settle fd ref) := by
  obtain ⟨rfl, hst⟩ := h.live hcr c hc
  subst hfd
  have halone : ∀ k, k ≠ c.fd → (r'.settle c.fd ref).conns k = none :=
    fun k hk => (hout.settle_of_ne hk).trans (h.alone k hk)
  -- a handler that ends in a close
  have hclosed : ref = .closed → ∀ {r₁ : Reactor} {c₁ : Conn}, Actions site (r, c) (r₁, c₁) →
      Quietly c.cid r₁.os r'.os → r'.os.history c.cid = r₁.os.history c.cid →
      Tracked site stream c.cid c.fd (r'.settle c.fd ref) := by
    intro href r₁ c₁ hacts hq hhist
    subst href
    have hst₁ := hacts.inLine hst hsup
    have hcid := hacts.confined.cid
    refine .of_gone (fun k => ?_) (hcid ▸ hst₁.punctual) (hcid ▸ hst₁.talk.aligned) hq hhist
    rcases eq_or_ne k c.fd with rfl | hne
    · exact hout.gone
    · exact halone k hne
  cases hout with
  | @live _ c' hacts hwait =>
      have hst' := hacts.inLine hst hsup
      have hcid := hacts.confined.cid
      refine ⟨halone, hcid ▸ hst'.punctual, hcid ▸ hst'.talk.aligned, fun _ d hd => ?_⟩
      simp only [Reactor.settle, Function.update_self, Option.some.injEq] at hd
      subst hd
      exact ⟨hcid, hst'⟩
  | closed hacts =>
      exact hclosed rfl hacts (quietly_connClose ..) (congrFun (history_connClose ..) _)
  | closedFile hacts =>
      refine hclosed rfl hacts ((quietly_closeFile ..).trans (quietly_connClose ..)) ?_
      exact congrFun ((history_connClose ..).trans (history_closeFile ..)) _
  | crashed hacts hs hget hfeed =>
      have hst₁ := hacts.inLine hst hsup
      have hend := hst₁.talk.crashed hst₁.attuned hs hfeed hst₁.punctual
      rw [hacts.confined.cid] at hend
      refine ⟨halone, ?_, ?_, fun hcr' => (by cases hcr')⟩
      · simp only [hacts.confined.cid]
        exact hend.1
      · simp only [hacts.confined.cid]
        exact hend.2

theorem Tracked.begin (h : Tracked site stream cid fd r) (e : Event) :
    Tracked site stream cid fd (r.begin e) := by
  refine ⟨h.alone, h.punctual.quietly (.of_trace rfl), h.aligned, fun hcr c hc => ?_⟩
  obtain ⟨hcid, hatt, hbuf, hdrawn, hp, ht⟩ := h.live hcr c hc
  exact ⟨hcid, hatt.still rfl, hbuf.of_history rfl, ⟨hdrawn.received, hdrawn.rest⟩,
    hp.quietly (.of_trace rfl), ht.still c.inbuf c.inHead c.parser c.req rfl rfl rfl id⟩

theorem Step.tracked {e : Event} (hstep : Step site r e r')
    (hsup : e.sched.Supplies site (pending stream r.os cid))
    (haccepts : e.accepts = []) (h : Tracked site stream cid fd r) : Tracked site stream cid fd r' := by
  have hbegin := h.begin e
  have hat : ∀ {c}, r.conns e.fd = some c → e.fd = fd := by
    intro c hc
    by_contra hne
    cases hc.symm.trans (h.alone e.fd hne)
  cases hstep with
  | idle => exact h
  | woken => exact ⟨hbegin.alone, hbegin.punctual, hbegin.aligned, hbegin.live⟩
  | accepted =>
      rw [haccepts]
      exact hbegin
  | ignored => exact hbegin
  | @hangup c hgo hcr hc hfd =>
      have hfd' : c.fd = fd := hfd.trans (hat hc)
      refine .of_gone (fun k => ?_) hbegin.punctual hbegin.aligned (quietly_connClose ..)
        (congrFun (history_connClose ..) _)
      rcases eq_or_ne k c.fd with rfl | hne
      · exact connClose_gone ..
      · exact (connClose_conns _ _ hne).trans (h.alone k (hfd' ▸ hne))
  | @handled c r₁ ref hgo hcr hc hfd hwait herr hin hout =>
      have hefd := hat hc
      rw [hefd] at hc hfd ⊢
      exact hbegin.settle hcr hc hfd hout hsup

/-! ## Runs -/

/-- On a connection that waits for its next event all exchanges have been answered, up to what is
left to send. -/
theorem Talk.answered (h : Talk site r.os c) (hwait : Waiting r c) :
    ∃ replies, List.Forall₂ (Exchange.AnsweredBy site) (r.os.dialogue c.cid).exchanges replies ∧
      r.os.sent c.cid ++ c.unsent r.os = replies.flatten := by
  cases h with
  | listening hs hfull =>
      obtain ⟨replies, hreplies, hsent⟩ := hfull
      refine ⟨replies, hreplies, ?_⟩
      rw [Conn.unsent, if_neg (by simp [hs]), List.append_nil, hsent]
  | answering _ replies hreplies hdraft => exact ⟨replies, hreplies, hdraft.output⟩
  | leaving hs _ hidle =>
      -- nothing is left to send, but the connection waits for the socket
      cases hwait with
      | input hs' => cases hs.symm.trans hs'
      | output _ _ hleft _ =>
          rcases hleft with ⟨_, hlt⟩ | ⟨hphase, _, hlt⟩
          · rw [hidle.head] at hlt
            cases hlt
          · have hopen := (hidle.phase.sendfile hphase).2
            rcases hidle.file with hnone | hall
            · rw [hnone] at hopen
              cases hopen
            · exact absurd hlt (Nat.not_lt.mpr hall)

theorem content_alloc (os : Os) (hint : Nat) (owner : Option Nat) (res : Resource)
    (hres : ∀ bs, res ≠ .file bs) (hnone : ∀ k, os.content k = none) (k : Nat) :
    (os.alloc hint owner res).2.content k = none := by
  rcases eq_or_ne k (os.fds.pick hint) with rfl | hne
  · cases res with
    | file bs => exact absurd rfl (hres bs)
    | socket bs => simp [Os.content, Os.alloc]
    | other => simp [Os.content, Os.alloc]
  · rw [← hnone k]
    exact content_of_get (FdTable.get_insert_of_ne _ _ hne)

/-- No file is open when the reactor starts. -/
theorem content_reactorCreate (inherited : List Nat) (k : Nat) :
    (reactorCreate inherited).os.content k = none := by
  have hboot : ∀ k, (bootOs inherited).content k = none := by
    intro k
    simp only [Os.content, bootOs, bootCtl, FdTable.ofList]
    by_cases hk : k ∈ inherited
    · rw [if_pos hk]
    · rw [if_neg hk]
  have h₁ := content_alloc (bootOs inherited) 0 none .other (by simp) hboot
  have h₂ := content_alloc _ 0 none .other (by simp) h₁
  exact content_alloc _ 0 none .other (by simp) h₂ k

/-- A connection on which nothing has happened yet. -/
theorem InFull.fresh (h : os.history cid = ⟨[], [], [], []⟩) : InFull site os cid := by
  have hpar : os.parsed cid = [] := congrArg History.parsed h
  have hsent : os.sent cid = [] := congrArg History.sent h
  have hdia : os.dialogue cid = Transcript.start := congrArg Transcript.start.run hpar
  refine ⟨[], ?_, hsent⟩
  rw [hdia]
  exact .nil

theorem InFull.aligned (h : InFull site os cid) : Aligned site os cid := by
  obtain ⟨replies, hreplies, hsent⟩ := h
  exact ⟨_, replies, by rw [List.take_length]; exact hreplies, by rw [hsent]⟩

theorem InLine.fresh (h : os.history cid = ⟨[], [], [], []⟩) (hp : Punctual site os cid)
    (hsock : os.incoming fd = some stream) (hcontent : ∀ k, os.content k = none) :
    InLine site stream os (Conn.calloc fd cid) := by
  have hrec : os.received cid = [] := congrArg History.received h
  refine ⟨.fresh _ h, .fresh _ h, ⟨?_, fun bs hbs => ?_⟩, hp,
    .listening rfl (.fresh h) ?_ hcontent fun hnone => ?_⟩
  · exact ⟨stream, congrArg (· ++ stream) hrec⟩
  · cases hsock.symm.trans hbs
    exact (congrArg (· ++ stream) hrec).symm
  · exact ⟨rfl, .inr (Nat.le_refl 0), fun h0 => (by cases h0), fun h0 => (by cases h0)⟩
  · rw [Os.incoming, show os.fds.get fd = none from hnone] at hsock
    cases hsock

/-- A fresh reactor that accepts one connection. -/
theorem Accepted.tracked {a : AcceptRes} (hacc : Accepted r a r') (hconns : ∀ k, r.conns k = none)
    (htrace : r.os.trace = []) (hcontent : ∀ k, r.os.content k = none) :
    Tracked site a.incoming r.os.serial (r.os.fds.pick a.hint) r' := by
  have hhist := history_acceptedOs_nil htrace a
  -- nothing has been parsed yet
  have hp : ∀ i, Punctual site (r.acceptedOs a) i := by
    intro i
    have hnone : Punctual site r.os i := by
      intro before b after h
      simp [htrace] at h
    refine hnone.quietly ?_
    exact (Quietly.of_trace rfl).trans (.log (r.os.alloc _ _ _).2 rfl)
  cases hacc with
  | refused =>
      have hshut : ((r.acceptedOs a).close none (r.os.fds.pick a.hint)).history r.os.serial =
          (r.acceptedOs a).history r.os.serial := by rw [Os.history_close]
      exact Tracked.of_gone (r := { r with os := r.acceptedOs a }) hconns (hp _)
        (InFull.fresh (hhist _)).aligned (quietly_close (r.acceptedOs a) none _) hshut
  | welcomed =>
      have hfresh : ((r.acceptedOs a).epollAdd (r.os.fds.pick a.hint) .input).history r.os.serial =
          ⟨[], [], [], []⟩ := hhist _
      have hp' : Punctual site ((r.acceptedOs a).epollAdd (r.os.fds.pick a.hint) .input)
          r.os.serial := (hp _).quietly (.of_trace rfl)
      refine ⟨fun k hk => (Function.update_of_ne hk ..).trans (hconns k), hp',
        (InFull.fresh hfresh).aligned, fun _ c hc => ?_⟩
      simp only [Function.update_self, Option.some.injEq] at hc
      subst hc
      refine ⟨rfl, .fresh hfresh hp' ?_ (fun k => ?_)⟩
      · simp [Os.incoming, Os.epollAdd, Os.epollCtl, Reactor.acceptedOs, Os.alloc, Os.log]
      · exact content_alloc r.os a.hint _ (.socket a.incoming) (fun _ h0 => (by cases h0)) hcontent
          k

/-- A run of the reactor on a single connection whose client sends `stream`, whatever the kernel
answers: the descriptors the process has open before, the one it accepts the connection at, and
the events. -/
structure Lifetime (stream : List UInt8) where
  inherited : List Nat
  hint : Nat
  events : List Event
  alone : ∀ e ∈ events, e.accepts = []

namespace Lifetime

variable (s : Lifetime stream)

/-- The descriptor of the connection. -/
def connFd : Nat := (reactorCreate s.inherited).os.fds.pick s.hint

/-- The number of the connection. -/
def connId : Nat := (reactorCreate s.inherited).os.serial

/-- The reactor when the connection has been accepted. -/
def start : Reactor := acceptOne (reactorCreate s.inherited) ⟨s.hint, stream, true⟩

/-- The reactor at the end of the run. -/
def final (site : Site) : Reactor := reactorRun site s.start s.events

/-- In every event there is memory for the responses to the requests still to come that keep the
connection open, in their order. -/
def Supplied (site : Site) : Prop :=
  Along site (fun r e => e.sched.Supplies site (pending stream r.os s.connId)) s.start s.events

/-- The responses are in step with the requests: whenever a byte has been parsed, all requests
before it had been answered in full; what has been sent are responses to the requests, in order;
and as long as the connection is there every request has got its response, up to what is left to
send. -/
structure InStep (site : Site) : Prop where
  punctual : Punctual site (s.final site).os s.connId
  aligned : Aligned site (s.final site).os s.connId
  answered : (s.final site).crashed = none → ∀ c, (s.final site).conns s.connFd = some c →
    ∃ replies, List.Forall₂ (Exchange.AnsweredBy site)
        ((s.final site).os.dialogue s.connId).exchanges replies ∧
      (s.final site).os.sent s.connId ++ c.unsent (s.final site).os = replies.flatten

end Lifetime

/-- **Enough memory keeps the responses in step.** In a run in which every request that keeps the
connection open finds memory for its response, whatever else fails, the parser never starts on a
request before all earlier ones have been answered in full, and a request that gets no response
is the last one: the connection is closed. -/
theorem responses_in_step (site : Site) (s : Lifetime stream) (h : s.Supplied site) :
    s.InStep site := by
  have hrest := reactorCreate_atRest s.inherited
  have hacc : Accepted (reactorCreate s.inherited) ⟨s.hint, stream, true⟩ s.start :=
    acceptOne_accepted ..
  obtain ⟨hrest', htracked⟩ := reactorRun_rule site
    (I := Tracked site stream s.connId s.connFd)
    (fun _ _ _ _ hG h hstep => hstep.tracked hG.2 hG.1 h) s.events
    ((along_of_forall s.alone _).and h)
    ⟨hacc.orderly rfl hrest.orderly, hacc.numbered hrest.numbered⟩
    (hacc.tracked (fun _ => rfl) rfl (content_reactorCreate _))
  refine ⟨htracked.punctual, htracked.aligned, fun hcr c hc => ?_⟩
  obtain ⟨hcid, hst⟩ := htracked.live hcr c hc
  have hans := hst.talk.answered (hrest'.orderly hcr _ c hc).2
  rw [hcid] at hans
  exact hans

/-! Two requests on one connection, the first of which keeps it open. When `malloc` fails for the
second response the connection is closed. When it fails for the first, the client gets the answer
to the second request only. -/

def pairStream : List UInt8 := ascii "GET /a HTTP/1.1\nHost: a\n\nPUT /b HTTP/1.0\n\n"

def pairLifetime (mallocs : List Bool) : Lifetime pairStream where
  inherited := [0, 1, 2]
  hint := 6
  events := [⟨6, ⟨true, false, false⟩, ⟨[.bytes 100], [.bytes 1000, .bytes 1000], [], mallocs⟩, []⟩]
  alone := by
    intro e he
    rw [List.mem_singleton.mp he]

theorem responses_in_step_sample :
    (pairLifetime [true, true, false]).InStep emptySite ∧
      ((pairLifetime [true, true, false]).final emptySite).os.sent 4 =
        simpleReply .notFound (ascii "404 Not Found\n") true :=
  ⟨responses_in_step emptySite _ ⟨by decide +kernel, trivial⟩, by decide +kernel⟩

theorem not_in_step :
    ((pairLifetime [false]).final emptySite).os.sent 4 =
        simpleReply .methodNotAllowed (ascii "405 Method Not Allowed\n") false ∧
      ¬ ∀ (site : Site) (stream : List UInt8) (s : Lifetime stream), s.InStep site := by
  have hsent : ((pairLifetime [false]).final emptySite).os.sent 4 =
      simpleReply .methodNotAllowed (ascii "405 Method Not Allowed\n") false := by decide +kernel
  refine ⟨hsent, fun h => ?_⟩
  obtain ⟨n, replies, hreplies, hpre⟩ := (h emptySite _ (pairLifetime [false])).aligned
  have hfirst : ((((pairLifetime [false]).final emptySite).os.dialogue 4).exchanges.map
      (Exchange.reply emptySite)).head? =
      some (simpleReply .notFound (ascii "404 Not Found\n") true) := by decide +kernel
  -- the codes stand in the first 12 bytes
  have hclash : ∀ reply more : List UInt8,
      reply.take 12 = ascii "HTTP/1.1 404" ∨ reply.take 12 = ascii "HTTP/1.1 500" →
      ¬ simpleReply .methodNotAllowed (ascii "405 Method Not Allowed\n") false <+: reply ++ more := by
    intro reply more hcode hp
    have hlen : 12 ≤ reply.length := by
      have hmin : (reply.take 12).length = 12 := by
        rcases hcode with hcode | hcode
        · rw [hcode]; decide
        · rw [hcode]; decide
      rw [List.length_take] at hmin
      omega
    have htake := (hp.take 12).eq_of_length (by
      rw [List.take_append_of_le_length hlen, List.length_take, List.length_take,
        Nat.min_eq_left hlen]
      decide)
    rw [List.take_append_of_le_length hlen] at htake
    rcases hcode with hcode | hcode
    · rw [hcode] at htake
      revert htake
      decide
    · rw [hcode] at htake
      revert htake
      decide
  change ((pairLifetime [false]).final emptySite).os.sent 4 <+: _ at hpre
  change List.Forall₂ _ ((((pairLifetime [false]).final emptySite).os.dialogue 4).exchanges.take n)
    replies at hreplies
  rw [hsent] at hpre
  generalize (((pairLifetime [false]).final emptySite).os.dialogue 4).exchanges = exchanges
    at hreplies hfirst
  cases replies with
  | nil => exact hclash (ascii "HTTP/1.1 404") [] (.inl (by decide)) (hpre.trans List.nil_prefix)
  | cons reply more =>
      refine hclash reply more.flatten ?_ hpre
      cases exchanges with
      | nil => cases hfirst
      | cons e es =>
          cases n with
          | zero => cases hreplies
          | succ n =>
              cases hreplies with
              | cons hans _ =>
                  rcases hans with rfl | ⟨req, _, rfl⟩
                  · rw [Option.some.inj hfirst]
                    exact .inl (by decide)
                  · cases req.keepAlive with
                    | true => exact .inr (by decide)
                    | false => exact .inr (by decide)

end HttpServer
