import HttpServer.Reactor.Ledger

set_option autoImplicit false

/-! # Who owns the descriptors

A connection's record names its socket and, while it sends a file, the file. `Owns` says that
the record is right: both are open, were opened for this connection, and nothing else was.
One thing is wrong from the start: the record is zeroed when it is made, so until the first
response is set up it names descriptor `0` as its file. A connection that is closed before
then closes descriptor `0`. `Safe` tells from what the kernel will answer whether the first
response comes first, and under that condition the descriptors are handled properly.
-/

namespace HttpServer

open CLib

variable {site : Site} {os os' : Os} {r r' : Reactor} {c c' : Conn} {ref : ConnRef}

/-! ## Ownership -/

/-- A response has been set up, or tried to, on the connection. -/
def Answered (os : Os) (c : Conn) : Prop := (os.dialogue c.cid).exchanges ≠ []

structure Owns (os : Os) (c : Conn) : Prop where
  sock : ∃ bs, os.fds.get c.fd = some ⟨c.cid, some c.cid, .socket bs⟩
  file : Answered os c → ∀ k, c.fileFd = some k →
    ∃ s bs, os.fds.get k = some ⟨s, some c.cid, .file bs⟩
  all : ∀ k d, os.fds.get k = some d → d.owner = some c.cid →
    k = c.fd ∨ (Answered os c ∧ c.fileFd = some k)
  asking : ¬ Answered os c → c.state = .reading
  idle : Answered os c → c.state = .reading → c.fileFd = none
  done : c.state = .writing → c.phase = .done → c.fileFd = none

theorem answered_iff {cid : Nat} (hcid : c'.cid = c.cid) (hc : c.cid = cid)
    (h : (os'.dialogue cid).exchanges = (os.dialogue cid).exchanges) :
    Answered os' c' ↔ Answered os c := by
  rw [Answered, Answered, hcid, hc, h]

theorem Owns.answered (h : Owns os c) (hs : c.state = .writing) : Answered os c := by
  by_contra hnot
  cases hs.symm.trans (h.asking hnot)

/-- Nothing but the socket is open on a connection that waits for a request. -/
theorem Owns.only_sock (h : Owns os c) (hs : c.state = .reading) {k : Nat} {d : Desc}
    (hget : os.fds.get k = some d) (hd : d.owner = some c.cid) : k = c.fd := by
  rcases h.all k d hget hd with hk | ⟨hans, hk⟩
  · exact hk
  · rw [h.idle hans hs] at hk
    cases hk

/-- The record is as right as before when the descriptors are as before. -/
theorem Owns.still (h : Owns os c) (hfd : c'.fd = c.fd) (hcid : c'.cid = c.cid)
    (hfile : c'.fileFd = c.fileFd) (hstate : c'.state = c.state)
    (hphase : c'.state = .writing → c'.phase = .done → c'.fileFd = none)
    (hfds : os'.fds.get = os.fds.get)
    (hdia : (os'.dialogue c.cid).exchanges = (os.dialogue c.cid).exchanges) : Owns os' c' := by
  have hans := answered_iff hcid rfl hdia
  refine ⟨?_, ?_, ?_, ?_, ?_, hphase⟩
  · rw [hfds, hfd, hcid]; exact h.sock
  · rw [hans, hfds, hfile, hcid]; exact h.file
  · rw [hans, hfds, hfile, hcid, hfd]; exact h.all
  · rw [hans, hstate]; exact h.asking
  · rw [hans, hstate, hfile]; exact h.idle

/-! ## The first response -/

/-- The file a request asks for gets opened. -/
def Sched.opensFile (site : Site) (s : Sched) (req : HttpRequest) : Bool :=
  match site.stat (req.pathname site) with
  | .file _ true => (s.opens.headD (some 0)).isSome
  | _ => false

/-- There is memory for the response to a request, or to a parse error. If the head of a
file's response cannot be made there is a second chance, for an error page. -/
def Sched.answers (site : Site) (s : Sched) : Option HttpRequest → Bool
  | none => s.spares
  | some req =>
      if Servable site req ∧ s.opensFile site req = true then
        s.mallocs.headD true || Sched.spares { s with mallocs := s.mallocs.tail }
      else s.spares

theorem openFile_opensFile {cid : Nat} {req : HttpRequest} {fd : Option Nat} {os₁ : Os}
    (h : os.openFile site cid (req.pathname site) = (fd, os₁)) :
    os.sched.opensFile site req = fd.isSome ∧ os₁.sched.mallocs = os.sched.mallocs := by
  unfold Os.openFile at h
  simp only at h
  unfold Sched.opensFile
  split at h
  · rename_i content hint hstat hopen
    obtain ⟨rfl, rfl⟩ := Prod.mk.inj h
    rw [hstat, hopen]
    exact ⟨rfl, rfl⟩
  · rename_i hno
    obtain ⟨rfl, rfl⟩ := Prod.mk.inj h
    refine ⟨?_, rfl⟩
    split
    · rename_i content hstat
      cases hopen : os.sched.opens.headD (some 0) with
      | none => rfl
      | some hint => exact absurd hopen (hno content hint hstat)
    · rfl

/-- The response is set up: there is no file, or one that has just been opened. -/
def Equipped (os : Os) (c : Conn) (os' : Os) (c' : Conn) : Prop :=
  (c'.fileFd = none ∧ os'.fds.get = os.fds.get) ∨
    ∃ k s bs, c'.fileFd = some k ∧ c'.phase = .head ∧ os.fds.get k = none ∧
      os'.fds.get = Function.update os.fds.get k (some ⟨s, some c.cid, .file bs⟩)

theorem Plain.fileFd {spares : Bool} (h : Plain spares c c')
    (hok : c.fileFd = none ∨ spares = true) : c'.fileFd = none := by
  cases spares with
  | false =>
      rw [show c' = c from h]
      exact hok.resolve_right (by simp)
  | true =>
      obtain ⟨head, rfl⟩ := h
      rfl

/-- A file that is opened and closed again leaves no trace in the table. -/
theorem get_erase_insert (t : FdTable Desc) {k : Nat} (d : Desc) (h : t.get k = none) :
    ((t.insert k d).erase k).get = t.get := by
  funext j
  rcases eq_or_ne j k with rfl | hne
  · rw [h]
    exact FdTable.get_erase_self ..
  · rw [FdTable.get_erase_of_ne _ hne, FdTable.get_insert_of_ne _ _ hne]

theorem Built.equipped (h : Built site os c os' c')
    (hok : c.fileFd = none ∨ os.sched.answers site (some c.req) = true) :
    Equipped os c os' c' := by
  -- by the way the response was made: a file is kept open in the last case only
  cases h with
  | plain hno hm hc =>
      refine .inl ⟨hc.fileFd (hok.imp_right fun h0 => ?_), by rw [hm.fds]⟩
      rwa [Sched.answers, if_neg (fun h1 => hno h1.1)] at h0
  | @unopened os₁ _ _ hserve hopen hm hc =>
      obtain ⟨hopens, hmallocs⟩ := openFile_opensFile hopen
      refine .inl ⟨hc.fileFd (hok.imp_right fun h0 => ?_), by rw [hm.fds, openFile_none hopen]⟩
      rw [Sched.answers, if_neg (fun h1 => by rw [hopens] at h1; cases h1.2)] at h0
      rwa [Sched.spares, hmallocs]
  | @aborted os₁ os₂ _ _ k hserve hopen hfail hm hc =>
      obtain ⟨hfree, bs, hfds⟩ := openFile_some hopen
      obtain ⟨hopens, hmallocs⟩ := openFile_opensFile hopen
      obtain ⟨hfalse, rfl⟩ := Prod.mk.inj hfail
      refine .inl ⟨hc.fileFd (hok.imp_right fun h0 => ?_), ?_⟩
      · rw [Sched.answers, if_pos ⟨hserve, by rw [hopens]; rfl⟩, ← hmallocs, hfalse,
          Bool.false_or] at h0
        exact h0
      · rw [hm.fds]
        change (FdTable.erase os₁.fds k).get = _
        rw [hfds, get_erase_insert _ _ hfree]
  | @headOnly os₁ os₂ k head hserve hopen hm =>
      obtain ⟨hfree, bs, hfds⟩ := openFile_some hopen
      refine .inl ⟨rfl, ?_⟩
      change (FdTable.erase os₂.fds k).get = _
      rw [hm.fds, hfds, get_erase_insert _ _ hfree]
  | @withFile os₁ os₂ k n head hserve hopen hm =>
      obtain ⟨hfree, bs, hfds⟩ := openFile_some hopen
      refine .inr ⟨k, os.serial, bs, rfl, rfl, hfree, ?_⟩
      rw [hm.fds, hfds]
      rfl

/-! ## Actions keep ownership -/

/-- A response has been set up on a connection that was waiting for a request. -/
theorem Owns.exchange (h : Owns os c) (hs : c.state = .reading) (os₁ : Os) (c₁ : Conn)
    (hcid₁ : c₁.cid = c.cid) (hfds : os₁.fds = os.fds) (heq : Equipped os₁ c₁ os' c')
    (hfd : c'.fd = c.fd) (hcid : c'.cid = c.cid)
    (hans : Answered os' { c' with state := .writing }) : Owns os' { c' with state := .writing } := by
  obtain ⟨bs, hsock⟩ := h.sock
  rw [Equipped, hfds, hcid₁] at heq
  refine ⟨?_, fun _ k hk => ?_, fun k d hget hd => ?_, fun hnot => absurd hans hnot,
    fun _ h0 => (by cases h0), fun _ hdone => ?_⟩
  · refine ⟨bs, ?_⟩
    simp only [hfd, hcid]
    rcases heq with ⟨_, hsame⟩ | ⟨k, _, _, _, _, hfree, hupd⟩
    · rw [hsame]; exact hsock
    -- the file has been opened under a descriptor that was free
    · have hne : c.fd ≠ k := by
        rintro rfl
        cases hfree.symm.trans hsock
      rw [hupd, Function.update_of_ne hne]
      exact hsock
  · simp only [hcid]
    rcases heq with ⟨hnone, _⟩ | ⟨j, s, bs', hj, _, _, hupd⟩
    · cases hnone.symm.trans hk
    · cases hj.symm.trans hk
      exact ⟨s, bs', by rw [hupd, Function.update_self]⟩
  · simp only [hcid] at hd
    simp only [hfd]
    rcases heq with ⟨_, hsame⟩ | ⟨j, s, bs', hj, _, _, hupd⟩
    · rw [hsame] at hget
      exact .inl (h.only_sock hs hget hd)
    · rcases eq_or_ne k j with rfl | hne
      · exact .inr ⟨hans, hj⟩
      · rw [hupd, Function.update_of_ne hne] at hget
        exact .inl (h.only_sock hs hget hd)
  · rcases heq with ⟨hnone, _⟩ | ⟨_, _, _, _, hhead, _⟩
    · exact hnone
    · cases hhead.symm.trans hdone

theorem Owns.receive (h : Owns os c) (bs : List UInt8) :
    Owns ((os.consume c.fd bs.length).log (.read c.cid bs)) { c with inbuf := bs } := by
  obtain ⟨old, hsock⟩ := h.sock
  have hdia : (((os.consume c.fd bs.length).log (.read c.cid bs)).dialogue c.cid).exchanges =
      (os.dialogue c.cid).exchanges := by
    rw [Os.dialogue, (log_receive os c.cid c.fd bs).2.1]
    rfl
  have hans : Answered ((os.consume c.fd bs.length).log (.read c.cid bs)) { c with inbuf := bs } ↔
      Answered os c := answered_iff rfl rfl hdia
  have hself : (os.consume c.fd bs.length).fds.get c.fd =
      some ⟨c.cid, some c.cid, .socket (old.drop bs.length)⟩ := by
    simp [Os.consume, hsock]
  refine ⟨⟨_, hself⟩, fun hans' k hk => ?_, fun k d hget hd => ?_, ?_, ?_, h.done⟩
  · obtain ⟨s, bs', hget⟩ := h.file (hans.mp hans') k hk
    have hne : k ≠ c.fd := by
      rintro rfl
      cases hsock.symm.trans hget
    exact ⟨s, bs', (get_consume_of_ne os _ hne).trans hget⟩
  · rcases eq_or_ne k c.fd with rfl | hne
    · exact .inl rfl
    · have hget' : os.fds.get k = some d := (get_consume_of_ne os _ hne).symm.trans hget
      rcases h.all k d hget' hd with hk | ⟨hans', hk⟩
      · exact absurd hk hne
      · exact .inr ⟨hans.mpr hans', hk⟩
  · rw [hans]; exact h.asking
  · rw [hans]; exact h.idle

/-- The file is sent and closed. -/
theorem Owns.bodySent (h : Owns os c) (hs : c.state = .writing) :
    Owns (closeFile os c) { c with fileFd := none, phase := .done } := by
  have hdia := congrArg Transcript.exchanges
    (dialogue_of_history (congrFun (history_closeFile os c) c.cid))
  have hans : Answered (closeFile os c) { c with fileFd := none, phase := .done } :=
    (answered_iff (c := c) rfl rfl hdia).mpr (h.answered hs)
  cases hfile : c.fileFd with
  | none =>
      have hsame : closeFile os c = os := by rw [closeFile, hfile]
      rw [hsame] at hans ⊢
      refine h.still rfl rfl hfile.symm rfl (fun _ _ => rfl) rfl rfl
  | some k =>
      obtain ⟨s, bs, hk⟩ := h.file (h.answered hs) k hfile
      obtain ⟨bs', hsock⟩ := h.sock
      have hclose : closeFile os c = os.close (some c.cid) k := by rw [closeFile, hfile]
      have hne : c.fd ≠ k := by
        rintro rfl
        cases hsock.symm.trans hk
      rw [hclose] at hans ⊢
      refine ⟨⟨bs', (os.fds.get_erase_of_ne hne).trans hsock⟩, fun _ j hj => (by cases hj),
        fun j d hget hd => .inl ?_, fun hnot => absurd hans hnot, fun _ _ => rfl, fun _ _ => rfl⟩
      rcases eq_or_ne j k with rfl | hj
      · simp [Os.close] at hget
      · have hget' : os.fds.get j = some d := (os.fds.get_erase_of_ne hj).symm.trans hget
        rcases h.all j d hget' hd with hfd | ⟨_, hfd⟩
        · exact hfd
        · exact absurd (Option.some.inj (hfile.symm.trans hfd)).symm hj

/-! ## The first response comes before the end -/

/-- The first request of the dialogue is complete and can be answered, the parser writes
outside an array, or it goes on well (`later`). -/
def Outlook (ok : Option HttpRequest → Bool) (t : Transcript) (later : Prop) : Prop :=
  match t.exchanges.head? with
  | some ex => ok ex.request = true
  | none => t.stage = .fault ∨ later

/-- With the bytes `incoming` still to come and the answers of `read` listed, a connection
whose dialogue is `t`, and which has had no request yet, is not closed before it has set up
its first response. -/
def Safe (ok : Option HttpRequest → Bool) : Transcript → List UInt8 → List ReadRes → Prop
  | _, _, [] => True
  | t, incoming, .bytes n :: rest =>
      incoming.take (min n bufferSize) = [] ∨
        Outlook ok (t.run (incoming.take (min n bufferSize)))
          (Safe ok (t.run (incoming.take (min n bufferSize)))
            (incoming.drop (incoming.take (min n bufferSize)).length) rest)
  | t, incoming, .intr :: rest => Safe ok t incoming rest
  | _, _, .again :: _ => True
  | _, _, .eof :: _ => False
  | _, _, .fail :: _ => False

instance (ok : Option HttpRequest → Bool) (t : Transcript) (later : Prop) [Decidable later] :
    Decidable (Outlook ok t later) :=
  match h : t.exchanges.head? with
  | some ex => decidable_of_iff (ok ex.request = true) (by rw [Outlook, h])
  | none => decidable_of_iff (t.stage = .fault ∨ later) (by rw [Outlook, h])

instance decidableSafe (ok : Option HttpRequest → Bool) :
    (t : Transcript) → (incoming : List UInt8) → (reads : List ReadRes) →
      Decidable (Safe ok t incoming reads)
  | _, _, [] => .isTrue trivial
  | t, incoming, .bytes n :: rest =>
      have := decidableSafe ok (t.run (incoming.take (min n bufferSize)))
        (incoming.drop (incoming.take (min n bufferSize)).length) rest
      inferInstanceAs (Decidable (_ ∨ _))
  | t, incoming, .intr :: rest => decidableSafe ok t incoming rest
  | _, _, .again :: _ => .isTrue trivial
  | _, _, .eof :: _ => .isFalse id
  | _, _, .fail :: _ => .isFalse id

/-- While an event is handled, a connection without a response will get one. -/
def Hope (site : Site) (os : Os) (c : Conn) : Prop :=
  ¬ Answered os c → ∃ incoming, os.incoming c.fd = some incoming ∧
    Outlook (os.sched.answers site) (Transcript.start.run (os.received c.cid))
      (Safe (os.sched.answers site) (Transcript.start.run (os.received c.cid)) incoming
        os.sched.reads)

/-- A connection as its event is handled. -/
structure Tenant (site : Site) (os : Os) (c : Conn) : Prop where
  attuned : Attuned os c
  buffered : Buffered os c
  owns : Owns os c
  hope : Hope site os c

/-- With its buffer used up, a connection without a request is where `Safe` looks from. -/
theorem Tenant.safe (h : Tenant site os c) (hs : c.state = .reading)
    (hin : c.inHead = c.inbuf.length) (hnot : ¬ Answered os c) :
    ∃ incoming, os.incoming c.fd = some incoming ∧
      Safe (os.sched.answers site) (os.dialogue c.cid) incoming os.sched.reads := by
  obtain ⟨incoming, hsock, hlook⟩ := h.hope hnot
  refine ⟨incoming, hsock, ?_⟩
  have hall : os.received c.cid = os.parsed c.cid := by
    rw [h.buffered.buffer, hin, List.drop_length, List.append_nil]
  rw [hall] at hlook
  change Outlook _ (os.dialogue c.cid) (Safe _ (os.dialogue c.cid) _ _) at hlook
  have hnone : (os.dialogue c.cid).exchanges = [] := by
    by_contra h0
    exact hnot h0
  simp only [Outlook, hnone, List.head?_nil] at hlook
  rcases hlook with hfault | hsafe
  · cases hfault.symm.trans (h.attuned.reading hs)
  · exact hsafe

/-- The byte that completes the first head finds memory for the response. -/
theorem Tenant.answers (h : Tenant site os c) (hs : c.state = .reading) (hnot : ¬ Answered os c)
    {b : UInt8} (hget : c.inbuf[c.inHead]? = some b) {ex : Exchange}
    (hnew : ((os.dialogue c.cid).took b (httpParserFeed c.parser c.req [b])).exchanges =
      (os.dialogue c.cid).exchanges ++ [ex]) : os.sched.answers site ex.request = true := by
  obtain ⟨incoming, _, hlook⟩ := h.hope hnot
  obtain ⟨hlt, hb⟩ := List.getElem?_eq_some_iff.mp hget
  have hdrop : c.inbuf.drop c.inHead = b :: c.inbuf.drop (c.inHead + 1) := by
    rw [List.drop_eq_getElem_cons hlt, hb]
  have hnone : (os.dialogue c.cid).exchanges = [] := by
    by_contra h0
    exact hnot h0
  have hstep : (os.dialogue c.cid).step b =
      (os.dialogue c.cid).took b (httpParserFeed c.parser c.req [b]) := by
    rw [Transcript.step, h.attuned.reading hs]
  -- the rest of the buffer adds exchanges behind the first one
  have hfirst : (Transcript.start.run (os.received c.cid)).exchanges.head? = some ex := by
    rw [h.buffered.buffer, hdrop, Transcript.run_append]
    obtain ⟨more, hmore⟩ := Transcript.run_exchanges ((os.dialogue c.cid).step b)
      (c.inbuf.drop (c.inHead + 1))
    change (((os.dialogue c.cid).step b).run _).exchanges.head? = some ex
    rw [← hmore, hstep, hnew, hnone]
    rfl
  simp only [Outlook, hfirst] at hlook
  exact hlook

theorem exchanges_of_history {cid : Nat} (h : os'.history cid = os.history cid) :
    (os'.dialogue cid).exchanges = (os.dialogue cid).exchanges :=
  congrArg Transcript.exchanges (dialogue_of_history h)

theorem fds_modEvents (r : Reactor) (c : Conn) (i : Interest) :
    (modEvents r c i).os.fds = r.os.fds := by
  unfold modEvents Os.epollMod
  simp only
  split
  · rfl
  · rfl

/-- The connection had no response to answer with, or there is memory for the first. -/
theorem Tenant.ready (h : Tenant site os c) (hs : c.state = .reading) {b : UInt8}
    (hget : c.inbuf[c.inHead]? = some b) (ex : Exchange)
    (hnew : ((os.dialogue c.cid).took b (httpParserFeed c.parser c.req [b])).exchanges =
      (os.dialogue c.cid).exchanges ++ [ex]) :
    c.fileFd = none ∨ os.sched.answers site ex.request = true := by
  by_cases hans : Answered os c
  · exact .inl (h.owns.idle hans hs)
  · exact .inr (h.answers hs hans hget hnew)

theorem Action.owns (h : Action site (r, c) (r', c')) (ht : Tenant site r.os c) :
    Owns r'.os c' := by
  obtain ⟨hatt, hbuf, hown, hhope⟩ := id ht
  have hdone : c.state = .writing → c.phase = .done → c.fileFd = none := hown.done
  cases h with
  | @receive _ _ n rest incoming bs =>
      have hown' : Owns (r.os.setReads rest) c := hown.still rfl rfl rfl rfl hdone rfl rfl
      exact hown'.receive bs
  | @parse _ _ b p req hs hget hfeed =>
      refine hown.still rfl rfl rfl rfl hdone rfl ?_
      rw [hatt.dialogue_step hs (parsed_log_parsed ..), hfeed]
      rfl
  | @request _ _ b p req os' c' hs hget hfeed hbuild =>
      have hset := buildResponse_setUp hbuild
      have hbuilt := buildResponse_built site hbuild
      -- no file is open when a response is set up: the one before it has been sent
      have hready := ht.ready hs hget ⟨_, some req⟩ (by rw [hfeed]; rfl)
      have hparsed : os'.parsed c.cid = r.os.parsed c.cid ++ [b] :=
        congrArg History.parsed (history_request hbuild)
      refine hown.exchange hs _ _ rfl rfl (hbuilt.equipped hready) hset.fd hset.cid ?_
      rw [Answered, show Conn.cid { c' with state := .writing } = c.cid from hset.cid,
        hatt.dialogue_step hs hparsed, hfeed]
      simp [Transcript.took]
  | @reject _ _ b p req os' c' hs hget hfeed hbuild =>
      have hset := buildErrorResponse_setUp hbuild
      obtain ⟨hm, hplain⟩ := buildErrorResponse_plain hbuild
      have hready := ht.ready hs hget ⟨_, none⟩ (by rw [hfeed]; rfl)
      have hparsed : os'.parsed c.cid = r.os.parsed c.cid ++ [b] :=
        congrArg History.parsed (history_reject hbuild)
      refine hown.exchange hs (r.os.log (.parsed c.cid b)) c rfl rfl
        (.inl ⟨hplain.fileFd hready, by rw [hm.fds]⟩) hset.fd hset.cid ?_
      rw [Answered, show Conn.cid { c' with state := .writing } = c.cid from hset.cid,
        hatt.dialogue_step hs hparsed, hfeed]
      simp [Transcript.took]
  | headSent hs =>
      refine hown.still rfl rfl rfl rfl (fun _ hdone' => ?_) rfl rfl
      -- phase `RSP_DONE` right after the head means that there is no file
      cases hfile : c.fileFd with
      | none => rfl
      | some k =>
          simp only [hfile] at hdone'
          cases hdone'
  | sendHead =>
      exact hown.still rfl rfl rfl rfl hdone rfl (by simp [Os.dialogue, Ev.parse])
  | sendBody =>
      exact hown.still rfl rfl rfl rfl hdone rfl (by simp [Os.dialogue, Ev.parse])
  | bodySent hs => exact hown.bodySent hs
  | park =>
      exact hown.still rfl rfl rfl rfl hdone (by rw [fds_modEvents])
        (by simp only [Os.dialogue, Os.parsed, trace_modEvents])
  | listen =>
      exact hown.still rfl rfl rfl rfl hdone (by rw [fds_modEvents])
        (by simp only [Os.dialogue, Os.parsed, trace_modEvents])
  | next hs hphase _ =>
      -- the connection has answered, and goes on to its next request
      have hans := hown.answered hs
      exact ⟨hown.sock, hown.file, hown.all, fun hnot => absurd hans hnot,
        fun _ _ => hdone hs hphase, fun h0 => (by cases h0)⟩
  | restart => exact hown.still rfl rfl rfl rfl (fun _ h0 => (by cases h0)) rfl rfl
  | _ => exact hown.still rfl rfl rfl rfl hdone rfl rfl

/-- The prospects of a connection stay good. -/
theorem Hope.still (h : Hope site os c) (hfd : c'.fd = c.fd) (hcid : c'.cid = c.cid)
    (hdia : (os'.dialogue c.cid).exchanges = (os.dialogue c.cid).exchanges)
    (hsock : os'.incoming c.fd = os.incoming c.fd) (hsched : os'.sched = os.sched)
    (hrec : os'.received c.cid = os.received c.cid) : Hope site os' c' := by
  intro hnot
  rw [answered_iff hcid rfl hdia] at hnot
  rw [hfd, hcid, hsock, hsched, hrec]
  exact h hnot

/-- A writing connection has had its response. -/
theorem Owns.hope (h : Owns os c) (hs : c.state = .writing) : Hope site os c :=
  fun hnot => absurd (h.answered hs) hnot

theorem Tenant.receive (h : Tenant site os c) (hs : c.state = .reading)
    (hempty : c.inbuf = [] ∧ c.inHead = 0) {n : Nat} {rest : List ReadRes}
    (hreads : os.sched.reads = .bytes n :: rest) {incoming bs : List UInt8}
    (hsock : os.incoming c.fd = some incoming) (hbs : bs = incoming.take (min n bufferSize))
    (hne : bs ≠ []) :
    Hope site (((os.setReads rest).consume c.fd bs.length).log (.read c.cid bs))
      { c with inbuf := bs } := by
  intro hnot
  obtain ⟨hrec, hpar, _⟩ := log_receive (os.setReads rest) c.cid c.fd bs
  have hnot' : ¬ Answered os c := by
    rw [Answered, Os.dialogue, hpar] at hnot
    exact hnot
  have hin : c.inHead = c.inbuf.length := by rw [hempty.1, hempty.2]; rfl
  -- with an empty buffer all that was read has been parsed
  have hall : os.received c.cid = os.parsed c.cid := by
    rw [h.buffered.buffer, hin, List.drop_length, List.append_nil]
  obtain ⟨incoming', hsock', hsafe⟩ := h.safe hs hin hnot'
  cases hsock.symm.trans hsock'
  rw [hreads, Safe, ← hbs] at hsafe
  -- what was promised of the next bytes now holds of those in the buffer
  have hlook := hsafe.resolve_left hne
  refine ⟨incoming.drop bs.length, incoming_consume hsock, ?_⟩
  have hrun : Transcript.start.run ((((os.setReads rest).consume c.fd bs.length).log
      (.read c.cid bs)).received c.cid) = (os.dialogue c.cid).run bs := by
    rw [hrec, Transcript.run_append]
    change (Transcript.start.run (os.received c.cid)).run bs = _
    rw [hall]
    rfl
  have hsched : (((os.setReads rest).consume c.fd bs.length).log (.read c.cid bs)).sched =
      { os.sched with reads := rest } := by
    rw [consume_eq]
    rfl
  simp only [hrun, hsched]
  exact hlook

theorem Tenant.retry (h : Tenant site os c) {rest : List ReadRes}
    (hreads : os.sched.reads = .intr :: rest) : Hope site (os.setReads rest) c := by
  intro hnot
  obtain ⟨incoming, hsock, hlook⟩ := h.hope hnot
  refine ⟨incoming, hsock, ?_⟩
  rw [hreads, Safe] at hlook
  exact hlook

theorem Action.tenant (h : Action site (r, c) (r', c')) (ht : Tenant site r.os c) :
    Tenant site r'.os c' := by
  have hown := h.owns ht
  refine ⟨h.attuned ht.attuned, h.buffered ht.buffered, hown, ?_⟩
  cases h with
  | rewind => exact ht.hope.still rfl rfl rfl rfl rfl rfl
  | receive hs hempty hreads hsock hbs hne => exact ht.receive hs hempty hreads hsock hbs hne
  | retry hs hreads => exact ht.retry hreads
  | parse hs hget hfeed =>
      refine ht.hope.still rfl rfl ?_ rfl rfl (by simp [Ev.received])
      rw [ht.attuned.dialogue_step hs (parsed_log_parsed ..), hfeed]
      rfl
  | answers => exact ht.hope
  | next hs => exact fun hnot => absurd (ht.owns.answered hs) hnot
  | listen hs =>
      refine ht.hope.still rfl rfl ?_ ?_ (sched_modEvents ..) ?_
      · simp only [Os.dialogue, Os.parsed, trace_modEvents]
      · simp only [Os.incoming, fds_modEvents]
      · simp only [Os.received, trace_modEvents]
  | request => exact hown.hope rfl
  | reject => exact hown.hope rfl
  | sendHead _ hs => exact hown.hope hs
  | headSent hs => exact hown.hope hs
  | sendBody _ hs => exact hown.hope hs
  | bodySent hs => exact hown.hope hs
  | park hs => exact hown.hope hs
  | restart hs => exact hown.hope hs

theorem Actions.tenant (h : Actions site (r, c) (r', c')) (ht : Tenant site r.os c) :
    Tenant site r'.os c' :=
  Actions.rule (I := fun r c => Tenant site r.os c) (fun _ _ _ _ hact hI => hact.tenant hI) h ht

/-- What outlasts a connection's calls outlasts the actions of its handlers. -/
theorem Actions.stable (h : Actions site (r, c) (r', c')) (ht : Tenant site r.os c)
    {P : Os → Prop} (hP : Stable site c.cid c.fd P) (hos : P r.os) : P r'.os := by
  refine (Actions.rule (I := fun r' c' => Tenant site r'.os c' ∧ c'.cid = c.cid ∧ c'.fd = c.fd ∧
    P r'.os) ?_ h ⟨ht, rfl, rfl, hos⟩).2.2.2
  rintro r₁ c₁ r₂ c₂ hact ⟨ht₁, hcid, hfd, hP₁⟩
  refine ⟨hact.tenant ht₁, hact.confined.cid.trans hcid, hact.confined.fd.trans hfd, ?_⟩
  refine hact.stable (by rw [hcid, hfd]; exact hP) (.inl ht₁.owns.sock) (fun hs k hk => ?_) hP₁
  exact .inr (ht₁.owns.file (ht₁.owns.answered hs) k hk)

/-- A connection that a handler closes has had its first response, and holds what its record
says. -/
theorem Tenant.closing (h : Tenant site r.os c) {s : Sched} (hwhy : Closing s r c) :
    Answered r.os c := by
  by_contra hnot
  have hreading := h.owns.asking hnot
  cases hwhy with
  | eof hs hin hnext =>
      obtain ⟨_, _, hsafe⟩ := h.safe hs hin hnot
      cases hreads : r.os.sched.reads with
      | nil => rw [hreads] at hnext; cases hnext
      | cons a rest =>
          rw [hreads] at hnext hsafe
          cases hnext
          exact hsafe
  | broken hs hin hnext =>
      obtain ⟨_, _, hsafe⟩ := h.safe hs hin hnot
      cases hreads : r.os.sched.reads with
      | nil => rw [hreads] at hnext; cases hnext
      | cons a rest =>
          rw [hreads] at hnext hsafe
          cases hnext
          exact hsafe
  | lost hs hsock =>
      obtain ⟨bs, hget⟩ := h.owns.sock
      rw [Os.incoming, hget] at hsock
      cases hsock
  | failed hs => cases hs.symm.trans hreading
  | last hs => cases hs.symm.trans hreading

end HttpServer
