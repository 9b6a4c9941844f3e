import HttpServer.Reactor.Delimit
import HttpServer.Reactor.Isolation

set_option autoImplicit false

/-! # Requests with bodies

A client may send a body after the head of a request, and announces its length in a
`Content-Length` header. The server does not read that header: the byte after a head is the
first byte of the next head to it. So a body is in order only where the dialogue ends before
it.
-/

namespace HttpServer

open CLib

/-! ## Messages -/

/-- What a client sends for one request. -/
structure Message where
  head : List UInt8
  body : List UInt8
  deriving DecidableEq, Repr

/-- The length the header lines of a request announce for its body. -/
def declaredLength (req : HttpRequest) : Nat :=
  (req.headerList.findSome? (fun line =>
    if strncaseeq line (ascii "content-length:") 15 then readDecimal (line.drop 16)
    else none)).getD 0

/-- The bytes of the messages, those of a body marked. -/
def marked (ms : List Message) : List (UInt8 × Bool) :=
  ms.flatMap (fun m => m.head.map (fun b => (b, false)) ++ m.body.map (fun b => (b, true)))

def wire (ms : List Message) : List UInt8 := (marked ms).map Prod.fst

/-- The heads alone, one after the other. -/
def heads (ms : List Message) : List UInt8 := ms.flatMap Message.head

/-- A conversation: sent without their bodies, the requests are all accepted on one
connection; and every body has the length its request announces. -/
structure Conversation (ms : List Message) : Prop where
  heads_eq : (Transcript.start.run (heads ms)).exchanges.map Exchange.head = ms.map Message.head
  accepted : ∀ e ∈ (Transcript.start.run (heads ms)).exchanges, e.request.isSome
  sound : (Transcript.start.run (heads ms)).stage ≠ .fault
  nonempty : ∀ m ∈ ms, m.head ≠ []
  lengths : ∀ m ∈ ms, m.body.length = declaredLength (requestAlone m.head)

/-- The run takes the heads of the messages for its requests, answers each of them, and feeds
no byte of a body to the parser. -/
structure FramesBodies (site : Site) (ms : List Message) (s : Session (wire ms)) : Prop where
  requests : (s.exchanges site).map Exchange.head = ms.map Message.head
  answers : s.sent site = (Transcript.start.run (heads ms)).output site
  fed : ∀ x ∈ (marked ms).take (s.parsed site).length, x.2 = false

/-- Only the last message has a body, and the connection is closed after its answer. -/
def BodyAtEnd (ms : List Message) : Prop :=
  ∀ before m after, ms = before ++ m :: after → m.body ≠ [] →
    after = [] ∧ (Transcript.start.run (heads ms)).stage = .ended

/-! ## Bytes of heads and bodies -/

theorem marked_append (ms ns : List Message) : marked (ms ++ ns) = marked ms ++ marked ns :=
  List.flatMap_append

theorem marked_cons (m : Message) (ms : List Message) :
    marked (m :: ms) = m.head.map (fun b => (b, false)) ++
      (m.body.map (fun b => (b, true)) ++ marked ms) := by
  rw [marked, List.flatMap_cons, List.append_assoc]
  rfl

theorem heads_cons (m : Message) (ms : List Message) : heads (m :: ms) = m.head ++ heads ms :=
  List.flatMap_cons

theorem heads_append (ms ns : List Message) : heads (ms ++ ns) = heads ms ++ heads ns :=
  List.flatMap_append

theorem wire_length (ms : List Message) : (wire ms).length = (marked ms).length :=
  List.length_map _

/-- Without bodies only the heads are sent. -/
theorem marked_of_bare {ms : List Message} (h : ∀ m ∈ ms, m.body = []) :
    marked ms = (heads ms).map (fun b => (b, false)) := by
  induction ms with
  | nil => rfl
  | cons m ms ih =>
      rw [marked_cons, h m List.mem_cons_self, ih (fun x hx => h x (List.mem_cons_of_mem m hx)),
        heads_cons, List.map_append]
      rfl

/-- The bytes that are not marked are those of the heads. -/
theorem unmarked_heads (ms : List Message) :
    ((marked ms).filter (fun x => !x.2)).length = (heads ms).length := by
  induction ms with
  | nil => rfl
  | cons x ms ih =>
      rw [marked_cons, heads_cons, List.filter_append, List.filter_append, List.length_append,
        List.length_append, ih, List.length_append]
      simp [List.filter_map, Function.comp_def]

/-- As long as no marked byte is reached, no more than the heads up to the first body is. -/
theorem unmarked_length {before : List Message} {m : Message} {after : List Message} {n : Nat}
    (hbody : m.body ≠ []) (hn : n ≤ (marked (before ++ m :: after)).length)
    (h : ∀ x ∈ (marked (before ++ m :: after)).take n, x.2 = false) :
    n ≤ (heads (before ++ [m])).length := by
  have hcount : (((marked (before ++ m :: after)).take n).filter (fun x => !x.2)).length = n := by
    rw [List.filter_eq_self.mpr (fun x hx => by simp [h x hx]), List.length_take,
      Nat.min_eq_left hn]
  -- a marked byte stands right after the head of `m`
  have hsplit : n ≤ (marked before ++ m.head.map (fun b => (b, false))).length := by
    obtain ⟨b, bs, hb⟩ := List.exists_cons_of_ne_nil hbody
    by_contra hlt
    have hmem : (b, true) ∈ (marked (before ++ m :: after)).take n := by
      have htext : marked (before ++ m :: after) =
          (marked before ++ m.head.map (fun b => (b, false))) ++
            ((b, true) :: (bs.map (fun b => (b, true)) ++ marked after)) := by
        rw [marked_append, marked_cons, hb, List.append_assoc]
        rfl
      rw [htext, List.take_append, List.mem_append]
      refine .inr ?_
      obtain ⟨k, hk⟩ : ∃ k, n - (marked before ++ m.head.map (fun b => (b, false))).length =
        k + 1 := ⟨n - (marked before ++ m.head.map (fun b => (b, false))).length - 1, by omega⟩
      rw [hk, List.take_succ_cons]
      exact List.mem_cons_self
    exact absurd (h _ hmem) (by simp)
  have hle : (((marked (before ++ m :: after)).take n).filter (fun x => !x.2)).length ≤
      ((marked before ++ m.head.map (fun b => (b, false))).filter (fun x => !x.2)).length := by
    refine (List.Sublist.filter _ ?_).length_le
    have htake : (marked (before ++ m :: after)).take n =
        (marked before ++ m.head.map (fun b => (b, false))).take n := by
      rw [marked_append, marked_cons, ← List.append_assoc, List.take_append_of_le_length hsplit]
    rw [htake]
    exact List.take_sublist n _
  rw [hcount, List.filter_append, List.length_append, unmarked_heads] at hle
  rw [heads_append, List.length_append]
  simpa [heads, List.filter_map, Function.comp_def] using hle

/-! ## What is parsed -/

variable {stream : List UInt8} {site : Site}

/-- When nothing is left to send, the dialogue is the one over the bytes fed to the parser; and
while it goes on, these are all the bytes read. -/
theorem Session.parsed_of_quiet (s : Session stream) (hquiet : s.Quiet site) :
    Transcript.start.run (s.received site) = Transcript.start.run (s.parsed site) ∧
    ∀ p req, (Transcript.start.run (s.received site)).stage = .parsing p req →
      s.parsed site = s.received site := by
  have hgone : Finished site stream (s.final site).os s.connId →
      Transcript.start.run (s.received site) = Transcript.start.run (s.parsed site) ∧
      ∀ p req, (Transcript.start.run (s.received site)).stage = .parsing p req →
        s.parsed site = s.received site := by
    intro hfin
    have hdia := hfin.dialogue_received
    refine ⟨hdia, fun p req hstage => hfin.open_ p req ?_⟩
    rw [← hdia]
    exact hstage
  obtain ⟨hrest, hwatched⟩ := s.watched site
  cases hwatched.standing with
  | live c hcr hc hserve hcid =>
      have heq := (hserve.reading_of_quiet (hrest.orderly hcr _ c hc).2 (hquiet c hc)).2
      rw [hcid] at heq
      have heq' : s.parsed site = s.received site := heq
      exact ⟨by rw [heq'], fun _ _ _ => heq'⟩
  | gone hnone hfin => exact hgone hfin
  | fault f _ hfin _ => exact hgone hfin

/-! ## The result -/

theorem answered_of_heads {t : Transcript} {ms : List Message}
    (h : t.exchanges.map Exchange.head = ms.map Message.head) : t.answered = heads ms := by
  rw [Transcript.answered, List.flatMap_def, h, heads, List.flatMap_def]

/-- Then the messages are their heads, and a body that comes after the end of the dialogue. -/
theorem BodyAtEnd.marked_eq {ms : List Message} (h : BodyAtEnd ms) :
    ∃ tail : List UInt8,
      marked ms = (heads ms).map (fun b => (b, false)) ++ tail.map (fun b => (b, true)) ∧
      (tail = [] ∨ (Transcript.start.run (heads ms)).stage = .ended) := by
  by_cases hbare : ∀ m ∈ ms, m.body = []
  · refine ⟨[], ?_, .inl rfl⟩
    rw [marked_of_bare hbare, List.map_nil, List.append_nil]
  · obtain ⟨m, hm, hbody⟩ : ∃ m ∈ ms, m.body ≠ [] := by
      by_contra hnone
      exact hbare (fun m hm => by_contra fun h0 => hnone ⟨m, hm, h0⟩)
    obtain ⟨before, after, hms⟩ := List.append_of_mem hm
    obtain ⟨rfl, hended⟩ := h before m after hms hbody
    have hfront : ∀ x ∈ before, x.body = [] := by
      intro x hx
      by_contra hne
      obtain ⟨b₁, b₂, rfl⟩ := List.append_of_mem hx
      have hlast := (h b₁ x (b₂ ++ [m]) (by rw [hms]; simp) hne).1
      simp at hlast
    refine ⟨m.body, ?_, .inr hended⟩
    rw [hms, marked_append, marked_of_bare hfront, marked_cons, heads_append, heads_cons]
    simp [marked, heads]

/-- The dialogue over the messages is that over their heads. -/
theorem BodyAtEnd.run_wire {ms : List Message} (h : BodyAtEnd ms) :
    Transcript.start.run (wire ms) = Transcript.start.run (heads ms) := by
  obtain ⟨tail, hmarked, hend⟩ := h.marked_eq
  have hwire : wire ms = heads ms ++ tail := by
    rw [wire, hmarked, List.map_append, List.map_map, List.map_map]
    exact congrArg₂ _ (List.map_id _) (List.map_id _)
  rw [hwire]
  rcases hend with rfl | hended
  · rw [List.append_nil]
  · rw [Transcript.run_append, Transcript.run_of_over hended]

/-- A run that reads as far as the dialogue goes has the dialogue over the whole stream. -/
theorem Session.run_received (s : Session stream)
    (hall : s.received site = stream ∨ (Transcript.start.run (s.received site)).stage = .ended) :
    Transcript.start.run (s.received site) = Transcript.start.run stream := by
  rcases hall with hall | hall
  · rw [hall]
  · refine (Transcript.run_of_not_parsing (s.conforms site).received (fun p req h0 => ?_)).symm
    rw [hall] at h0
    cases h0

theorem FramesBodies.bodyAtEnd {ms : List Message} {s : Session (wire ms)}
    (h : FramesBodies site ms s) (hconv : Conversation ms) (hquiet : s.Quiet site)
    (hall : s.received site = wire ms ∨
      (Transcript.start.run (s.received site)).stage = .ended) : BodyAtEnd ms := by
  intro before m after hms hbody
  obtain ⟨hdia, hopen⟩ := s.parsed_of_quiet hquiet
  have hprefix : (s.parsed site).length ≤ (marked ms).length :=
    calc (s.parsed site).length
        ≤ (s.received site).length := (s.conforms site).parsed.length_le
      _ ≤ (wire ms).length := (s.conforms site).received.length_le
      _ = (marked ms).length := wire_length ms
  -- the exchanges are the messages, so all heads have been parsed ...
  have hanswered : (Transcript.start.run (s.received site)).answered = heads ms :=
    answered_of_heads h.requests
  have hfront : heads ms <+: s.parsed site := by
    rw [← hanswered, hdia]
    exact (Transcript.cut_run _).front
  have hfed := h.fed
  generalize hL : (s.parsed site).length = n at hprefix hfed
  -- ... and no byte of the body, which begins behind the head of `m`
  have hshort : n ≤ (heads (before ++ [m])).length := by
    rw [hms] at hprefix hfed
    exact unmarked_length hbody hprefix hfed
  have hlen : (heads ms).length = (heads (before ++ [m])).length + (heads after).length := by
    rw [hms, List.append_cons, heads_append, List.length_append]
  have hle := hfront.length_le
  have hafter : after = [] := by
    cases after with
    | nil => rfl
    | cons x rest =>
        have hpos := List.length_pos_iff.mpr (hconv.nonempty x (by simp [hms]))
        rw [heads_cons, List.length_append] at hlen
        omega
  refine ⟨hafter, ?_⟩
  have hparsed : s.parsed site = heads ms := by
    refine (hfront.eq_of_length_le ?_).symm
    omega
  rw [hparsed] at hdia
  cases hstage : (Transcript.start.run (heads ms)).stage with
  | ended => rfl
  | fault => exact absurd hstage hconv.sound
  | parsing p req =>
      -- then everything was read and parsed, the body as well
      have hread := hopen p req (by rw [hdia]; exact hstage)
      rcases hall with hall | hall
      · have hbytes : (marked ms).length = (heads ms).length := by
          have heq : heads ms = wire ms := by rw [← hparsed, hread, hall]
          rw [heq, wire_length]
        have hself : (marked ms).filter (fun x => !x.2) = marked ms :=
          List.filter_sublist.eq_of_length ((unmarked_heads ms).trans hbytes.symm)
        obtain ⟨b, bs, hb⟩ := List.exists_cons_of_ne_nil hbody
        have hmem : (b, true) ∈ marked ms := by
          rw [hms, marked_append, marked_cons, hb]
          simp
        rw [← hself] at hmem
        simp at hmem
      · rw [hdia, hstage] at hall
        cases hall

theorem BodyAtEnd.framesBodies {ms : List Message} {s : Session (wire ms)} (h : BodyAtEnd ms)
    (hconv : Conversation ms) (hquiet : s.Quiet site)
    (hall : s.received site = wire ms ∨
      (Transcript.start.run (s.received site)).stage = .ended) : FramesBodies site ms s := by
  have hconf := s.conforms site
  have hsame : Transcript.start.run (s.received site) = Transcript.start.run (heads ms) :=
    (s.run_received hall).trans h.run_wire
  refine ⟨by rw [Session.exchanges, hsame, hconv.heads_eq],
    by rw [hconf.complete hquiet, hsame], ?_⟩
  obtain ⟨tail, hmarked, hend⟩ := h.marked_eq
  have hle : (s.parsed site).length ≤ (heads ms).length := by
    rcases hend with rfl | hended
    · have hlen : (s.parsed site).length ≤ (marked ms).length :=
        calc (s.parsed site).length
            ≤ (s.received site).length := hconf.parsed.length_le
          _ ≤ (wire ms).length := hconf.received.length_le
          _ = (marked ms).length := wire_length ms
      rw [hmarked] at hlen
      simpa using hlen
    · have hstop := (hconf.stops (by rw [hsame]; exact hended)).length_le
      rwa [hsame, answered_of_heads hconv.heads_eq] at hstop
  intro x hx
  generalize (s.parsed site).length = n at hle hx
  rw [hmarked, List.take_append_of_le_length (by simpa using hle)] at hx
  obtain ⟨b, _, rfl⟩ := List.mem_map.mp (List.mem_of_mem_take hx)
  rfl

/-- **A request body is in order only at the end.** Take a session that has read everything a
conversation sends, or all up to the end of the dialogue, and has nothing left to send. It
takes exactly the heads for requests, answers each of them once and feeds no byte of a body to
the parser if and only if no request but the last has a body, and the last one only if the
connection is closed after its answer. -/
theorem bodies_framed_iff (site : Site) (ms : List Message) (hconv : Conversation ms)
    (s : Session (wire ms)) (hquiet : s.Quiet site)
    (hall : s.received site = wire ms ∨
      (Transcript.start.run (s.received site)).stage = .ended) :
    FramesBodies site ms s ↔ BodyAtEnd ms :=
  ⟨fun h => h.bodyAtEnd hconv hquiet hall, fun h => h.framesBodies hconv hquiet hall⟩

/-! Two requests on one connection, of which the second has a body and closes it; and one
that keeps it open, whose body is taken for the next request. -/

def getThenPost : List Message :=
  [⟨ascii "GET / HTTP/1.1\nHost: x\n\n", []⟩,
    ⟨ascii "POST / a\nContent-Length: 2\n\n", ascii "hi"⟩]

def smuggled : List Message :=
  [⟨ascii "POST / HTTP/1.1\nContent-Length: 10\n\n", ascii "PUT /q a\n\n"⟩]

theorem bodies_framed_closing :
    ((promptSession (wire getThenPost)).exchanges emptySite).length = 2 ∧
      FramesBodies emptySite getThenPost (promptSession (wire getThenPost)) := by
  refine ⟨by decide +kernel, (bodies_framed_iff emptySite getThenPost ⟨?_, ?_, ?_, ?_, ?_⟩ _
    (Session.quiet_of_closed _ ?_) (.inl ?_)).mpr ?_⟩
  · decide +kernel
  · decide +kernel
  · decide +kernel
  · decide +kernel
  · decide +kernel
  · decide +kernel
  · decide +kernel
  · intro before m after hms hbody
    refine ⟨?_, by decide +kernel⟩
    cases before with
    | nil =>
        cases hms
        exact absurd rfl hbody
    | cons x before =>
        have hlen := congrArg List.length hms
        simp only [getThenPost, List.length_cons, List.length_append, List.length_nil] at hlen
        exact List.length_eq_zero_iff.mp (by omega)

theorem not_framed_smuggled :
    ¬ ∀ (site : Site) (ms : List Message), Conversation ms → ∀ s : Session (wire ms),
      s.Quiet site → s.received site = wire ms → FramesBodies site ms s := by
  intro h
  have hframes := h emptySite smuggled
    ⟨by decide +kernel, by decide +kernel, by decide +kernel, by decide +kernel, by decide +kernel⟩
    (promptSession (wire smuggled)) (Session.quiet_of_closed _ (by decide +kernel))
    (by decide +kernel)
  have hreq := congrArg List.length hframes.requests
  revert hreq
  decide +kernel

end HttpServer
