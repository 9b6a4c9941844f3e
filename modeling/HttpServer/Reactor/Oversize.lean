import HttpServer.Reactor.Delimit
import HttpServer.Parser.Columns

set_option autoImplicit false

/-! # Oversized request heads

`conn_read` answers `413` when its buffer is full and no head is complete. The buffer is started
over whenever all of it has been parsed, though, and the parser takes every byte of a head that
is not complete: where the test stands the buffer is empty. A head that is longer than the
buffer is read on as far as the parser lets it, and the parser limits its fields only. Blanks
after a colon belong to no field.
-/

namespace HttpServer

open CLib

/-! ## Bytes and chunks -/

/-- The first byte of a chunk: the head goes on behind it, or the call returns there. -/
theorem feed_cons {req₀ : HttpRequest} {p : HttpParser} {req : HttpRequest} {s : Scan}
    (h : Agrees req₀ p req s) (b : UInt8) (bs : List UInt8) :
    (∃ p' req' s', httpParserFeed p req [b] = .ok (.incomplete, p', req') ∧
      Agrees req₀ p' req' s' ∧ httpParserFeed p req (b :: bs) = httpParserFeed p' req' bs) ∨
    httpParserFeed p req (b :: bs) = httpParserFeed p req [b] ∧
      feedStatus (httpParserFeed p req [b]) ≠ some .incomplete := by
  -- the parser has not returned before, so a call of it is its loop
  have hfeed : ∀ t, httpParserFeed p req t = feedLoop p req t := by
    intro t
    rw [httpParserFeed, h.1]
    rfl
  have happ : feedLoop p req (b :: bs) = _ := feedLoop_append rfl bs [b] h
  have hm : MatchesRun req₀ (feedLoop p req [b]) (s.run (maxHeaders - req₀.numHeaders) [b]) :=
    feedLoop_matches rfl [b] h
  rw [hfeed, hfeed, happ]
  cases hs : s.run (maxHeaders - req₀.numHeaders) [b] with
  | more s' =>
      rw [hs] at hm
      obtain ⟨p', req', hf, h'⟩ := hm
      refine .inl ⟨p', req', s', hf, h', ?_⟩
      rw [hf, httpParserFeed, h'.1]
      rfl
  | head hd =>
      rw [hs, MatchesRun] at hm
      split at hm
      · obtain ⟨p', req', hf, _⟩ := hm
        rw [hf]
        exact .inr ⟨rfl, by simp [feedStatus]⟩
      · obtain ⟨p', req', hf⟩ := hm
        rw [hf]
        exact .inr ⟨rfl, by simp [feedStatus]⟩
  | reject =>
      rw [hs] at hm
      obtain ⟨p', req', hf⟩ := hm
      rw [hf]
      exact .inr ⟨rfl, by simp [feedStatus]⟩
  | fault f =>
      rw [hs] at hm
      rw [show feedLoop p req [b] = .error f from hm]
      exact .inr ⟨rfl, by simp [feedStatus]⟩

/-- A dialogue whose parser rejects the bytes `bs` is over before their end. -/
theorem run_rejected {req₀ : HttpRequest} (bs : List UInt8) :
    ∀ {t : Transcript} {p : HttpParser} {req : HttpRequest} {s : Scan},
      t.stage = .parsing p req → Agrees req₀ p req s →
      feedStatus (httpParserFeed p req bs) = some .error →
      ∃ a, a <+: bs ∧ t.run a = ⟨.ended, [], t.exchanges ++ [⟨t.partialHead ++ a, none⟩]⟩ := by
  induction bs with
  | nil =>
      intro t p req s _ h herr
      rw [httpParserFeed, h.1] at herr
      cases herr
  | cons b bs ih =>
      intro t p req s hstage h herr
      have hrun : t.run [b] = t.took b (httpParserFeed p req [b]) := by
        rw [Transcript.run, List.foldl_cons, List.foldl_nil, Transcript.step, hstage]
      -- the head goes on behind the byte, or is rejected with it
      rcases feed_cons h b bs with ⟨p', req', s', hb, h', hcons⟩ | ⟨hcons, _⟩
      · rw [hb] at hrun
        obtain ⟨a, ha, hend⟩ := ih (t := t.run [b]) (by rw [hrun]; rfl) h' (by rw [← hcons]; exact herr)
        refine ⟨b :: a, List.prefix_cons_inj b |>.mpr ha, ?_⟩
        change (t.run [b]).run a = _
        rw [hend, hrun]
        simp [Transcript.took]
      · rw [hcons] at herr
        refine ⟨[b], List.prefix_cons_inj b |>.mpr List.nil_prefix, ?_⟩
        rw [hrun]
        cases hb : httpParserFeed p req [b] with
        | error f => rw [hb] at herr; cases herr
        | ok out =>
            obtain ⟨st, p', req'⟩ := out
            rw [hb] at herr
            cases herr
            rfl

/-- A head that is not complete goes on with the next bytes. -/
theorem feed_append {req₀ req : HttpRequest} {p : HttpParser} {a : List UInt8}
    (h : httpParserFeed httpParserInit req₀ a = .ok (.incomplete, p, req)) (b : List UInt8) :
    httpParserFeed httpParserInit req₀ (a ++ b) = httpParserFeed p req b := by
  have happ : httpParserFeed httpParserInit req₀ (a ++ b) = _ :=
    feedLoop_append rfl b a (agrees_init req₀)
  have hm : MatchesRun req₀ (httpParserFeed httpParserInit req₀ a)
      ((Scan.method []).run (maxHeaders - req₀.numHeaders) a) :=
    httpParserFeed_matches rfl (agrees_init req₀) a
  have hloop : feedLoop httpParserInit req₀ a = .ok (.incomplete, p, req) := h
  rw [happ, hloop]
  rw [h] at hm
  cases hs : (Scan.method []).run (maxHeaders - req₀.numHeaders) a with
  | more s =>
      rw [hs] at hm
      obtain ⟨p', req', heq, hag⟩ := hm
      cases heq
      rw [httpParserFeed, hag.1]
      rfl
  -- in all other states the parser would have returned something else
  | head hd =>
      rw [hs, MatchesRun] at hm
      split at hm
      · obtain ⟨p', req', heq, _⟩ := hm
        cases heq
      · obtain ⟨p', req', heq⟩ := hm
        cases heq
  | reject =>
      rw [hs] at hm
      obtain ⟨p', req', heq⟩ := hm
      cases heq
  | fault f => rw [hs] at hm; cases hm

/-- Once the parser has returned, what comes behind is not looked at. -/
theorem feed_returned {req₀ : HttpRequest} {a : List UInt8}
    (h : feedStatus (httpParserFeed httpParserInit req₀ a) ≠ some .incomplete) (b : List UInt8) :
    feedStatus (httpParserFeed httpParserInit req₀ (a ++ b)) =
      feedStatus (httpParserFeed httpParserInit req₀ a) := by
  have happ : httpParserFeed httpParserInit req₀ (a ++ b) = _ :=
    feedLoop_append rfl b a (agrees_init req₀)
  have hloop : httpParserFeed httpParserInit req₀ a = feedLoop httpParserInit req₀ a := rfl
  rw [hloop] at h ⊢
  rw [happ]
  cases hf : feedLoop httpParserInit req₀ a with
  | error f => rfl
  | ok out =>
      obtain ⟨st, p, req⟩ := out
      cases st with
      | incomplete => exact absurd (by rw [hf]; rfl) h
      | done => rfl
      | error => rfl

/-- What is not complete has no complete part. -/
theorem feed_incomplete_prefix {req₀ : HttpRequest} {a c : List UInt8} (hpre : a <+: c)
    (h : feedStatus (httpParserFeed httpParserInit req₀ c) = some .incomplete) :
    feedStatus (httpParserFeed httpParserInit req₀ a) = some .incomplete := by
  obtain ⟨b, rfl⟩ := hpre
  by_contra hreturned
  rw [feed_returned hreturned b] at h
  exact hreturned h

/-- What is rejected stays rejected, whatever comes after it. -/
theorem feed_rejected {req₀ : HttpRequest} {a : List UInt8}
    (h : feedStatus (httpParserFeed httpParserInit req₀ a) = some .error) (b : List UInt8) :
    feedStatus (httpParserFeed httpParserInit req₀ (a ++ b)) = some .error := by
  have hreturned : feedStatus (httpParserFeed httpParserInit req₀ a) ≠ some .incomplete := by
    rw [h]
    decide
  exact (feed_returned hreturned b).trans h

/-! ## Where requests begin -/

/-- A request begins behind the bytes `pre`; `req` is the record it is parsed into. -/
structure BeginsAt (pre : List UInt8) (req : HttpRequest) : Prop where
  stage : (Transcript.start.run pre).stage = .parsing httpParserInit req
  fresh : (Transcript.start.run pre).partialHead = []

/-- What the parser says of the first bytes of a request, as many of them as the buffer holds. -/
def firstStatus (req : HttpRequest) (rest : List UInt8) : Option ParseStatus :=
  feedStatus (httpParserFeed httpParserInit req (rest.take bufferSize))

/-- The bytes `head` of the stream `bs` are a request, or the beginning of one; before their end
the parser does not return. -/
def Begins (bs head : List UInt8) : Prop :=
  ∃ pre rest req, bs = pre ++ (head ++ rest) ∧ BeginsAt pre req ∧
    ∀ n < head.length, feedStatus (httpParserFeed httpParserInit req (head.take n)) = some .incomplete

theorem Begins.longer {bs head : List UInt8} (h : Begins bs head) (b : UInt8) :
    Begins (bs ++ [b]) head := by
  obtain ⟨pre, rest, req, rfl, hbegin, hproper⟩ := h
  exact ⟨pre, rest ++ [b], req, by simp, hbegin, hproper⟩

/-- A byte of a dialogue that is not over. -/
theorem run_snoc {bs : List UInt8} {p : HttpParser} {req : HttpRequest}
    (h : (Transcript.start.run bs).stage = .parsing p req) (b : UInt8) :
    Transcript.start.run (bs ++ [b]) =
      (Transcript.start.run bs).took b (httpParserFeed p req [b]) := by
  rw [Transcript.run_append, Transcript.run, List.foldl_cons, List.foldl_nil, Transcript.step, h]

/-- A byte behind the end of a dialogue. -/
theorem run_snoc_over {bs : List UInt8}
    (h : ∀ p req, (Transcript.start.run bs).stage ≠ .parsing p req) (b : UInt8) :
    Transcript.start.run (bs ++ [b]) = Transcript.start.run bs :=
  Transcript.run_of_not_parsing (List.prefix_append bs [b]) h

/-- Where the head begins that the dialogue over `bs` is parsing. -/
theorem begins_partial (bs : List UInt8) {p : HttpParser} {req' : HttpRequest}
    (h : (Transcript.start.run bs).stage = .parsing p req') :
    ∃ pre req, bs = pre ++ (Transcript.start.run bs).partialHead ∧ BeginsAt pre req ∧
      httpParserFeed httpParserInit req (Transcript.start.run bs).partialHead =
        .ok (.incomplete, p, req') := by
  induction bs using List.reverseRecOn generalizing p req' with
  | nil =>
      cases h
      exact ⟨[], .zero, rfl, ⟨rfl, rfl⟩, rfl⟩
  | append_singleton bs b ih =>
      cases hstage : (Transcript.start.run bs).stage with
      | ended =>
          rw [run_snoc_over (by simp [hstage]), hstage] at h
          cases h
      | fault =>
          rw [run_snoc_over (by simp [hstage]), hstage] at h
          cases h
      | parsing p₁ req₁ =>
          obtain ⟨pre, req, hbs, hbegin, hfeed⟩ := ih hstage
          have hrun := run_snoc hstage b
          cases hb : httpParserFeed p₁ req₁ [b] with
          | error f => rw [hrun, hb] at h; cases h
          | ok out =>
              obtain ⟨st, p₂, req₂⟩ := out
              rw [hb] at hrun
              cases st with
              | error => rw [hrun] at h; cases h
              | incomplete =>
                  rw [hrun] at h ⊢
                  cases h
                  refine ⟨pre, req, ?_, hbegin, ?_⟩
                  · change bs ++ [b] = pre ++ ((Transcript.start.run bs).partialHead ++ [b])
                    rw [← List.append_assoc, ← hbs]
                  · exact (feed_append hfeed [b]).trans hb
              | done =>
                  -- the next request begins behind the byte
                  have hnext : (Transcript.start.run (bs ++ [b])).stage = .next req₂ req₂.keepAlive ∧
                      (Transcript.start.run (bs ++ [b])).partialHead = [] := by
                    rw [hrun]
                    exact ⟨rfl, rfl⟩
                  have hkeep : Stage.parsing p req' = .parsing httpParserInit req₂ := by
                    rw [← h, hnext.1, Stage.next]
                    split
                    · rfl
                    · rename_i hclose
                      rw [hnext.1, Stage.next, if_neg hclose] at h
                      cases h
                  cases hkeep
                  refine ⟨bs ++ [b], req', ?_, ⟨h, hnext.2⟩, ?_⟩
                  · rw [hnext.2, List.append_nil]
                  · rw [hnext.2]
                    rfl

/-- The heads of all exchanges, in the stream. -/
theorem begins_exchanges (bs : List UInt8) :
    ∀ e ∈ (Transcript.start.run bs).exchanges, Begins bs e.head := by
  induction bs using List.reverseRecOn with
  | nil => exact fun _ h => (by cases h)
  | append_singleton bs b ih =>
      have hold : ∀ e ∈ (Transcript.start.run bs).exchanges, Begins (bs ++ [b]) e.head :=
        fun e he => (ih e he).longer b
      cases hstage : (Transcript.start.run bs).stage with
      | ended => rw [run_snoc_over (by simp [hstage])]; exact hold
      | fault => rw [run_snoc_over (by simp [hstage])]; exact hold
      | parsing p req' =>
          obtain ⟨pre, req, hbs, hbegin, hfeed⟩ := begins_partial bs hstage
          -- the head in progress begins where the last exchange ended
          have hlast : Begins (bs ++ [b]) ((Transcript.start.run bs).partialHead ++ [b]) := by
            refine ⟨pre, [], req, ?_, hbegin, fun n hn => ?_⟩
            · rw [List.append_nil, ← List.append_assoc, ← hbs]
            · rw [List.length_append, List.length_singleton] at hn
              rw [List.take_append_of_le_length (by omega)]
              exact feed_incomplete_prefix (List.take_prefix n _) (by rw [hfeed]; rfl)
          have hnew : ∀ request, ∀ e ∈ (Transcript.start.run bs).exchanges ++
              [⟨(Transcript.start.run bs).partialHead ++ [b], request⟩], Begins (bs ++ [b]) e.head := by
            intro request e he
            rcases List.mem_append.mp he with he | he
            · exact hold e he
            · rw [List.mem_singleton.mp he]
              exact hlast
          rw [run_snoc hstage b]
          cases httpParserFeed p req' [b] with
          | error f => exact hold
          | ok out =>
              obtain ⟨st, p₂, req₂⟩ := out
              cases st with
              | incomplete => exact hold
              | done => exact hnew _
              | error => exact hnew _

/-! ## No answer is a `413` -/

/-- The answer to a request that is too large. -/
def tooLargeAnswer : List UInt8 := simpleReply .tooLarge (errorMessage .tooLarge) false

/-- The first bytes of a head up to the number of the response code. -/
theorem headText_code (code : StatusCode) (ctype : List UInt8) (n : Nat) (keepAlive : Bool)
    (body : List UInt8) :
    (headText code ctype n keepAlive ++ body).take 12 = ascii "HTTP/1.1 " ++ code.number := by
  rw [headText_lines, List.append_assoc, List.append_assoc]
  cases code with
  | ok => rfl
  | badRequest => rfl
  | forbidden => rfl
  | notFound => rfl
  | methodNotAllowed => rfl
  | tooLarge => rfl
  | internalError => rfl

theorem fileAnswer_code (site : Site) (path : List UInt8) (headOnly keepAlive : Bool) :
    ∃ code : StatusCode, code ≠ .tooLarge ∧
      (fileAnswer site path headOnly keepAlive).take 12 = ascii "HTTP/1.1 " ++ code.number := by
  unfold fileAnswer
  split
  · exact ⟨.forbidden, by simp, headText_code ..⟩
  · cases site.stat (fullPath site.docRoot (relPath path)) with
    | absent => exact ⟨.notFound, by simp, headText_code ..⟩
    | dir => exact ⟨.notFound, by simp, headText_code ..⟩
    | special => exact ⟨.forbidden, by simp, headText_code ..⟩
    | file content readable =>
        cases readable with
        | false => exact ⟨.internalError, by simp, headText_code ..⟩
        | true => exact ⟨.ok, by simp, headText_code ..⟩

theorem Exchange.reply_code (site : Site) (e : Exchange) :
    ∃ code : StatusCode, code ≠ .tooLarge ∧ (e.reply site).take 12 = ascii "HTTP/1.1 " ++ code.number := by
  unfold Exchange.reply
  cases e.request with
  | none => exact ⟨.badRequest, by simp, headText_code ..⟩
  | some req =>
      simp only [answer]
      split
      · exact fileAnswer_code ..
      · exact ⟨.methodNotAllowed, by simp, headText_code ..⟩

theorem StatusCode.length_number (code : StatusCode) : code.number.length = 3 := by
  cases code <;> rfl

theorem StatusCode.number_inj {code code' : StatusCode} (h : code.number = code'.number) :
    code = code' := by
  revert h
  cases code <;> cases code' <;> decide

/-- Answers to requests do not add up to a `413`. -/
theorem flatMap_reply_ne (site : Site) (es : List Exchange) :
    es.flatMap (Exchange.reply site) ≠ tooLargeAnswer := by
  have hlarge : tooLargeAnswer.take 12 = ascii "HTTP/1.1 " ++ StatusCode.tooLarge.number :=
    headText_code ..
  intro h
  rw [← h] at hlarge
  cases es with
  | nil => cases hlarge
  | cons e es =>
      obtain ⟨code, hne, hcode⟩ := e.reply_code site
      have hlen : 12 ≤ (e.reply site).length := by
        have hfirst := congrArg List.length hcode
        have hnine : (ascii "HTTP/1.1 ").length = 9 := by decide
        rw [List.length_take, List.length_append, code.length_number, hnine] at hfirst
        omega
      rw [List.flatMap_cons, List.take_append_of_le_length hlen, hcode, List.append_right_inj] at hlarge
      exact hne (StatusCode.number_inj hlarge)

/-! ## Refusing -/

variable {stream : List UInt8}

/-- The connection has answered the requests in `pre`, has sent `page` then, and is closed. -/
def Session.EndsWith (site : Site) (s : Session stream) (pre page : List UInt8) : Prop :=
  s.sent site = (Transcript.start.run pre).output site ++ page ∧
    (s.final site).conns s.connFd = none

/-- A request of which the buffer has held as much as it can, and no complete head, is answered
with an error: `400` if the parser has rejected it by then, `413` if not. No longer head is
accepted. -/
structure Session.RefusesOversized (site : Site) (s : Session stream) : Prop where
  rejected : ∀ pre rest req, s.received site = pre ++ rest → BeginsAt pre req →
    firstStatus req rest = some .error → s.EndsWith site pre badRequestAnswer
  oversized : ∀ pre rest req, s.received site = pre ++ rest → BeginsAt pre req →
    bufferSize ≤ rest.length → firstStatus req rest ≠ some .done →
    firstStatus req rest ≠ some .error → s.EndsWith site pre tooLargeAnswer
  accepted : ∀ e ∈ s.exchanges site, e.request.isSome → e.head.length ≤ bufferSize

/-- The parser has decided on every request within its first bytes. -/
def Session.Decides (site : Site) (s : Session stream) : Prop :=
  ∀ pre rest req, s.received site = pre ++ rest → BeginsAt pre req → bufferSize ≤ rest.length →
    firstStatus req rest = some .done ∨ firstStatus req rest = some .error

/-- No connection ends with a `413`. -/
theorem Session.not_endsWith_tooLarge {site : Site} {s : Session stream} (hquiet : s.Quiet site)
    {pre rest : List UInt8} (hpre : s.received site = pre ++ rest) :
    ¬ s.EndsWith site pre tooLargeAnswer := by
  rintro ⟨hsent, _⟩
  rw [(s.conforms site).complete hquiet, hpre, Transcript.run_append] at hsent
  obtain ⟨es, hes⟩ := Transcript.run_exchanges (Transcript.start.run pre) rest
  rw [Transcript.output, Transcript.output, ← hes, List.flatMap_append,
    List.append_right_inj] at hsent
  exact flatMap_reply_ne site es hsent

/-- A request that the parser rejects is answered with `400`, and is the last one. -/
theorem Session.endsWith_badRequest {site : Site} {s : Session stream} (hquiet : s.Quiet site)
    {pre rest : List UInt8} {req : HttpRequest} (hpre : s.received site = pre ++ rest)
    (hbegin : BeginsAt pre req) (herr : firstStatus req rest = some .error) :
    s.EndsWith site pre badRequestAnswer := by
  obtain ⟨a, ha, hend⟩ := run_rejected (rest.take bufferSize) hbegin.stage (agrees_init req) herr
  have hcut : pre ++ a <+: s.received site := by
    rw [hpre, List.prefix_append_right_inj]
    exact ha.trans (List.take_prefix _ _)
  have hrun : Transcript.start.run (s.received site) = (Transcript.start.run pre).run a := by
    rw [Transcript.run_of_not_parsing hcut, Transcript.run_append]
    rw [Transcript.run_append, hend]
    simp
  refine ⟨?_, (s.conforms site).closes (by rw [hrun, hend]) hquiet⟩
  rw [(s.conforms site).complete hquiet, hrun, hend]
  simp [Transcript.output, Exchange.reply]

/-- **Oversized heads are refused exactly if the parser decides on every request early enough.**
When a session has nothing left to send, every request without a complete head in its first
`BUFFER_SIZE` bytes has been answered with an error if and only if there is no request on which
the parser, fed with these bytes alone, is undecided. -/
theorem refuses_oversized_iff (site : Site) (s : Session stream) (hquiet : s.Quiet site) :
    s.RefusesOversized site ↔ s.Decides site := by
  constructor
  · intro h pre rest req hpre hbegin hlen
    by_contra hno
    rw [not_or] at hno
    exact s.not_endsWith_tooLarge hquiet hpre (h.oversized pre rest req hpre hbegin hlen hno.1 hno.2)
  · intro h
    refine ⟨fun pre rest req hpre hbegin herr => s.endsWith_badRequest hquiet hpre hbegin herr,
      fun pre rest req hpre hbegin hlen hdone herr => ?_, fun e he _ => ?_⟩
    · exact absurd (h pre rest req hpre hbegin hlen) (not_or.mpr ⟨hdone, herr⟩)
    · by_contra hlong
      obtain ⟨pre, rest, req, hpre, hbegin, hproper⟩ := begins_exchanges _ e he
      have hle : bufferSize ≤ (e.head ++ rest).length := by
        rw [List.length_append]
        omega
      have hstatus : firstStatus req (e.head ++ rest) = some .incomplete := by
        rw [firstStatus, List.take_append_of_le_length (by omega)]
        exact hproper bufferSize (by omega)
      rcases h pre _ req hpre hbegin hle with hdone | herr
      · cases hstatus.symm.trans hdone
      · cases hstatus.symm.trans herr

/-! A method that is as long as the buffer: its sixteenth letter is one too many. -/

def letterStream : List UInt8 := List.replicate bufferSize 65

/-- The letters are read at once, and the answer goes out at once. -/
def letterSession : Session letterStream where
  inherited := [0, 1, 2]
  hint := 6
  events := [⟨6, ⟨true, false, false⟩, ⟨[.bytes bufferSize], [.bytes bufferSize], [], []⟩, []⟩]
  benign := by
    intro e he
    rw [List.mem_singleton.mp he]
    exact ⟨⟨by simp [bufferSize], by simp [bufferSize], by simp, by simp⟩, rfl, rfl⟩

theorem firstStatus_letters : firstStatus .zero letterStream = some .error := by
  have hfirst : letterStream.take bufferSize =
      List.replicate 16 65 ++ List.replicate 8176 65 := by
    rw [letterStream, ← List.replicate_add, List.take_replicate]
    rfl
  rw [firstStatus, hfirst]
  exact feed_rejected (by decide +kernel) _

theorem refuses_oversized_sample :
    (letterSession.received emptySite).length = bufferSize ∧
      letterSession.sent emptySite = badRequestAnswer ∧
      letterSession.RefusesOversized emptySite := by
  have hrun : (letterSession.final emptySite).conns letterSession.connFd = none ∧
      (letterSession.received emptySite).length = bufferSize := by decide +kernel
  have hquiet : letterSession.Quiet emptySite := Session.quiet_of_closed _ hrun.1
  have hread : letterSession.received emptySite = letterStream := by
    refine (letterSession.conforms emptySite).received.eq_of_length ?_
    rw [hrun.2, letterStream, List.length_replicate]
  have hrefuses : letterSession.RefusesOversized emptySite := by
    refine (refuses_oversized_iff emptySite letterSession hquiet).mpr ?_
    intro pre rest req hpre hbegin hlen
    -- a request of which so much has been read begins at the first byte
    have hnil : pre = [] := by
      have htotal := congrArg List.length hpre
      rw [hrun.2, List.length_append] at htotal
      exact List.length_eq_zero_iff.mp (by omega)
    subst hnil
    have hreq : Stage.parsing httpParserInit .zero = .parsing httpParserInit req := hbegin.stage
    cases hreq
    rw [List.nil_append, hread] at hpre
    rw [← hpre]
    exact .inr firstStatus_letters
  exact ⟨hrun.2, (hrefuses.rejected [] letterStream .zero hread ⟨rfl, rfl⟩ firstStatus_letters).1,
    hrefuses⟩

/-! A head with more blanks after its first colon than the buffer holds. -/

/-- The loop over bytes with which no head is complete. -/
theorem processLoop_incomplete (site : Site) {req₀ : HttpRequest} (bs : List UInt8) :
    ∀ {os : Os} {c : Conn} {s : Scan} {p : HttpParser} {req : HttpRequest},
      Agrees req₀ c.parser c.req s → httpParserFeed c.parser c.req bs = .ok (.incomplete, p, req) →
      processLoop site os c bs = ({ os with trace := os.trace ++ bs.map (Ev.parsed c.cid) },
        .ok { c with parser := p, req := req, inHead := c.inHead + bs.length }) := by
  induction bs with
  | nil =>
      intro os c s p req h hfeed
      rw [httpParserFeed, h.1] at hfeed
      cases hfeed
      simp [processLoop]
  | cons b bs ih =>
      intro os c s p req h hfeed
      rcases feed_cons h b bs with ⟨p', req', s', hb, h', hcons⟩ | ⟨hcons, hne⟩
      · rw [hcons] at hfeed
        rw [processLoop, hb]
        simp only
        rw [ih h' hfeed]
        simp only [Os.log, List.map_cons, List.length_cons, List.append_assoc, Nat.add_assoc,
          Nat.add_comm 1, List.singleton_append]
      · rw [hcons] at hfeed
        rw [hfeed] at hne
        exact absurd rfl hne

/-- A read that fills the buffer, with no head complete: the connection waits for more. -/
theorem connRead_full (site : Site) {r : Reactor} {c : Conn} {s : Scan} {bs : List UInt8}
    {p : HttpParser} {req req₀ : HttpRequest} (hs : c.state = .reading)
    (hin : c.inHead = c.inbuf.length) (hag : Agrees req₀ c.parser c.req s)
    (hsock : r.os.incoming c.fd = some bs) (hlen : bs.length = bufferSize)
    (hfeed : httpParserFeed c.parser c.req bs = .ok (.incomplete, p, req)) :
    ∃ os' c', connRead site r c [.bytes bufferSize] = ({ r with os := os' }, .live c') ∧
      c'.state = .reading ∧ os'.received c.cid = r.os.received c.cid ++ bs := by
  have hcomp : compact c = { c with inbuf := [], inHead := 0 } := if_pos hin
  have hfull : bs.take (min bufferSize (bufferSize - 0)) = bs := by
    rw [Nat.sub_zero, Nat.min_self, ← hlen, List.take_length]
  have hroom : ¬ 0 = bufferSize := by decide
  have hopen : ¬ c.state = .writing := by
    rw [hs]
    simp
  have hne : bs ≠ [] := by
    rintro rfl
    cases hlen
  obtain ⟨hrec, _, _⟩ := log_receive (r.os.setReads []) c.cid c.fd bs
  have hset : (r.os.setReads []).incoming c.fd = some bs := hsock
  have hleft : (((r.os.setReads []).consume c.fd bs.length).log (.read c.cid bs)).incoming c.fd =
      some (bs.drop bs.length) := incoming_consume hset
  -- the state in which the bytes are parsed
  generalize hos : ((r.os.setReads []).consume c.fd bs.length).log (.read c.cid bs) = os₁ at hrec hleft
  have hproc : connProcessInput site os₁ { c with inbuf := bs, inHead := 0 } =
      ({ os₁ with trace := os₁.trace ++ bs.map (Ev.parsed c.cid) },
        .ok { c with inbuf := bs, parser := p, req := req, inHead := 0 + bs.length }) := by
    rw [connProcessInput, if_pos hs]
    exact processLoop_incomplete site bs (c := { c with inbuf := bs, inHead := 0 }) hag hfeed
  have hleft' : Os.incoming { os₁ with trace := os₁.trace ++ bs.map (Ev.parsed c.cid) } c.fd =
      some (bs.drop bs.length) := hleft
  refine ⟨{ os₁ with trace := os₁.trace ++ bs.map (Ev.parsed c.cid) },
    { c with inbuf := [], parser := p, req := req, inHead := 0 }, ?_, hs, ?_⟩
  · rw [connRead, readTurn]
    simp only [hcomp, List.length_nil, if_neg hroom, hsock, hfull, if_neg hne, hos,
      List.nil_append, hproc, if_neg hopen]
    simp only [connRead, readTurn, compact, Nat.zero_add, if_true, List.length_nil, if_neg hroom,
      hleft']
  · change (os₁.trace ++ bs.map (Ev.parsed c.cid)).flatMap (Ev.received c.cid) = _
    have hnone : (bs.map (Ev.parsed c.cid)).flatMap (Ev.received c.cid) = [] := by
      simp [List.flatMap_eq_nil_iff, Ev.received]
    rw [List.flatMap_append, hnone, List.append_nil]
    exact hrec

/-- The handling of an event of a connection. -/
theorem dispatch_conn (site : Site) {r : Reactor} {e : Event} {i : Interest} {c : Conn}
    (hgo : ¬ (r.stop = true ∨ r.crashed.isSome = true)) (hint : r.os.interest e.fd = some i)
    (hwake : e.fd ≠ r.wakeupFd) (hlisten : e.fd ≠ r.listenFd) (hc : r.conns e.fd = some c)
    {out : Reactor × ConnRef} (hout : connEvent site (r.begin e) c (e.evs.report i) = out) :
    dispatch site r e = out.1.settle e.fd out.2 := by
  rw [dispatch, if_neg hgo, hint]
  simp only [if_neg hwake, if_neg hlisten, hc]
  rw [← hout]
  rfl

/-- An event in which the buffer is filled once. -/
def fullEvent (fd : Nat) : Event :=
  ⟨fd, ⟨true, false, false⟩, ⟨[.bytes bufferSize], [], [], []⟩, []⟩

theorem dispatch_full (site : Site) {r : Reactor} {fd cid : Nat} {p : HttpParser} {req : HttpRequest}
    (hgo : ¬ (r.stop = true ∨ r.crashed.isSome = true)) (hint : r.os.interest fd = some .input)
    (hwake : fd ≠ r.wakeupFd) (hlisten : fd ≠ r.listenFd)
    (hc : r.conns fd = some (Conn.calloc fd cid)) (hsock : r.os.incoming fd = some stream)
    (hlen : stream.length = bufferSize)
    (hfeed : httpParserFeed httpParserInit .zero stream = .ok (.incomplete, p, req)) :
    (dispatch site r (fullEvent fd)).os.received cid = r.os.received cid ++ stream ∧
      ∃ c, (dispatch site r (fullEvent fd)).conns fd = some c ∧ c.state = .reading := by
  obtain ⟨os', c', hread, hs, hrec⟩ := connRead_full site (r := r.begin (fullEvent fd))
    (c := Conn.calloc fd cid) rfl rfl (agrees_init .zero) hsock hlen hfeed
  have hreads : (r.begin (fullEvent fd)).os.sched.reads = [.bytes bufferSize] := rfl
  have hevs : (fullEvent fd).evs.report .input = ⟨true, false, false⟩ := rfl
  have hevent : connEvent site (r.begin (fullEvent fd)) (Conn.calloc fd cid)
      ((fullEvent fd).evs.report .input) = ({ r.begin (fullEvent fd) with os := os' }, .live c') := by
    rw [hevs, connEvent, onInput, hreads, hread]
    simp only [Bool.false_eq_true, if_false, if_true, hs, reduceCtorEq]
  rw [dispatch_conn site hgo hint hwake hlisten hc hevent]
  exact ⟨hrec, c', Function.update_self .., hs⟩

/-- A session of that event. -/
def fullSession (stream : List UInt8) : Session stream where
  inherited := [0, 1, 2]
  hint := 6
  events := [fullEvent 6]
  benign := by
    intro e he
    rw [List.mem_singleton.mp he]
    exact ⟨⟨by simp [fullEvent], by simp [fullEvent], by simp [fullEvent], by simp [fullEvent]⟩,
      rfl, rfl⟩

/-- It reads all of a stream of that size, and goes on waiting. -/
theorem fullSession_final (site : Site) {p : HttpParser} {req : HttpRequest}
    (hlen : stream.length = bufferSize)
    (hfeed : httpParserFeed httpParserInit .zero stream = .ok (.incomplete, p, req)) :
    (fullSession stream).received site = stream ∧
      ∃ c, ((fullSession stream).final site).conns (fullSession stream).connFd = some c ∧
        c.state = .reading := by
  have hgo : ¬ ((acceptOne (reactorCreate [0, 1, 2]) ⟨6, stream, true⟩).stop = true ∨
      (acceptOne (reactorCreate [0, 1, 2]) ⟨6, stream, true⟩).crashed.isSome = true) :=
    show ¬ (false = true ∨ false = true) by decide
  have hwake : 6 ≠ (acceptOne (reactorCreate [0, 1, 2]) ⟨6, stream, true⟩).wakeupFd :=
    show 6 ≠ 4 by decide
  have hlisten : 6 ≠ (acceptOne (reactorCreate [0, 1, 2]) ⟨6, stream, true⟩).listenFd :=
    show 6 ≠ 5 by decide
  have hc : (acceptOne (reactorCreate [0, 1, 2]) ⟨6, stream, true⟩).conns 6 =
    some (Conn.calloc 6 4) := rfl
  have hsock : (acceptOne (reactorCreate [0, 1, 2]) ⟨6, stream, true⟩).os.incoming 6 = some stream :=
    rfl
  have hint : (acceptOne (reactorCreate [0, 1, 2]) ⟨6, stream, true⟩).os.interest 6 = some .input :=
    rfl
  have hnone : (acceptOne (reactorCreate [0, 1, 2]) ⟨6, stream, true⟩).os.received 4 = [] := rfl
  obtain ⟨hrec, hopen⟩ := dispatch_full site hgo hint hwake hlisten hc hsock hlen hfeed
  have hfinal : (fullSession stream).final site =
      dispatch site (acceptOne (reactorCreate [0, 1, 2]) ⟨6, stream, true⟩) (fullEvent 6) := by
    simp only [Session.final, reactorRun, fullSession, List.foldl_cons, List.foldl_nil]
  have hat : (fullSession stream).connFd = 6 ∧ (fullSession stream).connId = 4 := ⟨rfl, rfl⟩
  rw [Session.received, hfinal, hat.1, hat.2, hrec, hnone]
  exact ⟨rfl, hopen⟩

/-- The parser waits behind any number of blanks after a colon. -/
theorem feed_blanks {blanks : List UInt8} (h : ∀ c ∈ blanks, IsBlank c) :
    ∃ p req, httpParserFeed httpParserInit .zero (plainLine.text ++ [97] ++ COLON :: blanks) =
      .ok (.incomplete, p, req) := by
  have hscan : (Scan.method []).run maxHeaders
      (plainLine.text ++ headersText [] ++ [97] ++ COLON :: blanks) =
      .more (.value plainLine [] [97] blanks []) :=
    run_upToBlanks plainLine_wf (by simp) (by simp) (by decide) (by simp) (by decide)
      (by unfold IsNameByte; decide) h
  have hm : MatchesRun .zero
      (httpParserFeed httpParserInit .zero (plainLine.text ++ headersText [] ++ [97] ++ COLON :: blanks))
      ((Scan.method []).run maxHeaders (plainLine.text ++ headersText [] ++ [97] ++ COLON :: blanks)) :=
    httpParserFeed_matches rfl (agrees_init _) _
  rw [hscan, headersText_nil, List.append_nil] at hm
  obtain ⟨p, req, hfeed, -⟩ := hm
  exact ⟨p, req, hfeed⟩

/-- `GET / a`, a header name of one letter, a colon and nothing but blanks. -/
def blankStream : List UInt8 := plainLine.text ++ [97] ++ COLON :: List.replicate 8182 SP

theorem length_blankStream : blankStream.length = bufferSize := by
  have hline : plainLine.text.length = 8 := by decide
  unfold blankStream bufferSize
  simp only [List.length_append, List.length_cons, List.length_replicate, hline, List.length_nil]

theorem not_refuses_blanks :
    ¬ ∀ (site : Site) (stream : List UInt8) (s : Session stream), s.Quiet site →
      s.RefusesOversized site := by
  intro h
  have hlen := length_blankStream
  obtain ⟨p, req, hfeed⟩ : ∃ p req, httpParserFeed httpParserInit .zero blankStream =
      .ok (.incomplete, p, req) := by
    refine feed_blanks fun c hc => ?_
    rw [List.eq_of_mem_replicate hc]
    exact .inl rfl
  obtain ⟨hrec, c, hc, hs⟩ := fullSession_final emptySite hlen hfeed
  have hquiet : (fullSession blankStream).Quiet emptySite := by
    intro c' hc'
    cases hc.symm.trans hc'
    rw [Conn.unsent, if_neg (by simp [hs])]
  have hstatus : firstStatus .zero blankStream = some .incomplete := by
    rw [firstStatus, ← hlen, List.take_length, hfeed]
    rfl
  have hend := (h emptySite blankStream (fullSession blankStream) hquiet).oversized [] blankStream
    .zero hrec ⟨rfl, rfl⟩ (by rw [hlen]) (by simp [hstatus]) (by simp [hstatus])
  cases hc.symm.trans hend.2

end HttpServer
