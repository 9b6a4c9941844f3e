import HttpServer.Reactor.Conn

set_option autoImplicit false

/-! # What a connection is for

The purpose of a connection, apart from buffers, partial writes and events: the client sends
a stream of bytes, the server cuts request heads off its front and answers each one in turn,
until an answer ends the connection. `Transcript` is that dialogue after some bytes of the
stream; `answer` is the answer to one request when nothing fails.
-/

namespace HttpServer

open CLib

/-! ## Answers -/

/-- A text response, complete with its body. -/
def simpleReply (code : StatusCode) (body : List UInt8) (keepAlive : Bool) : List UInt8 :=
  headText code (ascii "text/plain") body.length keepAlive ++ body

/-- The answer to a `GET` or `HEAD` request for `path`. -/
def fileAnswer (site : Site) (path : List UInt8) (headOnly keepAlive : Bool) : List UInt8 :=
  if strstr path (ascii "..") then simpleReply .forbidden (ascii "403 Forbidden\n") keepAlive
  else
    match site.stat (fullPath site.docRoot (relPath path)) with
    | .absent => simpleReply .notFound (ascii "404 Not Found\n") keepAlive
    | .dir => simpleReply .notFound (ascii "404 Not Found\n") keepAlive
    | .special => simpleReply .forbidden (ascii "403 Forbidden\n") keepAlive
    | .file _ false =>
        simpleReply .internalError (ascii "500 Internal Server Error\n") keepAlive
    | .file content true =>
        headText .ok (reactorMimeType (relPath path)) content.length keepAlive ++
          if headOnly then [] else content

def answer (site : Site) (req : HttpRequest) : List UInt8 :=
  if req.method = .get ∨ req.method = .head then
    fileAnswer site req.path.str (decide (req.method = .head)) req.keepAlive
  else simpleReply .methodNotAllowed (ascii "405 Method Not Allowed\n") req.keepAlive

/-- The answer to bytes that are no request. -/
def badRequestAnswer : List UInt8 :=
  simpleReply .badRequest (errorMessage .badRequest) false

/-! ## The dialogue -/

/-- A request head with the request in it, or the bytes up to a parse error. -/
structure Exchange where
  head : List UInt8
  request : Option HttpRequest

namespace Exchange

def reply (site : Site) (e : Exchange) : List UInt8 :=
  match e.request with
  | some req => answer site req
  | none => badRequestAnswer

/-- The connection stays open after the exchange. -/
def keepAlive (e : Exchange) : Bool :=
  match e.request with
  | some req => req.keepAlive
  | none => false

end Exchange

inductive Stage
  | parsing (p : HttpParser) (req : HttpRequest)
  | ended
  | fault
  deriving DecidableEq

/-- The next request is parsed into the record of the last one, which is not cleared. -/
def Stage.next (req : HttpRequest) (keepAlive : Bool) : Stage :=
  if keepAlive then .parsing httpParserInit req else .ended

/-- The dialogue so far: what comes next, the bytes of the current head, and the exchanges
that are complete. -/
structure Transcript where
  stage : Stage
  partialHead : List UInt8
  exchanges : List Exchange

namespace Transcript

/-- The dialogue at the start of a connection. -/
def start : Transcript := ⟨.parsing httpParserInit .zero, [], []⟩

/-- The dialogue after the byte `b`, on which the parser has returned `res`. -/
def took (t : Transcript) (b : UInt8) : Except Fault (ParseStatus × HttpParser × HttpRequest) →
    Transcript
  | .error _ => ⟨.fault, t.partialHead ++ [b], t.exchanges⟩
  | .ok (.incomplete, p, req) => ⟨.parsing p req, t.partialHead ++ [b], t.exchanges⟩
  | .ok (.done, _, req) =>
      ⟨.next req req.keepAlive, [], t.exchanges ++ [⟨t.partialHead ++ [b], some req⟩]⟩
  | .ok (.error, _, _) => ⟨.ended, [], t.exchanges ++ [⟨t.partialHead ++ [b], none⟩]⟩

/-- The next byte. -/
def step (t : Transcript) (b : UInt8) : Transcript :=
  match t.stage with
  | .parsing p req => t.took b (httpParserFeed p req [b])
  | .ended => t
  | .fault => t

/-- The dialogue after a list of bytes. -/
def run (t : Transcript) (bs : List UInt8) : Transcript := bs.foldl step t

/-- All the answers, one after the other. -/
def output (site : Site) (t : Transcript) : List UInt8 :=
  t.exchanges.flatMap (Exchange.reply site)

/-- The requests recognised. -/
def requests (t : Transcript) : List HttpRequest := t.exchanges.filterMap Exchange.request

/-- The bytes of the stream that make up the complete exchanges. -/
def answered (t : Transcript) : List UInt8 := t.exchanges.flatMap Exchange.head

theorem run_append (t : Transcript) (bs cs : List UInt8) :
    t.run (bs ++ cs) = (t.run bs).run cs :=
  List.foldl_append

/-- No byte moves a transcript that a byte cannot move. -/
theorem run_of_stuck {t : Transcript} (h : ∀ b, t.step b = t) (bs : List UInt8) :
    t.run bs = t := by
  induction bs with
  | nil => rfl
  | cons b bs ih =>
      rw [run, List.foldl_cons, h b]
      exact ih

theorem run_of_over {t : Transcript} (h : t.stage = .ended) (bs : List UInt8) :
    t.run bs = t :=
  run_of_stuck (fun _ => by simp [step, h]) bs

theorem run_of_fault {t : Transcript} (h : t.stage = .fault) (bs : List UInt8) :
    t.run bs = t :=
  run_of_stuck (fun _ => by simp [step, h]) bs

/-! ## Exchanges only accumulate -/

theorem step_exchanges (t : Transcript) (b : UInt8) :
    t.exchanges <+: (t.step b).exchanges := by
  unfold step
  split
  · unfold took
    split
    · exact List.prefix_rfl
    · exact List.prefix_rfl
    · exact List.prefix_append _ _
    · exact List.prefix_append _ _
  · exact List.prefix_rfl
  · exact List.prefix_rfl

theorem run_exchanges (t : Transcript) (bs : List UInt8) :
    t.exchanges <+: (t.run bs).exchanges := by
  induction bs generalizing t with
  | nil => exact List.prefix_rfl
  | cons b bs ih => exact (step_exchanges t b).trans (ih (t.step b))

/-- A longer stream only adds to the output. -/
theorem output_prefix (site : Site) (t : Transcript) {bs cs : List UInt8} (h : bs <+: cs) :
    (t.run bs).output site <+: (t.run cs).output site := by
  obtain ⟨ds, rfl⟩ := h
  rw [run_append]
  obtain ⟨es, hes⟩ := run_exchanges (t.run bs) ds
  refine ⟨es.flatMap (Exchange.reply site), ?_⟩
  rw [output, output, ← hes, List.flatMap_append]

/-! ## The exchanges are cut off the front of the stream

While the dialogue goes on every exchange has left the connection open; it is over right
after the first one that has not. -/

/-- The shape of a dialogue after the bytes `bs`. -/
structure Cut (t : Transcript) (bs : List UInt8) : Prop where
  whole : ∀ p req, t.stage = .parsing p req → t.answered ++ t.partialHead = bs
  front : t.answered <+: bs
  open_ : t.stage ≠ .ended → ∀ e ∈ t.exchanges, e.keepAlive = true
  last : t.stage = .ended → ∃ es e, t.exchanges = es ++ [e] ∧ e.keepAlive = false ∧
    ∀ e ∈ es, e.keepAlive = true

theorem cut_start : Cut start [] where
  whole := fun _ _ _ => rfl
  front := List.prefix_rfl
  open_ := fun _ e he => by cases he
  last := fun h => by cases h

theorem answered_append (t : Transcript) (s : Stage) (l : List UInt8) (e : Exchange) :
    (⟨s, l, t.exchanges ++ [e]⟩ : Transcript).answered = t.answered ++ e.head := by
  simp [answered]

/-- A byte that completes an exchange is its last one. -/
theorem Cut.step_exchange {t : Transcript} {bs : List UInt8} {p : HttpParser} {req : HttpRequest}
    (h : Cut t bs) (hstage : t.stage = .parsing p req) (b : UInt8) (s : Stage)
    (request : Option HttpRequest)
    (hs : s = .ended ↔ (Exchange.mk (t.partialHead ++ [b]) request).keepAlive = false) :
    Cut ⟨s, [], t.exchanges ++ [⟨t.partialHead ++ [b], request⟩]⟩ (bs ++ [b]) := by
  have hne : t.stage ≠ .ended := by rw [hstage]; intro h0; cases h0
  have hall : (⟨s, [], t.exchanges ++ [⟨t.partialHead ++ [b], request⟩]⟩ :
      Transcript).answered = bs ++ [b] := by
    rw [answered_append, ← List.append_assoc, h.whole p req hstage]
  refine ⟨fun _ _ _ => by rw [hall, List.append_nil], by rw [hall], fun hopen e he => ?_,
    fun hover => ⟨t.exchanges, _, rfl, hs.mp hover, h.open_ hne⟩⟩
  rcases List.mem_append.mp he with he | he
  · exact h.open_ hne e he
  · rw [List.mem_singleton.mp he]
    by_contra hk
    exact hopen (hs.mpr (by simpa using hk))

theorem Cut.step {t : Transcript} {bs : List UInt8} (h : Cut t bs) (b : UInt8) :
    Cut (t.step b) (bs ++ [b]) := by
  have hfront : t.answered <+: bs ++ [b] := h.front.trans (List.prefix_append _ _)
  unfold Transcript.step
  split
  · rename_i p req hstage
    have hne : t.stage ≠ .ended := by rw [hstage]; intro h0; cases h0
    unfold took
    split
    · exact ⟨fun _ _ h0 => (by cases h0), hfront, fun _ => h.open_ hne, fun h0 => (by cases h0)⟩
    · refine ⟨fun _ _ _ => ?_, hfront, fun _ => h.open_ hne, fun h0 => (by cases h0)⟩
      change t.answered ++ (t.partialHead ++ [b]) = bs ++ [b]
      rw [← List.append_assoc, h.whole p req hstage]
    · rename_i p' req' _
      refine h.step_exchange hstage b _ _ ?_
      simp only [Exchange.keepAlive, Stage.next]
      cases req'.keepAlive with
      | false => exact ⟨fun _ => rfl, fun _ => rfl⟩
      | true => exact ⟨fun h0 => (by cases h0), fun h0 => (by cases h0)⟩
    · exact h.step_exchange hstage b _ _ ⟨fun _ => rfl, fun _ => rfl⟩
  · rename_i hstage
    exact ⟨fun p req h0 => absurd (hstage.symm.trans h0) (by simp), hfront, h.open_, h.last⟩
  · rename_i hstage
    exact ⟨fun p req h0 => absurd (hstage.symm.trans h0) (by simp), hfront, h.open_, h.last⟩

theorem cut_run (bs : List UInt8) : Cut (start.run bs) bs := by
  induction bs using List.reverseRecOn with
  | nil => exact cut_start
  | append_singleton bs b ih =>
      rw [run_append]
      exact ih.step b

/-- The dialogue ends with the byte that completes its last exchange. -/
theorem answered_of_over {bs : List UInt8} {b : UInt8} {p : HttpParser} {req : HttpRequest}
    (hstage : (start.run bs).stage = .parsing p req)
    (hover : (start.run (bs ++ [b])).stage = .ended) :
    (start.run (bs ++ [b])).answered = bs ++ [b] := by
  have hcut := cut_run bs
  have hwhole : (start.run bs).answered ++ ((start.run bs).partialHead ++ [b]) =
      bs ++ [b] := by
    rw [← List.append_assoc, hcut.whole p req hstage]
  rw [run_append] at hover ⊢
  change (Transcript.step _ b).stage = .ended at hover
  change (Transcript.step _ b).answered = bs ++ [b]
  unfold Transcript.step at hover ⊢
  rw [hstage] at hover ⊢
  simp only [took] at hover ⊢
  split at hover
  · cases hover
  · cases hover
  · rw [answered_append, hwhole]
  · rw [answered_append, hwhole]

/-- A dialogue that is over was so right after its last exchange. -/
theorem run_answered {bs : List UInt8} (hover : (start.run bs).stage = .ended) :
    start.run (start.run bs).answered = start.run bs := by
  induction bs using List.reverseRecOn with
  | nil => cases hover
  | append_singleton bs b ih =>
      cases hstage : (start.run bs).stage with
      | parsing p req => rw [answered_of_over hstage hover]
      | ended =>
          rw [run_append, run_of_over hstage]
          exact ih hstage
      | fault =>
          rw [run_append, run_of_fault hstage, hstage] at hover
          cases hover

/-- Reading on does not change a dialogue that is no longer parsing. -/
theorem run_of_not_parsing {bs cs : List UInt8} (h : bs <+: cs)
    (hstage : ∀ p req, (start.run bs).stage ≠ .parsing p req) :
    start.run cs = start.run bs := by
  obtain ⟨ds, rfl⟩ := h
  rw [run_append]
  cases hs : (start.run bs).stage with
  | parsing p req => exact absurd hs (hstage p req)
  | ended => exact run_of_over hs ds
  | fault => exact run_of_fault hs ds

/-- A part of the input that has been parsed without the dialogue ending early lies within
the answered part, if the dialogue ends at all. -/
theorem prefix_answered {bs cs : List UInt8} (h : bs <+: cs)
    (hover : (start.run cs).stage = .ended)
    (hend : (start.run bs).stage = .ended → (start.run bs).answered = bs) :
    bs <+: (start.run cs).answered := by
  rcases List.prefix_or_prefix_of_prefix h (cut_run cs).front with hle | hge
  · exact hle
  · have hanswered := run_answered hover
    have hnot : ∀ p req, (start.run (start.run cs).answered).stage ≠ .parsing p req := by
      intro p req h0
      rw [hanswered, hover] at h0
      cases h0
    have heq : start.run bs = start.run cs := by
      rw [run_of_not_parsing hge hnot, hanswered]
    rw [← heq]
    rw [hend (by rw [heq]; exact hover)]

end Transcript

end HttpServer
