import HttpServer.Reactor.Stream
import HttpServer.Reactor.Descriptors
import HttpServer.Lib.Delimited

set_option autoImplicit false

/-! # Responses on the wire

Every answer but the one to `HEAD` is a head that announces the length of the body, and the body
(`Response`). A client that reads a head up to its empty line, decodes the length and takes that
many bytes gets the responses back, whatever is in the bodies.

The reader is `readResponse`, and it knows nothing of the server. That the first empty line is
the one that ends the head needs that no earlier line of it contains a carriage return, which
holds of every part `build_head` prints: the reasons, the content types, the decimal length and
the connection header (`headText_lines`). A whole stream is then taken apart by
`unframe_flatMap`. The last part compares the answers to `GET` and to `HEAD`, where the error
pages differ.
-/

namespace HttpServer

open CLib

/-! ## Responses -/

/-- A response, as the arguments of `build_head` and the body that follows. -/
structure Response where
  code : StatusCode
  ctype : List UInt8
  body : List UInt8
  keepAlive : Bool
  deriving DecidableEq

namespace Response

def head (r : Response) : List UInt8 := headText r.code r.ctype r.body.length r.keepAlive

def bytes (r : Response) : List UInt8 := r.head ++ r.body

/-- The response of `respond_simple`. -/
def plain (code : StatusCode) (body : List UInt8) (keepAlive : Bool) : Response :=
  ⟨code, ascii "text/plain", body, keepAlive⟩

end Response

/-- The response to a `GET` request for `path`. -/
def fileResponse (site : Site) (path : List UInt8) (keepAlive : Bool) : Response :=
  if strstr path (ascii "..") then .plain .forbidden (ascii "403 Forbidden\n") keepAlive
  else
    match site.stat (fullPath site.docRoot (relPath path)) with
    | .absent => .plain .notFound (ascii "404 Not Found\n") keepAlive
    | .dir => .plain .notFound (ascii "404 Not Found\n") keepAlive
    | .special => .plain .forbidden (ascii "403 Forbidden\n") keepAlive
    | .file _ false => .plain .internalError (ascii "500 Internal Server Error\n") keepAlive
    | .file content true => ⟨.ok, reactorMimeType (relPath path), content, keepAlive⟩

/-- There is a file to send: the path does not climb, and it names a regular file that
can be opened. -/
def Readable (site : Site) (path : List UInt8) : Prop :=
  strstr path (ascii "..") = false ∧
    ∃ content, site.stat (fullPath site.docRoot (relPath path)) = .file content true

theorem fileResponse_of_readable {site : Site} {path content : List UInt8}
    (hpath : strstr path (ascii "..") = false)
    (hstat : site.stat (fullPath site.docRoot (relPath path)) = .file content true)
    (keepAlive : Bool) :
    fileResponse site path keepAlive =
      ⟨.ok, reactorMimeType (relPath path), content, keepAlive⟩ := by
  rw [fileResponse, hpath, hstat]
  rfl

theorem fileAnswer_get (site : Site) (path : List UInt8) (keepAlive : Bool) :
    fileAnswer site path false keepAlive = (fileResponse site path keepAlive).bytes := by
  unfold fileAnswer fileResponse
  split
  · rfl
  · cases site.stat (fullPath site.docRoot (relPath path)) with
    | absent => rfl
    | dir => rfl
    | special => rfl
    | file content readable =>
        cases readable with
        | false => rfl
        | true => rfl

/-- The answer to a `HEAD` request for such a file is the head alone. -/
theorem fileAnswer_head_of_readable {site : Site} {path : List UInt8} (h : Readable site path)
    (keepAlive : Bool) :
    fileAnswer site path true keepAlive = (fileResponse site path keepAlive).head := by
  obtain ⟨hpath, content, hstat⟩ := h
  rw [fileResponse_of_readable hpath hstat, fileAnswer, hpath, hstat]
  simp [Response.head]

/-- To any other `HEAD` request the answer has a body. -/
theorem fileAnswer_head_of_not_readable {site : Site} {path : List UInt8} (h : ¬ Readable site path)
    (keepAlive : Bool) :
    fileAnswer site path true keepAlive = (fileResponse site path keepAlive).bytes ∧
      (fileResponse site path keepAlive).body ≠ [] := by
  unfold fileAnswer fileResponse
  split
  · exact ⟨rfl, by simp [Response.plain, ascii]⟩
  · rename_i hpath
    cases hstat : site.stat (fullPath site.docRoot (relPath path)) with
    | absent => exact ⟨rfl, by simp [Response.plain, ascii]⟩
    | dir => exact ⟨rfl, by simp [Response.plain, ascii]⟩
    | special => exact ⟨rfl, by simp [Response.plain, ascii]⟩
    | file content readable =>
        cases readable with
        | false => exact ⟨rfl, by simp [Response.plain, ascii]⟩
        | true => exact absurd ⟨by simpa using hpath, content, hstat⟩ h

/-- The response to a request with another method than `HEAD`. -/
def responseTo (site : Site) (req : HttpRequest) : Response :=
  if req.method = .get ∨ req.method = .head then fileResponse site req.path.str req.keepAlive
  else .plain .methodNotAllowed (ascii "405 Method Not Allowed\n") req.keepAlive

theorem answer_eq (site : Site) {req : HttpRequest} (h : req.method ≠ .head) :
    answer site req = (responseTo site req).bytes := by
  unfold answer responseTo
  split
  · simp only [decide_eq_false h, fileAnswer_get]
  · rfl

/-- The response in an exchange. -/
def Exchange.response (site : Site) (e : Exchange) : Response :=
  match e.request with
  | some req => responseTo site req
  | none => .plain .badRequest (errorMessage .badRequest) false

/-- The exchange is no answer to `HEAD`. -/
def Exchange.HasBody (e : Exchange) : Prop := ∀ req, e.request = some req → req.method ≠ .head

instance (e : Exchange) : Decidable e.HasBody :=
  inferInstanceAs (Decidable (∀ req ∈ e.request, req.method ≠ .head))

theorem Exchange.reply_eq (site : Site) {e : Exchange} (h : e.HasBody) :
    e.reply site = (e.response site).bytes := by
  unfold Exchange.reply Exchange.response
  cases hreq : e.request with
  | none => rfl
  | some req => exact answer_eq site (h req hreq)

/-! ## Heads -/

/-- What ends a head. -/
def emptyLine : List UInt8 := ascii "\r\n\r\n"

/-- What the line with the length starts with, after the line before it. -/
def lengthMark : List UInt8 := ascii "\r\nContent-Length: "

/-- The types of content the reactor names. -/
def contentTypes : List (List UInt8) :=
  [ascii "text/plain", ascii "application/octet-stream", ascii "text/html", ascii "text/css",
    ascii "application/javascript", ascii "image/png", ascii "image/jpeg", ascii "image/gif",
    ascii "image/x-icon"]

theorem reactorMimeType_mem (path : List UInt8) : reactorMimeType path ∈ contentTypes := by
  unfold reactorMimeType contentTypes
  cases strrchr path DOT with
  | none => simp
  | some ext =>
      simp only
      split_ifs
      all_goals simp

theorem contentTypes_inLine : ∀ ctype ∈ contentTypes, CR ∉ ctype ∧ ctype.length ≤ 24 := by
  decide

theorem statusReason_inLine (code : StatusCode) :
    CR ∉ statusReason code ∧ (statusReason code).length ≤ 25 := by
  cases code with
  | ok => decide
  | badRequest => decide
  | forbidden => decide
  | notFound => decide
  | methodNotAllowed => decide
  | tooLarge => decide
  | internalError => decide

theorem decimal_inLine (n : Nat) : CR ∉ decimal n := by
  intro h
  have := decimal_digits n CR h
  revert this
  decide

/-- The value of the `Connection` line. -/
def connectionText (keepAlive : Bool) : List UInt8 :=
  if keepAlive then ascii "keep-alive" else ascii "close"

theorem connectionText_inLine (keepAlive : Bool) :
    CR ∉ connectionText keepAlive ∧ (connectionText keepAlive).length ≤ 10 := by
  cases keepAlive with
  | false => decide
  | true => decide

/-- A head, line by line. -/
theorem headText_lines (code : StatusCode) (ctype : List UInt8) (n : Nat) (keepAlive : Bool) :
    headText code ctype n keepAlive =
      (ascii "HTTP/1.1 " ++ statusReason code) ++ CR :: LF ::
      ((ascii "Content-Type: " ++ ctype) ++ CR :: LF ::
      ((ascii "Content-Length: " ++ decimal n) ++ CR :: LF ::
      ((ascii "Connection: " ++ connectionText keepAlive) ++ emptyLine))) := by
  have hbreak : ascii "\r\n" = [CR, LF] := by decide
  have hempty : emptyLine = [CR, LF, CR, LF] := by decide
  simp only [headText, connectionText, hbreak, hempty, List.append_assoc, List.cons_append,
    List.nil_append]

/-- The empty line is not at a line that is followed by another. -/
theorem cutAfter_line {l l' : List UInt8} (h : CR ∉ l) (h' : l'.head? ≠ some CR) :
    cutAfter emptyLine (l ++ CR :: LF :: l') =
      (cutAfter emptyLine l').map (Prod.map (fun t => l ++ CR :: LF :: t) id) := by
  have hempty : emptyLine = CR :: [LF, CR, LF] := by decide
  have hcr : ¬ CR :: [LF, CR, LF] <+: CR :: LF :: l' := by
    rw [List.cons_prefix_cons, List.cons_prefix_cons]
    rintro ⟨_, _, t, ht⟩
    exact h' (by rw [← ht]; rfl)
  have hlf : ¬ CR :: [LF, CR, LF] <+: LF :: l' := by
    rw [List.cons_prefix_cons]
    exact fun h0 => absurd h0.1 (by decide)
  rw [hempty, cutAfter_append _ h, cutAfter_cons hcr, cutAfter_cons hlf, Option.map_map,
    Option.map_map]
  rfl

/-- A head is cut off at its end, whatever follows. -/
theorem cutAfter_headText (code : StatusCode) {ctype : List UInt8} (hct : CR ∉ ctype) (n : Nat)
    (keepAlive : Bool) (rest : List UInt8) :
    cutAfter emptyLine (headText code ctype n keepAlive ++ rest) =
      some (headText code ctype n keepAlive, rest) := by
  have hempty : emptyLine = CR :: [LF, CR, LF] := by decide
  -- no line has a CR in it, so the first empty line is the one behind the last
  have h₁ : CR ∉ ascii "HTTP/1.1 " ++ statusReason code := by
    rw [List.mem_append, not_or]
    exact ⟨by decide, (statusReason_inLine code).1⟩
  have h₂ : CR ∉ ascii "Content-Type: " ++ ctype := by
    rw [List.mem_append, not_or]
    exact ⟨by decide, hct⟩
  have h₃ : CR ∉ ascii "Content-Length: " ++ decimal n := by
    rw [List.mem_append, not_or]
    exact ⟨by decide, decimal_inLine n⟩
  have h₄ : CR ∉ ascii "Connection: " ++ connectionText keepAlive := by
    rw [List.mem_append, not_or]
    exact ⟨by decide, (connectionText_inLine keepAlive).1⟩
  have hlast : cutAfter emptyLine
      ((ascii "Connection: " ++ connectionText keepAlive) ++ (emptyLine ++ rest)) =
      some ((ascii "Connection: " ++ connectionText keepAlive) ++ emptyLine, rest) := by
    rw [hempty, cutAfter_append _ h₄, cutAfter_mark (by simp)]
    rfl
  have hstart : ∀ (s : String) (l : List UInt8), (ascii s).head? ≠ some CR → ascii s ≠ [] →
      (ascii s ++ l).head? ≠ some CR := by
    intro s l hs hne
    rw [List.head?_append_of_ne_nil _ hne]
    exact hs
  rw [headText_lines]
  simp only [List.append_assoc, List.cons_append] at h₁ h₂ h₃ hlast ⊢
  rw [← List.append_assoc, cutAfter_line h₁ (hstart _ _ (by decide) (by decide)),
    ← List.append_assoc, cutAfter_line h₂ (hstart _ _ (by decide) (by decide)),
    ← List.append_assoc, cutAfter_line h₃ (hstart _ _ (by decide) (by decide)), hlast]
  simp [Prod.map]

/-! ## The client -/

/-- The length a head announces. -/
def contentLength (head : List UInt8) : Option Nat :=
  (cutAfter lengthMark head).bind (fun p => readDecimal (p.2.takeWhile (fun b => b ≠ CR)))

/-- Read a head up to its empty line, and as many bytes after it as it announces. -/
def readResponse (bs : List UInt8) : Option ((List UInt8 × List UInt8) × List UInt8) :=
  match cutAfter emptyLine bs with
  | none => none
  | some (head, rest) =>
      match contentLength head with
      | none => none
      | some n => if n ≤ rest.length then some ((head, rest.take n), rest.drop n) else none

/-- Read responses until the output is used up. -/
def splitResponses (bs : List UInt8) : Option (List (List UInt8 × List UInt8)) :=
  unframe readResponse bs.length bs

theorem contentLength_headText (code : StatusCode) {ctype : List UInt8} (hct : CR ∉ ctype)
    (n : Nat) (keepAlive : Bool) : contentLength (headText code ctype n keepAlive) = some n := by
  have hmark : lengthMark = CR :: LF :: ascii "Content-Length: " := by decide
  have h₁ : CR ∉ ascii "HTTP/1.1 " ++ statusReason code := by
    rw [List.mem_append, not_or]
    exact ⟨by decide, (statusReason_inLine code).1⟩
  have h₂ : CR ∉ LF :: (ascii "Content-Type: " ++ ctype) := by
    rw [List.mem_cons, List.mem_append, not_or, not_or]
    exact ⟨by decide, by decide, hct⟩
  -- the line with the type differs from the mark in its eleventh byte
  have htype : ∀ t, ¬ CR :: LF :: ascii "Content-Length: " <+:
      CR :: (LF :: (ascii "Content-Type: " ++ ctype) ++ t) := by
    rintro t ⟨u, hu⟩
    have h10 := congrArg (fun l : List UInt8 => l[10]?) hu
    have hleft : (CR :: LF :: ascii "Content-Length: " ++ u)[10]? = some 76 := by
      rw [List.getElem?_append_left (by decide)]
      decide
    have hright : (CR :: (LF :: (ascii "Content-Type: " ++ ctype) ++ t))[10]? = some 84 := by
      rw [← List.cons_append, ← List.cons_append, ← List.cons_append, List.append_assoc,
        List.getElem?_append_left (by decide)]
      decide
    simp only [hleft, hright] at h10
    cases h10
  have hcut : ∀ t, cutAfter lengthMark ((ascii "HTTP/1.1 " ++ statusReason code) ++ CR ::
      (LF :: (ascii "Content-Type: " ++ ctype) ++ (lengthMark ++ t))) =
      some ((ascii "HTTP/1.1 " ++ statusReason code) ++ CR ::
        (LF :: (ascii "Content-Type: " ++ ctype) ++ lengthMark), t) := by
    intro t
    rw [hmark, cutAfter_append _ h₁, cutAfter_cons (htype _), cutAfter_append _ h₂,
      cutAfter_mark (by simp)]
    rfl
  have hhead : ∃ t, headText code ctype n keepAlive =
      (ascii "HTTP/1.1 " ++ statusReason code) ++ CR ::
      (LF :: (ascii "Content-Type: " ++ ctype) ++ (lengthMark ++ (decimal n ++ CR :: t))) := by
    refine ⟨LF :: ((ascii "Connection: " ++ connectionText keepAlive) ++ emptyLine), ?_⟩
    rw [headText_lines, hmark]
    simp only [List.append_assoc, List.cons_append]
  obtain ⟨t, ht⟩ := hhead
  have hdigits : (decimal n ++ CR :: t).takeWhile (fun b => decide (b ≠ CR)) = decimal n := by
    rw [List.takeWhile_append_of_pos]
    · simp
    · intro b hb
      have hne : b ≠ CR := fun h0 => decimal_inLine n (h0 ▸ hb)
      simpa using hne
  rw [contentLength, ht, hcut, Option.bind_some, hdigits, readDecimal_decimal]

/-- **A response is read back**, whatever follows it. -/
theorem readResponse_bytes (r : Response) (h : CR ∉ r.ctype) (rest : List UInt8) :
    readResponse (r.bytes ++ rest) = some ((r.head, r.body), rest) := by
  unfold readResponse
  rw [Response.bytes, List.append_assoc, Response.head, cutAfter_headText _ h]
  simp only
  rw [contentLength_headText _ h]
  simp

/-! ## Every response is well typed -/

theorem fileResponse_ctype (site : Site) (path : List UInt8) (keepAlive : Bool) :
    (fileResponse site path keepAlive).ctype ∈ contentTypes := by
  unfold fileResponse
  split
  · exact List.mem_cons_self
  · cases site.stat (fullPath site.docRoot (relPath path)) with
    | absent => exact List.mem_cons_self
    | dir => exact List.mem_cons_self
    | special => exact List.mem_cons_self
    | file content readable =>
        cases readable with
        | false => exact List.mem_cons_self
        | true => exact reactorMimeType_mem _

theorem Exchange.response_ctype (site : Site) (e : Exchange) :
    (e.response site).ctype ∈ contentTypes := by
  unfold Exchange.response responseTo
  cases e.request with
  | none => exact List.mem_cons_self
  | some req =>
      simp only
      split
      · exact fileResponse_ctype ..
      · exact List.mem_cons_self

theorem Response.bytes_ne_nil (r : Response) : r.bytes ≠ [] := by
  intro h
  have hhead := (List.append_eq_nil_iff.mp h).1
  have hlen := congrArg List.length hhead
  rw [Response.head, headText_lines] at hlen
  simp at hlen

/-- The buffer of `build_head` holds every head, for every length a `size_t` can have. -/
theorem headText_length (code : StatusCode) {ctype : List UInt8} (hct : ctype ∈ contentTypes)
    {n : Nat} (hn : n < 2 ^ 64) (keepAlive : Bool) :
    (headText code ctype n keepAlive).length < 512 := by
  have hcode := (statusReason_inLine code).2
  have htype := (contentTypes_inLine ctype hct).2
  have hdec : (decimal n).length ≤ 20 :=
    decimal_length_le (by omega) (Nat.lt_of_lt_of_le hn (by norm_num))
  have hconn := (connectionText_inLine keepAlive).2
  have hfixed : (ascii "HTTP/1.1 ").length = 9 ∧ (ascii "Content-Type: ").length = 14 ∧
      (ascii "Content-Length: ").length = 16 ∧ (ascii "Connection: ").length = 12 ∧
      emptyLine.length = 4 := by decide
  rw [headText_lines]
  simp only [List.length_append, List.length_cons, hfixed]
  omega

/-! ## Sequences of responses -/

variable {stream : List UInt8}

/-- The exchanges of a session, as far as its input has been read. -/
def Session.exchanges (site : Site) (s : Session stream) : List Exchange :=
  (Transcript.start.run (s.received site)).exchanges

/-- **Responses are self-delimiting.** When a session without `HEAD` requests has sent all it
has to send, the client finds exactly one head and one body for each exchange, in order. The
body of a file response is the file, and no head is too long for the buffer it is built in. -/
theorem responses_self_delimiting (site : Site) (s : Session stream) (hquiet : s.Quiet site)
    (hbody : ∀ e ∈ s.exchanges site, e.HasBody) :
    splitResponses (s.sent site) = some ((s.exchanges site).map
      (fun e => ((e.response site).head, (e.response site).body))) ∧
    (∀ e ∈ s.exchanges site, ∀ req content, e.request = some req → req.method = .get →
      strstr req.path.str (ascii "..") = false →
      site.stat (fullPath site.docRoot (relPath req.path.str)) = .file content true →
      (e.response site).body = content) ∧
    ∀ code, ∀ ctype ∈ contentTypes, ∀ n < 2 ^ 64, ∀ keepAlive,
      (headText code ctype n keepAlive).length < 512 := by
  refine ⟨?_, fun e he req content hreq hget hpath hstat => ?_,
    fun code ctype hct n hn ka => headText_length code hct hn ka⟩
  · have hsent : s.sent site = (s.exchanges site).flatMap (fun e => (e.response site).bytes) := by
      rw [(s.conforms site).complete hquiet, Transcript.output]
      exact List.flatMap_congr (fun e he => e.reply_eq site (hbody e he))
    have hne : ∀ e ∈ s.exchanges site, (e.response site).bytes ≠ [] :=
      fun e _ => (e.response site).bytes_ne_nil
    rw [splitResponses, hsent]
    refine unframe_flatMap _ hne (fun e _ rest => ?_) _ (length_le_flatMap _ hne)
    exact readResponse_bytes _ (contentTypes_inLine _ (e.response_ctype site)).1 rest
  · rw [Exchange.response, hreq]
    simp only [responseTo, hget, true_or, if_true]
    rw [fileResponse_of_readable hpath hstat]

/-! A file and a method that is not allowed, asked for at once. -/

def mixedStream : List UInt8 := ascii "GET /p HTTP/1.1\n\nPUT / a\n\n"

def mixedSession : Session mixedStream where
  inherited := [0, 1, 2]
  hint := 6
  events := [⟨6, ⟨true, false, false⟩,
    ⟨[.bytes 100], [.bytes 50, .bytes 500, .bytes 1, .bytes 500], [], []⟩, []⟩]
  benign := by
    intro e he
    rw [List.mem_singleton.mp he]
    exact ⟨⟨by simp, by simp, by simp, by simp⟩, rfl, rfl⟩

theorem responses_self_delimiting_mixed :
    (splitResponses (mixedSession.sent pageSite)).map (List.map Prod.snd) =
      some [ascii "!", ascii "405 Method Not Allowed\n"] := by
  rw [(responses_self_delimiting pageSite mixedSession
    (Session.quiet_of_closed _ (by decide +kernel)) (by decide +kernel)).1]
  decide +kernel

/-! ## Requests for the head alone -/

/-- In some session that has sent all it has to send, `bytes` are the answer to the request
`req`. -/
def AnsweredWith (site : Site) (req : HttpRequest) (bytes : List UInt8) : Prop :=
  ∃ (stream : List UInt8) (s : Session stream) (before after : List Exchange) (e : Exchange),
    s.Quiet site ∧ s.exchanges site = before ++ e :: after ∧ e.request = some req ∧
    s.sent site = before.flatMap (Exchange.reply site) ++ bytes ++
      after.flatMap (Exchange.reply site)

theorem AnsweredWith.eq {site : Site} {req : HttpRequest} {bytes : List UInt8}
    (h : AnsweredWith site req bytes) : bytes = answer site req := by
  obtain ⟨stream, s, before, after, e, hquiet, hexch, hreq, hsent⟩ := h
  have hall : s.sent site = before.flatMap (Exchange.reply site) ++ e.reply site ++
      after.flatMap (Exchange.reply site) := by
    rw [(s.conforms site).complete hquiet, Transcript.output]
    change (s.exchanges site).flatMap (Exchange.reply site) = _
    rw [hexch, List.flatMap_append, List.flatMap_cons, List.append_assoc]
  rw [hall, List.append_left_inj, List.append_right_inj] at hsent
  rw [← hsent, Exchange.reply, hreq]

/-- The request `get` is `req` with `GET` for its method, in all that an answer depends on. -/
structure GetTwin (req get : HttpRequest) : Prop where
  method : get.method = .get
  path : get.path.str = req.path.str
  keepAlive : get.keepAlive = req.keepAlive

/-- **`HEAD` mirrors `GET` exactly for files.** The answer to a `HEAD` request is the head of
the answer to the same request with `GET` if and only if there is a file to send; an error
page is sent with its body. -/
theorem head_mirrors_get_iff (site : Site) (req get : HttpRequest) (onHead onGet : List UInt8)
    (hmethod : req.method = .head) (htwin : GetTwin req get) (hhead : AnsweredWith site req onHead)
    (hget : AnsweredWith site get onGet) :
    (cutAfter emptyLine onGet).map Prod.fst = some onHead ↔ Readable site req.path.str := by
  have honGet : onGet = (fileResponse site req.path.str req.keepAlive).bytes := by
    rw [hget.eq, answer, if_pos (.inl htwin.method), htwin.method, htwin.path, htwin.keepAlive]
    exact fileAnswer_get ..
  have honHead : onHead = fileAnswer site req.path.str true req.keepAlive := by
    rw [hhead.eq, answer, if_pos (.inr hmethod), hmethod]
    rfl
  have hcut : (cutAfter emptyLine onGet).map Prod.fst =
      some (fileResponse site req.path.str req.keepAlive).head := by
    rw [honGet, Response.bytes, Response.head,
      cutAfter_headText _ (contentTypes_inLine _ (fileResponse_ctype ..)).1]
    rfl
  rw [hcut, honHead, Option.some.injEq]
  by_cases h : Readable site req.path.str
  · exact iff_of_true (fileAnswer_head_of_readable h _).symm h
  · obtain ⟨heq, hne⟩ := fileAnswer_head_of_not_readable h req.keepAlive
    refine iff_of_false (fun h0 => hne ?_) h
    rw [heq, Response.bytes] at h0
    exact List.self_eq_append_right.mp h0

/-! The same request with both methods, for a page and on a site without pages. -/

/-- A session in which the whole stream is read and answered at once. -/
def promptSession (stream : List UInt8) : Session stream where
  inherited := [0, 1, 2]
  hint := 6
  events := [⟨6, ⟨true, false, false⟩, ⟨[.bytes 100], [.bytes 500, .bytes 500], [], []⟩, []⟩]
  benign := by
    intro e he
    rw [List.mem_singleton.mp he]
    exact ⟨⟨by simp, by simp, by simp, by simp⟩, rfl, rfl⟩

/-- The request in a head that is sent alone. -/
def soleRequest (site : Site) (stream : List UInt8) : HttpRequest :=
  (((promptSession stream).exchanges site).head?.bind Exchange.request).getD .zero

theorem answeredWith_sole {site : Site} {stream : List UInt8}
    (hclosed : ((promptSession stream).final site).conns (promptSession stream).connFd = none)
    (hone : ((promptSession stream).exchanges site).map (fun e => e.request.isSome) = [true]) :
    AnsweredWith site (soleRequest site stream) ((promptSession stream).sent site) := by
  obtain ⟨e, he, hsome⟩ := List.map_eq_singleton_iff.mp hone
  obtain ⟨req, hreq⟩ := Option.isSome_iff_exists.mp hsome
  refine ⟨stream, promptSession stream, [], [], e, Session.quiet_of_closed _ hclosed, he, ?_, by simp⟩
  simp [soleRequest, he, hreq]

def headPage : List UInt8 := ascii "HEAD /p a\n\n"

def getPage : List UInt8 := ascii "GET /p a\n\n"

theorem head_mirrors_get_page :
    (cutAfter emptyLine ((promptSession getPage).sent pageSite)).map Prod.fst =
      some ((promptSession headPage).sent pageSite) := by
  refine (head_mirrors_get_iff pageSite (soleRequest pageSite headPage)
    (soleRequest pageSite getPage) _ _ (by decide +kernel) ⟨?_, ?_, ?_⟩
    (answeredWith_sole ?_ ?_) (answeredWith_sole ?_ ?_)).mpr ⟨?_, ascii "!", ?_⟩
  · decide +kernel
  · decide +kernel
  · decide +kernel
  · decide +kernel
  · decide +kernel
  · decide +kernel
  · decide +kernel
  · decide +kernel
  · decide +kernel

theorem not_mirrors_empty :
    ¬ ∀ (site : Site) (req get : HttpRequest) (onHead onGet : List UInt8), req.method = .head →
      GetTwin req get → AnsweredWith site req onHead → AnsweredWith site get onGet →
      (cutAfter emptyLine onGet).map Prod.fst = some onHead := by
  intro h
  have hmirror := h emptySite (soleRequest emptySite headPage) (soleRequest emptySite getPage) _ _
    (by decide +kernel) ⟨by decide +kernel, by decide +kernel, by decide +kernel⟩
    (answeredWith_sole (by decide +kernel) (by decide +kernel))
    (answeredWith_sole (by decide +kernel) (by decide +kernel))
  revert hmirror
  decide +kernel

end HttpServer
