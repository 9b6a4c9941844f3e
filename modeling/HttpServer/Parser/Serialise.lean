import HttpServer.Parser.Language

set_option autoImplicit false

/-! # Parsing inverts serialisation

A request as data (`PlainRequest`), the choices a client has in writing it (`Layout`), and the
bytes it sends (`serialise`). Whatever the choices, the parser finds the end of the request at
its last byte and leaves in `struct http_request` what was serialised.

The bytes are the text of a `Head` of the grammar, so that the parser accepts them is the theorem
about the grammar; what is left is to read the record off. The values of a plain request start
and end without blanks, which makes every line normal and the trimming of the parser invisible
(`Field.line_stored`).
-/

namespace HttpServer

open CLib

/-! ## Requests and layouts -/

/-- A header: its name and its value. -/
structure Field where
  name : List UInt8
  value : List UInt8
  name_pos : name ≠ []
  name_byte : ∀ c ∈ name, c ≠ COLON ∧ c ≠ CR ∧ c ≠ LF ∧ c ≠ 0
  value_byte : ∀ c ∈ value, c ≠ CR ∧ c ≠ LF ∧ c ≠ 0
  value_first : ∀ c, value.head? = some c → c ≠ SP ∧ c ≠ TAB
  size : name.length + value.length ≤ 253

/-- The bytes of a method, and of a query. -/
def IsPlain (c : UInt8) : Prop := c ≠ SP ∧ c ≠ TAB ∧ c ≠ CR ∧ c ≠ LF ∧ c ≠ 0

/-- A request that fits into the buffers of the parser and names a host if it has to. -/
structure PlainRequest where
  method : List UInt8
  path : List UInt8
  query : Option (List UInt8)
  version : List UInt8
  fields : List Field
  method_pos : method ≠ []
  method_len : method.length ≤ 15
  method_byte : ∀ c ∈ method, IsPlain c
  path_pos : path ≠ []
  path_len : path.length ≤ 4095
  path_byte : ∀ c ∈ path, IsPlain c ∧ c ≠ QMARK
  query_len : ∀ q, query = some q → q.length ≤ 4095
  query_byte : ∀ q, query = some q → ∀ c ∈ q, IsPlain c
  version_len : version.length ≤ 15
  version_byte : ∀ c ∈ version, c ≠ CR ∧ c ≠ LF ∧ c ≠ 0
  fields_len : fields.length ≤ maxHeaders
  host : version = ascii "HTTP/1.1" → ∃ x ∈ fields, x.name.map lower = ascii "host"

/-- The terminator of each line, and the blanks after each colon. -/
structure Layout where
  lineEol : Eol
  blanks : Nat → List UInt8
  eol : Nat → Eol
  lastEol : Eol
  blanks_blank : ∀ i, ∀ c ∈ blanks i, c = SP ∨ c = TAB

/-- The `i`-th header of a request, laid out on its line. -/
def Layout.line (y : Layout) (i : Nat) (x : Field) : HeaderLine := ⟨x.name, y.blanks i, x.value, y.eol i⟩

/-- The request as a head of the grammar. -/
def PlainRequest.head (r : PlainRequest) (y : Layout) : Head where
  line := ⟨⟨r.method, SP, r.path, r.query, SP⟩, r.version, y.lineEol⟩
  headers := r.fields.mapIdx y.line
  blank := y.lastEol

def serialise (r : PlainRequest) (y : Layout) : List UInt8 := (r.head y).text

/-- The class of a method: three tokens have one of their own, all others share one. Tokens are
compared byte for byte, so `get` is none of the three. -/
structure Classified (token : List UInt8) (m : HttpMethod) : Prop where
  get : m = .get ↔ token = ascii "GET"
  head : m = .head ↔ token = ascii "HEAD"
  post : m = .post ↔ token = ascii "POST"
  unsupported : m = .unsupported ↔
    token ≠ ascii "GET" ∧ token ≠ ascii "HEAD" ∧ token ≠ ascii "POST"

/-- The request is what was serialised. -/
structure Recovered (r : PlainRequest) (req : HttpRequest) : Prop where
  method : req.method = methodFromToken r.method
  classified : Classified r.method req.method
  path : req.path.str = r.path
  query : req.queryString.str = r.query.getD []
  version : req.version.str = r.version
  num : req.numHeaders = r.fields.length
  headers : req.headerList = r.fields.map fun x => x.name ++ ascii ": " ++ x.value

/-! ## The head of a plain request -/

section Plain

variable (r : PlainRequest) (y : Layout)

theorem IsPlain.token {c : UInt8} (h : IsPlain c) : IsToken c := by
  obtain ⟨hsp, htab, hcr, hlf, -⟩ := h
  exact ⟨fun hb => hb.elim hsp htab, fun hb => hb.elim hcr hlf⟩

theorem Field.line_wf (x : Field) (i : Nat) : (y.line i x).WF where
  name_pos := x.name_pos
  name_byte := by
    intro c hc
    obtain ⟨hcolon, hcr, hlf, -⟩ := x.name_byte c hc
    exact ⟨hcolon, not_isBreak hcr hlf⟩
  ows_blank := y.blanks_blank i
  value_byte := by
    intro c hc
    obtain ⟨hcr, hlf, -⟩ := x.value_byte c hc
    exact not_isBreak hcr hlf
  size := x.size

theorem Field.line_normal (x : Field) (i : Nat) : (y.line i x).Normal := by
  intro c hc hblank
  obtain ⟨hsp, htab⟩ := x.value_first c hc
  exact hblank.elim hsp htab

theorem PlainRequest.head_wf : (r.head y).WF := by
  refine ⟨⟨⟨r.method_pos, r.method_len, fun c hc => (r.method_byte c hc).token, .inl rfl,
    fun _ => r.path_pos, r.path_len, ?_, r.query_len, ?_, .inl rfl⟩, r.version_len, ?_⟩, ?_⟩
  · intro c hc
    exact ⟨(r.path_byte c hc).1.token, (r.path_byte c hc).2⟩
  · exact fun q hq c hc => (r.query_byte q hq c hc).token
  · intro c hc
    obtain ⟨hcr, hlf, -⟩ := r.version_byte c hc
    exact not_isBreak hcr hlf
  · intro x hx
    obtain ⟨i, hi, rfl⟩ := List.mem_mapIdx.mp hx
    exact Field.line_wf y _ i

theorem PlainRequest.head_normal : ∀ x ∈ (r.head y).headers, x.Normal := by
  intro x hx
  obtain ⟨i, hi, rfl⟩ := List.mem_mapIdx.mp hx
  exact Field.line_normal y _ i

theorem PlainRequest.head_len : (r.head y).headers.length ≤ maxHeaders := by
  rw [PlainRequest.head, List.length_mapIdx]
  exact r.fields_len

theorem zero_not_mem {P : UInt8 → Prop} {t : List UInt8} (h : ∀ c ∈ t, P c)
    (hP : ∀ c, P c → c ≠ 0) : (0 : UInt8) ∉ t :=
  fun hmem => hP 0 (h 0 hmem) rfl

theorem PlainRequest.version_cstr : cstr r.version = r.version :=
  cstr_eq_self (zero_not_mem r.version_byte fun _ h => h.2.2)

theorem PlainRequest.head_hostOk : (r.head y).hostOk = true := by
  refine (hostOk_iff _).mpr fun _ hversion => ?_
  obtain ⟨x, hx, hname⟩ := r.host (by rw [← hversion]; exact r.version_cstr.symm)
  obtain ⟨i, hi, rfl⟩ := List.getElem_of_mem hx
  exact ⟨_, List.mem_mapIdx.mpr ⟨i, hi, rfl⟩, hname⟩

theorem classified_methodFromToken (token : List UInt8) :
    Classified token (methodFromToken token) := by
  by_cases hget : token = ascii "GET"
  · subst hget
    constructor <;> decide
  by_cases hhead : token = ascii "HEAD"
  · subst hhead
    constructor <;> decide
  by_cases hpost : token = ascii "POST"
  · subst hpost
    constructor <;> decide
  -- no comparison succeeds, and the token gets the class of the rest
  have hrest : methodFromToken token = .unsupported := by
    rw [methodFromToken, if_neg hget, if_neg hhead, if_neg hpost]
  rw [hrest]
  constructor <;> simp [hget, hhead, hpost]

theorem PlainRequest.method_cstr : cstr r.method = r.method :=
  cstr_eq_self (zero_not_mem r.method_byte fun _ h => h.2.2.2.2)

/-- A header without zeros is stored as it is. -/
theorem Field.line_stored (x : Field) (i : Nat) :
    cstr (y.line i x).stored = x.name ++ ascii ": " ++ x.value := by
  have hname := zero_not_mem x.name_byte fun _ h => h.2.2.2
  have hvalue := zero_not_mem x.value_byte fun _ h => h.2.2
  refine cstr_eq_self ?_
  simp only [Layout.line, HeaderLine.stored, List.mem_append, not_or]
  exact ⟨⟨hname, by decide⟩, hvalue⟩

theorem Filled.recovered {r : PlainRequest} {y : Layout} {req : HttpRequest}
    (h : Filled .zero (r.head y) req) : Recovered r req where
  method := by
    rw [h.filling.started.method]
    exact congrArg methodFromToken r.method_cstr
  classified := by
    rw [h.filling.started.method]
    show Classified r.method (methodFromToken (cstr r.method))
    rw [r.method_cstr]
    exact classified_methodFromToken r.method
  path := by
    rw [h.filling.started.path]
    exact cstr_eq_self (zero_not_mem r.path_byte fun _ h => h.1.2.2.2.2)
  query := by
    rw [h.filling.started.query]
    rw [show (r.head y).line.start.query = r.query from rfl]
    cases hq : r.query with
    | none => decide +kernel
    | some q => exact cstr_eq_self (zero_not_mem (r.query_byte q hq) fun _ h => h.2.2.2.2)
  version := by
    rw [h.filling.version]
    exact r.version_cstr
  num := by
    rw [h.filling.num]
    show 0 + (r.fields.mapIdx y.line).length = _
    rw [List.length_mapIdx, Nat.zero_add]
  headers := by
    rw [h.filling.list]
    show [] ++ (r.fields.mapIdx y.line).map (fun h => cstr h.stored) = _
    rw [List.nil_append]
    refine List.ext_getElem (by simp) fun i _ _ => ?_
    simp only [List.getElem_map, List.getElem_mapIdx, Field.line_stored]

end Plain

/-! ## The round trip -/

/-- **Parsing inverts serialisation.** A fresh parser on a zeroed request answers every proper
prefix of a serialised request with `INCOMPLETE` and the whole with `DONE`, and the request then
holds what was serialised. -/
theorem parse_serialise (r : PlainRequest) (y : Layout) :
    (∀ a b, serialise r y = a ++ b → b ≠ [] →
      ∃ p req, httpParserFeed httpParserInit .zero a = .ok (.incomplete, p, req)) ∧
    ∃ p req, httpParserFeed httpParserInit .zero (serialise r y) = .ok (.done, p, req) ∧
      Recovered r req := by
  refine ⟨fun a b htext hb => ?_, ?_⟩
  · obtain ⟨s, hs⟩ := run_proper_prefix maxHeaders (r.head_wf y) (r.head_len y) htext hb
    have hm : MatchesRun .zero (httpParserFeed httpParserInit .zero a)
        ((Scan.method []).run maxHeaders a) := httpParserFeed_matches rfl (agrees_init _) a
    rw [hs] at hm
    obtain ⟨p, req, hfeed, -⟩ := hm
    exact ⟨p, req, hfeed⟩
  · obtain ⟨p, req, hfeed, hfilled⟩ :=
      feed_head (r.head_wf y) (r.head_normal y) (r.head_len y) (r.head_hostOk y) []
    rw [List.append_nil] at hfeed
    exact ⟨p, req, hfeed, hfilled.recovered⟩

/-- `GET /a?b HTTP/1.1` for the host `x`. -/
def sampleFields : List Field :=
  [⟨ascii "Host", ascii "x", by decide, by decide, by decide, by decide, by decide⟩]

def samplePlain : PlainRequest where
  method := ascii "GET"
  path := ascii "/a"
  query := some (ascii "b")
  version := ascii "HTTP/1.1"
  fields := sampleFields
  method_pos := by decide
  method_len := by decide
  method_byte := by unfold IsPlain; decide
  path_pos := by decide
  path_len := by decide
  path_byte := by unfold IsPlain; decide
  query_len := by
    rintro q ⟨⟩
    decide
  query_byte := by
    rintro q ⟨⟩
    unfold IsPlain
    decide
  version_len := by decide
  version_byte := by decide
  fields_len := by decide
  host := fun _ => ⟨_, List.mem_singleton_self _, by decide⟩

/-- Two blanks after the colon, and a bare LF at the end of the header. -/
def sampleLayout : Layout where
  lineEol := .crlf
  blanks := fun _ => [SP, TAB]
  eol := fun _ => .lf
  lastEol := .crlf
  blanks_blank := fun _ => by decide

theorem parse_serialise_sample :
    serialise samplePlain sampleLayout = ascii "GET /a?b HTTP/1.1\r\nHost: \tx\n\r\n" ∧
    ∃ p req, httpParserFeed httpParserInit .zero (serialise samplePlain sampleLayout) =
      .ok (.done, p, req) ∧ Recovered samplePlain req ∧ req.method = .get := by
  obtain ⟨p, req, hfeed, hrec⟩ := (parse_serialise samplePlain sampleLayout).2
  refine ⟨by decide +kernel, p, req, hfeed, hrec, ?_⟩
  exact hrec.classified.get.mpr rfl

end HttpServer
