import HttpServer.Parser.Language
import HttpServer.Reactor.Dialogue

set_option autoImplicit false

/-! # Requests of one connection and each other

All requests of a connection are parsed into the same record, which the reactor does not
clear between them. A request therefore finds the header rows of the requests before it, and
their query string when it has none itself. `Linked` follows the record through a list of
heads; the requests are as if each had come alone exactly when no head leaves anything for
the next one to find (`LeavesNothing`).
-/

namespace HttpServer

open CLib

/-! ## What is seen of a request -/

/-- The fields of a request, its texts as C strings. -/
structure View where
  method : HttpMethod
  path : List UInt8
  query : List UInt8
  version : List UInt8
  headers : List (List UInt8)
  numHeaders : Nat
  keepAlive : Bool
  deriving DecidableEq

def HttpRequest.view (req : HttpRequest) : View where
  method := req.method
  path := req.path.str
  query := req.queryString.str
  version := req.version.str
  headers := req.headerList
  numHeaders := req.numHeaders
  keepAlive := req.keepAlive

/-- The answer depends on what is seen of the request only. -/
theorem answer_of_view (site : Site) {req req' : HttpRequest} (h : req.view = req'.view) :
    answer site req = answer site req' := by
  have hmethod : req.method = req'.method := congrArg View.method h
  have hpath : req.path.str = req'.path.str := congrArg View.path h
  have hkeep : req.keepAlive = req'.keepAlive := congrArg View.keepAlive h
  rw [answer, answer, hmethod, hpath, hkeep]

/-- A fresh parser on a zeroed request, fed with `r`. -/
def parseAlone (r : List UInt8) : Except Fault (ParseStatus × HttpParser × HttpRequest) :=
  httpParserFeed httpParserInit .zero r

/-- The request it fills. -/
def requestAlone (r : List UInt8) : HttpRequest :=
  match parseAlone r with
  | .ok (_, _, req) => req
  | .error _ => .zero

/-- The bytes of one request: the parser reports `DONE` on the last of them. -/
def RequestHead (r : List UInt8) : Prop :=
  feedStatus (parseAlone r) = some .done ∧
    ∀ n < r.length, feedStatus (parseAlone (r.take n)) = some .incomplete

instance (r : List UInt8) : Decidable (RequestHead r) := inferInstanceAs (Decidable (_ ∧ _))

def notBlank (c : UInt8) : Bool := decide (¬ IsBlank c)

/-- The second word of a head. -/
def target (r : List UInt8) : List UInt8 := ((r.dropWhile notBlank).tail).takeWhile notBlank

/-- A request with head `s` finds nothing of a request with head `r` before it: `r` has no
header lines, and its query string is empty or `s` has one of its own. -/
def LeavesNothing (r s : List UInt8) : Prop :=
  (requestAlone r).view.numHeaders = 0 ∧
    (QMARK ∈ target s ∨ (requestAlone r).view.query = [])

instance (r s : List UInt8) : Decidable (LeavesNothing r s) := inferInstanceAs (Decidable (_ ∧ _))

/-! ## Heads -/

/-- The scanner finds the head that is there, and the parser on a zeroed request fills in what
it says. -/
theorem RequestHead.scan {r : List UInt8} (h : RequestHead r) :
    ∃ x : Head, x.WF ∧ x.hostOk = true ∧ x.text = r ∧ (Scan.method []).run 64 r = .head x ∧
      Filled .zero x (requestAlone r) := by
  obtain ⟨hdone, hproper⟩ := h
  have hstatus := feedStatus_eq r
  rw [show feedStatus (httpParserFeed httpParserInit .zero r) = some .done from hdone] at hstatus
  have hm : MatchesRun .zero (parseAlone r) ((Scan.method []).run 64 r) :=
    httpParserFeed_matches rfl (agrees_init _) r
  cases hr : (Scan.method []).run 64 r with
  | more s => rw [hr] at hstatus; cases hstatus
  | reject => rw [hr] at hstatus; cases hstatus
  | fault f => rw [hr] at hstatus; cases hstatus
  | head x =>
      have hok : x.hostOk = true := by
        by_contra hno
        rw [hr] at hstatus
        simp only [if_neg hno] at hstatus
        cases hstatus
      have hw := (Scan.run_head r Scan.wf_start hr).1
      obtain ⟨a, b, hab, htext, hrun⟩ := Scan.run_head_at r hr
      -- the head is all of `r`: no proper prefix completes it
      have hb : b = [] := by
        by_contra hne
        have hlt : a.length < r.length := by
          have := List.length_pos_iff.mpr hne
          rw [hab, List.length_append]
          omega
        have hinc := hproper a.length hlt
        have hsome := feedStatus_eq a
        rw [hrun] at hsome
        simp only [if_pos hok] at hsome
        rw [hab, List.take_left] at hinc
        cases hinc.symm.trans hsome
      rw [hb, List.append_nil] at hab
      rw [hr, MatchesRun, if_pos hok] at hm
      obtain ⟨p, req, hfeed, _, hfill⟩ := hm
      refine ⟨x, hw, hok, htext.trans hab.symm, rfl, ?_⟩
      rw [requestAlone, hfeed]
      exact hfill

/-- The second word of a head is its path and query. -/
theorem target_text {x : Head} (hw : x.WF) :
    target x.text = x.line.start.path ++ queryText x.line.start.query := by
  have hst := hw.line_wf.start_wf
  have hmethod : ∀ c ∈ x.line.start.method, notBlank c = true :=
    fun c hc => decide_eq_true (hst.method_tok c hc).1
  have hword : ∀ c ∈ x.line.start.path ++ queryText x.line.start.query,
      notBlank c = true := by
    intro c hc
    rcases List.mem_append.mp hc with hc | hc
    · exact decide_eq_true (hst.path_byte c hc).1.1
    · cases hq : x.line.start.query with
      | none => rw [hq] at hc; cases hc
      | some q =>
          rw [hq] at hc
          rcases List.mem_cons.mp hc with rfl | hc
          · decide
          · exact decide_eq_true (hst.query_tok q hq c hc).1
  have hsp1 : ¬ notBlank x.line.start.sp1 = true := by simpa [notBlank] using hst.sp1_blank
  have hsp2 : ¬ notBlank x.line.start.sp2 = true := by simpa [notBlank] using hst.sp2_blank
  simp only [target, Head.text, RequestLine.text, Start.text, List.append_assoc, List.cons_append]
  rw [List.dropWhile_append_of_pos hmethod, List.dropWhile_cons_of_neg hsp1, List.tail_cons,
    ← List.append_assoc x.line.start.path, List.takeWhile_append_of_pos hword]
  simp only [List.nil_append]
  rw [List.takeWhile_cons_of_neg hsp2, List.append_nil]

theorem qmark_mem_target {x : Head} (hw : x.WF) :
    QMARK ∈ target x.text ↔ x.line.start.query ≠ none := by
  rw [target_text hw]
  cases hq : x.line.start.query with
  | none =>
      simp only [queryText, List.append_nil, ne_eq, not_true_eq_false, iff_false]
      intro hmem
      exact (hw.line_wf.start_wf.path_byte QMARK hmem).2 rfl
  | some q => simp [queryText]

/-! ## The dialogue over a head -/

/-- What the bytes `bs` lead to in a dialogue that is where the scanner state `s` is, if they
lead to `res` in the scanner. `req₀` is the record as the head found it. -/
def Tracks (req₀ : HttpRequest) (t : Transcript) (s : Scan) (bs : List UInt8) : ScanStep → Prop
  | .more s' => ∃ p req, t.run bs = ⟨.parsing p req, t.partialHead ++ bs, t.exchanges⟩ ∧
      Agrees req₀ p req s'
  | .head x => x.hostOk = true → ∃ a b req, bs = a ++ b ∧ x.text = s.text ++ a ∧
      t.run a = ⟨.next req req.keepAlive, [], t.exchanges ++ [⟨t.partialHead ++ a, some req⟩]⟩ ∧
      Filled req₀ x req
  | .reject => True
  | .fault _ => (t.run bs).stage = .fault ∧ (t.run bs).exchanges = t.exchanges

section Tracking

variable {req₀ req : HttpRequest} {p : HttpParser} {rows : Nat} {t : Transcript} {s : Scan}

theorem step_tracks (hrows : rows = maxHeaders - req₀.numHeaders)
    (hstage : t.stage = .parsing p req) (h : Agrees req₀ p req s) (b : UInt8) :
    Tracks req₀ t s [b] (s.step rows b) := by
  have hm : MatchesRun req₀ (httpParserFeed p req [b]) (s.run rows [b]) :=
    httpParserFeed_matches hrows h [b]
  rw [Scan.run_singleton] at hm
  have hrun : t.run [b] = t.took b (httpParserFeed p req [b]) := by
    rw [Transcript.run, List.foldl_cons, List.foldl_nil, Transcript.step, hstage]
  cases hs : s.step rows b with
  | more s' =>
      rw [hs] at hm
      obtain ⟨p', req', hfeed, h'⟩ := hm
      exact ⟨p', req', by rw [hrun, hfeed]; rfl, h'⟩
  | head x =>
      intro hok
      rw [hs, MatchesRun, if_pos hok] at hm
      obtain ⟨p', req', hfeed, _, hfill⟩ := hm
      exact ⟨[b], [], req', rfl, Scan.step_head_text hs, by rw [hrun, hfeed]; rfl, hfill⟩
  | reject => exact trivial
  | fault f =>
      rw [hs] at hm
      rw [Tracks, hrun, show httpParserFeed p req [b] = .error f from hm]
      exact ⟨rfl, rfl⟩

/-- The dialogue over some bytes follows the scanner. -/
theorem run_tracks (hrows : rows = maxHeaders - req₀.numHeaders) (bs : List UInt8) :
    ∀ {t : Transcript} {p : HttpParser} {req : HttpRequest} {s : Scan},
      t.stage = .parsing p req → Agrees req₀ p req s → Tracks req₀ t s bs (s.run rows bs) := by
  induction bs with
  | nil =>
      intro t p req s hstage h
      refine ⟨p, req, ?_, h⟩
      rw [List.append_nil, ← hstage]
      rfl
  | cons b bs ih =>
      intro t p req s hstage h
      have hstep := step_tracks hrows hstage h b
      -- one byte, and then the rest from the state it leads to
      have hsplit : ∀ a, t.run (b :: a) = (t.run [b]).run a := fun a => rfl
      rw [Scan.run]
      cases hs : s.step rows b with
      | more s' =>
          rw [hs] at hstep
          obtain ⟨p', req', hrun, h'⟩ := hstep
          change Tracks req₀ t s (b :: bs) (s'.run rows bs)
          have hrest := ih (t := t.run [b]) (by rw [hrun]) h'
          cases hres : s'.run rows bs with
          | more s'' =>
              rw [hres] at hrest
              obtain ⟨p'', req'', hrun', h''⟩ := hrest
              refine ⟨p'', req'', ?_, h''⟩
              rw [hsplit, hrun', hrun, List.append_assoc]
              rfl
          | head x =>
              intro hok
              rw [hres] at hrest
              obtain ⟨a, c, q, rfl, htext, hrun', hfill⟩ := hrest hok
              refine ⟨b :: a, c, q, rfl, ?_, ?_, hfill⟩
              · rw [htext, Scan.step_text hs, List.append_assoc]
                rfl
              · rw [hsplit, hrun', hrun, List.append_assoc]
                rfl
          | reject => exact trivial
          | fault f =>
              rw [hres] at hrest
              rw [Tracks, hsplit, hrest.1, hrest.2, hrun]
              exact ⟨rfl, rfl⟩
      | head x =>
          intro hok
          rw [hs] at hstep
          -- the head is complete here, and the bytes behind it are not looked at
          obtain ⟨a, c, q, hac, htext, hrun, hfill⟩ := hstep hok
          exact ⟨a, c ++ bs, q, by rw [← List.append_assoc, ← hac]; rfl, htext, hrun, hfill⟩
      | reject => exact trivial
      | fault f =>
          rw [hs] at hstep
          rw [Tracks, hsplit, Transcript.run_of_fault hstep.1]
          exact hstep

/-- A head that comes next is recognised, or there are not enough rows left for it. -/
theorem run_requestHead (hstage : t.stage = .parsing httpParserInit req₀)
    (hpart : t.partialHead = []) {r : List UInt8} {x : Head} (hok : x.hostOk = true)
    (htext : x.text = r) (hscan : (Scan.method []).run 64 r = .head x) :
    (∃ req, t.run r = ⟨.next req req.keepAlive, [], t.exchanges ++ [⟨r, some req⟩]⟩ ∧
      Filled req₀ x req) ∨
    ((t.run r).stage = .fault ∧ (t.run r).exchanges = t.exchanges) := by
  have htrack : Tracks req₀ t (.method []) r
      ((Scan.method []).run (maxHeaders - req₀.numHeaders) r) :=
    run_tracks rfl r hstage (agrees_init req₀)
  by_cases hfault : (Scan.method []).run (maxHeaders - req₀.numHeaders) r = .fault .row
  · rw [hfault] at htrack
    exact .inr htrack
  · have hle : maxHeaders - req₀.numHeaders ≤ 64 := Nat.sub_le _ _
    have hsame := Scan.run_rows hle r hfault
    rw [← hsame, hscan] at htrack
    obtain ⟨a, b, req, hab, hta, hrun, hfill⟩ := htrack hok
    have har : a = r := hta.symm.trans htext
    subst har
    rw [hpart, List.nil_append] at hrun
    exact .inl ⟨req, hrun, hfill⟩

end Tracking

/-! ## The record from head to head -/

/-- The requests `qs` are what the heads `rs` leave one after the other in the record, which
is `req₀` before the first. -/
inductive Linked : HttpRequest → List (List UInt8) → List HttpRequest → Prop
  | nil {req₀ : HttpRequest} : Linked req₀ [] []
  | cons {req₀ req : HttpRequest} {x : Head} {rs : List (List UInt8)} {qs : List HttpRequest}
      (hw : x.WF) (halone : Filled .zero x (requestAlone x.text)) (hfill : Filled req₀ x req)
      (hrest : Linked req rs qs) : Linked req₀ (x.text :: rs) (req :: qs)

theorem Linked.length {req₀ : HttpRequest} {rs : List (List UInt8)} {qs : List HttpRequest}
    (h : Linked req₀ rs qs) : qs.length = rs.length := by
  induction h with
  | nil => rfl
  | cons _ _ _ _ ih => rw [List.length_cons, List.length_cons, ih]

/-- If as many requests are recognised as there are heads, they are linked. -/
theorem exists_linked (rs : List (List UInt8)) :
    ∀ {t : Transcript} {req₀ : HttpRequest} (rest : List UInt8),
      t.stage = .parsing httpParserInit req₀ → t.partialHead = [] → (∀ r ∈ rs, RequestHead r) →
      t.requests.length + rs.length ≤ (t.run (rs.flatten ++ rest)).requests.length →
      ∃ qs, Linked req₀ rs qs ∧ t.requests ++ qs <+: (t.run (rs.flatten ++ rest)).requests := by
  induction rs with
  | nil =>
      intro t req₀ rest _ _ _ _
      refine ⟨[], .nil, ?_⟩
      rw [List.append_nil]
      exact (t.run_exchanges rest).filterMap Exchange.request
  | cons r rs ih =>
      intro t req₀ rest hstage hpart hheads hlen
      obtain ⟨x, hw, hok, rfl, hscan, halone⟩ := (hheads r List.mem_cons_self).scan
      have hsplit : t.run ((x.text :: rs).flatten ++ rest) =
          (t.run x.text).run (rs.flatten ++ rest) := by
        rw [List.flatten_cons, List.append_assoc, Transcript.run_append]
      rw [hsplit, List.length_cons] at hlen
      rw [hsplit]
      -- the next head is a request, or its header lines do not fit behind those of the last one
      rcases run_requestHead hstage hpart hok rfl hscan with ⟨req, hrun, hfill⟩ | ⟨hfault, hexch⟩
      · have hreq : (t.run x.text).requests = t.requests ++ [req] := by
          rw [hrun]
          simp [Transcript.requests]
        cases hkeep : req.keepAlive with
        | true =>
            have hnext : (t.run x.text).stage = .parsing httpParserInit req := by
              rw [hrun, hkeep]
              rfl
            obtain ⟨qs, hqs, hpre⟩ := ih rest hnext (by rw [hrun])
              (fun r hr => hheads r (List.mem_cons_of_mem _ hr))
              (by rw [hreq, List.length_append, List.length_singleton]; omega)
            refine ⟨req :: qs, .cons hw halone hfill hqs, ?_⟩
            rw [hreq, List.append_assoc] at hpre
            exact hpre
        | false =>
            -- the connection is closed after this head, so it is the last one
            have hend : (t.run x.text).stage = .ended := by
              rw [hrun, hkeep]
              rfl
            rw [Transcript.run_of_over hend, hreq, List.length_append, List.length_singleton]
              at hlen
            have hnil : rs = [] := List.length_eq_zero_iff.mp (by omega)
            subst hnil
            refine ⟨[req], .cons hw halone hfill .nil, ?_⟩
            rw [Transcript.run_of_over hend, hreq]
      · have hsame : (t.run x.text).requests = t.requests :=
          congrArg (List.filterMap Exchange.request) hexch
        rw [Transcript.run_of_fault hfault, hsame] at hlen
        omega

/-! ## Isolation -/

/-- A request is as if it had come alone exactly when it finds an empty header table, and an
empty query string unless it has one of its own. -/
theorem view_eq_iff {x : Head} {req₀ req req₁ : HttpRequest} (h₁ : Filled .zero x req₁)
    (h : Filled req₀ x req) :
    req.view = req₁.view ↔
      req₀.numHeaders = 0 ∧ (x.line.start.query ≠ none ∨ req₀.queryString.str = []) := by
  have hzero : HttpRequest.zero.queryString.str = [] := rfl
  have hquery := h.filling.started.query
  have hquery₁ := h₁.filling.started.query
  constructor
  · intro heq
    have hnum : req.numHeaders = req₁.numHeaders := congrArg View.numHeaders heq
    have hstr : req.queryString.str = req₁.queryString.str := congrArg View.query heq
    -- old headers would be counted again
    refine ⟨?_, ?_⟩
    · rw [h.filling.num, h₁.filling.num] at hnum
      have h0 : HttpRequest.zero.numHeaders = 0 := rfl
      omega
    · cases hq : x.line.start.query with
      -- without a `?` the buffer of the query is not written
      | none =>
          rw [hq] at hquery hquery₁
          rw [hquery, hquery₁, hzero] at hstr
          exact .inr hstr
      | some q => exact .inl (by simp)
  · rintro ⟨hnum, hstale⟩
    have hlist : req₀.headerList = [] := by rw [HttpRequest.headerList, hnum]; rfl
    -- with no header and no query left over both are filled alike
    have hsame : req.headerList = req₁.headerList := by
      rw [h.filling.list, h₁.filling.list, hlist]
      rfl
    have hstr : req.queryString.str = req₁.queryString.str := by
      rw [hquery, hquery₁]
      cases hq : x.line.start.query with
      | none =>
          rw [hzero]
          exact hstale.resolve_left (by rw [hq]; simp)
      | some q => rfl
    simp only [HttpRequest.view, View.mk.injEq]
    refine ⟨?_, ?_, hstr, ?_, hsame, ?_, ?_⟩
    · rw [h.filling.started.method, h₁.filling.started.method]
    · rw [h.filling.started.path, h₁.filling.started.path]
    · rw [h.filling.version, h₁.filling.version]
    · rw [h.filling.num, h₁.filling.num, hnum]
      rfl
    · rw [h.keepAlive, h₁.keepAlive, hsame]

/-- A request with head `r` finds nothing in the record `req₀`. -/
def FindsNothing (req₀ : HttpRequest) (r : List UInt8) : Prop :=
  req₀.numHeaders = 0 ∧ (QMARK ∈ target r ∨ req₀.queryString.str = [])

/-- If the first head finds nothing, the requests are as if alone exactly when no head leaves
anything to the next. -/
theorem Linked.views_iff {req₀ : HttpRequest} {rs : List (List UInt8)} {qs : List HttpRequest}
    (h : Linked req₀ rs qs) (hfirst : ∀ r ∈ rs.head?, FindsNothing req₀ r) :
    qs.map HttpRequest.view = rs.map (fun r => (requestAlone r).view) ↔
      rs.IsChain LeavesNothing := by
  induction h with
  | nil => simp
  | @cons req₀ req x rs qs hw halone hfill hrest ih =>
      have hview : req.view = (requestAlone x.text).view := by
        refine (view_eq_iff halone hfill).mpr ?_
        rw [← qmark_mem_target hw]
        exact hfirst x.text rfl
      rw [List.map_cons, List.map_cons, hview, List.cons.injEq, and_iff_right rfl]
      cases hrest with
      | nil => simp
      | @cons _ req' y rs qs hw' halone' hfill' hrest' =>
          -- what the next head finds is what this one leaves
          have hfinds : FindsNothing req y.text ↔ LeavesNothing x.text y.text := by
            rw [FindsNothing, LeavesNothing, ← hview]
            rfl
          rw [List.isChain_cons_cons, ← hfinds]
          constructor
          · intro hmap
            have hview' : req'.view = (requestAlone y.text).view := by
              rw [List.map_cons, List.map_cons] at hmap
              exact (List.cons.inj hmap).1
            have hnothing : FindsNothing req y.text := by
              rw [FindsNothing, qmark_mem_target hw']
              exact (view_eq_iff halone' hfill').mp hview'
            exact ⟨hnothing, (ih (by simpa using hnothing)).mp hmap⟩
          · rintro ⟨hnothing, hchain⟩
            exact (ih (by simpa using hnothing)).mpr hchain

/-- The requests recognised on connection `cid`, one for each of the heads `rs`, are as if each
head had been parsed alone, and so are their answers. -/
structure Isolated (site : Site) (os : Os) (cid : Nat) (rs : List (List UInt8)) : Prop where
  views : ((os.requests cid).take rs.length).map HttpRequest.view =
    rs.map (fun r => (requestAlone r).view)
  answers : ((os.requests cid).take rs.length).map (answer site) =
    rs.map (fun r => answer site (requestAlone r))

theorem Isolated.of_views {site : Site} {os : Os} {cid : Nat} {rs : List (List UInt8)}
    (h : ((os.requests cid).take rs.length).map HttpRequest.view =
      rs.map (fun r => (requestAlone r).view)) : Isolated site os cid rs := by
  refine ⟨h, ?_⟩
  generalize (os.requests cid).take rs.length = qs at h ⊢
  induction rs generalizing qs with
  | nil => simpa using h
  | cons r rs ih =>
      cases qs with
      | nil => cases h
      | cons q qs =>
          obtain ⟨hq, hqs⟩ := List.cons.inj h
          rw [List.map_cons, List.map_cons, ih qs hqs, answer_of_view site hq]

/-- **Requests on one connection are isolated exactly when no head leaves anything to the
next**: for any events, and any heads `rs` whose bytes have been parsed on connection `cid` and
for each of which the parser has reported `DONE`. -/
theorem requests_isolated_iff (site : Site) (inherited : List Nat) (es : List Event) (cid : Nat)
    (rs : List (List UInt8)) (hheads : ∀ r ∈ rs, RequestHead r)
    (hparsed : rs.flatten <+: (reactorRun site (reactorCreate inherited) es).os.parsed cid)
    (hdone : rs.length ≤
      ((reactorRun site (reactorCreate inherited) es).os.requests cid).length) :
    Isolated site (reactorRun site (reactorCreate inherited) es).os cid rs ↔
      rs.IsChain LeavesNothing := by
  have hrec := ((reactorRun_followed site inherited es).recorded cid).requests
  generalize (reactorRun site (reactorCreate inherited) es).os = os at hrec hparsed hdone ⊢
  obtain ⟨rest, hrest⟩ := hparsed
  rw [hrec, Os.dialogue, ← hrest] at hdone
  obtain ⟨qs, hlinked, hpre⟩ := exists_linked rs (t := .start) rest rfl rfl hheads
    (by rw [show Transcript.start.requests = [] from rfl, List.length_nil, Nat.zero_add]; exact hdone)
  have htake : (os.requests cid).take rs.length = qs := by
    rw [hrec, Os.dialogue, ← hrest, ← hlinked.length]
    exact (List.prefix_iff_eq_take.mp hpre).symm
  have hiff := hlinked.views_iff (fun r _ => ⟨rfl, .inr rfl⟩)
  rw [← hiff, ← htake]
  exact ⟨fun h => h.views, .of_views⟩

/-! Two heads on one connection of an empty site, which the client sends at once. -/

def bareSite : Site where
  docRoot := ascii "w"
  stat := fun _ => .absent
  stat_long := fun _ _ => rfl

def sendEvents (bs : List UInt8) : List Event :=
  [⟨2, ⟨true, false, false⟩, ⟨[], [], [], []⟩, [⟨5, bs, true⟩]⟩,
    ⟨5, ⟨true, false, false⟩, ⟨[.bytes 100], [.bytes 500, .bytes 500], [], []⟩, []⟩]

def firstQuery : List UInt8 := ascii "GET /?a HTTP/1.1\n\n"

def secondQuery : List UInt8 := ascii "GET /?b HTTP/1.1\n\n"

theorem requests_isolated_queries :
    Isolated bareSite
      (reactorRun bareSite (reactorCreate []) (sendEvents (firstQuery ++ secondQuery))).os 4
      [firstQuery, secondQuery] := by
  refine (requests_isolated_iff bareSite [] _ 4 [firstQuery, secondQuery] ?_ ?_ ?_).mpr ?_
  · intro r hr
    rcases List.mem_cons.mp hr with rfl | hr
    · decide +kernel
    · rw [List.mem_singleton.mp hr]
      decide +kernel
  · decide +kernel
  · decide +kernel
  · decide +kernel

def keepAliveHead : List UInt8 := ascii "GET / a\nConnection:keep-alive\n\n"

def plainHead : List UInt8 := ascii "GET / a\n\n"

/-- The second request asks for nothing, and the connection is kept open for it as the first
one asked. -/
theorem not_isolated_keepAlive :
    RequestHead keepAliveHead ∧ RequestHead plainHead ∧
    (reactorRun bareSite (reactorCreate []) (sendEvents (keepAliveHead ++ plainHead))).os.parsed 4 =
      keepAliveHead ++ plainHead ∧
    ((reactorRun bareSite (reactorCreate []) (sendEvents (keepAliveHead ++ plainHead))).os.requests
      4).map HttpRequest.keepAlive = [true, true] ∧
    (requestAlone plainHead).keepAlive = false ∧
    ¬ Isolated bareSite
      (reactorRun bareSite (reactorCreate []) (sendEvents (keepAliveHead ++ plainHead))).os 4
      [keepAliveHead, plainHead] := by
  have hkeep : ((reactorRun bareSite (reactorCreate [])
      (sendEvents (keepAliveHead ++ plainHead))).os.requests 4).map HttpRequest.keepAlive =
      [true, true] := by decide +kernel
  have halone : [keepAliveHead, plainHead].map (fun r => (requestAlone r).view.keepAlive) =
      [true, false] := by decide +kernel
  refine ⟨by decide +kernel, by decide +kernel, by decide +kernel, hkeep, by decide +kernel, ?_⟩
  intro h
  have hviews := congrArg (List.map View.keepAlive) h.views
  rw [List.map_map, List.map_map, List.map_take] at hviews
  change (List.map HttpRequest.keepAlive _).take 2 =
    [keepAliveHead, plainHead].map (fun r => (requestAlone r).view.keepAlive) at hviews
  rw [hkeep, halone] at hviews
  cases hviews

end HttpServer
