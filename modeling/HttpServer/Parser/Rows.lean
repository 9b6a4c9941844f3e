import HttpServer.Parser.Language

set_option autoImplicit false

/-! # The rows of the header table

The parser stores header lines in a table of 64 rows and never compares `num_headers` with 64.
The first byte of a 65th header line is written past the end of the table; before that all
writes go to rows of the table. A byte writes to the row `num_headers` and only the end of a line
counts it, so the counter stays at most 64 (`feedAll_count`); which inputs reach row 64 is read
off the scanner, whose name state is the only one that opens a row (`run_row_iff`).
-/

namespace HttpServer

open CLib

/-! ## Feeding chunks -/

/-- Feed chunks one after the other, up to the first status other than `INCOMPLETE`. -/
def feedAll (p : HttpParser) (req : HttpRequest) :
    List (List UInt8) → Except Fault (ParseStatus × HttpParser × HttpRequest)
  | [] => .ok (.incomplete, p, req)
  | chunk :: chunks =>
      match httpParserFeed p req chunk with
      | .error f => .error f
      | .ok (.incomplete, p', req') => feedAll p' req' chunks
      | .ok (.done, p', req') => .ok (.done, p', req')
      | .ok (.error, p', req') => .ok (.error, p', req')

/-- The cuts between the chunks do not matter. -/
theorem feedAll_matches {req₀ : HttpRequest} {rows : Nat}
    (hrows : rows = maxHeaders - req₀.numHeaders) (chunks : List (List UInt8)) :
    ∀ {p : HttpParser} {req : HttpRequest} {s : Scan}, Agrees req₀ p req s →
      MatchesRun req₀ (feedAll p req chunks) (s.run rows chunks.flatten) := by
  induction chunks with
  | nil => exact fun {p req s} h => ⟨p, req, rfl, h⟩
  | cons chunk chunks ih =>
      intro p req s h
      have hm := httpParserFeed_matches hrows h chunk
      rw [List.flatten_cons, Scan.run_append, feedAll]
      cases hs : s.run rows chunk with
      | more s' =>
          rw [hs] at hm
          obtain ⟨p', req', hfeed, h'⟩ := hm
          rw [hfeed]
          exact ih h'
      -- a complete head ends the scan, and the parser then looks at `host_seen`
      | head hd =>
          rw [hs, MatchesRun] at hm
          by_cases hok : hd.hostOk = true
          · rw [if_pos hok] at hm
            obtain ⟨p', req', hfeed, h'⟩ := hm
            rw [hfeed, MatchesRun, if_pos hok]
            exact ⟨p', req', rfl, h'⟩
          · rw [if_neg hok] at hm
            obtain ⟨p', req', hfeed⟩ := hm
            rw [hfeed, MatchesRun, if_neg hok]
            exact ⟨p', req', rfl⟩
      | reject =>
          rw [hs] at hm
          obtain ⟨p', req', hfeed⟩ := hm
          rw [hfeed]
          exact ⟨p', req', rfl⟩
      | fault f =>
          rw [hs] at hm
          rw [show httpParserFeed p req chunk = .error f from hm]
          rfl

/-! ## The counter -/

theorem storeHeader_ok {req req' : HttpRequest} {i : Nat} {c : UInt8}
    (h : req.storeHeader i c = .ok req') :
    req.numHeaders < maxHeaders ∧ req'.numHeaders = req.numHeaders := by
  have hlt : req.numHeaders < maxHeaders := by
    by_contra hge
    rw [storeHeader_row i c (Nat.le_of_not_lt hge)] at h
    cases h
  refine ⟨hlt, ?_⟩
  unfold HttpRequest.storeHeader at h
  simp only [bind, Except.bind] at h
  split at h
  · cases h
  · split at h
    · cases h
    · split at h
      · cases h
        rfl
      · cases h

/-- The counter is at most 64 after the byte, if there is an after. -/
def Bounded (r : FeedStep) : Prop :=
  ∀ o p req, r = .ok (o, p, req) → req.numHeaders ≤ maxHeaders

section Bounded

variable {p : HttpParser} {req : HttpRequest}

theorem bounded_ok (h : req.numHeaders ≤ maxHeaders) (o : Option ParseStatus) (p : HttpParser) :
    Bounded (.ok (o, p, req)) := by
  intro o' p' req' heq
  cases heq
  exact h

theorem bounded_next (h : req.numHeaders ≤ maxHeaders) : Bounded (next p req) := bounded_ok h _ _

theorem bounded_ret {st : ParseStatus} (h : req.numHeaders ≤ maxHeaders) : Bounded (ret st p req) :=
  bounded_ok h _ _

theorem bounded_finish (h : req.numHeaders ≤ maxHeaders) : Bounded (finish p req) := by
  unfold finish
  exact bounded_ret h

theorem Bounded.bind {α : Type} {x : Except Fault α} {f : α → FeedStep}
    (h : ∀ a, x = .ok a → Bounded (f a)) : Bounded (x >>= f) := by
  intro o p req heq
  cases hx : x with
  | error e =>
      rw [hx] at heq
      cases heq
  | ok a =>
      rw [hx] at heq
      exact h a hx o p req heq

theorem bounded_feedMethod (h : req.numHeaders ≤ maxHeaders) (c : UInt8) :
    Bounded (feedMethod p req c) := by
  unfold feedMethod
  split_ifs
  · exact bounded_ok h _ _
  · exact .bind fun _ _ => bounded_next h
  · exact bounded_ok h _ _
  · exact .bind fun _ _ => bounded_next h
  · exact bounded_ok h _ _

theorem bounded_feedPath (h : req.numHeaders ≤ maxHeaders) (c : UInt8) :
    Bounded (feedPath p req c) := by
  unfold feedPath
  split_ifs
  · exact bounded_ok h _ _
  · exact .bind fun _ _ => bounded_next h
  · exact .bind fun _ _ => bounded_next h
  · exact bounded_ok h _ _
  · exact .bind fun _ _ => bounded_next h
  · exact bounded_ok h _ _

theorem bounded_feedQuery (h : req.numHeaders ≤ maxHeaders) (c : UInt8) :
    Bounded (feedQuery p req c) := by
  unfold feedQuery
  split_ifs
  · exact .bind fun _ _ => bounded_next h
  · exact bounded_ok h _ _
  · exact .bind fun _ _ => bounded_next h
  · exact bounded_ok h _ _

theorem bounded_feedVersion (h : req.numHeaders ≤ maxHeaders) (c : UInt8) :
    Bounded (feedVersion p req c) := by
  unfold feedVersion endVersion
  split_ifs
  · exact bounded_ok h _ _
  · exact .bind fun _ _ => bounded_next h
  · exact .bind fun _ _ => bounded_next h
  · exact bounded_ok h _ _

theorem bounded_feedVersionCr (h : req.numHeaders ≤ maxHeaders) (c : UInt8) :
    Bounded (feedVersionCr p req c) := by
  unfold feedVersionCr endVersion
  split_ifs
  · exact .bind fun _ _ => bounded_next h
  · exact bounded_ok h _ _

theorem bounded_feedHeaderName (h : req.numHeaders ≤ maxHeaders) (c : UInt8) :
    Bounded (feedHeaderName p req c) := by
  unfold feedHeaderName
  split_ifs
  · exact bounded_ok h _ _
  · exact bounded_ok h _ _
  · exact bounded_finish h
  · exact bounded_ok h _ _
  · exact bounded_ok h _ _
  · refine .bind fun row _ => .bind fun req₁ h₁ => .bind fun req₂ h₂ => bounded_next ?_
    rw [(storeHeader_ok h₂).2, (storeHeader_ok h₁).2]
    exact h
  · refine .bind fun req₁ h₁ => bounded_next ?_
    rw [(storeHeader_ok h₁).2]
    exact h
  · exact bounded_ok h _ _

theorem bounded_feedHeaderNameCr (h : req.numHeaders ≤ maxHeaders) (c : UInt8) :
    Bounded (feedHeaderNameCr p req c) := by
  unfold feedHeaderNameCr
  split_ifs
  · exact bounded_ok h _ _
  · exact bounded_finish h
  · exact bounded_ok h _ _

/-- A row is counted after it has been written to, so it is one of the table. -/
theorem bounded_endHeader (p : HttpParser) (req : HttpRequest) : Bounded (endHeader p req) := by
  refine .bind fun req₁ h₁ => bounded_next ?_
  obtain ⟨hlt, heq⟩ := storeHeader_ok h₁
  rw [heq]
  exact hlt

theorem bounded_feedHeaderValue (h : req.numHeaders ≤ maxHeaders) (c : UInt8) :
    Bounded (feedHeaderValue p req c) := by
  unfold feedHeaderValue
  split_ifs
  · exact bounded_ok h _ _
  · exact bounded_endHeader p req
  · exact bounded_ok h _ _
  · refine .bind fun req₁ h₁ => bounded_next ?_
    rw [(storeHeader_ok h₁).2]
    exact h
  · exact bounded_ok h _ _

theorem bounded_feedHeaderValueCr (h : req.numHeaders ≤ maxHeaders) (c : UInt8) :
    Bounded (feedHeaderValueCr p req c) := by
  unfold feedHeaderValueCr
  split_ifs
  · exact bounded_endHeader p req
  · exact bounded_ok h _ _

theorem bounded_feedByte (h : req.numHeaders ≤ maxHeaders) (c : UInt8) :
    Bounded (feedByte p req c) := by
  unfold feedByte
  cases p.state with
  | method => exact bounded_feedMethod h c
  | path => exact bounded_feedPath h c
  | query => exact bounded_feedQuery h c
  | version => exact bounded_feedVersion h c
  | versionCr => exact bounded_feedVersionCr h c
  | headerName => exact bounded_feedHeaderName h c
  | headerNameCr => exact bounded_feedHeaderNameCr h c
  | headerValue => exact bounded_feedHeaderValue h c
  | headerValueCr => exact bounded_feedHeaderValueCr h c
  | done => exact bounded_ok h _ _

end Bounded

theorem feedLoop_count (cs : List UInt8) :
    ∀ {p : HttpParser} {req : HttpRequest}, req.numHeaders ≤ maxHeaders →
      ∀ {st p' req'}, feedLoop p req cs = .ok (st, p', req') → req'.numHeaders ≤ maxHeaders := by
  induction cs with
  | nil =>
      intro p req h st p' req' heq
      cases heq
      exact h
  | cons c cs ih =>
      intro p req h st p' req' heq
      have hb := bounded_feedByte (p := p) h c
      rw [feedLoop] at heq
      generalize feedByte p req c = r at hb heq
      rcases r with f | ⟨_ | st₁, p₁, req₁⟩
      · cases heq
      · exact ih (hb _ _ _ rfl) heq
      · cases heq
        exact hb _ _ _ rfl

theorem feedAll_count (chunks : List (List UInt8)) :
    ∀ {p : HttpParser} {req : HttpRequest}, req.numHeaders ≤ maxHeaders →
      ∀ {st p' req'}, feedAll p req chunks = .ok (st, p', req') → req'.numHeaders ≤ maxHeaders := by
  induction chunks with
  | nil =>
      intro p req h st p' req' heq
      cases heq
      exact h
  | cons chunk chunks ih =>
      intro p req h st p' req' heq
      -- one chunk keeps the bound, also if the parser had returned before
      have hb : ∀ {st₁ p₁ req₁}, httpParserFeed p req chunk = .ok (st₁, p₁, req₁) →
          req₁.numHeaders ≤ maxHeaders := by
        intro st₁ p₁ req₁ hfeed
        rw [httpParserFeed] at hfeed
        split at hfeed
        · cases hfeed
          exact h
        · exact feedLoop_count chunk h hfeed
      rw [feedAll] at heq
      generalize httpParserFeed p req chunk = r at hb heq
      rcases r with f | ⟨st₁, p₁, req₁⟩
      · cases heq
      cases st₁ with
      | incomplete => exact ih (hb rfl) heq
      | done =>
          cases heq
          exact hb rfl
      | error =>
          cases heq
          exact hb rfl

/-! ## The 65th line -/

/-- A request line, 64 header lines, and the first byte of one more. -/
def Overfull (s : List UInt8) : Prop :=
  ∃ (l : RequestLine) (hs : List HeaderLine) (c : UInt8) (rest : List UInt8),
    l.WF ∧ (∀ x ∈ hs, x.WF) ∧ hs.length = maxHeaders ∧ IsNameByte c ∧
      s = l.text ++ headersText hs ++ c :: rest

/-- Every header line begins with a byte of its name. -/
theorem headersText_begins {hs : List HeaderLine} (hw : ∀ x ∈ hs, x.WF) (hne : hs ≠ []) :
    ∃ c rest, IsNameByte c ∧ headersText hs = c :: rest := by
  cases hs with
  | nil => exact absurd rfl hne
  | cons x hs =>
      have hx := hw x List.mem_cons_self
      cases hname : x.name with
      | nil => exact absurd hname hx.name_pos
      | cons c nm =>
          refine ⟨c, nm ++ COLON :: (x.ows ++ x.value ++ x.eol.text) ++ headersText hs, ?_, ?_⟩
          · exact hx.name_byte c (by rw [hname]; exact List.mem_cons_self)
          · rw [headersText, List.flatMap_cons, HeaderLine.text, hname]
            simp [headersText]

/-- A name byte behind at least 64 header lines. -/
theorem overfull_of_name {l : RequestLine} {hs : List HeaderLine} {nm : List UInt8} {c : UInt8}
    (hw : (Scan.name l hs nm).WF) (hc : IsNameByte c) (hlen : maxHeaders ≤ hs.length)
    (rest : List UInt8) : Overfull ((Scan.name l hs nm).text ++ c :: rest) := by
  obtain ⟨hl, hhs, hnm⟩ := hw
  have hsplit : headersText hs =
      headersText (hs.take maxHeaders) ++ headersText (hs.drop maxHeaders) := by
    rw [← headersText_append, List.take_append_drop]
  obtain ⟨c', rest', hc', hbegin⟩ :
      ∃ c' rest', IsNameByte c' ∧ headersText (hs.drop maxHeaders) ++ nm ++ c :: rest = c' :: rest' := by
    by_cases hdrop : hs.drop maxHeaders = []
    · rw [hdrop, headersText_nil, List.nil_append]
      cases nm with
      | nil => exact ⟨c, rest, hc, rfl⟩
      | cons b nm => exact ⟨b, nm ++ c :: rest, hnm b List.mem_cons_self, rfl⟩
    · obtain ⟨b, more, hb, htext⟩ :=
        headersText_begins (fun x hx => hhs x (List.mem_of_mem_drop hx)) hdrop
      rw [htext]
      exact ⟨b, _, hb, rfl⟩
  refine ⟨l, hs.take maxHeaders, c', rest', hl, fun x hx => hhs x (List.mem_of_mem_take hx),
    List.length_take_of_le hlen, hc', ?_⟩
  rw [Scan.text, hsplit, ← hbegin]
  simp only [List.append_assoc]

/-- Only a name byte is written to a row that is not there. -/
theorem Scan.step_row {s : Scan} {c : UInt8} {rows : Nat} (h : s.step rows c = .fault .row) :
    ∃ l hs nm, s = .name l hs nm ∧ IsNameByte c ∧ rows ≤ hs.length := by
  cases s with
  | name l hs nm =>
      simp only [Scan.step] at h
      split_ifs at h with h1 h2 h3 h4 h5 h6 h7 h8 h9
      · cases h
      · exact ⟨l, hs, nm, rfl, ⟨h5, not_isBreak h1 h3⟩, Nat.le_of_not_lt h9⟩
  | value l hs nm ows v =>
      simp only [Scan.step, endLine] at h
      split_ifs at h
      cases h
  | valueCr l hs nm ows v =>
      simp only [Scan.step, endLine] at h
      split_ifs at h
      cases h
  | _ =>
      simp only [Scan.step] at h
      split_ifs at h

theorem Scan.run_row {rows : Nat} (t : List UInt8) :
    ∀ {s : Scan}, s.WF → s.run rows t = .fault .row →
      ∃ l hs nm c rest, (Scan.name l hs nm).WF ∧ IsNameByte c ∧ rows ≤ hs.length ∧
        s.text ++ t = (Scan.name l hs nm).text ++ c :: rest := by
  induction t with
  | nil => intro s _ h; cases h
  | cons c t ih =>
      intro s hw h
      simp only [Scan.run] at h
      cases hs : s.step rows c with
      | more s₁ =>
          rw [hs] at h
          obtain ⟨l, hs', nm, b, rest, hw', hb, hlen, heq⟩ := ih (hw.step hs) h
          refine ⟨l, hs', nm, b, rest, hw', hb, hlen, ?_⟩
          rw [← heq, Scan.step_text hs, List.append_assoc]
          rfl
      | fault f =>
          rw [hs] at h
          cases h
          obtain ⟨l, hs', nm, rfl, hc, hlen⟩ := Scan.step_row hs
          exact ⟨l, hs', nm, c, t, hw, hc, hlen, rfl⟩
      | head hd => rw [hs] at h; cases h
      | reject => rw [hs] at h; cases h

/-- A row past the end is written to exactly on overfull input. -/
theorem run_row_iff (t : List UInt8) :
    (Scan.method []).run maxHeaders t = .fault .row ↔ Overfull t := by
  constructor
  · intro h
    obtain ⟨l, hs, nm, c, rest, hw, hc, hlen, heq⟩ := Scan.run_row t Scan.wf_start h
    have htext : t = (Scan.name l hs nm).text ++ c :: rest := heq
    rw [htext]
    exact overfull_of_name hw hc hlen rest
  · rintro ⟨l, hs, c, rest, hl, hhs, hlen, hc, rfl⟩
    have hlen' : (hs.map HeaderLine.norm).length = maxHeaders := by rw [List.length_map, hlen]
    rw [← headersText_norm, List.append_assoc, Scan.run_append_of_more (run_line maxHeaders hl),
      Scan.run_append_of_more (run_headers maxHeaders _ (by simp [hlen']) (norm_lines_wf hhs)
        (norm_lines_normal hs))]
    obtain ⟨hcolon, hbreak⟩ := hc
    have hcr : c ≠ CR := fun h0 => hbreak (.inl h0)
    have hlf : c ≠ LF := fun h0 => hbreak (.inr h0)
    simp only [Scan.run, Scan.step, List.nil_append, if_neg hcr, if_neg hlf, if_neg hcolon, hlen']
    rfl

/-! ## An overfull input -/

/-- The request line `GET / a`. -/
def plainLine : RequestLine := ⟨⟨ascii "GET", SP, ascii "/", none, SP⟩, ascii "a", .lf⟩

/-- The header line `a:`. -/
def plainHeader : HeaderLine := ⟨ascii "a", [], [], .lf⟩

/-- `GET / a`, 64 lines `a:`, and the byte `a`. -/
def overfullInput : List UInt8 :=
  plainLine.text ++ headersText (List.replicate maxHeaders plainHeader) ++ ascii "a"

theorem plainLine_wf : plainLine.WF :=
  ⟨⟨by decide, by decide, by unfold IsToken; decide, by decide, by decide, by decide,
    by unfold IsPathByte IsToken; decide, fun _ h => (by cases h), fun _ h => (by cases h), by decide⟩, by decide, by decide⟩

theorem overfull_overfullInput : Overfull overfullInput := by
  refine ⟨plainLine, List.replicate maxHeaders plainHeader, 97, [], plainLine_wf, ?_,
    List.length_replicate, by decide, rfl⟩
  intro x hx
  obtain rfl := List.eq_of_mem_replicate hx
  exact ⟨by decide, by decide, fun _ h => (by cases h), fun _ h => (by cases h), by decide⟩

end HttpServer
