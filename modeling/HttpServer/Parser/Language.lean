import HttpServer.Parser.Accept
import HttpServer.Lib.Lines

set_option autoImplicit false

/-! # The language of the parser

`http_parser_feed` on a fresh parser and a zeroed request decides the grammar: it answers
DONE, INCOMPLETE or ERROR according to whether the bytes start with a head, are the
beginning of one, or neither (`feed_decides_grammar`). The statement is about byte strings
within the limits of the header table (`InLimits`): at most 64 header lines begun and names
of at most 253 bytes. Outside them the C code writes past the end of the table or of a row.
-/

namespace HttpServer

open CLib

/-! ## The limits of the header table -/

instance (c : UInt8) : Decidable (IsNameByte c) := inferInstanceAs (Decidable (_ ∧ _))

/-- The field name of a line: the bytes up to the colon or the end of the line. -/
def lineName (line : List UInt8) : List UInt8 := line.takeWhile (fun c => decide (IsNameByte c))

/-- The bytes after the first line. -/
def headerBlock (s : List UInt8) : List UInt8 := (s.dropWhile (fun c => decide (c ≠ LF))).tail

/-- The names of the header lines begun in a string: one for each line after the first, up
to the first line that starts with no name (a blank line, or a malformed one). -/
def headerNames (s : List UInt8) : List (List UInt8) :=
  (((headerBlock s).splitOn LF).map lineName).takeWhile (fun nm => decide (nm ≠ []))

/-- At most 64 header lines begun, every header name at most 253 bytes. -/
structure InLimits (s : List UInt8) : Prop where
  count : (headerNames s).length ≤ 64
  short : ∀ nm ∈ headerNames s, nm.length ≤ 253

/-- The names of the lines of `t`, when the first of them continues the name `nm`. -/
def blockNames (nm t : List UInt8) : List (List UInt8) :=
  match t.splitOn LF with
  | [] => []
  | line :: lines =>
      ((nm ++ lineName line) :: lines.map lineName).takeWhile (fun nm => decide (nm ≠ []))

/-- The names of the lines of `t` after its first. -/
def tailNames (t : List UInt8) : List (List UInt8) :=
  ((t.splitOn LF).tail.map lineName).takeWhile (fun nm => decide (nm ≠ []))

theorem blockNames_nil (t : List UInt8) :
    blockNames [] t = ((t.splitOn LF).map lineName).takeWhile (fun nm => decide (nm ≠ [])) := by
  obtain ⟨line, lines, h⟩ := splitOn_ne_nil LF t
  simp only [blockNames, h, List.nil_append, List.map_cons]

theorem blockNames_end (nm : List UInt8) (hn : nm ≠ []) : blockNames nm [] = [nm] := by
  simp [blockNames, lineName, hn]

/-- A name byte moves from the text into the name. -/
theorem blockNames_cons {nm t : List UInt8} {c : UInt8} (hc : IsNameByte c) :
    blockNames nm (c :: t) = blockNames (nm ++ [c]) t := by
  obtain ⟨line, lines, h⟩ := splitOn_ne_nil LF t
  have hlf : c ≠ LF := fun h => hc.2 (Or.inr h)
  have hln : lineName (c :: line) = c :: lineName line :=
    List.takeWhile_cons_of_pos (by simpa using hc)
  simp only [blockNames, splitOn_cons hlf h, h, hln, List.append_assoc, List.singleton_append]

/-- A colon ends the name; the names of the later lines stay. -/
theorem blockNames_colon {nm t : List UInt8} (hn : nm ≠ []) :
    blockNames nm (COLON :: t) = nm :: tailNames t := by
  obtain ⟨line, lines, h⟩ := splitOn_ne_nil LF t
  have hln : lineName (COLON :: line) = [] :=
    List.takeWhile_cons_of_neg (by decide)
  simp only [blockNames, tailNames, splitOn_cons (show COLON ≠ LF by decide) h, h, hln,
    List.append_nil, List.tail_cons]
  exact List.takeWhile_cons_of_pos (by simpa using hn)

theorem tailNames_cons {t : List UInt8} {c : UInt8} (hc : c ≠ LF) :
    tailNames (c :: t) = tailNames t := by
  obtain ⟨line, lines, h⟩ := splitOn_ne_nil LF t
  simp only [tailNames, splitOn_cons hc h, h, List.tail_cons]

theorem tailNames_lf (t : List UInt8) : tailNames (LF :: t) = blockNames [] t := by
  rw [blockNames_nil, tailNames, splitOn_self, List.tail_cons]

theorem headerBlock_cons {t : List UInt8} {c : UInt8} (hc : c ≠ LF) :
    headerBlock (c :: t) = headerBlock t := by
  rw [headerBlock, List.dropWhile_cons_of_pos (by simpa using hc)]
  rfl

theorem headerBlock_lf (t : List UInt8) : headerBlock (LF :: t) = t := by
  rw [headerBlock, List.dropWhile_cons_of_neg (by simp)]
  rfl

/-! ## Within the limits the scanner does not fault -/

/-- The header block of the text `t` still to come fits `rows` header rows. -/
def BlockRoom (rows : Nat) (t : List UInt8) : Prop :=
  (blockNames [] (headerBlock t)).length ≤ rows ∧
  ∀ x ∈ blockNames [] (headerBlock t), x.length ≤ 253

theorem BlockRoom.tail {rows : Nat} {t : List UInt8} {c : UInt8} (h : BlockRoom rows (c :: t))
    (hc : c ≠ LF) : BlockRoom rows t := by
  rw [BlockRoom, headerBlock_cons hc] at h
  exact h

/-- The text `t` still to come fits the free header rows and the length of a name. -/
def Scan.Room (rows : Nat) : Scan → List UInt8 → Prop
  | .name _ hs nm, t =>
      hs.length + (blockNames nm t).length ≤ rows ∧ ∀ x ∈ blockNames nm t, x.length ≤ 253
  | .nameCr _ _, _ => True
  | .value _ hs nm _ _, t =>
      hs.length + 1 + (tailNames t).length ≤ rows ∧ (∀ x ∈ tailNames t, x.length ≤ 253) ∧
      nm.length ≤ 253
  | .valueCr _ hs nm _ _, t =>
      hs.length + 1 + (tailNames t).length ≤ rows ∧ (∀ x ∈ tailNames t, x.length ≤ 253) ∧
      nm.length ≤ 253
  | .method _, t => BlockRoom rows t
  | .path _ _ _, t => BlockRoom rows t
  | .query _ _ _ _, t => BlockRoom rows t
  | .version _ _, t => BlockRoom rows t
  | .versionCr _ _, t => BlockRoom rows t

/-- The end of the request line, with the header block to come. -/
theorem BlockRoom.block {rows : Nat} {t : List UInt8} (h : BlockRoom rows (LF :: t))
    (l : RequestLine) : (Scan.name l [] []).Room rows t := by
  rw [BlockRoom, headerBlock_lf] at h
  exact ⟨by rw [List.length_nil, Nat.zero_add]; exact h.1, h.2⟩

/-- A step within the limits does not fault and leaves the rest within them. -/
def StepsWithin (rows : Nat) (t : List UInt8) : ScanStep → Prop
  | .more s => s.Room rows t
  | .fault _ => False
  | _ => True

theorem endLine_within {rows : Nat} {l : RequestLine} {hs : List HeaderLine}
    {nm ows v t : List UInt8} {e : Eol} (hsz : v ≠ [] → nm.length + v.length ≤ 253)
    (h : (Scan.value l hs nm ows v).Room rows (LF :: t)) :
    StepsWithin rows t (endLine l hs nm ows v e) := by
  obtain ⟨hrows, hshort, hn⟩ := h
  rw [tailNames_lf] at hrows hshort
  have hlt : nm.length + 2 + v.length < headerSize := by
    unfold headerSize
    by_cases hv : v = []
    · rw [hv, List.length_nil]; omega
    · have := hsz hv; omega
  rw [endLine, if_pos hlt]
  refine ⟨?_, hshort⟩
  rw [List.length_append, List.length_singleton]
  exact hrows

theorem Scan.Room.step {rows : Nat} {s : Scan} {c : UInt8} {t : List UInt8} (hw : s.WF)
    (h : s.Room rows (c :: t)) : StepsWithin rows t (s.step rows c) := by
  cases s with
  -- before the first header line only the end of the request line is looked at
  | method m =>
      simp only [Scan.step]
      split_ifs with h1 h2 h3 h4
      · trivial
      · exact BlockRoom.tail h (isBlank_not_break h1).2
      · trivial
      · exact BlockRoom.tail h (fun h => h3 (Or.inr h))
      · trivial
  | path m sp p =>
      simp only [Scan.step]
      split_ifs with h1 h2 h3 h4 h5
      · trivial
      · exact BlockRoom.tail h (isBlank_not_break h1).2
      · exact BlockRoom.tail h (by rw [h3]; decide)
      · trivial
      · exact BlockRoom.tail h (fun h => h4 (Or.inr h))
      · trivial
  | query m sp p q =>
      simp only [Scan.step]
      split_ifs with h1 h2 h3
      · exact BlockRoom.tail h (isBlank_not_break h1).2
      · trivial
      · exact BlockRoom.tail h (fun h => h2 (Or.inr h))
      · trivial
  | version st v =>
      simp only [Scan.step]
      split_ifs with h1 h2 h3
      · exact BlockRoom.tail h (by rw [h1]; decide)
      · exact BlockRoom.block (h2 ▸ h) ⟨st, v, .lf⟩
      · exact BlockRoom.tail h h2
      · trivial
  | versionCr st v =>
      simp only [Scan.step]
      split_ifs with h1
      · exact BlockRoom.block (h1 ▸ h) ⟨st, v, .crlf⟩
      · trivial
  | name l hs nm =>
      obtain ⟨hrows, hshort⟩ := h
      simp only [Scan.step]
      split_ifs with h1 h2 h3 h4 h5 h6 h7 h8 h9
      · trivial
      · trivial
      · trivial
      · trivial
      · trivial
      -- the colon ends the first name of the block; those behind it keep their room
      · rw [h5, blockNames_colon h6, List.length_cons] at hrows
        rw [h5, blockNames_colon h6] at hshort
        exact ⟨by omega, fun x hx => hshort x (by simp [hx]), hshort nm (by simp)⟩
      · -- a name of 255 bytes is longer than the limit
        rw [h5, blockNames_colon h6] at hshort
        have := hshort nm (by simp)
        unfold headerSize at h7
        omega
      · rw [blockNames_cons ⟨h5, not_isBreak h1 h3⟩] at hrows hshort
        exact ⟨hrows, hshort⟩
      · -- the line begun needs a row of its own
        rw [blockNames_cons ⟨h5, not_isBreak h1 h3⟩] at hrows
        have : 0 < (blockNames (nm ++ [c]) t).length := by
          obtain ⟨line, lines, hsp⟩ := splitOn_ne_nil LF t
          simp only [blockNames, hsp]
          rw [List.takeWhile_cons_of_pos (by simp)]
          simp
        exact h9 (by omega)
      · trivial
  | nameCr l hs =>
      simp only [Scan.step]
      split_ifs <;> trivial
  | value l hs nm ows v =>
      simp only [Scan.step]
      split_ifs with h1 h2 h3 h4
      · rw [Scan.Room, tailNames_cons (by rw [h1]; decide)] at h; exact h
      · exact endLine_within hw.2.2.2.2.2.2 (h2 ▸ h)
      · rw [Scan.Room, tailNames_cons h2] at h; exact h
      · rw [Scan.Room, tailNames_cons h2] at h; exact h
      · trivial
  | valueCr l hs nm ows v =>
      simp only [Scan.step]
      split_ifs with h1
      · exact endLine_within hw.2.2.2.2.2.2 (h1 ▸ h)
      · trivial

theorem Scan.Room.run {rows : Nat} (t : List UInt8) :
    ∀ {s : Scan}, s.WF → s.Room rows t → StepsWithin rows [] (s.run rows t) := by
  induction t with
  | nil => intro s _ h; exact h
  | cons c t ih =>
      intro s hw h
      have hstep := h.step hw
      simp only [Scan.run]
      cases hs : s.step rows c with
      | more s' => rw [hs] at hstep; exact ih (hw.step hs) hstep
      | fault f => rw [hs] at hstep; exact hstep
      | head h => trivial
      | reject => trivial

theorem InLimits.room {s : List UInt8} (h : InLimits s) : (Scan.method []).Room 64 s := by
  have heq : blockNames [] (headerBlock s) = headerNames s := blockNames_nil _
  exact ⟨by rw [heq]; exact h.count, by rw [heq]; exact h.short⟩

/-- The names read so far are at most 253 bytes long. -/
def Scan.Short : Scan → Prop
  | .name _ _ nm => nm.length ≤ 253
  | .value _ _ nm _ _ => nm.length ≤ 253
  | .valueCr _ _ nm _ _ => nm.length ≤ 253
  | _ => True

theorem Scan.Room.short {rows : Nat} {s : Scan} (h : s.Room rows []) : s.Short := by
  cases s with
  | name l hs nm =>
      by_cases hn : nm = []
      · rw [hn]; exact Nat.zero_le _
      · rw [Scan.Room, blockNames_end nm hn] at h
        exact h.2 nm (by simp)
  | value l hs nm ows v => exact h.2.2
  | valueCr l hs nm ows v => exact h.2.2
  | _ => trivial

/-! ## The number of free rows matters only when they run out -/

theorem Scan.step_rows {rows rows' : Nat} (hle : rows ≤ rows') {s : Scan} {c : UInt8}
    (h : s.step rows c ≠ .fault .row) : s.step rows' c = s.step rows c := by
  cases s with
  | name l hs nm =>
      simp only [Scan.step] at h ⊢
      by_cases hr : hs.length < rows
      · rw [if_pos hr, if_pos (show hs.length < rows' by omega)]
      · rw [if_neg hr] at h ⊢
        split_ifs at h ⊢ <;> first | rfl | exact absurd rfl h
  | _ => rfl

theorem Scan.run_rows {rows rows' : Nat} (hle : rows ≤ rows') (t : List UInt8) :
    ∀ {s : Scan}, s.run rows t ≠ .fault .row → s.run rows' t = s.run rows t := by
  induction t with
  | nil => intro s _; rfl
  | cons c t ih =>
      intro s h
      simp only [Scan.run] at h ⊢
      rw [Scan.step_rows hle (fun hf => by rw [hf] at h; exact h rfl)]
      cases hs : s.step rows c with
      | more s' => rw [hs] at h; exact ih h
      | _ => rfl

/-! ## Every state is the beginning of a head -/

/-- Some more bytes make the text of the state a head. -/
def Scan.Completable (s : Scan) : Prop := ∃ t, t ≠ [] ∧ InGrammar (s.text ++ t)

theorem Scan.Completable.of_step {rows : Nat} {s s' : Scan} {c : UInt8} (h : s'.Completable)
    (hs : s.step rows c = .more s') : s.Completable := by
  obtain ⟨t, -, ht⟩ := h
  refine ⟨c :: t, by simp, ?_⟩
  rwa [Scan.step_text hs, List.append_assoc] at ht

theorem completable_version {st : Start} {v : List UInt8} (hw : (Scan.version st v).WF) :
    (Scan.version st v).Completable := by
  obtain ⟨hst, hvl, hvb⟩ := hw
  refine ⟨[LF, LF], by simp, ⟨⟨st, v, .lf⟩, [], .lf⟩, ⟨⟨hst, hvl, hvb⟩, List.forall_mem_nil _⟩, ?_⟩
  simp [Head.text, RequestLine.text, Scan.text, Eol.text]

theorem completable_path {m p : List UInt8} {sp : UInt8} (hw : (Scan.path m sp p).WF) :
    (Scan.path m sp p).Completable := by
  have hfull : ∀ p, p ≠ [] → (Scan.path m sp p).WF → (Scan.path m sp p).Completable := by
    intro p hp hw
    have hs : (Scan.path m sp p).step 64 SP = .more (.version ⟨m, sp, p, none, SP⟩ []) :=
      if_neg hp
    exact (completable_version (hw.step hs)).of_step hs
  by_cases hp : p = []
  · have hs : (Scan.path m sp p).step 64 47 = .more (.path m sp [47]) := by rw [hp]; rfl
    exact (hfull _ (by simp) (hw.step hs)).of_step hs
  · exact hfull p hp hw

theorem completable_method {m : List UInt8} (hw : (Scan.method m).WF) :
    (Scan.method m).Completable := by
  have hfull : ∀ m, m ≠ [] → (Scan.method m).WF → (Scan.method m).Completable := by
    intro m hm hw
    have hs : (Scan.method m).step 64 SP = .more (.path m SP []) := if_neg hm
    exact (completable_path (hw.step hs)).of_step hs
  by_cases hm : m = []
  · have hs : (Scan.method m).step 64 65 = .more (.method [65]) := by rw [hm]; rfl
    exact (hfull _ (by simp) (hw.step hs)).of_step hs
  · exact hfull m hm hw

theorem completable_value {l : RequestLine} {hs : List HeaderLine} {nm ows v : List UInt8} {e : Eol}
    (hw : (Scan.value l hs nm ows v).WF) (hn : nm.length ≤ 253) :
    InGrammar (l.text ++ headersText hs ++ HeaderLine.text ⟨nm, ows, v, e⟩ ++ [LF]) := by
  obtain ⟨hl, hhs, hne, hnb, how, hv, hsz⟩ := hw
  have hsize : nm.length + v.length ≤ 253 := by
    by_cases hv : v = []
    · rw [hv, List.length_nil]; exact hn
    · exact hsz hv
  have hx : HeaderLine.WF ⟨nm, ows, v, e⟩ := ⟨hne, hnb, how, hv, hsize⟩
  refine ⟨⟨l, hs ++ [⟨nm, ows, v, e⟩], .lf⟩, ⟨hl, forall_mem_snoc hhs hx⟩, ?_⟩
  simp [Head.text, headersText_append, headersText_singleton, Eol.text]

/-- What is missing is at most a method byte, a path, the blank before an empty version, a
colon and line ends. -/
theorem Scan.completable {s : Scan} (hw : s.WF) (hshort : s.Short) : s.Completable := by
  -- a completion for each state: at most the rest of its field and an empty line
  cases s with
  | method m => exact completable_method hw
  | path m sp p => exact completable_path hw
  | query m sp p q =>
      have hs : (Scan.query m sp p q).step 64 SP = .more (.version ⟨m, sp, p, some q, SP⟩ []) := rfl
      exact (completable_version (hw.step hs)).of_step hs
  | version st v => exact completable_version hw
  | versionCr st v =>
      obtain ⟨hst, hvl, hvb⟩ := hw
      refine ⟨[LF, LF], by simp, ⟨⟨st, v, .crlf⟩, [], .lf⟩,
        ⟨⟨hst, hvl, hvb⟩, List.forall_mem_nil _⟩, ?_⟩
      simp [Head.text, RequestLine.text, Scan.text, Eol.text]
  | name l hs nm =>
      obtain ⟨hl, hhs, hnb⟩ := hw
      by_cases hn : nm = []
      · refine ⟨[LF], by simp, ⟨l, hs, .lf⟩, ⟨hl, hhs⟩, ?_⟩
        simp [Head.text, Scan.text, Eol.text, hn]
      · refine ⟨[COLON, LF, LF], by simp, ?_⟩
        have hv : (Scan.value l hs nm [] []).WF :=
          ⟨hl, hhs, hn, hnb, List.forall_mem_nil _, List.forall_mem_nil _, fun h => absurd rfl h⟩
        have := completable_value (e := .lf) hv hshort
        simpa [HeaderLine.text, Scan.text, Eol.text] using this
  | nameCr l hs =>
      refine ⟨[LF], by simp, ⟨l, hs, .crlf⟩, ⟨hw.1, hw.2⟩, ?_⟩
      simp [Head.text, Scan.text, Eol.text]
  | value l hs nm ows v =>
      refine ⟨[LF, LF], by simp, ?_⟩
      have := completable_value (e := .lf) hw hshort
      simpa [HeaderLine.text, Scan.text, Eol.text] using this
  | valueCr l hs nm ows v =>
      refine ⟨[LF, LF], by simp, ?_⟩
      have := completable_value (e := .crlf) hw hshort
      simpa [HeaderLine.text, Scan.text, Eol.text] using this

/-! ## The parser decides the grammar -/

/-- The status of a call of `http_parser_feed`, `none` after a write outside an array. -/
def feedStatus (r : Except Fault (ParseStatus × HttpParser × HttpRequest)) : Option ParseStatus :=
  match r with
  | .ok (st, _, _) => some st
  | .error _ => none

/-- A head of the grammar that meets the rule on `Host`: when its blank line is CRLF and its
version reads HTTP/1.1, some header name is `Host`, in any case. -/
def AcceptedHead (s : List UInt8) : Prop :=
  ∃ h : Head, h.WF ∧ h.text = s ∧
    (h.blank = .crlf → cstr h.line.version = ascii "HTTP/1.1" →
      ∃ x ∈ h.headers, x.name.map lower = ascii "host")

theorem hostOk_iff (h : Head) : h.hostOk = true ↔
    (h.blank = .crlf → cstr h.line.version = ascii "HTTP/1.1" →
      ∃ x ∈ h.headers, x.name.map lower = ascii "host") := by
  have hhost : h.headers.any HeaderLine.isHost = true ↔
      ∃ x ∈ h.headers, x.name.map lower = ascii "host" := by
    simp [List.any_eq_true, HeaderLine.isHost, isHostName]
  unfold Head.hostOk
  cases hb : h.blank with
  | lf => simp
  | crlf =>
      rw [← hhost]
      by_cases hv : cstr h.line.version = ascii "HTTP/1.1"
      · simp [hv]
      · simp [hv]

theorem AcceptedHead.inGrammar {s : List UInt8} (h : AcceptedHead s) : InGrammar s := by
  obtain ⟨x, hw, ht, -⟩ := h
  exact ⟨x, hw, ht⟩

/-- Within the limits, the status of the machine is read off the run of the scanner. -/
theorem feedStatus_eq (s : List UInt8) :
    feedStatus (httpParserFeed httpParserInit HttpRequest.zero s) =
      match (Scan.method []).run 64 s with
      | .more _ => some .incomplete
      | .head h => if h.hostOk then some .done else some .error
      | .reject => some .error
      | .fault _ => none := by
  have hm : MatchesRun HttpRequest.zero (httpParserFeed httpParserInit HttpRequest.zero s)
      ((Scan.method []).run 64 s) := httpParserFeed_matches rfl (agrees_init _) s
  cases hr : (Scan.method []).run 64 s with
  | more s' =>
      rw [hr] at hm
      obtain ⟨p, req, hf, -⟩ := hm
      rw [hf]; rfl
  | head h =>
      rw [hr, MatchesRun] at hm
      by_cases hok : h.hostOk = true
      · rw [if_pos hok] at hm
        obtain ⟨p, req, hf, -⟩ := hm
        simp only [hf, if_pos hok, feedStatus]
      · rw [if_neg hok] at hm
        obtain ⟨p, req, hf⟩ := hm
        simp only [hf, if_neg hok, feedStatus]
  | reject =>
      rw [hr] at hm
      obtain ⟨p, req, hf⟩ := hm
      rw [hf]; rfl
  | fault f =>
      rw [hr] at hm
      rw [show httpParserFeed httpParserInit HttpRequest.zero s = .error f from hm]
      rfl

theorem Head.norm_hostOk (h : Head) : h.norm.hostOk = h.hostOk := by
  have hany : (h.headers.map HeaderLine.norm).any HeaderLine.isHost
      = h.headers.any HeaderLine.isHost := by
    rw [List.any_map]
    rfl
  show (decide (h.blank = .lf) || (h.headers.map HeaderLine.norm).any HeaderLine.isHost || _) = _
  rw [hany]
  rfl

/-- A well-formed head within the table that meets the rule on `Host` is accepted, whatever
follows it. -/
theorem feed_head {h : Head} (hw : h.WF) (hn : ∀ x ∈ h.headers, x.Normal)
    (hlen : h.headers.length ≤ maxHeaders) (hok : h.hostOk = true) (rest : List UInt8) :
    ∃ p req, httpParserFeed httpParserInit .zero (h.text ++ rest) = .ok (.done, p, req) ∧
      Filled .zero h req := by
  have hm : MatchesRun .zero (httpParserFeed httpParserInit .zero (h.text ++ rest))
      ((Scan.method []).run maxHeaders (h.text ++ rest)) := httpParserFeed_matches rfl (agrees_init _) _
  rw [Scan.run_append_of_head (run_headText maxHeaders hw hn hlen), MatchesRun, if_pos hok] at hm
  obtain ⟨p, req, hfeed, -, hfilled⟩ := hm
  exact ⟨p, req, hfeed, hfilled⟩

/-- A head at the start of the input is what a run that does not fault finds. -/
theorem run_of_prefix {x : Head} {s : List UInt8} (hw : x.WF) (hp : x.text <+: s)
    (hf : ∀ f, (Scan.method []).run 64 s ≠ .fault f) :
    (Scan.method []).run 64 s = .head x.norm := by
  obtain ⟨t, rfl⟩ := hp
  rw [← Scan.run_rows (Nat.le_max_left 64 x.headers.length) _ (hf .row)]
  exact Scan.run_append_of_head (run_head_norm _ hw (Nat.le_max_right _ _)) t

/-- A head that continues the input keeps a run that does not fault in the states. -/
theorem run_of_beginning {s t : List UInt8} (ht : t ≠ []) (hg : InGrammar (s ++ t))
    (hf : ∀ f, (Scan.method []).run 64 s ≠ .fault f) :
    ∃ s', (Scan.method []).run 64 s = .more s' := by
  obtain ⟨x, hw, hx⟩ := hg
  rw [← Scan.run_rows (Nat.le_max_left 64 x.headers.length) _ (hf .row)]
  exact run_proper_prefix _ hw (Nat.le_max_right _ _) hx ht

/-- **The parser accepts exactly its grammar.** -/
theorem feed_decides_grammar (s : List UInt8) (hlim : InLimits s) :
    (feedStatus (httpParserFeed httpParserInit HttpRequest.zero s) = some .done ↔
      ∃ a, a <+: s ∧ AcceptedHead a) ∧
    (feedStatus (httpParserFeed httpParserInit HttpRequest.zero s) = some .incomplete ↔
      (¬ ∃ a, a <+: s ∧ InGrammar a) ∧ ∃ t, t ≠ [] ∧ InGrammar (s ++ t)) ∧
    (feedStatus (httpParserFeed httpParserInit HttpRequest.zero s) = some .error ↔
      ¬ (∃ a, a <+: s ∧ AcceptedHead a) ∧
      ¬ ((¬ ∃ a, a <+: s ∧ InGrammar a) ∧ ∃ t, t ≠ [] ∧ InGrammar (s ++ t))) ∧
    (∀ a b, a <+: s → b <+: s → InGrammar a → InGrammar b → a = b) := by
  -- within the limits the scanner writes outside no array
  have hwithin := hlim.room.run s Scan.wf_start
  have hf : ∀ f, (Scan.method []).run 64 s ≠ .fault f := by
    intro f h
    rw [h] at hwithin
    exact hwithin
  have huniq : ∀ a b, a <+: s → b <+: s → InGrammar a → InGrammar b → a = b :=
    fun a b has hbs ha hb => ha.unique hb has hbs
  -- a prefix in the grammar, accepted or not, is what the scanner finds
  have hprefix : ∀ a, a <+: s → InGrammar a → ∃ h, (Scan.method []).run 64 s = .head h := by
    rintro a ha ⟨x, hw, rfl⟩
    exact ⟨_, run_of_prefix hw ha hf⟩
  have haccept : ∀ a, a <+: s → AcceptedHead a →
      ∃ h, (Scan.method []).run 64 s = .head h ∧ h.hostOk = true := by
    rintro a ha ⟨x, hw, rfl, hx⟩
    exact ⟨_, run_of_prefix hw ha hf, by rw [x.norm_hostOk]; exact (hostOk_iff x).mpr hx⟩
  rw [feedStatus_eq]
  cases hr : (Scan.method []).run 64 s with
  | more s' =>
      -- no head yet, and the state it has reached leads to one
      obtain ⟨hw, ht⟩ := Scan.run_more s Scan.wf_start hr
      rw [hr] at hwithin
      have hno : ¬ ∃ a, a <+: s ∧ InGrammar a := by
        rintro ⟨a, ha, hg⟩
        obtain ⟨h, hh⟩ := hprefix a ha hg
        rw [hr] at hh
        cases hh
      have hyes : ∃ t, t ≠ [] ∧ InGrammar (s ++ t) := by
        have := Scan.completable hw (Scan.Room.short hwithin)
        rwa [Scan.Completable, ht] at this
      refine ⟨⟨fun h => (by cases h), ?_⟩, ⟨fun _ => ⟨hno, hyes⟩, fun _ => rfl⟩,
        ⟨fun h => (by cases h), fun h => absurd ⟨hno, hyes⟩ h.2⟩, huniq⟩
      rintro ⟨a, ha, hacc⟩
      exact absurd ⟨a, ha, hacc.inGrammar⟩ hno
  | head h =>
      obtain ⟨hw, a, b, hab, ht⟩ := Scan.run_head s Scan.wf_start hr
      have hpre : h.text <+: s := ⟨b, by rw [ht, hab]; rfl⟩
      have hsome : ∃ a, a <+: s ∧ InGrammar a := ⟨_, hpre, h, hw, rfl⟩
      have hnot : ¬ ((¬ ∃ a, a <+: s ∧ InGrammar a) ∧ ∃ t, t ≠ [] ∧ InGrammar (s ++ t)) :=
        fun hc => hc.1 hsome
      -- a head without a `Host` is in the grammar and rejected
      by_cases hok : h.hostOk = true
      · have hacc : ∃ a, a <+: s ∧ AcceptedHead a :=
          ⟨_, hpre, h, hw, rfl, (hostOk_iff h).mp hok⟩
        simp only [if_pos hok]
        exact ⟨⟨fun _ => hacc, fun _ => trivial⟩, ⟨fun h => (by cases h), fun hc => absurd hc hnot⟩,
          ⟨fun h => (by cases h), fun hc => absurd hacc hc.1⟩, huniq⟩
      · have hnacc : ¬ ∃ a, a <+: s ∧ AcceptedHead a := by
          rintro ⟨a, ha, hacc⟩
          obtain ⟨h', hh', hok'⟩ := haccept a ha hacc
          rw [hr] at hh'
          cases hh'
          exact hok hok'
        simp only [if_neg hok]
        exact ⟨⟨fun h => (by cases h), fun hc => absurd hc hnacc⟩,
          ⟨fun h => (by cases h), fun hc => absurd hc hnot⟩,
          ⟨fun _ => ⟨hnacc, hnot⟩, fun _ => trivial⟩, huniq⟩
  | reject =>
      have hnacc : ¬ ∃ a, a <+: s ∧ AcceptedHead a := by
        rintro ⟨a, ha, hacc⟩
        obtain ⟨h, hh⟩ := hprefix a ha hacc.inGrammar
        rw [hr] at hh
        cases hh
      have hnot : ¬ ((¬ ∃ a, a <+: s ∧ InGrammar a) ∧ ∃ t, t ≠ [] ∧ InGrammar (s ++ t)) := by
        rintro ⟨-, t, htne, hg⟩
        obtain ⟨s', hs'⟩ := run_of_beginning htne hg hf
        rw [hr] at hs'
        cases hs'
      exact ⟨⟨fun h => (by cases h), fun hc => absurd hc hnacc⟩,
        ⟨fun h => (by cases h), fun hc => absurd hc hnot⟩, ⟨fun _ => ⟨hnacc, hnot⟩, fun _ => rfl⟩,
        huniq⟩
  | fault f => exact absurd hr (hf f)

/-- A request with one header, sent with both line terminators. -/
def sampleRequest : List UInt8 := ascii "GET /a?b HTTP/1.1\r\nHost: x\n\r\n"

theorem feed_decides_grammar_sample :
    InLimits sampleRequest ∧ ∃ a, a <+: sampleRequest ∧ AcceptedHead a := by
  have hlim : InLimits sampleRequest := ⟨by decide +kernel, by decide +kernel⟩
  exact ⟨hlim, (feed_decides_grammar sampleRequest hlim).1.mp (by decide +kernel)⟩

end HttpServer
