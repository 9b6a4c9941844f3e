import HttpServer.Parser.Grammar

set_option autoImplicit false

/-! # The parser on lists

`Scan` is the parser of `Parser/Machine.lean` with its byte buffers replaced by lists: a
state holds the tokens read so far, and the blanks and line terminators it passed over. It
is the middle layer between the C state machine (`Parser/Refine.lean`) and the grammar
(`Parser/Accept.lean`).

`rows` is the number of header rows still free in the request the parser fills: 64 on a
zeroed request, fewer when earlier requests have left theirs behind.
-/

namespace HttpServer

open CLib

inductive Scan
  | method (m : List UInt8)
  | path (m : List UInt8) (sp : UInt8) (p : List UInt8)
  | query (m : List UInt8) (sp : UInt8) (p q : List UInt8)
  | version (st : Start) (v : List UInt8)
  | versionCr (st : Start) (v : List UInt8)
  | name (l : RequestLine) (hs : List HeaderLine) (nm : List UInt8)
  | nameCr (l : RequestLine) (hs : List HeaderLine)
  | value (l : RequestLine) (hs : List HeaderLine) (nm ows v : List UInt8)
  | valueCr (l : RequestLine) (hs : List HeaderLine) (nm ows v : List UInt8)

/-- What a byte leads to: a new state, a complete head, a rejection, or a write outside the
header table. -/
inductive ScanStep
  | more (s : Scan)
  | head (h : Head)
  | reject
  | fault (f : Fault)

/-- The end of a header line. The terminating zero goes to column `|nm| + 2 + |v|`. -/
def endLine (l : RequestLine) (hs : List HeaderLine) (nm ows v : List UInt8) (e : Eol) :
    ScanStep :=
  if nm.length + 2 + v.length < headerSize then .more (.name l (hs ++ [⟨nm, ows, v, e⟩]) [])
  else .fault .column

def Scan.step (rows : Nat) : Scan → UInt8 → ScanStep
  | .method m, c =>
      if IsBlank c then (if m = [] then .reject else .more (.path m c []))
      else if IsBreak c then .reject
      else if m.length < 15 then .more (.method (m ++ [c]))
      else .reject
  | .path m sp p, c =>
      if IsBlank c then (if p = [] then .reject else .more (.version ⟨m, sp, p, none, c⟩ []))
      else if c = QMARK then .more (.query m sp p [])
      else if IsBreak c then .reject
      else if p.length < 4095 then .more (.path m sp (p ++ [c]))
      else .reject
  | .query m sp p q, c =>
      if IsBlank c then .more (.version ⟨m, sp, p, some q, c⟩ [])
      else if IsBreak c then .reject
      else if q.length < 4095 then .more (.query m sp p (q ++ [c]))
      else .reject
  | .version st v, c =>
      if c = CR then .more (.versionCr st v)
      else if c = LF then .more (.name ⟨st, v, .lf⟩ [] [])
      else if v.length < 15 then .more (.version st (v ++ [c]))
      else .reject
  | .versionCr st v, c =>
      if c = LF then .more (.name ⟨st, v, .crlf⟩ [] []) else .reject
  | .name l hs nm, c =>
      if c = CR then (if nm = [] then .more (.nameCr l hs) else .reject)
      else if c = LF then (if nm = [] then .head ⟨l, hs, .lf⟩ else .reject)
      else if c = COLON then
        if nm = [] then .reject
        else if nm.length + 1 < headerSize then .more (.value l hs nm [] [])
        else .fault .column
      else if nm.length < 255 then
        if hs.length < rows then .more (.name l hs (nm ++ [c])) else .fault .row
      else .reject
  | .nameCr l hs, c => if c = LF then .head ⟨l, hs, .crlf⟩ else .reject
  | .value l hs nm ows v, c =>
      if c = CR then .more (.valueCr l hs nm ows v)
      else if c = LF then endLine l hs nm ows v .lf
      else if v = [] ∧ IsBlank c then .more (.value l hs nm (ows ++ [c]) v)
      else if nm.length + 2 + v.length < 255 then .more (.value l hs nm ows (v ++ [c]))
      else .reject
  | .valueCr l hs nm ows v, c =>
      if c = LF then endLine l hs nm ows v .crlf else .reject

/-- Feed the bytes of a chunk until one of them leads out of the states. -/
def Scan.run (rows : Nat) : Scan → List UInt8 → ScanStep
  | s, [] => .more s
  | s, c :: cs =>
      match s.step rows c with
      | .more s' => s'.run rows cs
      | .head h => .head h
      | .reject => .reject
      | .fault f => .fault f

/-! ## The text of a state -/

/-- The bytes consumed to reach a state from `Scan.method []`. -/
def Scan.text : Scan → List UInt8
  | .method m => m
  | .path m sp p => m ++ sp :: p
  | .query m sp p q => m ++ sp :: (p ++ QMARK :: q)
  | .version st v => st.text ++ v
  | .versionCr st v => st.text ++ v ++ [CR]
  | .name l hs nm => l.text ++ headersText hs ++ nm
  | .nameCr l hs => l.text ++ headersText hs ++ [CR]
  | .value l hs nm ows v => l.text ++ headersText hs ++ nm ++ COLON :: (ows ++ v)
  | .valueCr l hs nm ows v => l.text ++ headersText hs ++ nm ++ COLON :: (ows ++ v ++ [CR])

theorem endLine_more {l : RequestLine} {hs : List HeaderLine} {nm ows v : List UInt8} {e : Eol}
    {s : Scan} (h : endLine l hs nm ows v e = .more s) :
    nm.length + 2 + v.length < headerSize ∧ s = .name l (hs ++ [⟨nm, ows, v, e⟩]) [] := by
  unfold endLine at h
  split at h
  · next hlt => exact ⟨hlt, by cases h; rfl⟩
  · cases h

theorem endLine_ne_head {l : RequestLine} {hs : List HeaderLine} {nm ows v : List UInt8} {e : Eol}
    {h : Head} : endLine l hs nm ows v e ≠ .head h := by
  unfold endLine
  split <;> simp

/-- A step to another state consumes its byte. -/
theorem Scan.step_text {rows : Nat} {s s' : Scan} {c : UInt8} (h : s.step rows c = .more s') :
    s'.text = s.text ++ [c] := by
  cases s with
  | method m =>
      simp only [Scan.step] at h
      split_ifs at h <;> cases h <;> simp [Scan.text]
  -- in each state the byte goes to the end of what has been taken apart so far
  | path m sp p =>
      simp only [Scan.step] at h
      split_ifs at h with _ _ hq <;> cases h <;> simp [Scan.text, Start.text, queryText]
      exact hq.symm
  | query m sp p q =>
      simp only [Scan.step] at h
      split_ifs at h <;> cases h <;> simp [Scan.text, Start.text, queryText]
  | version st v =>
      simp only [Scan.step] at h
      split_ifs at h with h1 h2 <;> cases h <;> simp [Scan.text, RequestLine.text, Eol.text]
      · exact h1.symm
      · exact h2.symm
  | versionCr st v =>
      simp only [Scan.step] at h
      split_ifs at h with h1
      cases h
      simp [Scan.text, RequestLine.text, Eol.text, h1]
  | name l hs nm =>
      simp only [Scan.step] at h
      split_ifs at h with h1 h2 h3 h4 h5 h6 <;> cases h <;> simp [Scan.text]
      · simp [h1, h2]
      · exact h5.symm
  | nameCr l hs =>
      simp only [Scan.step] at h
      split_ifs at h
  | value l hs nm ows v =>
      simp only [Scan.step] at h
      split_ifs at h with h1 h2 h3 h4
      · cases h; simp [Scan.text, h1]
      · obtain ⟨-, rfl⟩ := endLine_more h
        simp [Scan.text, headersText_append, headersText_singleton, HeaderLine.text, Eol.text, h2]
      · cases h; simp [Scan.text, h3.1]
      · cases h; simp [Scan.text]
  | valueCr l hs nm ows v =>
      simp only [Scan.step] at h
      split_ifs at h with h1
      obtain ⟨-, rfl⟩ := endLine_more h
      simp [Scan.text, headersText_append, headersText_singleton, HeaderLine.text, Eol.text, h1]

/-- The two states that can complete a head. -/
theorem Scan.step_head_cases {rows : Nat} {s : Scan} {c : UInt8} {h : Head}
    (hs : s.step rows c = .head h) :
    c = LF ∧ ∃ l hs', (s = .name l hs' [] ∧ h = ⟨l, hs', .lf⟩) ∨
      (s = .nameCr l hs' ∧ h = ⟨l, hs', .crlf⟩) := by
  cases s with
  | name l hs' nm =>
      simp only [Scan.step] at hs
      split_ifs at hs with h1 h2 h3 h4
      cases hs
      exact ⟨h3, l, hs', .inl ⟨by rw [h4], rfl⟩⟩
  | nameCr l hs' =>
      simp only [Scan.step] at hs
      split_ifs at hs with h1
      cases hs
      exact ⟨h1, l, hs', .inr ⟨rfl, rfl⟩⟩
  | value l hs' nm ows v =>
      simp only [Scan.step] at hs
      split_ifs at hs
      exact absurd hs endLine_ne_head
  | valueCr l hs' nm ows v =>
      simp only [Scan.step] at hs
      split_ifs at hs
      exact absurd hs endLine_ne_head
  | _ =>
      simp only [Scan.step] at hs
      split_ifs at hs

/-- The byte that completes a head is the last byte of its text. -/
theorem Scan.step_head_text {rows : Nat} {s : Scan} {c : UInt8} {h : Head}
    (hs : s.step rows c = .head h) : h.text = s.text ++ [c] := by
  obtain ⟨rfl, l, hs', ⟨rfl, rfl⟩ | ⟨rfl, rfl⟩⟩ := Scan.step_head_cases hs
  · simp [Scan.text, Head.text, Eol.text]
  · simp [Scan.text, Head.text, Eol.text]

end HttpServer
