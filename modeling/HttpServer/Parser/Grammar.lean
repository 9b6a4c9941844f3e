import HttpServer.Parser.Machine

set_option autoImplicit false

/-! # The grammar of request heads

A request head as structured data (`Head`), its bytes on the wire (`Head.text`) and the
length and character conditions the parser enforces (`Head.WF`). The language of the parser
is `InGrammar`: the texts of well-formed heads.

The data keeps every choice a client has in writing a head: which blank separates the words
of the request line, which line terminator ends each line and which blanks follow a colon.
A text therefore determines its head up to where the blanks after a colon end and the value
begins; `HeaderLine.norm` fixes that choice the way the parser does.
-/

namespace HttpServer

open CLib

/-! ## Character classes -/

/-- SP or TAB. -/
def IsBlank (c : UInt8) : Prop := c = SP ∨ c = TAB

/-- CR or LF. -/
def IsBreak (c : UInt8) : Prop := c = CR ∨ c = LF

instance (c : UInt8) : Decidable (IsBlank c) := inferInstanceAs (Decidable (_ ∨ _))

instance (c : UInt8) : Decidable (IsBreak c) := inferInstanceAs (Decidable (_ ∨ _))

/-- The bytes of a method or of a query string. -/
def IsToken (c : UInt8) : Prop := ¬ IsBlank c ∧ ¬ IsBreak c

/-- The bytes of a path. -/
def IsPathByte (c : UInt8) : Prop := IsToken c ∧ c ≠ QMARK

/-- The bytes of a header name. -/
def IsNameByte (c : UInt8) : Prop := c ≠ COLON ∧ ¬ IsBreak c

/-! ## Heads -/

/-- A line terminator. -/
inductive Eol
  | crlf
  | lf
  deriving DecidableEq

def Eol.text : Eol → List UInt8
  | .crlf => [CR, LF]
  | .lf => [LF]

/-- The request line up to and including the blank before the version. -/
structure Start where
  method : List UInt8
  sp1 : UInt8
  path : List UInt8
  query : Option (List UInt8)
  sp2 : UInt8

def queryText : Option (List UInt8) → List UInt8
  | none => []
  | some q => QMARK :: q

def Start.text (s : Start) : List UInt8 :=
  s.method ++ s.sp1 :: (s.path ++ queryText s.query ++ [s.sp2])

structure RequestLine where
  start : Start
  version : List UInt8
  eol : Eol

def RequestLine.text (l : RequestLine) : List UInt8 := l.start.text ++ l.version ++ l.eol.text

structure HeaderLine where
  name : List UInt8
  ows : List UInt8
  value : List UInt8
  eol : Eol

def HeaderLine.text (h : HeaderLine) : List UInt8 :=
  h.name ++ COLON :: (h.ows ++ h.value ++ h.eol.text)

structure Head where
  line : RequestLine
  headers : List HeaderLine
  blank : Eol

def headersText (hs : List HeaderLine) : List UInt8 := hs.flatMap HeaderLine.text

def Head.text (h : Head) : List UInt8 := h.line.text ++ headersText h.headers ++ h.blank.text

@[simp] theorem headersText_nil : headersText [] = [] := rfl

theorem headersText_append (hs ks : List HeaderLine) :
    headersText (hs ++ ks) = headersText hs ++ headersText ks := by
  simp [headersText]

theorem headersText_singleton (h : HeaderLine) : headersText [h] = h.text := by
  simp [headersText]

/-! ## Well-formedness -/

structure Start.WF (s : Start) : Prop where
  method_pos : s.method ≠ []
  method_len : s.method.length ≤ 15
  method_tok : ∀ c ∈ s.method, IsToken c
  sp1_blank : IsBlank s.sp1
  path_pos : s.query = none → s.path ≠ []
  path_len : s.path.length ≤ 4095
  path_byte : ∀ c ∈ s.path, IsPathByte c
  query_len : ∀ q, s.query = some q → q.length ≤ 4095
  query_tok : ∀ q, s.query = some q → ∀ c ∈ q, IsToken c
  sp2_blank : IsBlank s.sp2

structure RequestLine.WF (l : RequestLine) : Prop where
  start_wf : l.start.WF
  version_len : l.version.length ≤ 15
  version_byte : ∀ c ∈ l.version, ¬ IsBreak c

structure HeaderLine.WF (h : HeaderLine) : Prop where
  name_pos : h.name ≠ []
  name_byte : ∀ c ∈ h.name, IsNameByte c
  ows_blank : ∀ c ∈ h.ows, IsBlank c
  value_byte : ∀ c ∈ h.value, ¬ IsBreak c
  size : h.name.length + h.value.length ≤ 253

structure Head.WF (h : Head) : Prop where
  line_wf : h.line.WF
  headers_wf : ∀ x ∈ h.headers, x.WF

/-- The language of request heads. -/
def InGrammar (s : List UInt8) : Prop := ∃ h : Head, h.WF ∧ h.text = s

/-! ## Blanks after the colon -/

/-- Move the leading blanks of the value to the blanks after the colon. -/
def HeaderLine.norm (h : HeaderLine) : HeaderLine :=
  { h with
    ows := h.ows ++ h.value.takeWhile (fun c => decide (IsBlank c))
    value := h.value.dropWhile (fun c => decide (IsBlank c)) }

/-- The value does not start with a blank. -/
def HeaderLine.Normal (h : HeaderLine) : Prop := ∀ c, h.value.head? = some c → ¬ IsBlank c

theorem HeaderLine.norm_text (h : HeaderLine) : h.norm.text = h.text := by
  simp only [HeaderLine.text, HeaderLine.norm, List.append_assoc]
  rw [← List.append_assoc (h.value.takeWhile _), List.takeWhile_append_dropWhile]

theorem HeaderLine.norm_normal (h : HeaderLine) : h.norm.Normal := by
  intro c hc
  have := List.head?_dropWhile_not (fun c => decide (IsBlank c)) h.value
  rw [show h.norm.value = h.value.dropWhile (fun c => decide (IsBlank c)) from rfl] at hc
  rw [hc] at this
  simpa using this

theorem HeaderLine.WF.norm {h : HeaderLine} (hw : h.WF) : h.norm.WF where
  name_pos := hw.name_pos
  name_byte := hw.name_byte
  ows_blank := by
    intro c hc
    rcases List.mem_append.mp hc with hc | hc
    · exact hw.ows_blank c hc
    · simpa using List.mem_takeWhile_imp hc
  value_byte := fun c hc => hw.value_byte c ((List.dropWhile_sublist _).mem hc)
  size := by
    have hle := (List.dropWhile_sublist (l := h.value) (fun c => decide (IsBlank c))).length_le
    have := hw.size
    simp only [HeaderLine.norm]
    omega

/-- Header lines with the leading blanks of their values moved: the same bytes. -/
theorem headersText_norm (hs : List HeaderLine) :
    headersText (hs.map HeaderLine.norm) = headersText hs := by
  rw [headersText, headersText, List.flatMap_map]
  exact List.flatMap_congr fun x _ => x.norm_text

theorem norm_lines_wf {hs : List HeaderLine} (hw : ∀ x ∈ hs, x.WF) :
    ∀ x ∈ hs.map HeaderLine.norm, x.WF := by
  intro x hx
  obtain ⟨y, hy, rfl⟩ := List.mem_map.mp hx
  exact (hw y hy).norm

theorem norm_lines_normal (hs : List HeaderLine) : ∀ x ∈ hs.map HeaderLine.norm, x.Normal := by
  intro x hx
  obtain ⟨y, -, rfl⟩ := List.mem_map.mp hx
  exact y.norm_normal

/-- A head with the leading blanks of its values moved. -/
def Head.norm (h : Head) : Head := { h with headers := h.headers.map HeaderLine.norm }

theorem Head.norm_text (h : Head) : h.norm.text = h.text := by
  simp only [Head.norm, Head.text, headersText_norm]

theorem Head.WF.norm {h : Head} (hw : h.WF) : h.norm.WF := ⟨hw.line_wf, norm_lines_wf hw.headers_wf⟩

theorem Head.norm_normal (h : Head) : ∀ x ∈ h.norm.headers, x.Normal := norm_lines_normal h.headers

end HttpServer
