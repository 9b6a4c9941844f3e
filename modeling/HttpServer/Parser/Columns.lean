import HttpServer.Parser.Chunks

set_option autoImplicit false

/-! # The columns of the parser's buffers

Each state of the parser compares its own cursor with the size of its buffer. The separator and
the terminator of a header row are written at offsets taken over from other states, and there
two lengths slip through: the space after the colon of a name of 255 bytes, and the zero after
an empty value behind a name of 254 bytes, go to column 256 of a row of 256.

A caller may go on after an error, so what the parser holds is not a prefix of what it was fed:
`keep` says, on texts alone, which bytes of a chunk it takes.

A fault of the machine is a fault of the scanner, and the scanner is in a state exactly if the
text so far begins a head (`beginning_iff`). So the faults are read off the texts: `Spills` for a
column, `Overfull` for a row, and a parser keeps to its header table where neither happens.
-/

namespace HttpServer

open CLib

/-! ## Beginnings of heads -/

/-- The limits on the part of a head read so far that `Scan.WF` leaves open: the rows of the
table, and the columns of the row that is being written. -/
def Scan.Fits : Scan → Prop
  | .name _ hs nm =>
      (∀ x ∈ hs, x.Normal) ∧ hs.length ≤ maxHeaders ∧ (nm ≠ [] → hs.length < maxHeaders) ∧
      nm.length ≤ 255
  | .nameCr _ hs => (∀ x ∈ hs, x.Normal) ∧ hs.length ≤ maxHeaders
  | .value _ hs nm _ v =>
      (∀ x ∈ hs, x.Normal) ∧ hs.length < maxHeaders ∧ nm.length ≤ 254 ∧
      ∀ c, v.head? = some c → ¬ IsBlank c
  | .valueCr _ hs nm _ v =>
      (∀ x ∈ hs, x.Normal) ∧ hs.length < maxHeaders ∧ nm.length ≤ 254 ∧
      ∀ c, v.head? = some c → ¬ IsBlank c
  | _ => True

/-- The text of a part of a head: the language of what may still become a head, with header
names up to the 255 bytes that the parser stores. -/
def Beginning (t : List UInt8) : Prop := ∃ s : Scan, s.WF ∧ s.Fits ∧ s.text = t

theorem endLine_fits {l : RequestLine} {hs : List HeaderLine} {nm ows v : List UInt8} {e : Eol}
    {s : Scan} (hn : ∀ x ∈ hs, x.Normal) (hlen : hs.length < maxHeaders)
    (hv : ∀ c, v.head? = some c → ¬ IsBlank c) (h : endLine l hs nm ows v e = .more s) : s.Fits := by
  obtain ⟨-, rfl⟩ := endLine_more h
  exact ⟨forall_mem_snoc hn hv, length_snoc_le hlen, fun h0 => absurd rfl h0, Nat.zero_le _⟩

theorem Scan.Fits.step {s s' : Scan} {c : UInt8} (hf : s.Fits)
    (h : s.step maxHeaders c = .more s') : s'.Fits := by
  cases s with
  | name l hs nm =>
      obtain ⟨hn, hle, hlt, hlen⟩ := hf
      simp only [Scan.step] at h
      split_ifs at h with h1 h2 h3 h4 h5 h6 h7 h8 h9 <;> cases h
      · exact ⟨hn, hle⟩
      · refine ⟨hn, hlt h6, ?_, by simp⟩
        unfold headerSize at h7
        omega
      · exact ⟨hn, hle, fun _ => h9, length_snoc_le h8⟩
  | value l hs nm ows v =>
      obtain ⟨hn, hlt, hlen, hv⟩ := hf
      simp only [Scan.step] at h
      split_ifs at h with h1 h2 h3 h4
      · cases h
        exact ⟨hn, hlt, hlen, hv⟩
      · exact endLine_fits hn hlt hv h
      · cases h
        exact ⟨hn, hlt, hlen, hv⟩
      · cases h
        refine ⟨hn, hlt, hlen, fun b hb => ?_⟩
        -- the first byte of a value is the one behind the blanks
        cases v with
        | nil =>
            obtain rfl : c = b := by simpa using hb
            exact fun hblank => h3 ⟨rfl, hblank⟩
        | cons a v => exact hv b (by simpa using hb)
  | valueCr l hs nm ows v =>
      obtain ⟨hn, hlt, hlen, hv⟩ := hf
      simp only [Scan.step] at h
      split_ifs at h
      exact endLine_fits hn hlt hv h
  | version st v =>
      simp only [Scan.step] at h
      split_ifs at h <;> cases h
      · trivial
      · exact ⟨by simp, Nat.zero_le _, fun h0 => absurd rfl h0, Nat.zero_le _⟩
      · trivial
  | versionCr st v =>
      simp only [Scan.step] at h
      split_ifs at h
      cases h
      exact ⟨by simp, Nat.zero_le _, fun h0 => absurd rfl h0, Nat.zero_le _⟩
  | _ =>
      simp only [Scan.step] at h
      split_ifs at h <;> cases h <;> trivial

theorem Scan.Fits.run (t : List UInt8) :
    ∀ {s s' : Scan}, s.Fits → s.run maxHeaders t = .more s' → s'.Fits := by
  induction t with
  | nil =>
      intro s s' hf h
      cases h
      exact hf
  | cons c t ih =>
      intro s s' hf h
      simp only [Scan.run] at h
      cases hs : s.step maxHeaders c with
      | more s₁ =>
          rw [hs] at h
          exact ih (hf.step hs) h
      | _ => rw [hs] at h; cases h

/-- The request line and the complete header lines of a text. -/
theorem run_lines {l : RequestLine} {hs : List HeaderLine} (hl : l.WF) (hw : ∀ x ∈ hs, x.WF)
    (hn : ∀ x ∈ hs, x.Normal) (hlen : hs.length ≤ maxHeaders) :
    (Scan.method []).run maxHeaders (l.text ++ headersText hs) = .more (.name l hs []) := by
  rw [Scan.run_append_of_more (run_line maxHeaders hl)]
  exact run_headers maxHeaders hs (by rw [List.length_nil, Nat.zero_add]; exact hlen) hw hn

theorem run_upToName {l : RequestLine} {hs : List HeaderLine} {nm : List UInt8} (hl : l.WF)
    (hw : ∀ x ∈ hs, x.WF) (hn : ∀ x ∈ hs, x.Normal) (hlt : hs.length < maxHeaders)
    (hlen : nm.length ≤ 255) (hnb : ∀ c ∈ nm, IsNameByte c) :
    (Scan.method []).run maxHeaders (l.text ++ headersText hs ++ nm) = .more (.name l hs nm) := by
  rw [Scan.run_append_of_more (run_lines hl hw hn (Nat.le_of_lt hlt))]
  exact run_name maxHeaders hlt hlen hnb

theorem run_upToBlanks {l : RequestLine} {hs : List HeaderLine} {nm ows : List UInt8} (hl : l.WF)
    (hw : ∀ x ∈ hs, x.WF) (hn : ∀ x ∈ hs, x.Normal) (hlt : hs.length < maxHeaders)
    (hpos : nm ≠ []) (hlen : nm.length ≤ 254) (hnb : ∀ c ∈ nm, IsNameByte c)
    (how : ∀ c ∈ ows, IsBlank c) :
    (Scan.method []).run maxHeaders (l.text ++ headersText hs ++ nm ++ COLON :: ows) =
      .more (.value l hs nm ows []) := by
  have hcolon : (Scan.name l hs nm).step maxHeaders COLON = .more (.value l hs nm [] []) := by
    simp only [Scan.step]
    rw [if_neg (by decide), if_neg (by decide), if_pos trivial, if_neg hpos,
      if_pos (by unfold headerSize; omega)]
  rw [Scan.run_append_of_more (run_upToName hl hw hn hlt (by omega) hnb)]
  simp only [Scan.run, hcolon]
  exact run_ows maxHeaders how

theorem run_upToValue {l : RequestLine} {hs : List HeaderLine} {nm ows v : List UInt8}
    (hw : (Scan.value l hs nm ows v).WF) (hf : (Scan.value l hs nm ows v).Fits) :
    (Scan.method []).run maxHeaders (l.text ++ headersText hs ++ nm ++ COLON :: (ows ++ v)) =
      .more (.value l hs nm ows v) := by
  obtain ⟨hl, hhs, hpos, hnb, how, hvb, hsize⟩ := hw
  obtain ⟨hn, hlt, hlen, hv⟩ := hf
  rw [← List.cons_append, ← List.append_assoc,
    Scan.run_append_of_more (run_upToBlanks hl hhs hn hlt hpos hlen hnb how)]
  by_cases hnil : v = []
  · rw [hnil]
    rfl
  · exact run_value maxHeaders (hsize hnil) hvb hv

/-- The scanner reads a part of a head to the state that stands for it. -/
theorem Scan.run_text {s : Scan} (hw : s.WF) (hf : s.Fits) :
    (Scan.method []).run maxHeaders s.text = .more s := by
  -- a state is reached by its own text, field by field
  cases s with
  | method m => exact run_method maxHeaders hw.1 hw.2
  | path m sp p =>
      obtain ⟨hm, hlen, htok, hsp, hpl, hpb⟩ := hw
      exact run_toPath maxHeaders hm hlen htok hsp hpl hpb
  | query m sp p q =>
      obtain ⟨hm, hlen, htok, hsp, hpl, hpb, hql, hqt⟩ := hw
      exact run_toQuery maxHeaders hm hlen htok hsp hpl hpb hql hqt
  | version st v =>
      obtain ⟨hst, hvl, hvb⟩ := hw
      rw [Scan.text, Scan.run_append_of_more (run_start maxHeaders hst)]
      exact run_version maxHeaders hvl hvb
  | versionCr st v =>
      obtain ⟨hst, hvl, hvb⟩ := hw
      rw [Scan.text, List.append_assoc, Scan.run_append_of_more (run_start maxHeaders hst),
        Scan.run_append_of_more (run_version maxHeaders hvl hvb)]
      rfl
  | name l hs nm =>
      obtain ⟨hl, hhs, hnb⟩ := hw
      obtain ⟨hn, hle, hlt, hlen⟩ := hf
      by_cases hnil : nm = []
      · rw [hnil, Scan.text, List.append_nil]
        exact run_lines hl hhs hn hle
      · exact run_upToName hl hhs hn (hlt hnil) hlen hnb
  | nameCr l hs =>
      rw [Scan.text, Scan.run_append_of_more (run_lines hw.1 hw.2 hf.1 hf.2)]
      rfl
  | value l hs nm ows v => exact run_upToValue hw hf
  | valueCr l hs nm ows v =>
      rw [Scan.text, ← List.cons_append, ← List.append_assoc,
        Scan.run_append_of_more (run_upToValue hw hf)]
      rfl

/-- **The states are the beginnings**: a text leads to a state exactly if it begins a head. -/
theorem beginning_iff (t : List UInt8) :
    Beginning t ↔ ∃ s, (Scan.method []).run maxHeaders t = .more s := by
  constructor
  · rintro ⟨s, hw, hf, rfl⟩
    exact ⟨s, Scan.run_text hw hf⟩
  · rintro ⟨s, h⟩
    obtain ⟨hw, ht⟩ := Scan.run_more t Scan.wf_start h
    have hstart : (Scan.method []).Fits := trivial
    exact ⟨s, hw, hstart.run t h, ht⟩

/-! ## Writes to column 256 -/

/-- A text at whose last byte a header row is written behind its end: the colon after a name of
255 bytes, or the end of a line whose name has 254 bytes and whose value is empty. -/
def Spills (t : List UInt8) : Prop :=
  ∃ (l : RequestLine) (hs : List HeaderLine) (nm : List UInt8),
    l.WF ∧ (∀ x ∈ hs, x.WF) ∧ hs.length < maxHeaders ∧ (∀ c ∈ nm, IsNameByte c) ∧
    (nm.length = 255 ∧ t = l.text ++ headersText hs ++ nm ++ [COLON] ∨
      nm.length = 254 ∧ ∃ (ows : List UInt8) (e : Eol), (∀ c ∈ ows, IsBlank c) ∧
        t = l.text ++ headersText hs ++ nm ++ COLON :: (ows ++ e.text))

/-- The faults of the end of a line. -/
theorem endLine_column {l : RequestLine} {hs : List HeaderLine} {nm ows v : List UInt8} {e : Eol}
    (hw : (Scan.value l hs nm ows v).WF) (hf : (Scan.value l hs nm ows v).Fits)
    (h : endLine l hs nm ows v e = .fault .column) : nm.length = 254 ∧ v = [] := by
  obtain ⟨-, -, -, -, -, -, hsize⟩ := hw
  obtain ⟨-, -, hlen, -⟩ := hf
  unfold endLine headerSize at h
  split_ifs at h with hlt
  by_cases hnil : v = []
  · rw [hnil, List.length_nil] at hlt
    exact ⟨by omega, hnil⟩
  · have := hsize hnil
    omega

/-- A write to column 256 happens at the end of a spilling text. -/
theorem Scan.step_column {s : Scan} {c : UInt8} (hw : s.WF) (hf : s.Fits)
    (h : s.step maxHeaders c = .fault .column) : Spills (s.text ++ [c]) := by
  cases s with
  -- only a colon or the end of a line can write past the row
  | name l hs nm =>
      obtain ⟨hl, hhs, hnb⟩ := hw
      obtain ⟨hn, hle, hlt, hlen⟩ := hf
      simp only [Scan.step] at h
      split_ifs at h with h1 h2 h3 h4 h5 h6 h7 h8 h9
      · unfold headerSize at h7
        exact ⟨l, hs, nm, hl, hhs, hlt h6, hnb, .inl ⟨by omega, by rw [h5]; rfl⟩⟩
      · cases h
  | value l hs nm ows v =>
      have hw' := hw
      obtain ⟨hl, hhs, -, hnb, how, -, -⟩ := hw'
      simp only [Scan.step] at h
      split_ifs at h with h1 h2 h3 h4
      obtain ⟨hlen, rfl⟩ := endLine_column hw hf h
      refine ⟨l, hs, nm, hl, hhs, hf.2.1, hnb, .inr ⟨hlen, ows, .lf, how, ?_⟩⟩
      simp [Scan.text, Eol.text, h2]
  | valueCr l hs nm ows v =>
      have hw' := hw
      obtain ⟨hl, hhs, -, hnb, how, -, -⟩ := hw'
      simp only [Scan.step] at h
      split_ifs at h with h1
      obtain ⟨hlen, rfl⟩ := endLine_column hw hf h
      refine ⟨l, hs, nm, hl, hhs, hf.2.1, hnb, .inr ⟨hlen, ows, .crlf, how, ?_⟩⟩
      simp [Scan.text, Eol.text, h1]
  | _ =>
      simp only [Scan.step] at h
      split_ifs at h

theorem Spills.run {t : List UInt8} (h : Spills t) :
    (Scan.method []).run maxHeaders t = .fault .column := by
  obtain ⟨l, hs, nm, hl, hhs, hlt, hnb, ⟨hlen, rfl⟩ | ⟨hlen, ows, e, how, rfl⟩⟩ := h
  all_goals
    have hlt' : (hs.map HeaderLine.norm).length < maxHeaders := by rw [List.length_map]; exact hlt
    have hpos : nm ≠ [] := by
      rintro rfl
      cases hlen
    rw [← headersText_norm]
  -- a name that fills the row: its colon is stored in the last column, and the blank is past it
  · have hcolon : (Scan.name l (hs.map HeaderLine.norm) nm).step maxHeaders COLON = .fault .column := by
      simp only [Scan.step]
      rw [if_neg (by decide), if_neg (by decide), if_pos trivial, if_neg hpos,
        if_neg (by rw [hlen]; decide)]
    rw [Scan.run_append_of_more (run_upToName hl (norm_lines_wf hhs) (norm_lines_normal hs) hlt'
      (by omega) hnb)]
    simp only [Scan.run, hcolon]
  -- no value: the terminator of the row is past it
  · have hend : ∀ e', endLine l (hs.map HeaderLine.norm) nm ows [] e' = .fault .column := by
      intro e'
      rw [endLine, if_neg (by rw [hlen]; decide)]
    rw [← List.cons_append, ← List.append_assoc,
      Scan.run_append_of_more (run_upToBlanks hl (norm_lines_wf hhs) (norm_lines_normal hs) hlt' hpos
        (by omega) hnb how)]
    cases e with
    | crlf =>
        have h1 : (Scan.value l (hs.map HeaderLine.norm) nm ows []).step maxHeaders CR =
          .more (.valueCr l (hs.map HeaderLine.norm) nm ows []) := rfl
        have h2 : (Scan.valueCr l (hs.map HeaderLine.norm) nm ows []).step maxHeaders LF =
          endLine l (hs.map HeaderLine.norm) nm ows [] .crlf := rfl
        simp only [Eol.text, Scan.run, h1, h2, hend]
    | lf =>
        have h1 : (Scan.value l (hs.map HeaderLine.norm) nm ows []).step maxHeaders LF =
          endLine l (hs.map HeaderLine.norm) nm ows [] .lf := rfl
        simp only [Eol.text, Scan.run, h1, hend]

/-- Behind a beginning, a write to column 256 happens where the text so far spills. -/
theorem Scan.run_column (t : List UInt8) :
    ∀ {s : Scan}, s.WF → s.Fits →
      (s.run maxHeaders t = .fault .column ↔ ∃ a, a <+: t ∧ Spills (s.text ++ a)) := by
  intro s hw hf
  constructor
  · induction t generalizing s with
    | nil => intro h; cases h
    | cons c t ih =>
        intro h
        simp only [Scan.run] at h
        cases hs : s.step maxHeaders c with
        | more s₁ =>
            rw [hs] at h
            obtain ⟨a, ha, hspill⟩ := ih (hw.step hs) (hf.step hs) h
            refine ⟨c :: a, List.prefix_cons_inj c |>.mpr ha, ?_⟩
            rwa [Scan.step_text hs, List.append_assoc] at hspill
        | fault f =>
            rw [hs] at h
            cases h
            exact ⟨[c], List.prefix_cons_inj c |>.mpr List.nil_prefix, Scan.step_column hw hf hs⟩
        | head hd => rw [hs] at h; cases h
        | reject => rw [hs] at h; cases h
  · rintro ⟨a, ⟨b, rfl⟩, hspill⟩
    have hrun := hspill.run
    rw [Scan.run_append_of_more (Scan.run_text hw hf)] at hrun
    rw [Scan.run_append, hrun]

/-! ## What a parser keeps of a chunk -/

/-- The texts a parser can hold: a beginning of a head, or a head that is accepted. -/
def Taken (t : List UInt8) : Prop :=
  Beginning t ∨
    ∃ h : Head, h.WF ∧ h.headers.length ≤ maxHeaders ∧ h.hostOk = true ∧ h.text = t

open Classical in
/-- The text held after a chunk: the bytes of the chunk are taken up to the first that continues
neither to a beginning nor to a head, which is an error; the rest of the chunk is lost. -/
noncomputable def keep (k : List UInt8) : List UInt8 → List UInt8
  | [] => k
  | c :: cs => if Taken (k ++ [c]) then keep (k ++ [c]) cs else k

/-- Some text held while the chunks are fed spills. -/
def Overruns : List UInt8 → List (List UInt8) → Prop
  | _, [] => False
  | k, chunk :: chunks => (∃ a, a <+: chunk ∧ Spills (k ++ a)) ∨ Overruns (keep k chunk) chunks

/-- The header lines of a head that is found. -/
theorem Scan.Fits.step_head {s : Scan} {c : UInt8} {h : Head} (hf : s.Fits)
    (hs : s.step maxHeaders c = .head h) :
    (∀ x ∈ h.headers, x.Normal) ∧ h.headers.length ≤ maxHeaders := by
  obtain ⟨-, l, hs', ⟨rfl, rfl⟩ | ⟨rfl, rfl⟩⟩ := Scan.step_head_cases hs
  · exact ⟨hf.1, hf.2.1⟩
  · exact ⟨hf.1, hf.2⟩

theorem taken_of_step {s s' : Scan} {c : UInt8} (hw : s.WF) (hf : s.Fits)
    (h : s.step maxHeaders c = .more s') : Taken (s.text ++ [c]) :=
  .inl ⟨s', hw.step h, hf.step h, Scan.step_text h⟩

theorem taken_of_head {s : Scan} {c : UInt8} {h : Head} (hw : s.WF) (hf : s.Fits)
    (hs : s.step maxHeaders c = .head h) (hok : h.hostOk = true) : Taken (s.text ++ [c]) :=
  .inr ⟨h, hw.step_head hs, (hf.step_head hs).2, hok, Scan.step_head_text hs⟩

/-- A taken text behind a beginning is one step of the scanner away. -/
theorem step_of_taken {s : Scan} {c : UInt8} (hw : s.WF) (hf : s.Fits)
    (h : Taken (s.text ++ [c])) :
    (∃ s', s.step maxHeaders c = .more s') ∨
      ∃ hd : Head, s.step maxHeaders c = .head hd ∧ hd.hostOk = true := by
  have hrun : (Scan.method []).run maxHeaders (s.text ++ [c]) = s.run maxHeaders [c] :=
    Scan.run_append_of_more (Scan.run_text hw hf) [c]
  rcases h with hb | ⟨hd, hdw, hlen, hok, ht⟩
  · obtain ⟨s', hs'⟩ := (beginning_iff _).mp hb
    rw [hrun, Scan.run] at hs'
    cases hstep : s.step maxHeaders c with
    | more s₁ => exact .inl ⟨s₁, rfl⟩
    | _ => rw [hstep] at hs'; cases hs'
  · have hfull := run_head_norm maxHeaders hdw hlen
    rw [ht, hrun, Scan.run] at hfull
    cases hstep : s.step maxHeaders c with
    | head h' =>
        rw [hstep] at hfull
        cases hfull
        exact .inr ⟨_, rfl, by rw [hd.norm_hostOk]; exact hok⟩
    | _ => rw [hstep] at hfull; cases hfull

/-- A byte that leads out of the states otherwise is not taken. -/
theorem keep_of_stuck {s : Scan} {c : UInt8} (hw : s.WF) (hf : s.Fits)
    (hmore : ∀ s', s.step maxHeaders c ≠ .more s')
    (hhead : ∀ hd : Head, s.step maxHeaders c = .head hd → hd.hostOk = false) (cs : List UInt8) :
    keep s.text (c :: cs) = s.text := by
  rw [keep, if_neg]
  intro htaken
  rcases step_of_taken hw hf htaken with ⟨s', hs'⟩ | ⟨hd, hs', hok⟩
  · exact hmore s' hs'
  · rw [hhead hd hs'] at hok
    cases hok

/-- Nothing continues a head. -/
theorem keep_head {h : Head} (hw : h.WF) (hlen : h.headers.length ≤ maxHeaders) (cs : List UInt8) :
    keep h.text cs = h.text := by
  cases cs with
  | nil => rfl
  | cons c cs =>
      rw [keep, if_neg]
      have hrun := Scan.run_append_of_head (run_head_norm maxHeaders hw hlen) [c]
      rintro (hb | ⟨h', hw', hlen', -, ht'⟩)
      · obtain ⟨s, hs⟩ := (beginning_iff _).mp hb
        rw [hrun] at hs
        cases hs
      · have hunique := InGrammar.unique ⟨h, hw, rfl⟩ ⟨h', hw', rfl⟩ (List.prefix_append h.text [c])
          (by rw [ht'])
        rw [ht'] at hunique
        have := congrArg List.length hunique
        simp at this

theorem not_spills_head {h : Head} (hw : h.WF) (hlen : h.headers.length ≤ maxHeaders)
    (a : List UInt8) : ¬ Spills (h.text ++ a) := by
  intro hspill
  have hrun := hspill.run
  rw [Scan.run_append_of_head (run_head_norm maxHeaders hw hlen)] at hrun
  cases hrun

/-! ## A full table -/

/-- All rows are taken, so only the blank line can follow. -/
def Scan.Full : Scan → Prop
  | .name _ hs _ => hs.length = maxHeaders
  | .nameCr _ hs => hs.length = maxHeaders
  | _ => False

theorem Scan.Full.step {s : Scan} {c : UInt8} (hfull : s.Full) (hf : s.Fits) :
    s.step maxHeaders c ≠ .fault .column ∧ ∀ s', s.step maxHeaders c = .more s' → s'.Full := by
  cases s with
  | name l hs nm =>
      have hlen : hs.length = maxHeaders := hfull
      have hnil : nm = [] := by
        by_contra hne
        have := hf.2.2.1 hne
        omega
      subst hnil
      simp only [Scan.step]
      split_ifs with h1 h2 h3 h4 h5
      · exact ⟨by simp, fun s' h => by cases h; exact hlen⟩
      · exact ⟨by simp, by simp⟩
      · exact ⟨by simp, by simp⟩
      · omega
      · exact ⟨by simp, by simp⟩
      · exact absurd (show ([] : List UInt8).length < 255 by decide) ‹_›
  | nameCr l hs =>
      simp only [Scan.step]
      split_ifs
      · exact ⟨by simp, by simp⟩
      · exact ⟨by simp, by simp⟩
  | _ => exact hfull.elim

theorem Scan.Full.run {s : Scan} (hfull : s.Full) (hf : s.Fits) (t : List UInt8) :
    s.run maxHeaders t ≠ .fault .column := by
  induction t generalizing s with
  | nil => exact fun h => (by cases h)
  | cons c t ih =>
      obtain ⟨hcol, hmore⟩ := hfull.step hf (c := c)
      simp only [Scan.run]
      cases hs : s.step maxHeaders c with
      | more s' => exact ih (hmore s' hs) (hf.step hs)
      | head hd => simp
      | reject => simp
      | fault f => exact fun h => hcol (by rw [hs]; exact h)

/-- Texts after which no header line can follow. -/
def Exhausted (k : List UInt8) : Prop :=
  (∃ s : Scan, s.WF ∧ s.Fits ∧ s.Full ∧ s.text = k) ∨
    ∃ h : Head, h.WF ∧ h.headers.length ≤ maxHeaders ∧ h.text = k

theorem Exhausted.not_spills {k : List UInt8} (h : Exhausted k) (a : List UInt8) :
    ¬ Spills (k ++ a) := by
  rcases h with ⟨s, hw, hf, hfull, rfl⟩ | ⟨hd, hw, hlen, rfl⟩
  · intro hspill
    exact hfull.run hf a ((Scan.run_column a hw hf).mpr ⟨a, List.prefix_rfl, hspill⟩)
  · exact not_spills_head hw hlen a

theorem Exhausted.keep {k : List UInt8} (h : Exhausted k) (chunk : List UInt8) :
    Exhausted (keep k chunk) := by
  induction chunk generalizing k with
  | nil => exact h
  | cons c cs ih =>
      rcases h with ⟨s, hw, hf, hfull, rfl⟩ | ⟨hd, hw, hlen, rfl⟩
      · rw [HttpServer.keep]
        split_ifs with htaken
        · apply ih
          rcases step_of_taken hw hf htaken with ⟨s', hs'⟩ | ⟨hd, hs', -⟩
          · exact .inl ⟨s', hw.step hs', hf.step hs', (hfull.step hf).2 s' hs', Scan.step_text hs'⟩
          · exact .inr ⟨hd, hw.step_head hs', (hf.step_head hs').2, Scan.step_head_text hs'⟩
        · exact .inl ⟨s, hw, hf, hfull, rfl⟩
      · rw [keep_head hw hlen]
        exact .inr ⟨hd, hw, hlen, rfl⟩

theorem Exhausted.not_overruns {k : List UInt8} (h : Exhausted k) (chunks : List (List UInt8)) :
    ¬ Overruns k chunks := by
  induction chunks generalizing k with
  | nil => exact id
  | cons chunk chunks ih =>
      rintro (⟨a, -, hspill⟩ | hrest)
      · exact h.not_spills a hspill
      · exact ih (h.keep chunk) hrest

/-! ## The machine -/

/-- A parser on a zeroed request that holds the text `k`. -/
def Holding (p : HttpParser) (req : HttpRequest) (k : List UInt8) : Prop :=
  (∃ s : Scan, s.WF ∧ s.Fits ∧ s.text = k ∧ Agrees .zero p req s) ∨
    p.done = true ∧ ∃ h : Head, h.WF ∧ h.headers.length ≤ maxHeaders ∧ h.text = k

/-- What a chunk leaves: the text that `keep` says, or a full table. -/
def Leaves (r : Except Fault (ParseStatus × HttpParser × HttpRequest)) (k : List UInt8) : Prop :=
  match r with
  | .ok (_, p, req) => Holding p req k
  | .error .row => Exhausted k
  | .error .column => True

theorem feedLoop_leaves (chunk : List UInt8) :
    ∀ {p : HttpParser} {req : HttpRequest} {s : Scan}, s.WF → s.Fits → Agrees .zero p req s →
      Leaves (feedLoop p req chunk) (keep s.text chunk) := by
  induction chunk with
  | nil => exact fun {p req s} hw hf h => .inl ⟨s, hw, hf, rfl, h⟩
  | cons c cs ih =>
      intro p req s hw hf h
      -- the scanner steps with the parser, and `keep` says which bytes are taken
      have hm : Matches .zero (feedByte p req c) (s.step maxHeaders c) := feedByte_matches rfl h c
      -- after a rejection the parser still holds what it held before the byte
      have hreject : (∃ p' req', feedByte p req c = ret .error p' req') →
          keep s.text (c :: cs) = s.text →
          Leaves (feedLoop p req (c :: cs)) (keep s.text (c :: cs)) := by
        rintro ⟨p', req', hb⟩ hkeep
        obtain ⟨rfl, rfl⟩ := feedByte_steady c p' req' hb
        rw [hkeep, feedLoop, hb]
        exact .inl ⟨s, hw, hf, rfl, h⟩
      cases hs : s.step maxHeaders c with
      | more s' =>
          rw [hs] at hm
          obtain ⟨p', req', hb, h'⟩ := hm
          rw [feedLoop, hb, keep, if_pos (taken_of_step hw hf hs), ← Scan.step_text hs]
          exact ih (hw.step hs) (hf.step hs) h'
      | head hd =>
          rw [hs, Matches] at hm
          by_cases hok : hd.hostOk = true
          · rw [if_pos hok] at hm
            obtain ⟨p', req', hb, hdone, -⟩ := hm
            rw [feedLoop, hb, keep, if_pos (taken_of_head hw hf hs hok), ← Scan.step_head_text hs,
              keep_head (hw.step_head hs) (hf.step_head hs).2]
            exact .inr ⟨hdone, hd, hw.step_head hs, (hf.step_head hs).2, rfl⟩
          · rw [if_neg hok] at hm
            refine hreject hm (keep_of_stuck hw hf (by simp [hs]) ?_ cs)
            intro hd' hs'
            rw [hs] at hs'
            cases hs'
            simpa using hok
      | reject =>
          rw [hs] at hm
          exact hreject hm (keep_of_stuck hw hf (by simp [hs]) (by simp [hs]) cs)
      | fault f =>
          rw [hs] at hm
          rw [feedLoop, show feedByte p req c = .error f from hm]
          cases f with
          | column => trivial
          | row =>
              obtain ⟨l, hs', nm, rfl, -, hlen⟩ := Scan.step_row hs
              rw [keep_of_stuck hw hf (by simp [hs]) (by simp [hs]) cs]
              exact .inl ⟨_, hw, hf, Nat.le_antisymm hf.2.1 hlen, rfl⟩

theorem httpParserFeed_leaves {p : HttpParser} {req : HttpRequest} {k : List UInt8}
    (h : Holding p req k) (chunk : List UInt8) :
    Leaves (httpParserFeed p req chunk) (keep k chunk) := by
  rcases h with ⟨s, hw, hf, rfl, h⟩ | ⟨hdone, hd, hw, hlen, rfl⟩
  · rw [httpParserFeed, h.1]
    exact feedLoop_leaves chunk hw hf h
  · rw [httpParserFeed, hdone, keep_head hw hlen]
    exact .inr ⟨hdone, hd, hw, hlen, rfl⟩

/-- A chunk writes to column 256 exactly if a text held on the way spills. -/
theorem httpParserFeed_column {p : HttpParser} {req : HttpRequest} {k : List UInt8}
    (h : Holding p req k) (chunk : List UInt8) :
    httpParserFeed p req chunk = .error .column ↔ ∃ a, a <+: chunk ∧ Spills (k ++ a) := by
  rcases h with ⟨s, hw, hf, rfl, h⟩ | ⟨hdone, hd, hw, hlen, rfl⟩
  · have hm : MatchesRun .zero (httpParserFeed p req chunk) (s.run maxHeaders chunk) :=
      httpParserFeed_matches rfl h chunk
    rw [← Scan.run_column chunk hw hf]
    exact hm.error_iff .column
  · rw [httpParserFeed, hdone]
    refine ⟨by simp, ?_⟩
    rintro ⟨a, -, hspill⟩
    exact absurd hspill (not_spills_head hw hlen a)

theorem feedOn_column_iff (chunks : List (List UInt8)) :
    ∀ {p : HttpParser} {req : HttpRequest} {k : List UInt8}, Holding p req k →
      (feedOn p req chunks = .error .column ↔ Overruns k chunks) := by
  induction chunks with
  | nil => exact fun _ => ⟨fun h => (by cases h), fun h => (by cases h)⟩
  | cons chunk chunks ih =>
      intro p req k h
      have hleaves := httpParserFeed_leaves h chunk
      rw [feedOn, Overruns, ← httpParserFeed_column h chunk]
      cases hfeed : httpParserFeed p req chunk with
      | ok r =>
          obtain ⟨st, p', req'⟩ := r
          rw [hfeed] at hleaves
          simp only [ih hleaves, reduceCtorEq, false_or]
      | error f =>
          rw [hfeed] at hleaves
          cases f with
          | column => simp
          | row => simp [hleaves.not_overruns chunks]

theorem holding_init : Holding httpParserInit .zero [] :=
  .inl ⟨.method [], Scan.wf_start, trivial, rfl, agrees_init .zero⟩

/-- No call writes to a column outside one of the buffers, whatever the calls answer. -/
def ColumnsBounded (chunks : List (List UInt8)) : Prop :=
  feedOn httpParserInit .zero chunks ≠ .error .column

/-- **Field cursors.** All writes of a parser that is fed with any chunks, also after errors, go
to columns inside its buffers exactly if no text it holds on the way ends in the colon after a
name of 255 bytes or in an empty value after a name of 254. -/
theorem columns_bounded_iff (chunks : List (List UInt8)) :
    ColumnsBounded chunks ↔ ¬ Overruns [] chunks := by
  rw [ColumnsBounded, ne_eq, feedOn_column_iff chunks holding_init]

/-- `GET / a` and a header name of 254 bytes with an empty value. -/
def spillingInput : List UInt8 :=
  plainLine.text ++ List.replicate 254 97 ++ [COLON, LF]

theorem not_columnsBounded_spilling : ¬ ColumnsBounded [spillingInput] := by
  intro h
  refine h ((feedOn_column_iff _ holding_init).mpr (.inl ⟨spillingInput, List.prefix_rfl, ?_⟩))
  refine ⟨plainLine, [], List.replicate 254 97, plainLine_wf, by simp, by decide, ?_,
    .inr ⟨List.length_replicate, [], .lf, by simp, ?_⟩⟩
  · intro c hc
    obtain rfl := List.eq_of_mem_replicate hc
    decide
  · rw [headersText_nil, List.append_nil]
    rfl

/-! ## The header table

A write to column 256 leaves the row it is meant for, and what follows it depends on the memory
behind that row. So a parser keeps to the table if it writes neither to a row that is not there
nor behind the end of one that is.
-/

/-- Some text at the start of the input ends with a write to column 256 of a row. -/
def SpillsInto (t : List UInt8) : Prop := ∃ a, a <+: t ∧ Spills a

/-- All header writes of a parser fed with these chunks stay inside the row they are meant for, a
row of the table; the counter is at most 64, and a request with a 65th header line is rejected. -/
structure RowsBounded (chunks : List (List UInt8)) : Prop where
  inside : ∀ f, feedAll httpParserInit .zero chunks ≠ .error f
  count : ∀ st p req, feedAll httpParserInit .zero chunks = .ok (st, p, req) →
    req.numHeaders ≤ maxHeaders
  rejected : Overfull chunks.flatten →
    ∃ p req, feedAll httpParserInit .zero chunks = .ok (.error, p, req)

theorem feedAll_init_matches (chunks : List (List UInt8)) :
    MatchesRun .zero (feedAll httpParserInit .zero chunks)
      ((Scan.method []).run maxHeaders chunks.flatten) :=
  feedAll_matches rfl chunks (agrees_init HttpRequest.zero)

theorem feedAll_row_iff (chunks : List (List UInt8)) :
    feedAll httpParserInit .zero chunks = .error .row ↔ Overfull chunks.flatten := by
  rw [← run_row_iff]
  exact (feedAll_init_matches chunks).error_iff .row

theorem feedAll_column_iff (chunks : List (List UInt8)) :
    feedAll httpParserInit .zero chunks = .error .column ↔ SpillsInto chunks.flatten := by
  have hrun := Scan.run_column chunks.flatten (s := .method []) Scan.wf_start trivial
  rw [(feedAll_init_matches chunks).error_iff .column, hrun]
  rfl

/-- The runs without a write out of range. -/
theorem feedAll_inside_iff (chunks : List (List UInt8)) :
    (∀ f, feedAll httpParserInit .zero chunks ≠ .error f) ↔
      ¬ Overfull chunks.flatten ∧ ¬ SpillsInto chunks.flatten := by
  rw [← feedAll_row_iff, ← feedAll_column_iff]
  refine ⟨fun h => ⟨h .row, h .column⟩, fun h f => ?_⟩
  cases f with
  | row => exact h.1
  | column => exact h.2

/-- **The header table.** The parser keeps to the table, whatever the chunks, exactly if the input
has no 65th header line and no line before it whose name has 255 bytes, or 254 and no value. -/
theorem rows_bounded_iff (chunks : List (List UInt8)) :
    RowsBounded chunks ↔ ¬ Overfull chunks.flatten ∧ ¬ SpillsInto chunks.flatten := by
  rw [← feedAll_inside_iff]
  constructor
  · exact fun h => h.inside
  · intro h
    have hnot := ((feedAll_inside_iff chunks).mp h).1
    exact ⟨h, fun _ _ _ hfeed => feedAll_count chunks (Nat.zero_le _) hfeed,
      fun hover => absurd hover hnot⟩

/-- The 65th header line is written to row 64, and nothing is rejected. -/
theorem not_rowsBounded_overfull :
    ¬ RowsBounded [overfullInput] ∧
      feedAll httpParserInit .zero [overfullInput] = .error .row := by
  have hover : Overfull [overfullInput].flatten := by
    rw [List.flatten_singleton]
    exact overfull_overfullInput
  have hrow := (feedAll_row_iff _).mpr hover
  exact ⟨fun h => h.inside .row hrow, hrow⟩

end HttpServer
