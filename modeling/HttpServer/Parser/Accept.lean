import HttpServer.Parser.Refine

set_option autoImplicit false

/-! # The scanner accepts exactly the grammar

Soundness (`Scan.run_head`): a head found by the scanner is well formed and its text is a
prefix of the input. Completeness (`run_headText`): on the text of a well-formed head the
scanner finds that head at the last byte and not before. The scanner is deterministic, so
the grammar is prefix-free (`InGrammar.unique`).
-/

namespace HttpServer

open CLib

/-! ## Runs -/

theorem Scan.run_append (rows : Nat) (s : Scan) (a b : List UInt8) :
    s.run rows (a ++ b) =
      match s.run rows a with
      | .more s' => s'.run rows b
      | .head h => .head h
      | .reject => .reject
      | .fault f => .fault f := by
  induction a generalizing s with
  | nil => rfl
  | cons c a ih =>
      simp only [List.cons_append, Scan.run]
      cases s.step rows c with
      | more s' => exact ih s'
      | head h => rfl
      | reject => rfl
      | fault f => rfl

theorem Scan.run_append_of_more {rows : Nat} {s s' : Scan} {a : List UInt8}
    (h : s.run rows a = .more s') (b : List UInt8) : s.run rows (a ++ b) = s'.run rows b := by
  rw [Scan.run_append, h]

theorem Scan.run_append_of_head {rows : Nat} {s : Scan} {h : Head} {a : List UInt8}
    (hr : s.run rows a = .head h) (b : List UInt8) : s.run rows (a ++ b) = .head h := by
  rw [Scan.run_append, hr]

theorem Scan.run_singleton (rows : Nat) (s : Scan) (b : UInt8) : s.run rows [b] = s.step rows b := by
  rw [Scan.run]
  cases s.step rows b with
  | more s' => rfl
  | _ => rfl

/-! ## Soundness -/

/-- The conditions of the grammar on the part of a head read so far. -/
def Scan.WF : Scan → Prop
  | .method m => m.length ≤ 15 ∧ ∀ c ∈ m, IsToken c
  | .path m sp p =>
      m ≠ [] ∧ m.length ≤ 15 ∧ (∀ c ∈ m, IsToken c) ∧ IsBlank sp ∧
      p.length ≤ 4095 ∧ ∀ c ∈ p, IsPathByte c
  | .query m sp p q =>
      m ≠ [] ∧ m.length ≤ 15 ∧ (∀ c ∈ m, IsToken c) ∧ IsBlank sp ∧
      p.length ≤ 4095 ∧ (∀ c ∈ p, IsPathByte c) ∧ q.length ≤ 4095 ∧ ∀ c ∈ q, IsToken c
  | .version st v => st.WF ∧ v.length ≤ 15 ∧ ∀ c ∈ v, ¬ IsBreak c
  | .versionCr st v => st.WF ∧ v.length ≤ 15 ∧ ∀ c ∈ v, ¬ IsBreak c
  | .name l hs nm => l.WF ∧ (∀ x ∈ hs, x.WF) ∧ ∀ c ∈ nm, IsNameByte c
  | .nameCr l hs => l.WF ∧ ∀ x ∈ hs, x.WF
  | .value l hs nm ows v =>
      l.WF ∧ (∀ x ∈ hs, x.WF) ∧ nm ≠ [] ∧ (∀ c ∈ nm, IsNameByte c) ∧ (∀ c ∈ ows, IsBlank c) ∧
      (∀ c ∈ v, ¬ IsBreak c) ∧ (v ≠ [] → nm.length + v.length ≤ 253)
  | .valueCr l hs nm ows v =>
      l.WF ∧ (∀ x ∈ hs, x.WF) ∧ nm ≠ [] ∧ (∀ c ∈ nm, IsNameByte c) ∧ (∀ c ∈ ows, IsBlank c) ∧
      (∀ c ∈ v, ¬ IsBreak c) ∧ (v ≠ [] → nm.length + v.length ≤ 253)

theorem forall_mem_snoc {α : Type} {P : α → Prop} {l : List α} {a : α} (hl : ∀ x ∈ l, P x)
    (ha : P a) : ∀ x ∈ l ++ [a], P x := by
  intro x hx
  rcases List.mem_append.mp hx with hx | hx
  · exact hl x hx
  · rw [List.mem_singleton.mp hx]; exact ha

theorem length_snoc_le {α : Type} {l : List α} {a : α} {n : Nat} (h : l.length < n) :
    (l ++ [a]).length ≤ n := by
  rw [List.length_append]; exact h

theorem not_isBreak {c : UInt8} (h1 : ¬ c = CR) (h2 : ¬ c = LF) : ¬ IsBreak c := by
  rintro (h | h)
  · exact h1 h
  · exact h2 h

theorem endLine_wf {l : RequestLine} {hs : List HeaderLine} {nm ows v : List UInt8} {e : Eol}
    {s : Scan} (hl : l.WF) (hhs : ∀ x ∈ hs, x.WF) (hn : nm ≠ []) (hnb : ∀ c ∈ nm, IsNameByte c)
    (how : ∀ c ∈ ows, IsBlank c) (hv : ∀ c ∈ v, ¬ IsBreak c)
    (h : endLine l hs nm ows v e = .more s) : s.WF := by
  obtain ⟨hlt, rfl⟩ := endLine_more h
  refine ⟨hl, forall_mem_snoc hhs ⟨hn, hnb, how, hv, ?_⟩, List.forall_mem_nil _⟩
  unfold headerSize at hlt
  show nm.length + v.length ≤ 253
  omega

theorem Scan.WF.step {rows : Nat} {s s' : Scan} {c : UInt8} (hw : s.WF)
    (h : s.step rows c = .more s') : s'.WF := by
  -- one case for each state; a field that is closed has been checked byte by byte
  cases s with
  | method m =>
      obtain ⟨hlen, htok⟩ := hw
      simp only [Scan.step] at h
      split_ifs at h with h1 h2 h3 h4 <;> cases h
      · exact ⟨h2, hlen, htok, h1, Nat.zero_le _, List.forall_mem_nil _⟩
      · exact ⟨length_snoc_le h4, forall_mem_snoc htok ⟨h1, h3⟩⟩
  | path m sp p =>
      obtain ⟨hm, hlen, htok, hsp, hpl, hpb⟩ := hw
      simp only [Scan.step] at h
      split_ifs at h with h1 h2 h3 h4 h5 <;> cases h
      · exact ⟨⟨hm, hlen, htok, hsp, fun _ => h2, hpl, hpb, fun q hq => (by cases hq),
          fun q hq => (by cases hq), h1⟩, Nat.zero_le _, List.forall_mem_nil _⟩
      · exact ⟨hm, hlen, htok, hsp, hpl, hpb, Nat.zero_le _, List.forall_mem_nil _⟩
      · exact ⟨hm, hlen, htok, hsp, length_snoc_le h5, forall_mem_snoc hpb ⟨⟨h1, h4⟩, h3⟩⟩
  | query m sp p q =>
      obtain ⟨hm, hlen, htok, hsp, hpl, hpb, hql, hqt⟩ := hw
      simp only [Scan.step] at h
      split_ifs at h with h1 h2 h3 <;> cases h
      · refine ⟨⟨hm, hlen, htok, hsp, fun hq => (by cases hq), hpl, hpb, ?_, ?_, h1⟩,
          Nat.zero_le _, List.forall_mem_nil _⟩
        · intro q' hq'; cases hq'; exact hql
        · intro q' hq'; cases hq'; exact hqt
      · exact ⟨hm, hlen, htok, hsp, hpl, hpb, length_snoc_le h3, forall_mem_snoc hqt ⟨h1, h2⟩⟩
  | version st v =>
      obtain ⟨hst, hvl, hvb⟩ := hw
      simp only [Scan.step] at h
      split_ifs at h with h1 h2 h3 <;> cases h
      · exact ⟨hst, hvl, hvb⟩
      · exact ⟨⟨hst, hvl, hvb⟩, List.forall_mem_nil _, List.forall_mem_nil _⟩
      · exact ⟨hst, length_snoc_le h3, forall_mem_snoc hvb (not_isBreak h1 h2)⟩
  | versionCr st v =>
      obtain ⟨hst, hvl, hvb⟩ := hw
      simp only [Scan.step] at h
      split_ifs at h
      cases h
      exact ⟨⟨hst, hvl, hvb⟩, List.forall_mem_nil _, List.forall_mem_nil _⟩
  | name l hs nm =>
      obtain ⟨hl, hhs, hnb⟩ := hw
      simp only [Scan.step] at h
      split_ifs at h with h1 h2 h3 h4 h5 h6 h7 h8 <;> cases h
      · exact ⟨hl, hhs⟩
      · exact ⟨hl, hhs, h6, hnb, List.forall_mem_nil _, List.forall_mem_nil _, fun h => absurd rfl h⟩
      · exact ⟨hl, hhs, forall_mem_snoc hnb ⟨h5, not_isBreak h1 h3⟩⟩
  | nameCr l hs =>
      simp only [Scan.step] at h
      split_ifs at h
  | value l hs nm ows v =>
      obtain ⟨hl, hhs, hn, hnb, how, hv, hsz⟩ := hw
      simp only [Scan.step] at h
      split_ifs at h with h1 h2 h3 h4
      · cases h; exact ⟨hl, hhs, hn, hnb, how, hv, hsz⟩
      · exact endLine_wf hl hhs hn hnb how hv h
      · cases h; exact ⟨hl, hhs, hn, hnb, forall_mem_snoc how h3.2, hv, hsz⟩
      · cases h
        refine ⟨hl, hhs, hn, hnb, how, forall_mem_snoc hv (not_isBreak h1 h2), fun _ => ?_⟩
        rw [List.length_append, List.length_singleton]
        omega
  | valueCr l hs nm ows v =>
      obtain ⟨hl, hhs, hn, hnb, how, hv, -⟩ := hw
      simp only [Scan.step] at h
      split_ifs at h
      exact endLine_wf hl hhs hn hnb how hv h

theorem Scan.WF.step_head {rows : Nat} {s : Scan} {c : UInt8} {h : Head} (hw : s.WF)
    (hs : s.step rows c = .head h) : h.WF := by
  obtain ⟨-, l, hs', ⟨rfl, rfl⟩ | ⟨rfl, rfl⟩⟩ := Scan.step_head_cases hs
  · exact ⟨hw.1, hw.2.1⟩
  · exact ⟨hw.1, hw.2⟩

/-- A run that stays in the states keeps the conditions and consumes its input. -/
theorem Scan.run_more {rows : Nat} (t : List UInt8) :
    ∀ {s s' : Scan}, s.WF → s.run rows t = .more s' → s'.WF ∧ s'.text = s.text ++ t := by
  induction t with
  | nil =>
      intro s s' hw h
      cases h
      exact ⟨hw, (List.append_nil _).symm⟩
  | cons c t ih =>
      intro s s' hw h
      simp only [Scan.run] at h
      cases hs : s.step rows c with
      | more s1 =>
          rw [hs] at h
          obtain ⟨hw', ht⟩ := ih (hw.step hs) h
          refine ⟨hw', ?_⟩
          rw [ht, Scan.step_text hs, List.append_assoc]
          rfl
      | _ => rw [hs] at h; cases h

/-- A head found is well formed and its text is a prefix of the input. -/
theorem Scan.run_head {rows : Nat} (t : List UInt8) :
    ∀ {s : Scan} {h : Head}, s.WF → s.run rows t = .head h →
      h.WF ∧ ∃ a b, t = a ++ b ∧ h.text = s.text ++ a := by
  induction t with
  | nil => intro s h _ hr; cases hr
  | cons c t ih =>
      intro s h hw hr
      simp only [Scan.run] at hr
      cases hs : s.step rows c with
      | more s1 =>
          rw [hs] at hr
          obtain ⟨hh, a, b, rfl, ht⟩ := ih (hw.step hs) hr
          refine ⟨hh, c :: a, b, rfl, ?_⟩
          rw [ht, Scan.step_text hs, List.append_assoc]
          rfl
      | head h' =>
          rw [hs] at hr
          cases hr
          exact ⟨hw.step_head hs, [c], t, rfl, Scan.step_head_text hs⟩
      | _ => rw [hs] at hr; cases hr

/-- A head is found where its text ends. -/
theorem Scan.run_head_at {rows : Nat} (t : List UInt8) :
    ∀ {s : Scan} {h : Head}, s.run rows t = .head h →
      ∃ a b, t = a ++ b ∧ h.text = s.text ++ a ∧ s.run rows a = .head h := by
  induction t with
  | nil => intro s h hr; cases hr
  | cons c t ih =>
      intro s h hr
      simp only [Scan.run] at hr
      cases hs : s.step rows c with
      | more s1 =>
          rw [hs] at hr
          obtain ⟨a, b, rfl, ht, ha⟩ := ih hr
          refine ⟨c :: a, b, rfl, ?_, ?_⟩
          · rw [ht, Scan.step_text hs, List.append_assoc]
            rfl
          · simp only [Scan.run, hs, ha]
      | head h' =>
          rw [hs] at hr
          cases hr
          exact ⟨[c], t, rfl, Scan.step_head_text hs, by simp only [Scan.run, hs]⟩
      | _ => rw [hs] at hr; cases hr

theorem Scan.wf_start : (Scan.method []).WF := ⟨Nat.zero_le _, List.forall_mem_nil _⟩

/-! ## Completeness -/

section Completeness

variable (rows : Nat)

/-- Bytes that a family of states only appends to a token are appended one after another. -/
theorem run_push (f : List UInt8 → Scan) (P : UInt8 → Prop) (lo hi : Nat)
    (hstep : ∀ acc c, lo ≤ acc.length → acc.length < hi → P c →
      (f acc).step rows c = .more (f (acc ++ [c]))) (w : List UInt8) :
    ∀ acc, lo ≤ acc.length → acc.length + w.length ≤ hi → (∀ c ∈ w, P c) →
      (f acc).run rows w = .more (f (acc ++ w)) := by
  induction w with
  | nil => intro acc _ _ _; rw [List.append_nil]; rfl
  | cons c w ih =>
      intro acc hlo hhi hP
      rw [List.length_cons] at hhi
      have hs := hstep acc c hlo (by omega) (hP c (by simp))
      have hlen : (acc ++ [c]).length = acc.length + 1 := by simp
      simp only [Scan.run, hs]
      rw [ih (acc ++ [c]) (by omega) (by omega) (fun x hx => hP x (by simp [hx])),
        List.append_assoc]
      rfl

theorem run_method {m : List UInt8} (hlen : m.length ≤ 15) (hm : ∀ c ∈ m, IsToken c) :
    (Scan.method []).run rows m = .more (.method m) := by
  have := run_push rows Scan.method IsToken 0 15 ?_ m [] (Nat.zero_le _)
    (by simpa using hlen) hm
  · simpa using this
  · intro acc c _ hlt hc
    simp only [Scan.step]
    rw [if_neg hc.1, if_neg hc.2, if_pos hlt]

theorem run_path {m : List UInt8} {sp : UInt8} {p : List UInt8} (hlen : p.length ≤ 4095)
    (hp : ∀ c ∈ p, IsPathByte c) :
    (Scan.path m sp []).run rows p = .more (.path m sp p) := by
  have := run_push rows (Scan.path m sp) IsPathByte 0 4095 ?_ p [] (Nat.zero_le _)
    (by simpa using hlen) hp
  · simpa using this
  · intro acc c _ hlt hc
    simp only [Scan.step]
    rw [if_neg hc.1.1, if_neg hc.2, if_neg hc.1.2, if_pos hlt]

theorem run_query {m : List UInt8} {sp : UInt8} {p q : List UInt8} (hlen : q.length ≤ 4095)
    (hq : ∀ c ∈ q, IsToken c) :
    (Scan.query m sp p []).run rows q = .more (.query m sp p q) := by
  have := run_push rows (Scan.query m sp p) IsToken 0 4095 ?_ q [] (Nat.zero_le _)
    (by simpa using hlen) hq
  · simpa using this
  · intro acc c _ hlt hc
    simp only [Scan.step]
    rw [if_neg hc.1, if_neg hc.2, if_pos hlt]

theorem run_version {st : Start} {v : List UInt8} (hlen : v.length ≤ 15)
    (hv : ∀ c ∈ v, ¬ IsBreak c) :
    (Scan.version st []).run rows v = .more (.version st v) := by
  have := run_push rows (Scan.version st) (fun c => ¬ IsBreak c) 0 15 ?_ v [] (Nat.zero_le _)
    (by simpa using hlen) hv
  · simpa using this
  · intro acc c _ hlt hc
    simp only [Scan.step]
    rw [if_neg (fun h => hc (Or.inl h)), if_neg (fun h => hc (Or.inr h)), if_pos hlt]

theorem run_name {l : RequestLine} {hs : List HeaderLine} {nm : List UInt8}
    (hrows : hs.length < rows) (hlen : nm.length ≤ 255) (hn : ∀ c ∈ nm, IsNameByte c) :
    (Scan.name l hs []).run rows nm = .more (.name l hs nm) := by
  have := run_push rows (Scan.name l hs) IsNameByte 0 255 ?_ nm [] (Nat.zero_le _)
    (by simpa using hlen) hn
  · simpa using this
  · intro acc c _ hlt hc
    simp only [Scan.step]
    rw [if_neg (fun h => hc.2 (Or.inl h)), if_neg (fun h => hc.2 (Or.inr h)), if_neg hc.1,
      if_pos hlt, if_pos hrows]

theorem isBlank_not_break {c : UInt8} (h : IsBlank c) : c ≠ CR ∧ c ≠ LF := by
  rcases h with rfl | rfl <;> decide

theorem run_ows {l : RequestLine} {hs : List HeaderLine} {nm ows : List UInt8}
    (how : ∀ c ∈ ows, IsBlank c) :
    (Scan.value l hs nm [] []).run rows ows = .more (.value l hs nm ows []) := by
  have := run_push rows (fun acc => Scan.value l hs nm acc []) IsBlank 0 ows.length ?_ ows []
    (Nat.zero_le _) (by simp) how
  · simpa using this
  · intro acc c _ _ hc
    simp only [Scan.step]
    rw [if_neg (isBlank_not_break hc).1, if_neg (isBlank_not_break hc).2,
      if_pos ⟨trivial, hc⟩]

/-- A value is read byte by byte once its first byte, which is no blank, is stored. -/
theorem run_value {l : RequestLine} {hs : List HeaderLine} {nm ows v : List UInt8}
    (hsize : nm.length + v.length ≤ 253) (hv : ∀ c ∈ v, ¬ IsBreak c)
    (hnorm : ∀ c, v.head? = some c → ¬ IsBlank c) :
    (Scan.value l hs nm ows []).run rows v = .more (.value l hs nm ows v) := by
  cases v with
  | nil => rfl
  | cons c v =>
      have hc := hv c (by simp)
      rw [List.length_cons] at hsize
      have hfirst : (Scan.value l hs nm ows []).step rows c = .more (.value l hs nm ows [c]) := by
        simp only [Scan.step]
        rw [if_neg (fun h => hc (Or.inl h)), if_neg (fun h => hc (Or.inr h)),
          if_neg (fun h => hnorm c rfl h.2), if_pos (by simp only [List.length_nil]; omega)]
        rfl
      have hrest := run_push rows (fun acc => Scan.value l hs nm ows acc) (fun c => ¬ IsBreak c) 1
        (253 - nm.length) ?_ v [c] (Nat.le_refl _)
        (by simp only [List.length_singleton]; omega) (fun x hx => hv x (by simp [hx]))
      · simp only [Scan.run, hfirst]
        simpa using hrest
      · intro acc x hlo hhi hx
        simp only [Scan.step]
        rw [if_neg (fun h => hx (Or.inl h)), if_neg (fun h => hx (Or.inr h)),
          if_neg (fun h => by rw [h.1] at hlo; simp at hlo), if_pos (by omega)]

/-- A request line, up to a byte of the path ... -/
theorem run_toPath {m p : List UInt8} {sp : UInt8} (hm : m ≠ []) (hlen : m.length ≤ 15)
    (htok : ∀ c ∈ m, IsToken c) (hsp : IsBlank sp) (hpl : p.length ≤ 4095)
    (hpb : ∀ c ∈ p, IsPathByte c) :
    (Scan.method []).run rows (m ++ sp :: p) = .more (.path m sp p) := by
  have hstep : (Scan.method m).step rows sp = .more (.path m sp []) := by
    simp only [Scan.step]
    rw [if_pos hsp, if_neg hm]
  rw [Scan.run_append_of_more (run_method rows hlen htok)]
  simp only [Scan.run, hstep]
  exact run_path rows hpl hpb

/-- ... or of the query string. -/
theorem run_toQuery {m p q : List UInt8} {sp : UInt8} (hm : m ≠ []) (hlen : m.length ≤ 15)
    (htok : ∀ c ∈ m, IsToken c) (hsp : IsBlank sp) (hpl : p.length ≤ 4095)
    (hpb : ∀ c ∈ p, IsPathByte c) (hql : q.length ≤ 4095) (hqt : ∀ c ∈ q, IsToken c) :
    (Scan.method []).run rows (m ++ sp :: (p ++ QMARK :: q)) = .more (.query m sp p q) := by
  have hstep : (Scan.path m sp p).step rows QMARK = .more (.query m sp p []) := by
    simp only [Scan.step]
    rw [if_neg (by decide), if_pos trivial]
  rw [← List.cons_append, ← List.append_assoc,
    Scan.run_append_of_more (run_toPath rows hm hlen htok hsp hpl hpb)]
  simp only [Scan.run, hstep]
  exact run_query rows hql hqt

theorem run_start {st : Start} (hw : st.WF) :
    (Scan.method []).run rows st.text = .more (.version st []) := by
  obtain ⟨m, sp1, p, q, sp2⟩ := st
  cases q with
  | none =>
      have htext : Start.text ⟨m, sp1, p, none, sp2⟩ = (m ++ sp1 :: p) ++ [sp2] := by
        simp [Start.text, queryText]
      rw [htext, Scan.run_append_of_more (run_toPath rows hw.method_pos hw.method_len hw.method_tok
        hw.sp1_blank hw.path_len hw.path_byte)]
      simp only [Scan.run, Scan.step]
      rw [if_pos hw.sp2_blank, if_neg (hw.path_pos rfl)]
  | some q =>
      have htext : Start.text ⟨m, sp1, p, some q, sp2⟩ = (m ++ sp1 :: (p ++ QMARK :: q)) ++ [sp2] := by
        simp [Start.text, queryText]
      rw [htext, Scan.run_append_of_more (run_toQuery rows hw.method_pos hw.method_len hw.method_tok
        hw.sp1_blank hw.path_len hw.path_byte (hw.query_len q rfl) (hw.query_tok q rfl))]
      simp only [Scan.run, Scan.step]
      rw [if_pos hw.sp2_blank]

theorem run_line {l : RequestLine} (hw : l.WF) :
    (Scan.method []).run rows l.text = .more (.name l [] []) := by
  obtain ⟨st, v, e⟩ := l
  rw [RequestLine.text, List.append_assoc, Scan.run_append_of_more (run_start rows hw.start_wf),
    Scan.run_append_of_more (run_version rows hw.version_len hw.version_byte)]
  cases e <;> rfl

theorem run_header {l : RequestLine} {hs : List HeaderLine} {x : HeaderLine}
    (hrows : hs.length < rows) (hw : x.WF) (hx : x.Normal) :
    (Scan.name l hs []).run rows x.text = .more (.name l (hs ++ [x]) []) := by
  obtain ⟨nm, ows, v, e⟩ := x
  have hsize : nm.length + v.length ≤ 253 := hw.size
  have hlen : nm.length ≤ 255 := by omega
  have hcolon : (Scan.name l hs nm).run rows [COLON] = .more (.value l hs nm [] []) := by
    simp only [Scan.run, Scan.step]
    rw [if_neg (by decide), if_neg (by decide), if_pos trivial, if_neg hw.name_pos,
      if_pos (by unfold headerSize; omega)]
  have hend : ∀ e', endLine l hs nm ows v e' = .more (.name l (hs ++ [⟨nm, ows, v, e'⟩]) []) :=
    fun e' => if_pos (by unfold headerSize; omega)
  rw [show HeaderLine.text ⟨nm, ows, v, e⟩ = nm ++ ([COLON] ++ (ows ++ (v ++ e.text))) by
      simp [HeaderLine.text],
    Scan.run_append_of_more (run_name rows hrows hlen hw.name_byte),
    Scan.run_append_of_more hcolon, Scan.run_append_of_more (run_ows rows hw.ows_blank),
    Scan.run_append_of_more (run_value rows hsize hw.value_byte hx)]
  cases e with
  | crlf =>
      have h1 : (Scan.value l hs nm ows v).step rows CR = .more (.valueCr l hs nm ows v) := rfl
      have h2 : (Scan.valueCr l hs nm ows v).step rows LF = endLine l hs nm ows v .crlf := rfl
      simp only [Eol.text, Scan.run, h1, h2, hend]
  | lf =>
      have h1 : (Scan.value l hs nm ows v).step rows LF = endLine l hs nm ows v .lf := rfl
      simp only [Eol.text, Scan.run, h1, hend]

theorem run_headers {l : RequestLine} (ks : List HeaderLine) :
    ∀ {hs : List HeaderLine}, hs.length + ks.length ≤ rows → (∀ x ∈ ks, x.WF) →
      (∀ x ∈ ks, x.Normal) →
      (Scan.name l hs []).run rows (headersText ks) = .more (.name l (hs ++ ks) []) := by
  induction ks with
  | nil => intro hs _ _ _; rw [List.append_nil]; rfl
  | cons x ks ih =>
      intro hs hlen hw hn
      rw [List.length_cons] at hlen
      rw [show headersText (x :: ks) = x.text ++ headersText ks from List.flatMap_cons,
        Scan.run_append_of_more (run_header rows (by omega) (hw x (by simp)) (hn x (by simp))),
        ih (by rw [List.length_append, List.length_singleton]; omega)
          (fun y hy => hw y (by simp [hy])) (fun y hy => hn y (by simp [hy])),
        List.append_assoc]
      rfl

/-- **Completeness.** The scanner finds a well-formed head at the end of its text. -/
theorem run_headText {h : Head} (hw : h.WF) (hn : ∀ x ∈ h.headers, x.Normal)
    (hrows : h.headers.length ≤ rows) :
    (Scan.method []).run rows h.text = .head h := by
  obtain ⟨l, hs, e⟩ := h
  rw [Head.text, List.append_assoc, Scan.run_append_of_more (run_line rows hw.line_wf),
    Scan.run_append_of_more
      (run_headers rows hs (by rw [List.length_nil, Nat.zero_add]; exact hrows) hw.headers_wf hn)]
  cases e <;> rfl

/-- The same for a head whose values may start with blanks. -/
theorem run_head_norm {h : Head} (hw : h.WF) (hrows : h.headers.length ≤ rows) :
    (Scan.method []).run rows h.text = .head h.norm := by
  rw [← h.norm_text]
  exact run_headText rows hw.norm h.norm_normal (by rw [Head.norm, List.length_map]; exact hrows)

/-- ... and not before it. -/
theorem run_proper_prefix {h : Head} {a b : List UInt8} (hw : h.WF)
    (hrows : h.headers.length ≤ rows) (ht : h.text = a ++ b) (hb : b ≠ []) :
    ∃ s, (Scan.method []).run rows a = .more s := by
  have hfull := run_head_norm rows hw hrows
  rw [ht, Scan.run_append] at hfull
  cases hr : (Scan.method []).run rows a with
  | more s => exact ⟨s, rfl⟩
  | head h' =>
      rw [hr] at hfull
      cases hfull
      obtain ⟨-, a1, b1, rfl, hta⟩ := Scan.run_head a Scan.wf_start hr
      rw [Head.norm_text] at hta
      have hlen := congrArg List.length (ht.symm.trans hta)
      have hpos := List.length_pos_iff.mpr hb
      simp only [Scan.text, List.nil_append, List.length_append] at hlen
      omega
  | reject => rw [hr] at hfull; cases hfull
  | fault f => rw [hr] at hfull; cases hfull

end Completeness

/-- **The grammar is prefix-free**: a string has at most one prefix in it. -/
theorem InGrammar.unique {a b s : List UInt8} (ha : InGrammar a) (hb : InGrammar b)
    (has : a <+: s) (hbs : b <+: s) : a = b := by
  obtain ⟨x, hx, rfl⟩ := ha
  obtain ⟨y, hy, rfl⟩ := hb
  obtain ⟨t, rfl⟩ := has
  obtain ⟨u, hu⟩ := hbs
  have h1 := Scan.run_append_of_head
    (run_head_norm (max x.headers.length y.headers.length) hx (Nat.le_max_left _ _)) t
  have h2 := Scan.run_append_of_head
    (run_head_norm (max x.headers.length y.headers.length) hy (Nat.le_max_right _ _)) u
  rw [hu, h1] at h2
  injection h2 with h2
  rw [← x.norm_text, ← y.norm_text, h2]

end HttpServer
