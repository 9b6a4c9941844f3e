import HttpServer.Parser.Columns

set_option autoImplicit false

/-! # What the parser decides from the headers

Two decisions rest on header names and values: whether a request on HTTP/1.1 names its host, and
whether the connection outlives the request. The first is made in one of the two states that can
end a head and missing in the other; the second is made by looking for words anywhere in a
`Connection` line, and each such line overwrites what the lines before it said.
-/

namespace HttpServer

open CLib

/-! ## The head of an accepted request -/

theorem HeaderLine.Normal.norm_eq {x : HeaderLine} (h : x.Normal) : x.norm = x := by
  obtain ⟨nm, ows, v, e⟩ := x
  cases v with
  | nil => simp [HeaderLine.norm]
  | cons c v =>
      have hc : ¬ IsBlank c := h c rfl
      simp [HeaderLine.norm, hc]

theorem Head.norm_eq {h : Head} (hn : ∀ x ∈ h.headers, x.Normal) : h.norm = h := by
  obtain ⟨l, hs, e⟩ := h
  have hmap : hs.map HeaderLine.norm = hs.map id :=
    List.map_congr_left fun x hx => (hn x hx).norm_eq
  rw [Head.norm, hmap, List.map_id]

theorem Scan.run_head_fits (t : List UInt8) :
    ∀ {s : Scan} {h : Head}, s.Fits → s.run maxHeaders t = .head h →
      (∀ x ∈ h.headers, x.Normal) ∧ h.headers.length ≤ maxHeaders := by
  induction t with
  | nil => intro s h _ hr; cases hr
  | cons c t ih =>
      intro s h hf hr
      simp only [Scan.run] at hr
      cases hs : s.step maxHeaders c with
      | more s₁ =>
          rw [hs] at hr
          exact ih (hf.step hs) hr
      | head h' =>
          rw [hs] at hr
          cases hr
          exact hf.step_head hs
      | _ => rw [hs] at hr; cases hr

/-- A request is accepted with the head at the start of its text. -/
theorem feed_done {s : List UInt8} {p : HttpParser} {req : HttpRequest}
    (h : httpParserFeed httpParserInit .zero s = .ok (.done, p, req)) :
    ∃ hd : Head, hd.WF ∧ (∀ x ∈ hd.headers, x.Normal) ∧ hd.headers.length ≤ maxHeaders ∧
      hd.text <+: s ∧ hd.hostOk = true ∧ Filled .zero hd req := by
  have hm : MatchesRun .zero (httpParserFeed httpParserInit .zero s)
      ((Scan.method []).run maxHeaders s) := httpParserFeed_matches rfl (agrees_init _) s
  rw [h] at hm
  cases hr : (Scan.method []).run maxHeaders s with
  | more s' =>
      rw [hr] at hm
      obtain ⟨_, _, heq, -⟩ := hm
      cases heq
  | head hd =>
      -- the head that the scan has taken apart is the one that was accepted
      obtain ⟨hw, a, b, rfl, ht⟩ := Scan.run_head s Scan.wf_start hr
      obtain ⟨hn, hlen⟩ := Scan.run_head_fits (a ++ b) (s := .method []) trivial hr
      rw [hr, MatchesRun] at hm
      split at hm
      · next hok =>
          obtain ⟨_, _, heq, -, hfilled⟩ := hm
          cases heq
          exact ⟨hd, hw, hn, hlen, ⟨b, by rw [ht]; rfl⟩, hok, hfilled⟩
      · obtain ⟨_, _, heq⟩ := hm
        cases heq
  | reject =>
      rw [hr] at hm
      obtain ⟨_, _, heq⟩ := hm
      cases heq
  | fault f =>
      rw [hr] at hm
      cases hm

/-- Heads at the start of one text are the same but for blanks after their colons. -/
theorem head_unique {h h' : Head} {s : List UInt8} (hw : h.WF) (hw' : h'.WF)
    (hn : ∀ x ∈ h.headers, x.Normal) (hn' : ∀ x ∈ h'.headers, x.Normal)
    (hp : h.text <+: s) (hp' : h'.text <+: s) : h = h' := by
  have htext : h.text = h'.text := InGrammar.unique ⟨h, hw, rfl⟩ ⟨h', hw', rfl⟩ hp hp'
  have hrun := run_head_norm (max h.headers.length h'.headers.length) hw (Nat.le_max_left _ _)
  have hrun' := run_head_norm (max h.headers.length h'.headers.length) hw' (Nat.le_max_right _ _)
  rw [htext, hrun'] at hrun
  injection hrun with hrun
  rw [← Head.norm_eq hn, ← Head.norm_eq hn', hrun]

/-! ## Names in stored rows -/

theorem lower_eq_colon {c : UInt8} (h : lower c = COLON) : c = COLON := by
  unfold lower at h
  split at h
  · next hup =>
      have hval := congrArg UInt8.toNat h
      simp [UInt8.le_iff_toNat_le, UInt8.toNat_add, COLON] at hup hval
      omega
  · exact h

/-- A stored row starts with a name and a colon, in any case, exactly if it is the row of a
header of that name: a zero in the name hides the colon. -/
theorem strncaseeq_stored {x : HeaderLine} {k : List UInt8} (hx : x.WF) (hlow : k.map lower = k)
    (hcolon : COLON ∉ k) (hzero : (0 : UInt8) ∉ k) :
    strncaseeq (cstr x.stored) (k ++ [COLON]) (k.length + 1) = true ↔ x.name.map lower = k := by
  have hkey : ((k ++ [COLON]).take (k.length + 1)).map lower = k ++ [COLON] := by
    rw [List.take_of_length_le (by simp), List.map_append, hlow]
    rfl
  have hnm : COLON ∉ x.name.map lower := by
    intro hmem
    obtain ⟨c, hc, hl⟩ := List.mem_map.mp hmem
    exact (hx.name_byte c hc).1 (lower_eq_colon hl)
  rw [strncaseeq, hkey, beq_iff_eq]
  by_cases h0 : (0 : UInt8) ∈ x.name
  · -- the C string ends inside the name, so it has no colon
    obtain ⟨a, b, hab⟩ := List.append_of_mem h0
    have hstr : cstr x.stored = cstr a := by
      rw [HeaderLine.stored, hab, List.append_assoc, List.append_assoc, List.cons_append,
        cstr_append_zero]
    constructor
    · intro h
      have hmem : COLON ∈ ((cstr x.stored).take (k.length + 1)).map lower := by rw [h]; simp
      obtain ⟨c, hc, hl⟩ := List.mem_map.mp hmem
      rw [hstr] at hc
      have hca : c ∈ a := (List.takeWhile_sublist _).mem (List.mem_of_mem_take hc)
      exact absurd (lower_eq_colon hl) (hx.name_byte c (by rw [hab]; simp [hca])).1
    · intro h
      refine absurd ?_ hzero
      rw [← h]
      exact List.mem_map.mpr ⟨0, h0, rfl⟩
  · have hstr : cstr x.stored = x.name ++ COLON :: cstr (SP :: x.value) := by
      rw [HeaderLine.stored, List.append_assoc, cstr_append h0]
      rfl
    rw [hstr]
    -- the first bytes compared lie inside the name, or reach the colon
    by_cases hle : k.length + 1 ≤ x.name.length
    · rw [List.take_append_of_le_length hle]
      constructor
      · intro h
        refine absurd ?_ hnm
        have hmem : COLON ∈ (x.name.take (k.length + 1)).map lower := by rw [h]; simp
        exact (List.Sublist.map lower (List.take_sublist _ _)).mem hmem
      · intro h
        have := congrArg List.length h
        rw [List.length_map] at this
        omega
    · rw [List.take_append, List.take_of_length_le (by omega), List.map_append]
      obtain ⟨m, hm⟩ : ∃ m, k.length + 1 - x.name.length = m + 1 :=
        ⟨k.length - x.name.length, by omega⟩
      rw [hm, List.take_succ_cons, List.map_cons, show lower COLON = COLON from rfl, eq_comm,
        List.append_cons_inj_of_notMem hcolon List.not_mem_nil]
      constructor
      · exact fun h => h.1.symm
      · intro h
        have hlen := congrArg List.length h
        rw [List.length_map] at hlen
        obtain rfl : m = 0 := by omega
        exact ⟨h.symm, rfl, rfl⟩

/-- The stored rows of a head that start with a name and a colon. -/
theorem exists_row_iff {h : Head} {req : HttpRequest} {k : List UInt8} (hw : h.WF)
    (hf : Filled .zero h req) (hlow : k.map lower = k) (hcolon : COLON ∉ k)
    (hzero : (0 : UInt8) ∉ k) :
    (∃ row ∈ req.headerList, strncaseeq row (k ++ [COLON]) (k.length + 1) = true) ↔
      ∃ x ∈ h.headers, x.name.map lower = k := by
  have hlist : req.headerList = h.headers.map (fun x => cstr x.stored) := hf.filling.list
  rw [hlist]
  constructor
  · rintro ⟨row, hrow, hname⟩
    obtain ⟨x, hx, rfl⟩ := List.mem_map.mp hrow
    exact ⟨x, hx, (strncaseeq_stored (hw.headers_wf x hx) hlow hcolon hzero).mp hname⟩
  · rintro ⟨x, hx, hname⟩
    exact ⟨_, List.mem_map.mpr ⟨x, hx, rfl⟩,
      (strncaseeq_stored (hw.headers_wf x hx) hlow hcolon hzero).mpr hname⟩

/-! ## The host -/

/-- If the request is accepted and its version is HTTP/1.1, the name of a stored row is `Host`,
in any case. -/
def NamesHost (s : List UInt8) : Prop :=
  ∀ p req, httpParserFeed httpParserInit .zero s = .ok (.done, p, req) →
    req.version.str = ascii "HTTP/1.1" →
    ∃ row ∈ req.headerList, strncaseeq row (ascii "host:") 5 = true

/-- The request has a head on HTTP/1.1 without a `Host` line, and a bare LF for its blank line. -/
def EndsBare (s : List UInt8) : Prop :=
  ∃ h : Head, h.WF ∧ h.headers.length ≤ maxHeaders ∧ h.text <+: s ∧ h.blank = .lf ∧
    cstr h.line.version = ascii "HTTP/1.1" ∧ ∀ x ∈ h.headers, x.name.map lower ≠ ascii "host"

theorem host_row_iff {h : Head} {req : HttpRequest} (hw : h.WF) (hf : Filled .zero h req) :
    (∃ row ∈ req.headerList, strncaseeq row (ascii "host:") 5 = true) ↔
      ∃ x ∈ h.headers, x.name.map lower = ascii "host" :=
  exists_row_iff (k := ascii "host") hw hf (by decide) (by decide) (by decide)

/-- The state that ends a head at a bare LF does not look for a host. -/
theorem EndsBare.not_namesHost {s : List UInt8} (h : EndsBare s) : ¬ NamesHost s := by
  obtain ⟨hd, hw, hlen, ⟨rest, rfl⟩, hblank, hversion, hnone⟩ := h
  have hok : hd.norm.hostOk = true := by
    rw [hd.norm_hostOk, hostOk_iff, hblank]
    simp
  obtain ⟨p, req, hfeed, hfilled⟩ := feed_head hw.norm hd.norm_normal
    (by rw [Head.norm, List.length_map]; exact hlen) hok rest
  rw [hd.norm_text] at hfeed
  intro hnames
  obtain ⟨x, hx, hname⟩ := (host_row_iff hw.norm hfilled).mp
    (hnames p req hfeed (by rw [hfilled.filling.version]; exact hversion))
  obtain ⟨y, hy, rfl⟩ := List.mem_map.mp hx
  exact hnone y hy hname

theorem namesHost_of_not_bare {s : List UInt8} (hnot : ¬ EndsBare s) : NamesHost s := by
  intro p req hdone hversion
  obtain ⟨hd, hw, -, hlen, hp, hok, hfilled⟩ := feed_done hdone
  rw [hfilled.filling.version] at hversion
  refine (host_row_iff hw hfilled).mpr ?_
  cases hblank : hd.blank with
  | crlf => exact (hostOk_iff hd).mp hok hblank hversion
  | lf =>
      by_contra hnone
      exact hnot ⟨hd, hw, hlen, hp, hblank, hversion, fun x hx hname => hnone ⟨x, hx, hname⟩⟩

/-- One call on a fresh parser writes inside the header table. -/
theorem feed_inside_iff (s : List UInt8) :
    (∀ f, httpParserFeed httpParserInit .zero s ≠ .error f) ↔ ¬ Overfull s ∧ ¬ SpillsInto s := by
  have hfeed : ∀ f, feedAll httpParserInit .zero [s] = .error f ↔
      httpParserFeed httpParserInit .zero s = .error f := by
    intro f
    rw [feedAll]
    rcases httpParserFeed httpParserInit .zero s with f' | ⟨st, p, req⟩
    · exact Iff.rfl
    · cases st <;> simp [feedAll]
  have hinside := feedAll_inside_iff [s]
  rw [List.flatten_singleton] at hinside
  rw [← hinside]
  exact forall_congr' fun f => not_congr (hfeed f).symm

/-- **Host is mandatory on HTTP/1.1**: the parser keeps to its header table and names a host in
what it accepts exactly on the requests that do not end a head without a host at a bare LF, have
no 65th header line, and no header name that spills over its row. -/
theorem names_host_iff (s : List UInt8) :
    ((∀ f, httpParserFeed httpParserInit .zero s ≠ .error f) ∧ NamesHost s) ↔
      ¬ EndsBare s ∧ ¬ Overfull s ∧ ¬ SpillsInto s := by
  rw [feed_inside_iff, and_comm]
  refine and_congr_left fun _ => ⟨fun h hbare => hbare.not_namesHost h, namesHost_of_not_bare⟩

/-- `GET / HTTP/1.1` and a bare LF for each line. -/
def bareHead : Head := ⟨⟨⟨ascii "GET", SP, ascii "/", none, SP⟩, ascii "HTTP/1.1", .lf⟩, [], .lf⟩

theorem bareHead_wf : bareHead.WF :=
  ⟨⟨⟨by decide, by decide, by unfold IsToken; decide, by decide, by decide, by decide,
    by unfold IsPathByte IsToken; decide, fun _ h => (by cases h), fun _ h => (by cases h), by decide⟩, by decide, by decide⟩, fun _ h => (by cases h)⟩

theorem not_namesHost_bare : ¬ NamesHost (ascii "GET / HTTP/1.1\n\n") :=
  EndsBare.not_namesHost
    ⟨bareHead, bareHead_wf, by decide, ⟨[], by decide⟩, rfl, by decide, fun _ h => (by cases h)⟩

/-! ## Persistence -/

def COMMA : UInt8 := 44

/-- An element of a list without the blanks around it. -/
def stripBlanks (t : List UInt8) : List UInt8 :=
  ((t.dropWhile (fun c => decide (IsBlank c))).reverse.dropWhile
    (fun c => decide (IsBlank c))).reverse

def HeaderLine.isConnection (x : HeaderLine) : Bool := decide (x.name.map lower = ascii "connection")

/-- The comma-separated options of a value, in lower case. -/
def HeaderLine.options (x : HeaderLine) : List (List UInt8) :=
  (x.value.splitOn COMMA).map fun o => (stripBlanks o).map lower

/-- Some `Connection` line lists the option. -/
def Head.lists (h : Head) (option : List UInt8) : Bool :=
  h.headers.any fun x => x.isConnection && decide (option ∈ x.options)

def Head.isHttp11 (h : Head) : Bool := decide (cstr h.line.version = ascii "HTTP/1.1")

/-- Whether the connection is to stay open after the request. -/
def Head.persistent (h : Head) : Bool :=
  if h.lists (ascii "close") then false
  else if h.lists (ascii "keep-alive") then true
  else h.isHttp11

/-- What the parser takes a `Connection` line to say: the words may stand anywhere in the value,
up to its first zero. -/
def HeaderLine.says (x : HeaderLine) : Option Bool :=
  if x.isConnection then
    if strcasestr (cstr x.value) (ascii "close") then some false
    else if strcasestr (cstr x.value) (ascii "keep-alive") then some true
    else none
  else none

/-- What the last `Connection` line with one of the words says. -/
def Head.lastWord (h : Head) : Option Bool := (h.headers.filterMap HeaderLine.says).getLast?

/-- The last word agrees with the options that are listed. -/
structure Head.Settled (h : Head) : Prop where
  close : h.lists (ascii "close") = true →
    h.lastWord = some false ∨ h.lastWord = none ∧ h.isHttp11 = false
  keepAlive : h.lists (ascii "close") = false → h.lists (ascii "keep-alive") = true →
    h.lastWord = some true ∨ h.lastWord = none ∧ h.isHttp11 = true
  neither : h.lists (ascii "close") = false → h.lists (ascii "keep-alive") = false →
    h.lastWord = none ∨ h.lastWord = some h.isHttp11

/-- Neither word begins inside `connection: `. -/
theorem words_infix (v : List UInt8) :
    (ascii "close" <:+: ascii "connection: " ++ v ↔ ascii "close" <:+: v) ∧
    (ascii "keep-alive" <:+: ascii "connection: " ++ v ↔ ascii "keep-alive" <:+: v) := by
  constructor
  · simp [ascii, List.infix_cons_iff, List.cons_prefix_cons]
  · simp [ascii, List.infix_cons_iff, List.cons_prefix_cons]

/-- A word without blanks is in a stored row of a `Connection` line where it is in its value. -/
theorem strcasestr_stored {x : HeaderLine} (hname : x.name.map lower = ascii "connection") :
    strcasestr (cstr x.stored) (ascii "close") = strcasestr (cstr x.value) (ascii "close") ∧
    strcasestr (cstr x.stored) (ascii "keep-alive") =
      strcasestr (cstr x.value) (ascii "keep-alive") := by
  have h0 : (0 : UInt8) ∉ x.name ++ [COLON, SP] := by
    intro hmem
    rcases List.mem_append.mp hmem with hmem | hmem
    · have hzero : (0 : UInt8) ∈ ascii "connection" := by
        rw [← hname]
        exact List.mem_map.mpr ⟨0, hmem, rfl⟩
      exact absurd hzero (by decide)
    · exact absurd hmem (by decide)
  have hlow : (cstr x.stored).map lower = ascii "connection: " ++ (cstr x.value).map lower := by
    rw [HeaderLine.stored, cstr_append h0, List.map_append, List.map_append, hname]
    rfl
  have hclose : (ascii "close").map lower = ascii "close" := by decide
  have hkeep : (ascii "keep-alive").map lower = ascii "keep-alive" := by decide
  simp only [strcasestr, hlow, hclose, hkeep, words_infix]
  exact ⟨trivial, trivial⟩

/-- One turn of the loop of `parser_finalize`. -/
theorem connectionOverride_eq {x : HeaderLine} (hx : x.WF) (keepAlive : Bool) :
    connectionOverride keepAlive (cstr x.stored) = x.says.getD keepAlive := by
  have hrow : strncaseeq (cstr x.stored) (ascii "connection:") 11 = true ↔
      x.name.map lower = ascii "connection" :=
    strncaseeq_stored (k := ascii "connection") hx (by decide) (by decide) (by decide)
  by_cases hname : x.name.map lower = ascii "connection"
  · rw [connectionOverride, if_pos (hrow.mpr hname), (strcasestr_stored hname).1,
      (strcasestr_stored hname).2, HeaderLine.says, HeaderLine.isConnection, decide_eq_true hname]
    cases strcasestr (cstr x.value) (ascii "close")
    · cases strcasestr (cstr x.value) (ascii "keep-alive")
      · rfl
      · rfl
    · rfl
  · rw [connectionOverride, if_neg (fun h => hname (hrow.mp h)), HeaderLine.says,
      HeaderLine.isConnection, decide_eq_false hname]
    rfl

/-- The loop keeps what the last line with one of the words says. -/
theorem foldl_connectionOverride (hs : List HeaderLine) (hw : ∀ x ∈ hs, x.WF) (keepAlive : Bool) :
    (hs.map fun x => cstr x.stored).foldl connectionOverride keepAlive =
      ((hs.filterMap HeaderLine.says).getLast?).getD keepAlive := by
  induction hs generalizing keepAlive with
  | nil => rfl
  | cons x hs ih =>
      rw [List.map_cons, List.foldl_cons, connectionOverride_eq (hw x List.mem_cons_self),
        ih fun y hy => hw y (List.mem_cons_of_mem x hy)]
      cases hsays : x.says with
      | none => rw [List.filterMap_cons_none hsays, Option.getD_none]
      | some b =>
          rw [List.filterMap_cons_some hsays, List.getLast?_cons, Option.getD_some, Option.getD_some]

theorem Filled.keepAlive_eq {h : Head} {req : HttpRequest} (hw : h.WF) (hf : Filled .zero h req) :
    req.keepAlive = h.lastWord.getD h.isHttp11 := by
  have hlist : req.headerList = h.headers.map (fun x => cstr x.stored) := hf.filling.list
  rw [hf.keepAlive, hlist, foldl_connectionOverride h.headers hw.headers_wf]
  rfl

theorem getD_eq {o : Option Bool} {a b : Bool} (h : o.getD a = b) :
    o = some b ∨ o = none ∧ a = b := by
  cases o with
  | none => exact .inr ⟨rfl, h⟩
  | some c => exact .inl (congrArg some h)

theorem Head.settled_iff (h : Head) : h.lastWord.getD h.isHttp11 = h.persistent ↔ h.Settled := by
  unfold Head.persistent
  constructor
  · intro heq
    refine ⟨fun hclose => ?_, fun hclose hkeep => ?_, fun hclose hkeep => ?_⟩
    · rw [hclose, if_pos rfl] at heq
      exact getD_eq heq
    · rw [hclose, hkeep] at heq
      exact getD_eq heq
    · rw [hclose, hkeep] at heq
      exact (getD_eq heq).symm.imp_left And.left
  -- by what the lines list: `close`, else `keep-alive`, else nothing
  · rintro ⟨hc, hk, hn⟩
    by_cases hclose : h.lists (ascii "close") = true
    · rw [if_pos hclose]
      rcases hc hclose with hlast | ⟨hlast, hver⟩
      · rw [hlast]; rfl
      · rw [hlast]; exact hver
    · rw [if_neg hclose]
      rw [Bool.not_eq_true] at hclose
      by_cases hkeep : h.lists (ascii "keep-alive") = true
      · rw [if_pos hkeep]
        rcases hk hclose hkeep with hlast | ⟨hlast, hver⟩
        · rw [hlast]; rfl
        · rw [hlast]; exact hver
      · rw [if_neg hkeep]
        rw [Bool.not_eq_true] at hkeep
        rcases hn hclose hkeep with hlast | hlast
        · rw [hlast]; rfl
        · rw [hlast]; rfl

/-- **Persistence.** The flag of an accepted request is what its `Connection` options ask for
exactly if the last line that contains one of the words says so. -/
theorem persistence_iff {s : List UInt8} {p : HttpParser} {req : HttpRequest} {h : Head}
    (hdone : httpParserFeed httpParserInit .zero s = .ok (.done, p, req)) (hw : h.WF)
    (hn : ∀ x ∈ h.headers, x.Normal) (hp : h.text <+: s) :
    req.keepAlive = h.persistent ↔ h.Settled := by
  obtain ⟨hd, hw', hn', -, hp', -, hfilled⟩ := feed_done hdone
  obtain rfl : h = hd := head_unique hw hw' hn hn' hp hp'
  rw [hfilled.keepAlive_eq hw, h.settled_iff]

/-- `GET / HTTP/1.1` with a host and a `Connection` line for each of the options. -/
def connectionHead (options : List (List UInt8)) : Head where
  line := ⟨⟨ascii "GET", SP, ascii "/", none, SP⟩, ascii "HTTP/1.1", .crlf⟩
  headers := ⟨ascii "Host", [SP], ascii "x", .crlf⟩ ::
    options.map fun o => ⟨ascii "Connection", [SP], o, .crlf⟩
  blank := .crlf

/-- Options that a `Connection` line can hold. -/
def PlainOption (o : List UInt8) : Prop :=
  (∀ c ∈ o, ¬ IsBreak c) ∧ o.length ≤ 243 ∧ ∀ c, o.head? = some c → ¬ IsBlank c

theorem connectionHead_wf {options : List (List UInt8)} (h : ∀ o ∈ options, PlainOption o) :
    (connectionHead options).WF := by
  have hline := bareHead_wf.line_wf
  refine ⟨⟨hline.start_wf, hline.version_len, hline.version_byte⟩, ?_⟩
  intro x hx
  rcases List.mem_cons.mp hx with rfl | hx
  · exact ⟨by decide, by unfold IsNameByte; decide, by decide, by decide, by decide⟩
  · obtain ⟨o, ho, rfl⟩ := List.mem_map.mp hx
    obtain ⟨hbyte, hlen, -⟩ := h o ho
    have hname : ascii "Connection" ≠ [] ∧ ∀ c ∈ ascii "Connection", IsNameByte c := by
      unfold IsNameByte
      decide
    have hblank : ∀ c ∈ [SP], IsBlank c := by decide
    refine ⟨hname.1, hname.2, hblank, hbyte, ?_⟩
    show 10 + o.length ≤ 253
    omega

theorem connectionHead_normal {options : List (List UInt8)} (h : ∀ o ∈ options, PlainOption o) :
    ∀ x ∈ (connectionHead options).headers, x.Normal := by
  intro x hx
  rcases List.mem_cons.mp hx with rfl | hx
  · unfold HeaderLine.Normal
    decide
  · obtain ⟨o, ho, rfl⟩ := List.mem_map.mp hx
    exact (h o ho).2.2

theorem feed_connectionHead {options : List (List UInt8)} (h : ∀ o ∈ options, PlainOption o)
    (hlen : options.length < maxHeaders) :
    ∃ p req, httpParserFeed httpParserInit .zero (connectionHead options).text = .ok (.done, p, req) ∧
      Filled .zero (connectionHead options) req := by
  have hok : (connectionHead options).hostOk = true :=
    (hostOk_iff _).mpr fun _ _ => ⟨_, List.mem_cons_self, by decide⟩
  have hfeed := feed_head (connectionHead_wf h) (connectionHead_normal h)
    (by simpa [connectionHead] using hlen) hok []
  rwa [List.append_nil] at hfeed

theorem plainOption_words : ∀ o ∈ [ascii "close", ascii "keep-alive"], PlainOption o := by
  unfold PlainOption
  decide

/-- The second line overrules the `close` of the first. -/
theorem not_persistent_overruled :
    (connectionHead [ascii "close", ascii "keep-alive"]).text = ascii
      "GET / HTTP/1.1\r\nHost: x\r\nConnection: close\r\nConnection: keep-alive\r\n\r\n" ∧
    ∃ p req, httpParserFeed httpParserInit .zero
        (connectionHead [ascii "close", ascii "keep-alive"]).text = .ok (.done, p, req) ∧
      req.keepAlive ≠ (connectionHead [ascii "close", ascii "keep-alive"]).persistent := by
  obtain ⟨p, req, hfeed, hfilled⟩ := feed_connectionHead plainOption_words (by decide)
  refine ⟨by decide +kernel, p, req, hfeed, ?_⟩
  rw [hfilled.keepAlive_eq (connectionHead_wf plainOption_words)]
  decide +kernel

/-- Two lines the other way round: the last one says `close`, and that is what was asked for. -/
theorem persistence_iff_close :
    (connectionHead [ascii "keep-alive", ascii "close"]).text = ascii
      "GET / HTTP/1.1\r\nHost: x\r\nConnection: keep-alive\r\nConnection: close\r\n\r\n" ∧
    (connectionHead [ascii "keep-alive", ascii "close"]).Settled ∧
    ∃ p req, httpParserFeed httpParserInit .zero
        (connectionHead [ascii "keep-alive", ascii "close"]).text = .ok (.done, p, req) ∧
      req.keepAlive = false := by
  have hplain : ∀ o ∈ [ascii "keep-alive", ascii "close"], PlainOption o := by
    unfold PlainOption
    decide
  have hsettled : (connectionHead [ascii "keep-alive", ascii "close"]).Settled :=
    (Head.settled_iff _).mp (by decide +kernel)
  obtain ⟨p, req, hfeed, -⟩ := feed_connectionHead hplain (by decide)
  refine ⟨by decide +kernel, hsettled, p, req, hfeed, ?_⟩
  rw [(persistence_iff hfeed (connectionHead_wf hplain) (connectionHead_normal hplain)
    List.prefix_rfl).mpr hsettled]
  decide +kernel

end HttpServer
