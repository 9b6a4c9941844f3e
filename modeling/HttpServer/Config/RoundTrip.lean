import HttpServer.Lib.Delimited
import HttpServer.Config.Lines
import HttpServer.Config.Startup

set_option autoImplicit false

/-! # Writing a configuration and reading it back

A configuration is written as five lines `key = value`, in any order and with any blanks around
the key and the value. `config_load` takes the text between the first two equals signs for the
value, so it finds the configuration again unless one of the paths has an equals sign in it.

As long as each line fits into the buffer the text is read line by line, and the buffer is out of
the way (`configText_readsByLine`). A written line then sets exactly its own field
(`lineUpdate_settingLine`), and since each field is written once the order of the lines does not
matter (`foldl_applyLine_eq`). For the converse, no path that `config_load` has ever stored
contains an equals sign (`configLoad_no_equals`).
-/

namespace HttpServer

open CLib

/-! ## Text without blanks at its ends -/

/-- No white space at either end. -/
structure Tight (v : List UInt8) : Prop where
  head : ∀ c ∈ v.head?, isWhitespace c = false
  last : ∀ c ∈ v.getLast?, isWhitespace c = false

theorem Tight.append {a b : List UInt8} (ha : Tight a) (hb : Tight b) (hane : a ≠ []) (hbne : b ≠ [])
    (m : List UInt8) : Tight (a ++ m ++ b) where
  head := by
    rw [List.append_assoc, List.head?_append_of_ne_nil _ hane]
    exact ha.head
  last := by
    rw [List.getLast?_append_of_ne_nil _ hbne]
    exact hb.last

/-- `trim_whitespace` finds a text between blanks. -/
theorem trimWhitespace_pad {p v q : List UInt8} (hp : ∀ c ∈ p, isWhitespace c = true)
    (hq : ∀ c ∈ q, isWhitespace c = true) (hv : Tight v) : trimWhitespace (p ++ v ++ q) = v := by
  have hq' : ∀ c ∈ q.reverse, isWhitespace c = true := fun c hc => hq c (List.mem_reverse.mp hc)
  rw [trimWhitespace, List.append_assoc, List.dropWhile_append_of_pos hp]
  cases v with
  | nil =>
      rw [List.nil_append, show q.dropWhile isWhitespace = [] from List.dropWhile_eq_nil_iff.mpr hq]
      rfl
  | cons c t =>
      have hc : ¬ isWhitespace c = true := by
        rw [hv.head c rfl]
        decide
      rw [List.cons_append, List.dropWhile_cons_of_neg hc, ← List.cons_append, List.rdropWhile,
        List.reverse_append, List.dropWhile_append_of_pos hq']
      refine List.rdropWhile_eq_self_iff.mpr fun hne hlast => ?_
      rw [hv.last _ (List.getLast?_eq_some_getLast hne)] at hlast
      cases hlast

theorem blank_ne {c : UInt8} (h : isWhitespace c = true) : c ≠ EQUALS ∧ c ≠ 0 := by
  constructor
  · rintro rfl
    cases h
  · rintro rfl
    cases h

/-! ## Numbers -/

theorem isDigit_ne {b c : UInt8} (hb : isDigit b = true) (hc : isDigit c = false) : b ≠ c := by
  rintro rfl
  rw [hb] at hc
  cases hc

theorem isWhitespace_of_isDigit {b : UInt8} (h : isDigit b = true) : isWhitespace b = false := by
  have hne : ∀ c, isDigit c = false → (b == c) = false := fun c hc =>
    beq_eq_false_iff_ne.mpr (isDigit_ne h hc)
  rw [isWhitespace, hne SP rfl, hne TAB rfl, hne CR rfl, hne LF rfl]
  rfl

theorem decimal_ne_nil (n : Nat) : decimal n ≠ [] := by
  rw [decimal, Ne, List.map_eq_nil_iff]
  exact Nat.toDigits_ne_nil

theorem digitsValue_decimal (n : Nat) : digitsValue (decimal n) = n := by
  have hall : (decimal n).takeWhile isDigit = decimal n :=
    List.takeWhile_eq_self_iff.mpr (decimal_digits n)
  have hread := readDecimal_decimal n
  rw [readDecimal, if_pos ⟨decimal_ne_nil n, List.all_eq_true.mpr (decimal_digits n)⟩] at hread
  change ((decimal n).takeWhile isDigit).foldl _ 0 = n
  rw [hall]
  simpa only [Nat.mul_comm] using Option.some.inj hread

/-- A positive `int` written in decimal is read back. -/
theorem atoi_decimal {n : Nat} (hn : n < 2 ^ 31) : atoi (decimal n) = n := by
  have hlong : max (-(2 ^ 63)) (min (2 ^ 63 - 1) (n : Int)) = n := by omega
  have hval : strtol (decimal n) = n := by
    have hdigits := decimal_digits n
    have hvalue := digitsValue_decimal n
    rw [strtol]
    generalize hd : decimal n = d at hdigits hvalue ⊢
    cases d with
    | nil => exact absurd hd (decimal_ne_nil n)
    | cons b t =>
        have hb := hdigits b List.mem_cons_self
        -- the first digit is neither a blank nor a sign
        have hspace : isSpace b = false := by
          simp only [isDigit, isSpace, decide_eq_true_eq, UInt8.le_iff_toNat_le] at hb ⊢
          have h32 : b ≠ 32 := by
            rintro rfl
            exact absurd hb.1 (by decide)
          have h13 : ¬ (9 ≤ b.toNat ∧ b.toNat ≤ 13) := by
            have h48 : (48 : UInt8).toNat = 48 := rfl
            omega
          simpa [h32] using h13
        rw [List.dropWhile_cons_of_neg (by rw [hspace]; decide)]
        split
        · next heq => exact absurd (List.cons.inj heq).1 (isDigit_ne hb rfl)
        · next heq => exact absurd (List.cons.inj heq).1 (isDigit_ne hb rfl)
        · rw [hvalue]
          exact hlong
  rw [atoi, hval]
  exact Int.bmod_eq_of_le (by omega) (by omega)

/-! ## Lines -/

def Setting.key : Setting → List UInt8
  | .serverRoot => ascii "server_root"
  | .port => ascii "port"
  | .numThreads => ascii "num_threads"
  | .logFile => ascii "log_file"
  | .timeoutSecs => ascii "timeout_secs"

/-- The five settings. -/
def allSettings : List Setting := [.port, .serverRoot, .numThreads, .logFile, .timeoutSecs]

/-- The value of a field as it is written. -/
def Update.text : Update → List UInt8
  | .serverRoot path => path
  | .port n => decimal n.toNat
  | .numThreads n => decimal n.toNat
  | .logFile path => path
  | .timeoutSecs n => decimal n.toNat

/-- The blanks around a key and its value. -/
structure Padding where
  before : List UInt8
  afterKey : List UInt8
  beforeValue : List UInt8
  after : List UInt8
  blank : ∀ c ∈ before ++ afterKey ++ (beforeValue ++ after), isWhitespace c = true ∧ c ≠ LF

/-- A line `key = value`. -/
def keyValueLine (pad : Padding) (key value : List UInt8) : List UInt8 :=
  pad.before ++ (key ++ (pad.afterKey ++ EQUALS :: pad.beforeValue) ++ value) ++ pad.after

/-- The line that sets a field. -/
def settingLine (cfg : ServerConfig) (pad : Setting → Padding) (x : Setting) : List UInt8 :=
  keyValueLine (pad x) x.key (cfg.get x).text

/-- The lines of the five settings in some order, with a newline behind the last one or not. -/
def configText (cfg : ServerConfig) (pad : Setting → Padding) (order : List Setting) (final : Bool) :
    List UInt8 :=
  [LF].intercalate (order.map (settingLine cfg pad)) ++ if final then [LF] else []

/-- A value that can be written in a line. -/
structure PlainText (v : List UInt8) : Prop where
  nonempty : v ≠ []
  tight : Tight v
  oneLine : LF ∉ v
  noZero : (0 : UInt8) ∉ v

/-- A configuration that can be written: its numbers are in range (and `int`s), and its paths fit
in a line. -/
structure ServerConfig.Writable (cfg : ServerConfig) : Prop where
  port : 1 ≤ cfg.port ∧ cfg.port ≤ 65535
  numThreads : 1 ≤ cfg.numThreads ∧ cfg.numThreads ≤ 128
  timeoutSecs : 1 ≤ cfg.timeoutSecs ∧ cfg.timeoutSecs < 2 ^ 31
  serverRoot : PlainText cfg.serverRoot
  logFile : PlainText cfg.logFile

theorem decimal_plainText (n : Nat) : PlainText (decimal n) where
  nonempty := decimal_ne_nil n
  tight :=
    ⟨fun _ hc => isWhitespace_of_isDigit (decimal_digits n _ (List.mem_of_mem_head? hc)),
      fun _ hc => isWhitespace_of_isDigit (decimal_digits n _ (List.mem_of_getLast? hc))⟩
  oneLine hmem := isDigit_ne (decimal_digits n LF hmem) rfl rfl
  noZero hmem := isDigit_ne (decimal_digits n 0 hmem) rfl rfl

theorem key_plainText (x : Setting) :
    PlainText x.key ∧ EQUALS ∉ x.key ∧ x.key.head? ≠ some HASH := by
  cases x <;> exact ⟨⟨by decide, ⟨by decide, by decide⟩, by decide, by decide⟩, by decide, by decide⟩

theorem text_plainText {cfg : ServerConfig} (h : cfg.Writable) (x : Setting) :
    PlainText (cfg.get x).text := by
  cases x with
  | serverRoot => exact h.serverRoot
  | port => exact decimal_plainText _
  | numThreads => exact decimal_plainText _
  | logFile => exact h.logFile
  | timeoutSecs => exact decimal_plainText _

/-- Only a path can have an equals sign in its text. -/
theorem text_no_equals {cfg : ServerConfig} (hroot : EQUALS ∉ cfg.serverRoot)
    (hlog : EQUALS ∉ cfg.logFile) (x : Setting) : EQUALS ∉ (cfg.get x).text := by
  have hnum : ∀ n : Nat, EQUALS ∉ decimal n := fun n hmem =>
    isDigit_ne (decimal_digits n EQUALS hmem) rfl rfl
  cases x with
  | serverRoot => exact hroot
  | port => exact hnum _
  | numThreads => exact hnum _
  | logFile => exact hlog
  | timeoutSecs => exact hnum _

theorem mem_keyValueLine {pad : Padding} {key value : List UInt8} {c : UInt8}
    (h : c ∈ keyValueLine pad key value) :
    c ∈ key ∨ c ∈ value ∨ c = EQUALS ∨ isWhitespace c = true ∧ c ≠ LF := by
  have hblank := pad.blank c
  simp only [keyValueLine, List.mem_append, List.mem_cons] at h hblank
  rcases h with (hb | (hk | ha | he | hb) | hv) | ha
  · exact .inr (.inr (.inr (hblank (.inl (.inl hb)))))
  · exact .inl hk
  · exact .inr (.inr (.inr (hblank (.inl (.inr ha)))))
  · exact .inr (.inr (.inl he))
  · exact .inr (.inr (.inr (hblank (.inr (.inl hb)))))
  · exact .inr (.inl hv)
  · exact .inr (.inr (.inr (hblank (.inr (.inr ha)))))

/-- A line is one line, and a C string. -/
theorem settingLine_plain {cfg : ServerConfig} (h : cfg.Writable) (pad : Setting → Padding)
    (x : Setting) : LF ∉ settingLine cfg pad x ∧ (0 : UInt8) ∉ settingLine cfg pad x := by
  have hkey := (key_plainText x).1
  have hvalue := text_plainText h x
  constructor
  · intro hmem
    rcases mem_keyValueLine hmem with hk | hv | he | hb
    · exact hkey.oneLine hk
    · exact hvalue.oneLine hv
    · cases he
    · exact hb.2 rfl
  · intro hmem
    rcases mem_keyValueLine hmem with hk | hv | he | hb
    · exact hkey.noZero hk
    · exact hvalue.noZero hv
    · cases he
    · exact (blank_ne hb.1).2 rfl

/-- A line means its key and its value, if there is no second equals sign. -/
theorem lineUpdate_keyValueLine (pad : Padding) {key value : List UInt8} (hkey : PlainText key)
    (hhash : key.head? ≠ some HASH) (hkey' : EQUALS ∉ key) (hvalue : PlainText value)
    (hvalue' : EQUALS ∉ value) : lineUpdate (keyValueLine pad key value) = updateOf key value := by
  obtain ⟨⟨hbefore, hafterKey⟩, hbeforeValue, hafter⟩ :
      ((∀ c ∈ pad.before, isWhitespace c = true) ∧ ∀ c ∈ pad.afterKey, isWhitespace c = true) ∧
        (∀ c ∈ pad.beforeValue, isWhitespace c = true) ∧ ∀ c ∈ pad.after, isWhitespace c = true := by
    have hblank := fun c hc => (pad.blank c hc).1
    rwa [List.forall_mem_append, List.forall_mem_append, List.forall_mem_append] at hblank
  -- the outer blanks go first, the inner ones with each of the two tokens
  have htrim : trimWhitespace (keyValueLine pad key value) =
      key ++ (pad.afterKey ++ EQUALS :: pad.beforeValue) ++ value :=
    trimWhitespace_pad hbefore hafter (hkey.tight.append hvalue.tight hkey.nonempty hvalue.nonempty _)
  have hleft : EQUALS ∉ key ++ pad.afterKey := by
    rw [List.mem_append, not_or]
    exact ⟨hkey', fun hmem => (blank_ne (hafterKey _ hmem)).1 rfl⟩
  have hright : EQUALS ∉ pad.beforeValue ++ value := by
    rw [List.mem_append, not_or]
    exact ⟨fun hmem => (blank_ne (hbeforeValue _ hmem)).1 rfl, hvalue'⟩
  have hparts : key ++ (pad.afterKey ++ EQUALS :: pad.beforeValue) ++ value =
      (key ++ pad.afterKey) ++ EQUALS :: (pad.beforeValue ++ value) := by simp
  -- the only `=` is the one between them
  have htokens : tokens EQUALS (key ++ (pad.afterKey ++ EQUALS :: pad.beforeValue) ++ value) =
      [key ++ pad.afterKey, pad.beforeValue ++ value] := by
    rw [hparts, tokens, splitOn_append hleft (splitOn_self _ _), splitOn_eq_singleton hright]
    simp [hkey.nonempty, hvalue.nonempty]
  have htrimKey : trimWhitespace (key ++ pad.afterKey) = key :=
    trimWhitespace_pad (p := []) (by simp) hafterKey hkey.tight
  have htrimValue : trimWhitespace (pad.beforeValue ++ value) = value := by
    have hpad := trimWhitespace_pad (q := []) hbeforeValue (by simp) hvalue.tight
    rwa [List.append_nil] at hpad
  have hign : ¬ IsIgnored (keyValueLine pad key value) := by
    rw [IsIgnored, htrim, List.append_assoc, List.head?_append_of_ne_nil _ hkey.nonempty]
    simp [hkey.nonempty, hhash]
  rw [lineUpdate, if_neg hign, htrim, keyValue, htokens]
  simp only [Option.bind_some, htrimKey, htrimValue]

/-- The value a field is written as gives the field. -/
theorem updateOf_text {cfg : ServerConfig} (h : cfg.Writable) (x : Setting)
    (hlen : (cfg.get x).text.length < configPathSize) :
    updateOf x.key (cfg.get x).text = some (cfg.get x) := by
  have hpath : ∀ {path : List UInt8}, path.length < configPathSize → copyPath path = path :=
    fun hlt => List.take_of_length_le (Nat.le_sub_one_of_lt hlt)
  -- a number within the bounds of its setting is read back as it is
  have hnum : ∀ {n : Int} {hi : Option Int} (dflt : Int), 1 ≤ n → n < 2 ^ 31 → (∀ b ∈ hi, n ≤ b) →
      within 1 hi dflt (atoi (decimal n.toNat)) = n := by
    intro n hi dflt hlo hint hhi
    rw [atoi_decimal (by omega), Int.toNat_of_nonneg (by omega)]
    refine if_neg ?_
    rintro (hlt | ⟨b, hb, hlt⟩)
    · omega
    · have := hhi b hb
      omega
  have hthreads := h.numThreads
  have hport := h.port
  cases x with
  | serverRoot => exact congrArg (fun path => some (Update.serverRoot path)) (hpath hlen)
  | port =>
      refine congrArg (fun n => some (Update.port n)) (hnum _ hport.1 (by omega) ?_)
      intro b hb
      cases hb
      exact hport.2
  | numThreads =>
      refine congrArg (fun n => some (Update.numThreads n)) (hnum _ hthreads.1 (by omega) ?_)
      intro b hb
      cases hb
      exact hthreads.2
  | logFile => exact congrArg (fun path => some (Update.logFile path)) (hpath hlen)
  | timeoutSecs =>
      refine congrArg (fun n => some (Update.timeoutSecs n)) ?_
      exact hnum 30 h.timeoutSecs.1 h.timeoutSecs.2 fun b hb => absurd hb (Option.not_mem_none b)

/-! ## Files -/

theorem intercalate_concat_nil (nl : UInt8) {lines : List (List UInt8)} (h : lines ≠ []) :
    [nl].intercalate lines ++ [nl] = [nl].intercalate (lines ++ [[]]) := by
  induction lines with
  | nil => exact absurd rfl h
  | cons l lines ih =>
      cases lines with
      | nil => simp [List.intercalate]
      | cons l' lines =>
          have hne : l' :: lines ≠ [] := by simp
          rw [List.intercalate_cons_of_ne_nil hne, List.append_assoc, ih hne]
          exact (List.intercalate_cons_of_ne_nil (List.append_ne_nil_of_left_ne_nil hne _)).symm

/-- The lines of the file, and an empty one behind the last newline. -/
theorem splitOn_configText (cfg : ServerConfig) (pad : Setting → Padding) {order : List Setting}
    (horder : order ≠ []) (final : Bool) (hline : ∀ x, LF ∉ settingLine cfg pad x) :
    (configText cfg pad order final).splitOn LF =
      order.map (settingLine cfg pad) ++ if final then [[]] else [] := by
  have hne : order.map (settingLine cfg pad) ≠ [] := by simpa using horder
  have hmem : ∀ l ∈ order.map (settingLine cfg pad), LF ∉ l := by
    intro l hl
    obtain ⟨x, -, rfl⟩ := List.mem_map.mp hl
    exact hline x
  unfold configText
  cases final with
  | false =>
      rw [if_neg (by decide), if_neg (by decide), List.append_nil, List.append_nil]
      exact List.splitOn_intercalate LF hmem hne
  | true =>
      rw [if_pos rfl, if_pos rfl, intercalate_concat_nil LF hne]
      refine List.splitOn_intercalate LF (fun l hl => ?_) (by simp)
      rcases List.mem_append.mp hl with hl | hl
      · exact hmem l hl
      · rw [List.mem_singleton.mp hl]
        exact List.not_mem_nil

/-- What is between the newlines: the lines, and nothing after the last one. -/
theorem mem_lines_configText {cfg : ServerConfig} (hcfg : cfg.Writable) (pad : Setting → Padding)
    {order : List Setting} (hne : order ≠ []) (final : Bool) {l : List UInt8}
    (hl : l ∈ (configText cfg pad order final).splitOn LF) :
    l = [] ∨ ∃ x, l = settingLine cfg pad x := by
  rw [splitOn_configText cfg pad hne final fun x => (settingLine_plain hcfg pad x).1] at hl
  rcases List.mem_append.mp hl with hl | hl
  · obtain ⟨x, -, rfl⟩ := List.mem_map.mp hl
    exact .inr ⟨x, rfl⟩
  · cases final with
    | false => cases hl
    | true => exact .inl (List.mem_singleton.mp hl)

/-- `fgets` takes one line at a time. -/
theorem configText_readsByLine {cfg : ServerConfig} (hcfg : cfg.Writable) (pad : Setting → Padding)
    {order : List Setting} (hne : order ≠ []) (final : Bool)
    (hshort : ∀ x, (settingLine cfg pad x).length < configLineSize - 1) :
    ReadsByLine (configText cfg pad order final) := by
  have hzero : (0 : UInt8) ∉ configText cfg pad order final := by
    intro h0
    obtain ⟨l, hl, hmem0⟩ : ∃ l ∈ (configText cfg pad order final).splitOn LF, (0 : UInt8) ∈ l :=
      exists_mem_splitOn h0 (by decide)
    rcases mem_lines_configText hcfg pad hne final hl with rfl | ⟨x, rfl⟩
    · cases hmem0
    · exact (settingLine_plain hcfg pad x).2 hmem0
  refine (readsByLine_iff_agree hzero).mpr (piecesAgree_of_short fun l hl => ?_)
  rcases mem_lines_configText hcfg pad hne final hl with rfl | ⟨x, rfl⟩
  · decide
  · exact (hshort x).trans_le (Nat.sub_le ..)

/-- A line sets its field to the value that was written. -/
theorem lineUpdate_settingLine {cfg : ServerConfig} (hcfg : cfg.Writable)
    (hroot : EQUALS ∉ cfg.serverRoot) (hlog : EQUALS ∉ cfg.logFile) (pad : Setting → Padding)
    (x : Setting) (hshort : (settingLine cfg pad x).length < configLineSize - 1) :
    lineUpdate (settingLine cfg pad x) = some (cfg.get x) := by
  obtain ⟨hkey, hno, hhash⟩ := key_plainText x
  have hlen : (cfg.get x).text.length < configPathSize := by
    simp only [settingLine, keyValueLine, List.length_append] at hshort
    unfold configLineSize at hshort
    unfold configPathSize
    omega
  rw [settingLine, lineUpdate_keyValueLine (pad x) hkey hhash hno (text_plainText hcfg x)
    (text_no_equals hroot hlog x)]
  exact updateOf_text hcfg x hlen

/-- Lines that set every field to its value in `cfg`, and do nothing else, give `cfg`. -/
theorem foldl_applyLine_eq {cfg : ServerConfig} {lines : List (List UInt8)}
    (hall : ∀ l ∈ lines, ∀ u, lineUpdate l = some u → ∃ x, u = cfg.get x)
    (hset : ∀ x, ∃ l ∈ lines, lineUpdate l = some (cfg.get x)) (cfg₀ : ServerConfig) :
    lines.foldl applyLine cfg₀ = cfg := by
  refine ServerConfig.ext_get fun x => ?_
  rw [foldl_applyLine_get]
  have hself : ∀ y, (cfg.get y).setting = y := fun y => by cases y <;> rfl
  obtain ⟨l, hl, hu⟩ := hset x
  have hmem : cfg.get x ∈ (lines.filterMap lineUpdate).filter fun u => decide (u.setting = x) :=
    List.mem_filter.mpr ⟨List.mem_filterMap.mpr ⟨l, hl, hu⟩, decide_eq_true (hself x)⟩
  have hlast := List.getLast?_eq_some_getLast (List.ne_nil_of_mem hmem)
  obtain ⟨hin, hx⟩ := List.mem_filter.mp (List.getLast_mem (List.ne_nil_of_mem hmem))
  obtain ⟨l', hl', hu'⟩ := List.mem_filterMap.mp hin
  obtain ⟨y, hy⟩ := hall l' hl' _ hu'
  rw [hlast, Option.getD_some, hy]
  rw [hy, hself, decide_eq_true_eq] at hx
  rw [hx]

/-- A path that `config_load` returns has no equals sign in it, whatever the file holds. -/
theorem configLoad_no_equals (file : Option (List UInt8)) :
    EQUALS ∉ (configLoad file).serverRoot ∧ EQUALS ∉ (configLoad file).logFile := by
  refine configLoad_invariant (P := fun cfg => EQUALS ∉ cfg.serverRoot ∧ EQUALS ∉ cfg.logFile)
    ⟨by decide, by decide⟩ (fun cfg key value _ hno h => ?_) file
  have hcopy : EQUALS ∉ copyPath value := fun hmem => hno (List.mem_of_mem_take hmem)
  rw [setKey_eq]
  cases hu : updateOf key value with
  | none => exact h
  | some u =>
      unfold updateOf at hu
      split_ifs at hu
      all_goals
        cases hu
        first
          | exact h
          | exact ⟨hcopy, h.2⟩
          | exact ⟨h.1, hcopy⟩

/-- **A configuration that is written is read back if and only if its paths have no equals sign
in them**, for each order of the lines and all blanks in them. -/
theorem config_round_trip_iff (cfg : ServerConfig) (hcfg : cfg.Writable) (order : List Setting)
    (horder : order.Perm allSettings) (pad : Setting → Padding)
    (hshort : ∀ x, (settingLine cfg pad x).length < configLineSize - 1) (final : Bool) :
    configLoad (some (configText cfg pad order final)) = cfg ↔
      EQUALS ∉ cfg.serverRoot ∧ EQUALS ∉ cfg.logFile := by
  constructor
  · intro h
    have hno := configLoad_no_equals (some (configText cfg pad order final))
    rwa [h] at hno
  rintro ⟨hroot, hlog⟩
  have hmem : ∀ x, x ∈ order := fun x => horder.mem_iff.mpr (by cases x <;> decide)
  have hne : order ≠ [] := List.ne_nil_of_mem (hmem .port)
  have hline : ∀ x, lineUpdate (settingLine cfg pad x) = some (cfg.get x) := fun x =>
    lineUpdate_settingLine hcfg hroot hlog pad x (hshort x)
  rw [configText_readsByLine hcfg pad hne final hshort]
  refine foldl_applyLine_eq (fun l hl u hu => ?_) (fun x => ⟨settingLine cfg pad x, ?_, hline x⟩) _
  · rcases mem_lines_configText hcfg pad hne final hl with rfl | ⟨x, rfl⟩
    · cases hu
    · rw [hline x, Option.some.injEq] at hu
      exact ⟨x, hu.symm⟩
  · rw [splitOn_configText cfg pad hne final fun x => (settingLine_plain hcfg pad x).1]
    exact List.mem_append_left _ (List.mem_map_of_mem (hmem x))

/-- A blank on each side of the equals sign. -/
def samplePadding : Padding := ⟨[], [SP], [SP], [], by decide⟩

def sampleSettings : ServerConfig where
  serverRoot := ascii "./www"
  port := 9999
  numThreads := 6
  logFile := ascii "/tmp/my logs/server.log"
  timeoutSecs := 15

theorem sampleSettings_writable : sampleSettings.Writable where
  port := by decide
  numThreads := by decide
  timeoutSecs := by decide
  serverRoot := ⟨by decide, ⟨by decide, by decide⟩, by decide, by decide⟩
  logFile := ⟨by decide, ⟨by decide, by decide⟩, by decide, by decide⟩

theorem config_round_trip_sample :
    configLoad (some (configText sampleSettings (fun _ => samplePadding) allSettings true)) =
      sampleSettings :=
  (config_round_trip_iff sampleSettings sampleSettings_writable allSettings (.refl _)
    (fun _ => samplePadding) (fun x => by cases x <;> decide +kernel) true).mpr
      ⟨by decide, by decide⟩

/-- A path with an equals sign in it. -/
def equalsSettings : ServerConfig := ⟨ascii "./www=1", 8080, 4, ascii "./log", 30⟩

/-- The path is cut at its equals sign. -/
theorem not_config_round_trip :
    equalsSettings.Writable ∧
      (∀ x, (settingLine equalsSettings (fun _ => samplePadding) x).length < configLineSize - 1) ∧
      configText equalsSettings (fun _ => samplePadding) allSettings true = ascii
        "port = 8080\nserver_root = ./www=1\nnum_threads = 4\nlog_file = ./log\ntimeout_secs = 30\n" ∧
      configLoad (some (configText equalsSettings (fun _ => samplePadding) allSettings true)) =
        { equalsSettings with serverRoot := ascii "./www" } ∧
      configLoad (some (configText equalsSettings (fun _ => samplePadding) allSettings true)) ≠
        equalsSettings := by
  have hpath : ∀ v ∈ [ascii "./www=1", ascii "./log"], PlainText v := by
    intro v hv
    rcases List.mem_pair.mp hv with rfl | rfl
    · exact ⟨by decide, ⟨by decide, by decide⟩, by decide, by decide⟩
    · exact ⟨by decide, ⟨by decide, by decide⟩, by decide, by decide⟩
  refine ⟨⟨by decide, by decide, by decide, hpath _ (by decide), hpath _ (by decide)⟩,
    fun x => by cases x <;> decide +kernel, by decide +kernel, by decide +kernel, fun h => ?_⟩
  have hno := (configLoad_no_equals (some (configText equalsSettings (fun _ => samplePadding)
    allSettings true))).1
  rw [h] at hno
  exact hno (by decide)

end HttpServer
