import HttpServer.Config.Load

set_option autoImplicit false

/-! # The configuration, line by line

What a configuration file means, without a buffer: each line sets at most one field
(`lineUpdate`), and the last line that sets a field wins. `config_load` does the same with the
pieces of at most 255 bytes that `fgets` cuts the lines into.
-/

namespace HttpServer

open CLib

/-! ## Updates -/

/-- The fields of the configuration. -/
inductive Setting
  | serverRoot
  | port
  | numThreads
  | logFile
  | timeoutSecs
  deriving DecidableEq

/-- A new value for a field. -/
inductive Update
  | serverRoot (path : List UInt8)
  | port (n : Int)
  | numThreads (n : Int)
  | logFile (path : List UInt8)
  | timeoutSecs (n : Int)
  deriving DecidableEq

def Update.setting : Update → Setting
  | .serverRoot _ => .serverRoot
  | .port _ => .port
  | .numThreads _ => .numThreads
  | .logFile _ => .logFile
  | .timeoutSecs _ => .timeoutSecs

def Update.apply (cfg : ServerConfig) : Update → ServerConfig
  | .serverRoot path => { cfg with serverRoot := path }
  | .port n => { cfg with port := n }
  | .numThreads n => { cfg with numThreads := n }
  | .logFile path => { cfg with logFile := path }
  | .timeoutSecs n => { cfg with timeoutSecs := n }

/-- The value of a field, as the update that sets it. -/
def ServerConfig.get (cfg : ServerConfig) : Setting → Update
  | .serverRoot => .serverRoot cfg.serverRoot
  | .port => .port cfg.port
  | .numThreads => .numThreads cfg.numThreads
  | .logFile => .logFile cfg.logFile
  | .timeoutSecs => .timeoutSecs cfg.timeoutSecs

/-- An update changes its own field and no other. -/
theorem Update.get_apply (cfg : ServerConfig) (u : Update) (x : Setting) :
    (u.apply cfg).get x = if u.setting = x then u else cfg.get x := by
  cases u <;> cases x <;> rfl

theorem ServerConfig.ext_get {cfg cfg' : ServerConfig} (h : ∀ x, cfg.get x = cfg'.get x) :
    cfg = cfg' := by
  obtain ⟨root, port, threads, log, secs⟩ := cfg
  obtain ⟨root', port', threads', log', secs'⟩ := cfg'
  have h1 := Update.serverRoot.inj (h .serverRoot)
  have h2 := Update.port.inj (h .port)
  have h3 := Update.numThreads.inj (h .numThreads)
  have h4 := Update.logFile.inj (h .logFile)
  have h5 := Update.timeoutSecs.inj (h .timeoutSecs)
  simp only at h1 h2 h3 h4 h5
  rw [h1, h2, h3, h4, h5]

/-! ## Lines -/

/-- A number within bounds, or the default. -/
def within (lo : Int) (hi : Option Int) (default n : Int) : Int :=
  if n < lo ∨ ∃ b ∈ hi, b < n then default else n

/-- The update a known key stands for. -/
def updateOf (key value : List UInt8) : Option Update :=
  if key = ascii "port" then some (.port (within 1 (some 65535) defaultPort (atoi value)))
  else if key = ascii "server_root" then some (.serverRoot (copyPath value))
  else if key = ascii "num_threads" then
    some (.numThreads (within 1 (some 128) defaultThreads (atoi value)))
  else if key = ascii "log_file" then some (.logFile (copyPath value))
  else if key = ascii "timeout_secs" then some (.timeoutSecs (within 1 none 30 (atoi value)))
  else none

/-- The key and the value of a line: the first two parts between equals signs. -/
def keyValue (line : List UInt8) : Option (List UInt8 × List UInt8) :=
  match tokens EQUALS line with
  | key :: value :: _ => some (trimWhitespace key, trimWhitespace value)
  | _ => none

/-- A blank line, or one whose first byte that is not blank is a hash. -/
def IsIgnored (line : List UInt8) : Prop :=
  trimWhitespace line = [] ∨ (trimWhitespace line).head? = some HASH

instance (line : List UInt8) : Decidable (IsIgnored line) := inferInstanceAs (Decidable (_ ∨ _))

/-- What a line asks for. -/
def lineUpdate (line : List UInt8) : Option Update :=
  if IsIgnored line then none
  else (keyValue (trimWhitespace line)).bind fun kv => updateOf kv.1 kv.2

/-- The configuration after a line. -/
def applyLine (cfg : ServerConfig) (line : List UInt8) : ServerConfig :=
  match lineUpdate line with
  | none => cfg
  | some u => u.apply cfg

/-! ## The body of the loop -/

theorem setKey_eq (cfg : ServerConfig) (key value : List UInt8) :
    setKey cfg key value =
      match updateOf key value with
      | none => cfg
      | some u => u.apply cfg := by
  unfold setKey updateOf
  -- the keys in the order of the source
  by_cases h1 : key = ascii "port"
  · rw [if_pos h1, if_pos h1]
    simp only [Update.apply, within, Option.mem_some_iff, exists_eq_left']
    split <;> rfl
  rw [if_neg h1, if_neg h1]
  by_cases h2 : key = ascii "server_root"
  · rw [if_pos h2, if_pos h2]
    rfl
  rw [if_neg h2, if_neg h2]
  by_cases h3 : key = ascii "num_threads"
  · rw [if_pos h3, if_pos h3]
    simp only [Update.apply, within, Option.mem_some_iff, exists_eq_left']
    split <;> rfl
  rw [if_neg h3, if_neg h3]
  by_cases h4 : key = ascii "log_file"
  · rw [if_pos h4, if_pos h4]
    rfl
  rw [if_neg h4, if_neg h4]
  by_cases h5 : key = ascii "timeout_secs"
  · rw [if_pos h5, if_pos h5]
    simp only [Update.apply, within, Option.not_mem_none, false_and, exists_false, or_false]
    split <;> rfl
  rw [if_neg h5, if_neg h5]

theorem trimWhitespace_concat (l : List UInt8) : trimWhitespace (l ++ [LF]) = trimWhitespace l := by
  have hlf : isWhitespace LF = true := by decide
  unfold trimWhitespace
  rw [List.dropWhile_append]
  split
  · next h =>
      rw [List.isEmpty_iff] at h
      rw [h, List.dropWhile_cons_of_pos hlf, List.dropWhile_nil]
  · rw [List.rdropWhile_concat_pos _ _ _ hlf]

/-- The terminator that is overwritten would be trimmed anyway. -/
theorem trimWhitespace_chop (l : List UInt8) :
    trimWhitespace (if l.getLast? = some LF then l.dropLast else l) = trimWhitespace l := by
  split
  · next h =>
      obtain ⟨a, rfl⟩ := List.getLast?_eq_some_iff.mp h
      rw [List.dropLast_concat, trimWhitespace_concat]
  · rfl

/-- The calls of `strtok` find the key and the value. -/
theorem strtok_keyValue (cfg : ServerConfig) (t : List UInt8) :
    (match strtok EQUALS t with
      | none => cfg
      | some (key, rest) =>
          match strtok EQUALS rest with
          | none => cfg
          | some (value, _) => setKey cfg (trimWhitespace key) (trimWhitespace value)) =
      match (keyValue t).bind fun kv => updateOf kv.1 kv.2 with
      | none => cfg
      | some u => u.apply cfg := by
  -- the two calls of `strtok` take the first two tokens, and the rest is dropped
  have hkey := strtok_spec EQUALS t
  cases hs : strtok EQUALS t with
  | none =>
      rw [hs] at hkey
      rw [keyValue, show tokens EQUALS t = [] from hkey]
      rfl
  | some kr =>
      obtain ⟨key, rest⟩ := kr
      rw [hs] at hkey
      have hvalue := strtok_spec EQUALS rest
      simp only at hkey ⊢
      cases hs' : strtok EQUALS rest with
      | none =>
          rw [hs'] at hvalue
          rw [keyValue, hkey, show tokens EQUALS rest = [] from hvalue]
          rfl
      | some vr =>
          obtain ⟨value, more⟩ := vr
          rw [hs'] at hvalue
          simp only at hvalue ⊢
          rw [keyValue, hkey, hvalue, setKey_eq]
          rfl

/-- The body of the loop does what the line in the buffer asks for. -/
theorem configLine_eq (cfg : ServerConfig) (buf : List UInt8) :
    configLine cfg buf = applyLine cfg (cstr buf) := by
  simp only [configLine, trimWhitespace_chop]
  rw [applyLine, lineUpdate]
  by_cases hign : IsIgnored (cstr buf)
  · rw [if_pos hign, if_pos (show _ ∨ _ from hign)]
  · rw [if_neg hign, if_neg (show ¬ (_ ∨ _) from hign)]
    exact strtok_keyValue cfg (trimWhitespace (cstr buf))

theorem applyLine_congr {l l' : List UInt8} (h : trimWhitespace l = trimWhitespace l')
    (cfg : ServerConfig) : applyLine cfg l = applyLine cfg l' := by
  have hign : IsIgnored l ↔ IsIgnored l' := by
    unfold IsIgnored
    rw [h]
  simp only [applyLine, lineUpdate, hign, h]

theorem configLine_concat (cfg : ServerConfig) (l : List UInt8) :
    configLine cfg (l ++ [LF]) = configLine cfg l := by
  rw [configLine_eq, configLine_eq]
  refine applyLine_congr ?_ cfg
  by_cases h0 : (0 : UInt8) ∈ l
  · obtain ⟨a, b, rfl⟩ := List.append_of_mem h0
    rw [List.append_assoc, List.cons_append, cstr_append_zero, cstr_append_zero]
  · rw [cstr_append h0, show cstr [LF] = [LF] by decide, trimWhitespace_concat, cstr_eq_self h0]

theorem configLine_nil (cfg : ServerConfig) : configLine cfg [] = cfg := by
  rw [configLine_eq, applyLine, lineUpdate, if_pos (.inl (by decide))]

/-! ## Whole files -/

/-- The lines of a file, cut to the size of the buffer. -/
def pieces (text : List UInt8) : List (List UInt8) :=
  (text.splitOn LF).flatMap (cut (configLineSize - 1))

/-- The value of a field after some lines: the last line that sets it wins. -/
def finalValue (lines : List (List UInt8)) (x : Setting) : Update :=
  (((lines.filterMap lineUpdate).filter fun u => decide (u.setting = x)).getLast?).getD
    (defaultConfig.get x)

theorem foldl_applyLine_get (lines : List (List UInt8)) (x : Setting) :
    ∀ cfg : ServerConfig, (lines.foldl applyLine cfg).get x =
      (((lines.filterMap lineUpdate).filter fun u => decide (u.setting = x)).getLast?).getD
        (cfg.get x) := by
  induction lines with
  | nil => exact fun cfg => rfl
  | cons line lines ih =>
      intro cfg
      rw [List.foldl_cons, ih]
      cases hu : lineUpdate line with
      | none => rw [List.filterMap_cons_none hu, applyLine, hu]
      | some u =>
          rw [List.filterMap_cons_some hu, applyLine, hu, Update.get_apply]
          by_cases hx : u.setting = x
          · rw [if_pos hx, List.filter_cons_of_pos (by simpa using hx), List.getLast?_cons,
              Option.getD_some]
          · rw [if_neg hx, List.filter_cons_of_neg (by simpa using hx)]

/-- `config_load` works on the pieces. -/
theorem configLoad_pieces {text : List UInt8} (h0 : (0 : UInt8) ∉ text) :
    configLoad (some text) = (pieces text).foldl applyLine defaultConfig := by
  have hread : configLoad (some text) = (pieces text).foldl configLine defaultConfig :=
    readLines_eq (by decide) configLine_nil configLine_concat _ _ text (Nat.le_refl _)
  rw [hread]
  refine List.foldl_ext configLine applyLine defaultConfig fun cfg p hp => ?_
  obtain ⟨l, hl, hcut⟩ := List.mem_flatMap.mp hp
  have hp0 : (0 : UInt8) ∉ p := fun hmem => h0 (mem_of_mem_splitOn hl (mem_of_mem_cut l hcut hmem))
  rw [configLine_eq, cstr_eq_self hp0]

/-- The configuration is the default updated by the lines of the file, one after the other. -/
def ReadsByLine (text : List UInt8) : Prop :=
  configLoad (some text) = (text.splitOn LF).foldl applyLine defaultConfig

/-- For each field, the last piece that sets it gives it the value that the last line gives it. -/
def PiecesAgree (text : List UInt8) : Prop :=
  ∀ x, finalValue (pieces text) x = finalValue (text.splitOn LF) x

theorem readsByLine_iff_agree {text : List UInt8} (h0 : (0 : UInt8) ∉ text) :
    ReadsByLine text ↔ PiecesAgree text := by
  have hget : ∀ lines x, (lines.foldl applyLine defaultConfig).get x = finalValue lines x :=
    fun lines x => foldl_applyLine_get lines x defaultConfig
  rw [ReadsByLine, configLoad_pieces h0]
  constructor
  · intro h x
    rw [← hget, ← hget, h]
  · intro h
    refine ServerConfig.ext_get fun x => ?_
    rw [hget, hget]
    exact h x

/-- Lines that fit the buffer are not cut. -/
theorem piecesAgree_of_short {text : List UInt8} (h : ∀ l ∈ text.splitOn LF, l.length < configLineSize) :
    PiecesAgree text := by
  have hcut : pieces text = text.splitOn LF := by
    have hmap : ∀ l ∈ text.splitOn LF, cut (configLineSize - 1) l = [l] :=
      fun l hl => cut_of_le (Nat.le_sub_one_of_lt (h l hl))
    rw [pieces, List.flatMap_congr hmap, List.flatMap_singleton']
  intro x
  rw [hcut]

/-- What a line can do: nothing if it is blank, a comment, or has no key and value; otherwise it
changes one field at most. -/
structure LineWise : Prop where
  ignored : ∀ cfg line, IsIgnored line → applyLine cfg line = cfg
  bare : ∀ cfg line, keyValue (trimWhitespace line) = none → applyLine cfg line = cfg
  own : ∀ cfg line, ∃ x, ∀ y, y ≠ x → (applyLine cfg line).get y = cfg.get y

theorem lineWise : LineWise where
  ignored cfg line h := by rw [applyLine, lineUpdate, if_pos h]
  bare cfg line h := by
    rw [applyLine, lineUpdate, h]
    split_ifs <;> rfl
  own cfg line := by
    cases hu : lineUpdate line with
    | none => exact ⟨.port, fun y _ => by rw [applyLine, hu]⟩
    | some u =>
        refine ⟨u.setting, fun y hy => ?_⟩
        rw [applyLine, hu]
        simp only
        rw [Update.get_apply, if_neg (Ne.symm hy)]

/-- **The configuration is read line by line**, each line as a unit that changes at most its own
field, exactly if the pieces of 255 bytes that the lines are cut into agree with the lines; and so
whenever no line is longer than 255 bytes. -/
theorem reads_by_line_iff (text : List UInt8) (h0 : (0 : UInt8) ∉ text) :
    LineWise ∧ (ReadsByLine text ↔ PiecesAgree text) ∧
      ((∀ l ∈ text.splitOn LF, l.length < configLineSize) → ReadsByLine text) :=
  ⟨lineWise, readsByLine_iff_agree h0,
    fun h => (readsByLine_iff_agree h0).mpr (piecesAgree_of_short h)⟩

/-- Two lines of a configuration file. -/
def sampleConfig : List UInt8 := ascii "# port = 1\nport = 9999\n"

theorem reads_by_line_sample :
    (0 : UInt8) ∉ sampleConfig ∧ (configLoad (some sampleConfig)).port = 9999 ∧
      ReadsByLine sampleConfig :=
  ⟨by decide, by decide +kernel, (reads_by_line_iff sampleConfig (by decide)).2.2 (by decide +kernel)⟩

/-- A comment of 255 bytes that goes on with a setting. -/
def longComment : List UInt8 := List.replicate 255 HASH ++ ascii "port=1"

theorem not_readsByLine_longComment : (0 : UInt8) ∉ longComment ∧ ¬ ReadsByLine longComment := by
  refine ⟨by decide +kernel, fun h => ?_⟩
  have hport : (configLoad (some longComment)).port = 1 := by decide +kernel
  have hline : ((longComment.splitOn LF).foldl applyLine defaultConfig).port = 8080 := by
    decide +kernel
  rw [h, hline] at hport
  cases hport

end HttpServer
