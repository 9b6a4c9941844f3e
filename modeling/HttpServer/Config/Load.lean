import Mathlib.Data.List.DropRight
import HttpServer.Lib.Lines
import HttpServer.Parser.Machine

set_option autoImplicit false

/-! # The configuration file (`src/config.c`)

`config_load` reads the file through a line buffer of 256 bytes. A line that does not fit is
read in several turns of the loop, and each turn takes what it got for a line.

The messages on `stderr` and `stdout` are left out, with the line number they print.
-/

namespace HttpServer

open CLib

/-! ## Data -/

def configLineSize : Nat := 256
def configPathSize : Nat := 512
def defaultPort : Int := 8080
def defaultThreads : Int := 4

def HASH : UInt8 := 35
def EQUALS : UInt8 := 61

/-- `struct server_config`. The two paths are C strings; `strncpy` fills the rest of their
arrays with zeros. -/
structure ServerConfig where
  serverRoot : List UInt8
  port : Int
  numThreads : Int
  logFile : List UInt8
  timeoutSecs : Int
  deriving DecidableEq, Repr

/-- What `config_load` sets before it opens the file. -/
def defaultConfig : ServerConfig where
  serverRoot := ascii "./www"
  port := defaultPort
  numThreads := defaultThreads
  logFile := ascii "./logs/server.log"
  timeoutSecs := 30

/-! ## Helpers of the source -/

/-- The bytes that `trim_whitespace` removes. -/
def isWhitespace (c : UInt8) : Bool := c == SP || c == TAB || c == CR || c == LF

def trimWhitespace (str : List UInt8) : List UInt8 :=
  (str.dropWhile isWhitespace).rdropWhile isWhitespace

/-- `isspace` in the "C" locale. -/
def isSpace (c : UInt8) : Bool := c == 32 || decide (9 ≤ c ∧ c ≤ 13)

def digitsValue (s : List UInt8) : Nat :=
  (s.takeWhile fun c => decide (48 ≤ c ∧ c ≤ 57)).foldl (fun n c => n * 10 + (c.toNat - 48)) 0

/-- `strtol` in base 10: a number out of range of a `long` gives the nearest one. -/
def strtol (s : List UInt8) : Int :=
  let clamp (n : Int) : Int := max (-(2 ^ 63)) (min (2 ^ 63 - 1) n)
  match s.dropWhile isSpace with
  | 45 :: t => clamp (-(digitsValue t))
  | 43 :: t => clamp (digitsValue t)
  | t => clamp (digitsValue t)

/-- `atoi`: the value of `strtol` cut to an `int`. -/
def atoi (s : List UInt8) : Int := (strtol s).bmod (2 ^ 32)

/-- `strncpy(dst, src, sizeof(dst) - 1)` and a zero in the last cell. -/
def copyPath (value : List UInt8) : List UInt8 := value.take (configPathSize - 1)

/-! ## The loop -/

/-- The chain of comparisons with the known keys; `strncmp` with the size of the literal compares
the terminating zero too. -/
def setKey (cfg : ServerConfig) (key value : List UInt8) : ServerConfig :=
  if key = ascii "port" then
    if atoi value < 1 ∨ 65535 < atoi value then { cfg with port := defaultPort }
    else { cfg with port := atoi value }
  else if key = ascii "server_root" then { cfg with serverRoot := copyPath value }
  else if key = ascii "num_threads" then
    if atoi value < 1 ∨ 128 < atoi value then { cfg with numThreads := defaultThreads }
    else { cfg with numThreads := atoi value }
  else if key = ascii "log_file" then { cfg with logFile := copyPath value }
  else if key = ascii "timeout_secs" then
    if atoi value < 1 then { cfg with timeoutSecs := 30 }
    else { cfg with timeoutSecs := atoi value }
  else cfg

/-- The body of the loop, on what `fgets` left in the buffer. -/
def configLine (cfg : ServerConfig) (buf : List UInt8) : ServerConfig :=
  let line := if (cstr buf).getLast? = some LF then (cstr buf).dropLast else cstr buf
  let trimmed := trimWhitespace line
  if trimmed = [] ∨ trimmed.head? = some HASH then cfg
  else
    match strtok EQUALS trimmed with
    | none => cfg
    | some (key, rest) =>
        -- the value ends at a second equals sign
        match strtok EQUALS rest with
        | none => cfg
        | some (value, _) => setKey cfg (trimWhitespace key) (trimWhitespace value)

/-- `config_load`, on the bytes of the file if it can be opened. Every turn of the loop reads a
byte or more, so it ends within as many turns as the file has bytes. -/
def configLoad (file : Option (List UInt8)) : ServerConfig :=
  match file with
  | none => defaultConfig
  | some text => readLines LF (configLineSize - 1) configLine text.length defaultConfig text

end HttpServer
