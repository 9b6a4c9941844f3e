import HttpServer.Lib.Mutex
import HttpServer.Lib.CString

set_option autoImplicit false

/-! # The log (`src/logger.c`)

`log_msg` writes a line in three pieces, `log_request` in one. Both hold `g_log_mutex` while
they do, and flush the stream before they give it back. So the file consists of whole lines,
whatever the threads that call them do at the same time.

The time of a line is read and formatted by the caller's thread; here it is a part of the call.
-/

namespace HttpServer

open CLib

/-! ## The stream -/

/-- `g_log_file`: what is in the file, and what the stream holds back. -/
structure LogFile where
  file : List UInt8
  buffer : List UInt8
  deriving DecidableEq, Repr

namespace LogFile

/-- `fprintf`, `vfprintf` and `fputc`, which append what they format. -/
def print (log : LogFile) (text : List UInt8) : LogFile :=
  { log with buffer := log.buffer ++ text }

/-- `fflush`. -/
def flush (log : LogFile) : LogFile := ⟨log.file ++ log.buffer, []⟩

end LogFile

/-! ## Calls -/

/-- A call of `log_msg` or `log_request`, with the formatted time; `text` is what `vfprintf`
makes of the format and the arguments of `log_msg`. -/
inductive LogCall
  | msg (time level text : List UInt8)
  | request (time clientIp method path : List UInt8) (statusCode : Int) (bytesSent : Nat)

/-- `%d`. -/
def signed (n : Int) : List UInt8 := (if n < 0 then ascii "-" else []) ++ decimal n.natAbs

/-- `"[%s] [%s]"`. -/
def msgHead (time level : List UInt8) : List UInt8 :=
  ascii "[" ++ time ++ ascii "] [" ++ level ++ ascii "]"

/-- `"[%s] %d %s %s %zu bytes from %s\n"`. -/
def requestLine (time clientIp method path : List UInt8) (statusCode : Int) (bytesSent : Nat) :
    List UInt8 :=
  ascii "[" ++ time ++ ascii "] " ++ signed statusCode ++ ascii " " ++ method ++ ascii " " ++
    path ++ ascii " " ++ decimal bytesSent ++ ascii " bytes from " ++ clientIp ++ ascii "\n"

/-- The line of a call. -/
def LogCall.line : LogCall → List UInt8
  | .msg time level text => msgHead time level ++ text ++ ascii "\n"
  | .request time clientIp method path statusCode bytesSent =>
      requestLine time clientIp method path statusCode bytesSent

def logMsg (time level text : List UInt8) : Code LogFile Unit :=
  .lock <|
  .step (fun log => log.print (msgHead time level)) fun _ =>
  .step (fun log => log.print text) fun _ =>
  .step (fun log => log.print (ascii "\n")) fun _ =>
  .step LogFile.flush fun _ =>
  .unlock (.ret ())

def logRequest (time clientIp method path : List UInt8) (statusCode : Int) (bytesSent : Nat) :
    Code LogFile Unit :=
  .lock <|
  .step (fun log => log.print (requestLine time clientIp method path statusCode bytesSent)) fun _ =>
  .step LogFile.flush fun _ =>
  .unlock (.ret ())

def logCode : LogCall → Code LogFile Unit
  | .msg time level text => logMsg time level text
  | .request time clientIp method path statusCode bytesSent =>
      logRequest time clientIp method path statusCode bytesSent

/-- A call adds its line, and leaves nothing in the stream. -/
def logNext (log : LogFile) (call : LogCall) : Unit × LogFile :=
  ((), (log.print call.line).flush)

/-! ## Lines -/

theorem guarded_logCode (call : LogCall) : (logCode call).Guarded := by
  cases call with
  | msg time level text => exact fun _ _ _ _ => ⟨(), rfl⟩
  | request time clientIp method path statusCode bytesSent => exact fun _ _ => ⟨(), rfl⟩

theorem run_logCode (call : LogCall) (log : LogFile) : (logCode call).run log = logNext log call := by
  cases call with
  | msg time level text =>
      simp [logCode, logMsg, Code.run, logNext, LogFile.print, LogFile.flush, LogCall.line]
  | request time clientIp method path statusCode bytesSent => rfl

/-- Calls one after the other leave their lines one after the other. -/
theorem serial_logNext {order : List (Nat × LogCall × Unit)} {file : List UInt8} {log : LogFile}
    (h : Serial logNext ⟨file, []⟩ order log) :
    log = ⟨file ++ order.flatMap (fun x => x.2.1.line), []⟩ := by
  induction order generalizing file with
  | nil =>
      rw [List.flatMap_nil, List.append_nil]
      exact h
  | cons x rest ih =>
      have hstep : (logNext ⟨file, []⟩ x.2.1).2 = ⟨file ++ x.2.1.line, []⟩ := by
        simp [logNext, LogFile.print, LogFile.flush]
      have hrest := h.2
      rw [hstep] at hrest
      rw [ih hrest, List.flatMap_cons, List.append_assoc]

variable {T : Type} [DecidableEq T]

/-- **The log consists of whole lines.** However the calls of any number of threads are
interleaved, there is one order of them, which agrees with real time, such that the file holds
their lines in this order whenever no thread is inside a call, and nothing is held back. -/
theorem log_lines_whole (file : List UInt8) (ts : List (Turn T LogCall)) :
    ∃ order, Linearizes logNext ⟨file, []⟩ ((World.start ⟨file, []⟩).turns logCode ts) order ∧
      (((World.start ⟨file, []⟩).turns logCode ts).holder = none →
        ((World.start ⟨file, []⟩).turns logCode ts).state =
          ⟨file ++ order.flatMap (fun x => x.2.1.line), []⟩) := by
  obtain ⟨order, h⟩ := linearizable guarded_logCode run_logCode ⟨file, []⟩ ts
  refine ⟨order, h, fun hfree => ?_⟩
  obtain ⟨log, hserial, hstate⟩ := h.state
  rw [hstate hfree, serial_logNext hserial]

end HttpServer
