import CisCore.Library.Text

/-! # The logs of a process

A process logs to the log of the site, to the log of its session and to the
combined log of the session, which takes what either of the others takes.
-/

namespace CisCore

inductive Actions where
  | error
  | getvalue
  | setvalue
  | getparam
  | setparam
  | openSession
  | closeSession
  | startJob
  | finishJob
  | startjobStdout
  | startjobStderr
  deriving DecidableEq

/-- What a logger is given: the message is formatted already. -/
structure LogEntry where
  act : Actions
  message : Str
  deriving DecidableEq

/-- What each logger has recorded; `none` before it is set up. -/
structure Loggers where
  cisLogger : Option (List LogEntry)
  sessionLogger : Option (List LogEntry)
  webuiLogger : Option (List LogEntry)
  offlineWebuiLogger : Option (List LogEntry)

inductive LogCall where
  | cisLog (e : LogEntry)
  | sessionLog (e : LogEntry)
  | webuiLog (e : LogEntry)
  | teeLog (e : LogEntry)
  deriving DecidableEq

inductive LogFile where
  | cis
  | session
  | combined

namespace Loggers

def webuiLog (l : Loggers) (e : LogEntry) : Loggers :=
  { l with
    webuiLogger := l.webuiLogger.map (· ++ [e])
    offlineWebuiLogger := l.offlineWebuiLogger.map (· ++ [e]) }

def cisLog (l : Loggers) (e : LogEntry) : Loggers :=
  match l.cisLogger with
  | none => l
  | some records => { l with cisLogger := some (records ++ [e]) }.webuiLog e

def sessionLog (l : Loggers) (e : LogEntry) : Loggers :=
  match l.sessionLogger with
  | none => l
  | some records => { l with sessionLogger := some (records ++ [e]) }.webuiLog e

def teeLog (l : Loggers) (e : LogEntry) : Loggers :=
  { l with
    cisLogger := l.cisLogger.map (· ++ [e])
    sessionLogger := l.sessionLogger.map (· ++ [e]) }.webuiLog e

def call (l : Loggers) : LogCall → Loggers
  | .cisLog e => l.cisLog e
  | .sessionLog e => l.sessionLog e
  | .webuiLog e => l.webuiLog e
  | .teeLog e => l.teeLog e

/-- The loggers of a session after `init_cis_log` and `init_session_log`. -/
def initial (webuiLogger : Option (List LogEntry)) : Loggers := ⟨some [], some [], webuiLogger, some []⟩

def file (l : Loggers) : LogFile → List LogEntry
  | .cis => l.cisLogger.getD []
  | .session => l.sessionLogger.getD []
  | .combined => l.offlineWebuiLogger.getD []

end Loggers

namespace LogCall

def entry : LogCall → LogEntry
  | cisLog e => e
  | sessionLog e => e
  | webuiLog e => e
  | teeLog e => e

/-- The files that take the message. -/
def reaches : LogCall → LogFile → Bool
  | cisLog _, .cis => true
  | cisLog _, .session => false
  | sessionLog _, .cis => false
  | sessionLog _, .session => true
  | webuiLog _, .cis => false
  | webuiLog _, .session => false
  | teeLog _, .cis => true
  | teeLog _, .session => true
  | _, .combined => true

end LogCall

structure Loggers.Initialised (l : Loggers) : Prop where
  cis : l.cisLogger.isSome = true
  session : l.sessionLogger.isSome = true
  offline : l.offlineWebuiLogger.isSome = true

theorem Loggers.initial_initialised (webuiLogger : Option (List LogEntry)) :
    (Loggers.initial webuiLogger).Initialised := ⟨rfl, rfl, rfl⟩

theorem Loggers.Initialised.call {l : Loggers} (h : l.Initialised) (c : LogCall) :
    (l.call c).Initialised ∧ ∀ f, (l.call c).file f =
      l.file f ++ if c.reaches f then [c.entry] else [] := by
  obtain ⟨cis, session, webui, offline⟩ := l
  obtain ⟨hCis, hSession, hOffline⟩ := h
  obtain ⟨cis, rfl⟩ := Option.isSome_iff_exists.mp hCis
  obtain ⟨session, rfl⟩ := Option.isSome_iff_exists.mp hSession
  obtain ⟨offline, rfl⟩ := Option.isSome_iff_exists.mp hOffline
  cases c with
  | cisLog e =>
    refine ⟨⟨rfl, rfl, rfl⟩, fun f => ?_⟩
    cases f <;> simp [Loggers.call, Loggers.cisLog, Loggers.webuiLog, file, LogCall.reaches, LogCall.entry]
  | sessionLog e =>
    refine ⟨⟨rfl, rfl, rfl⟩, fun f => ?_⟩
    cases f <;>
      simp [Loggers.call, Loggers.sessionLog, Loggers.webuiLog, file, LogCall.reaches, LogCall.entry]
  | webuiLog e =>
    refine ⟨⟨rfl, rfl, rfl⟩, fun f => ?_⟩
    cases f <;> simp [Loggers.call, Loggers.webuiLog, file, LogCall.reaches, LogCall.entry]
  | teeLog e =>
    refine ⟨⟨rfl, rfl, rfl⟩, fun f => ?_⟩
    cases f <;> simp [Loggers.call, Loggers.teeLog, Loggers.webuiLog, file, LogCall.reaches, LogCall.entry]

/-- A file gets the messages of the calls that reach it, in their order. -/
theorem Loggers.Initialised.file_calls {l : Loggers} (h : l.Initialised) (calls : List LogCall)
    (f : LogFile) : (calls.foldl Loggers.call l).file f =
      l.file f ++ (calls.filter (LogCall.reaches · f)).map LogCall.entry := by
  induction calls generalizing l with
  | nil => simp
  | cons c calls ih =>
    obtain ⟨hNext, hFile⟩ := h.call c
    rw [List.foldl_cons, ih hNext, hFile]
    cases hReaches : c.reaches f with
    | true => simp [hReaches]
    | false => simp [hReaches]

end CisCore
