import CisCore.Library.Text
import CisCore.Library.Transition

/-! # Notifications of the daemon

The watcher thread posts an update and then waits on a condition. The thread of
the io context runs the updates and the signal handler. Clients change the crons
file and notify the condition. No notifier takes the mutex, and the watcher looks
at nothing between its post and its wait.
-/

namespace CisCore

open Transition

inductive WatcherPhase where
  /-- At the head of the loop, before it looks at `stopped`. -/
  | check
  | post
  /-- The update is posted, the wait has not begun. -/
  | enter
  | waiting
  | exited
deriving DecidableEq

inductive IoPhase where
  | idle
  /-- In an update that has not read the file. -/
  | updating
  | updated
  /-- In the signal handler, which has stopped the context. -/
  | notifying
deriving DecidableEq

structure Daemon where
  watcher : WatcherPhase
  io : IoPhase
  /-- Updates that are posted and not begun. -/
  queued : Nat
  stopped : Bool
  content : Str
  lastRead : Option Str
  /-- Clients that have opened the file and not notified yet. -/
  owing : Nat
deriving DecidableEq

inductive DaemonEvent where
  | watcher
  | beginUpdate
  | read
  | endUpdate
  /-- The signal handler begins and stops the context. -/
  | signal
  | handlerNotify
  /-- A client opens the file with truncation. -/
  | clientOpen
  | clientWrite (text : Str)
  | clientNotify

namespace Daemon

def start (content : Str) : Daemon := ⟨.check, .idle, 0, false, content, none, 0⟩

/-- Only a thread that is waiting is woken. -/
def notifyOne (s : Daemon) : Daemon :=
  if s.watcher = .waiting then { s with watcher := .check } else s

def stepWatcher (s : Daemon) : Option Daemon :=
  match s.watcher with
  | .check => some { s with watcher := if s.stopped then .exited else .post }
  | .post => some { s with watcher := .enter, queued := s.queued + 1 }
  | .enter => some { s with watcher := .waiting }
  | .waiting => none
  | .exited => none

def step (s : Daemon) : DaemonEvent → Option Daemon
  | .watcher => s.stepWatcher
  | .beginUpdate =>
    if s.io = .idle ∧ s.stopped = false ∧ 0 < s.queued then
      some { s with io := .updating, queued := s.queued - 1 }
    else none
  | .read =>
    if s.io = .updating then some { s with io := .updated, lastRead := some s.content } else none
  | .endUpdate => if s.io = .updated then some { s with io := .idle } else none
  | .signal =>
    if s.io = .idle ∧ s.stopped = false then some { s with io := .notifying, stopped := true }
    else none
  | .handlerNotify => if s.io = .notifying then some { s.notifyOne with io := .idle } else none
  | .clientOpen => some { s with content := [], owing := s.owing + 1 }
  | .clientWrite text => if 0 < s.owing then some { s with content := text } else none
  | .clientNotify => if 0 < s.owing then some { s.notifyOne with owing := s.owing - 1 } else none

/-- The watcher is blocked and nothing is under way that could change that. An
update that is queued on a stopped context never runs. -/
structure Blocked (s : Daemon) : Prop where
  watcher : s.watcher = .waiting
  queued : s.queued = 0 ∨ s.stopped = true
  io : s.io = .idle
  owing : s.owing = 0

structure UpToDate (s : Daemon) : Prop where
  current : s.lastRead = some s.content
  running : s.stopped = false

def NothingLost (s : Daemon) : Prop := s.Blocked → s.UpToDate

/-- A running daemon is going to read the file, or has read what it holds. -/
def Informed (s : Daemon) : Prop :=
  0 < s.queued ∨ s.io = .updating ∨ s.lastRead = some s.content

/-- The watcher does not miss a notification between its post and its wait that
nothing else makes up for. -/
def Heard (s : Daemon) : DaemonEvent → Prop
  | .clientNotify => s.watcher = .enter → s.stopped = true ∨ s.Informed
  | .handlerNotify => s.watcher ≠ .post ∧ s.watcher ≠ .enter
  | _ => True

/-- What holds in every state while no notification is missed. -/
structure Inv (s : Daemon) : Prop where
  stopping : s.stopped = true → s.watcher = .post ∨ s.watcher = .enter ∨ s.watcher = .waiting →
    s.io = .notifying
  working : s.io = .updating ∨ s.io = .updated → s.stopped = false
  informed : s.stopped = false → s.watcher = .enter ∨ s.watcher = .waiting →
    s.Informed ∨ 0 < s.owing

variable {s s' t : Daemon} {event : DaemonEvent}

theorem notifyOne_cases (s : Daemon) :
    (s.watcher = .waiting ∧ s.notifyOne = { s with watcher := .check }) ∨
      (s.watcher ≠ .waiting ∧ s.notifyOne = s) := by
  rw [notifyOne]
  split_ifs with hWaiting
  · exact Or.inl ⟨hWaiting, rfl⟩
  · exact Or.inr ⟨hWaiting, rfl⟩

theorem start_inv (content : Str) : (start content).Inv where
  stopping h := nomatch h
  working h := by simp [start] at h
  informed _ h := by simp [start] at h

/-! ### One step -/

theorem Inv.stepWatcher (h : s.Inv) (hStep : s.stepWatcher = some s') : s'.Inv := by
  rw [Daemon.stepWatcher] at hStep
  cases hWatcher : s.watcher with
  | check =>
    rw [hWatcher] at hStep
    cases hStep
    refine ⟨fun hStopped hPhase => ?_, h.working, fun hRunning hPhase => ?_⟩
    · simp [show s.stopped = true from hStopped] at hPhase
    · simp [show s.stopped = false from hRunning] at hPhase
  | post =>
    rw [hWatcher] at hStep
    cases hStep
    refine ⟨fun hStopped _ => h.stopping hStopped (Or.inl hWatcher), h.working, fun _ _ => ?_⟩
    exact Or.inl (Or.inl (Nat.succ_pos s.queued))
  | enter =>
    rw [hWatcher] at hStep
    cases hStep
    exact ⟨fun hStopped _ => h.stopping hStopped (Or.inr (Or.inl hWatcher)), h.working,
      fun hRunning _ => h.informed hRunning (Or.inl hWatcher)⟩
  | waiting =>
    rw [hWatcher] at hStep
    cases hStep
  | exited =>
    rw [hWatcher] at hStep
    cases hStep

/-- A step of a client or of an update leaves the signal handler alone. -/
theorem Inv.of_same (h : s.Inv) (hWatcher : s'.watcher = s.watcher) (hStopped : s'.stopped = s.stopped)
    (hIo : s.io = .notifying ↔ s'.io = .notifying)
    (hWorking : s'.io = .updating ∨ s'.io = .updated → s'.stopped = false)
    (hInformed : s'.stopped = false → s.Informed ∨ 0 < s.owing → s'.Informed ∨ 0 < s'.owing) :
    s'.Inv where
  stopping hStop hPhase := hIo.mp (h.stopping (hStopped ▸ hStop) (hWatcher ▸ hPhase))
  working := hWorking
  informed hRunning hPhase :=
    hInformed hRunning (h.informed (hStopped ▸ hRunning) (hWatcher ▸ hPhase))

theorem Informed.idle (h : s.Informed ∨ 0 < s.owing) (hIo : s.io ≠ .updating) :
    Informed { s with io := .idle } ∨ 0 < s.owing := by
  obtain (hQueued | hUpdating | hRead) | hOwing := h
  · exact Or.inl (Or.inl hQueued)
  · exact absurd hUpdating hIo
  · exact Or.inl (Or.inr (Or.inr hRead))
  · exact Or.inr hOwing

theorem Inv.handlerNotify (h : s.Inv) (hPost : s.watcher ≠ .post) (hEnter : s.watcher ≠ .enter)
    (hIo : s.io = .notifying) : Inv { s.notifyOne with io := .idle } := by
  obtain ⟨_, hWoken⟩ | ⟨hNot, hSame⟩ := s.notifyOne_cases
  · rw [hWoken]
    exact ⟨fun _ hPhase => by simp at hPhase, fun hWorking => by simp at hWorking,
      fun _ hPhase => by simp at hPhase⟩
  · rw [hSame]
    refine ⟨fun _ hPhase => ?_, fun hWorking => by simp at hWorking, fun hRunning hPhase => ?_⟩
    · obtain hPhase | hPhase | hPhase := hPhase
      · exact absurd hPhase hPost
      · exact absurd hPhase hEnter
      · exact absurd hPhase hNot
    · exact Informed.idle (h.informed hRunning hPhase) (by simp [hIo])

theorem Inv.clientNotify (h : s.Inv) (hHeard : s.watcher = .enter → s.stopped = true ∨ s.Informed) :
    Inv { s.notifyOne with owing := s.owing - 1 } := by
  obtain ⟨_, hWoken⟩ | ⟨hNot, hSame⟩ := s.notifyOne_cases
  · rw [hWoken]
    exact ⟨fun _ hPhase => by simp at hPhase, h.working, fun _ hPhase => by simp at hPhase⟩
  · rw [hSame]
    refine ⟨h.stopping, h.working, fun hRunning hPhase => ?_⟩
    obtain hStopped | hInformed := hHeard (hPhase.resolve_right hNot)
    · rw [show s.stopped = false from hRunning] at hStopped
      cases hStopped
    · exact Or.inl hInformed

theorem Inv.step (h : s.Inv) (hHeard : s.Heard event) (hStep : s.step event = some s') : s'.Inv := by
  cases event with
  | watcher => exact h.stepWatcher hStep
  | beginUpdate =>
    rw [Daemon.step] at hStep
    split_ifs at hStep with hEnabled
    obtain ⟨hIdle, hRunning, _⟩ := hEnabled
    cases hStep
    refine h.of_same rfl rfl (by simp [hIdle]) (fun _ => hRunning) fun _ _ => ?_
    exact Or.inl (Or.inr (Or.inl rfl))
  | read =>
    rw [Daemon.step] at hStep
    split_ifs at hStep with hUpdating
    cases hStep
    refine h.of_same rfl rfl (by simp [hUpdating]) (fun _ => h.working (Or.inl hUpdating)) ?_
    exact fun _ _ => Or.inl (Or.inr (Or.inr rfl))
  | endUpdate =>
    rw [Daemon.step] at hStep
    split_ifs at hStep with hUpdated
    cases hStep
    exact h.of_same rfl rfl (by simp [hUpdated]) (fun hIo => by simp at hIo)
      fun _ hBefore => Informed.idle hBefore (by simp [hUpdated])
  | signal =>
    rw [Daemon.step] at hStep
    split_ifs at hStep with hEnabled
    cases hStep
    exact ⟨fun _ _ => rfl, fun hIo => by simp at hIo, fun hRunning => nomatch hRunning⟩
  | handlerNotify =>
    rw [Daemon.step] at hStep
    split_ifs at hStep with hNotifying
    cases hStep
    exact h.handlerNotify hHeard.1 hHeard.2 hNotifying
  | clientOpen =>
    cases hStep
    refine h.of_same rfl rfl Iff.rfl h.working fun _ _ => Or.inr (Nat.succ_pos s.owing)
  | clientWrite text =>
    rw [Daemon.step] at hStep
    split_ifs at hStep with hOwing
    cases hStep
    exact h.of_same rfl rfl Iff.rfl h.working fun _ _ => Or.inr hOwing
  | clientNotify =>
    rw [Daemon.step] at hStep
    split_ifs at hStep with hOwing
    cases hStep
    exact h.clientNotify hHeard

theorem Inv.nothingLost (h : s.Inv) : s.NothingLost := by
  intro hBlocked
  have hRunning : s.stopped = false := by
    rw [← Bool.not_eq_true]
    intro hStopped
    have hIo := h.stopping hStopped (Or.inr (Or.inr hBlocked.watcher))
    rw [hBlocked.io] at hIo
    cases hIo
  refine ⟨?_, hRunning⟩
  obtain (hQueued | hUpdating | hRead) | hOwing :=
    h.informed hRunning (Or.inr hBlocked.watcher)
  · obtain hNone | hStopped := hBlocked.queued
    · omega
    · rw [hRunning] at hStopped
      cases hStopped
  · rw [hBlocked.io] at hUpdating
    cases hUpdating
  · exact hRead
  · rw [hBlocked.owing] at hOwing
    omega

/-! ### A notification that is missed -/

theorem run_clientNotify {n : Nat} (hWatcher : s.watcher = .enter) (hOwing : s.owing = n) :
    run step s (List.replicate n .clientNotify) = some { s with owing := 0 } := by
  induction n generalizing s with
  | zero =>
    rw [List.replicate_zero, run_nil, ← hOwing]
  | succ n ih =>
    have hSame : s.notifyOne = s := by
      rw [notifyOne, if_neg (by simp [hWatcher])]
    have hStep : s.step .clientNotify = some { s with owing := n } := by
      rw [step, if_pos (by omega), hSame, hOwing]
      rfl
    rw [List.replicate_succ, run_cons, hStep]
    exact ih hWatcher rfl

/-- Nobody interrupts the watcher on its way into the wait. -/
theorem run_to_wait (hWatcher : s.watcher = .enter) :
    run step s (List.replicate s.owing .clientNotify ++ [.watcher]) =
      some { s with watcher := .waiting, owing := 0 } := by
  rw [run_append, run_clientNotify hWatcher rfl, Option.bind_some, run_cons, step, stepWatcher]
  simp [hWatcher]

/-- If the watcher begins its wait in this state, the law is broken. -/
structure Deaf (s : Daemon) : Prop where
  watcher : s.watcher = .enter
  io : s.io = .idle
  queued : s.queued = 0 ∨ s.stopped = true
  missed : ¬s.UpToDate

theorem Deaf.lost (h : s.Deaf) : ∃ events t, run step s events = some t ∧ ¬t.NothingLost := by
  refine ⟨_, _, run_to_wait h.watcher, fun hLaw => h.missed ?_⟩
  have hUpToDate := hLaw ⟨rfl, h.queued, h.io, rfl⟩
  exact ⟨hUpToDate.current, hUpToDate.running⟩

theorem notifying_stopped {content : Str} {events : List DaemonEvent}
    (hRun : run step (start content) events = some s) : s.io = .notifying → s.stopped = true := by
  have hKeep : ∀ (s : Daemon) event s', (s.io = .notifying → s.stopped = true) →
      s.step event = some s' → s'.io = .notifying → s'.stopped = true := by
    intro s event s' h hStep
    have hNotify : s.notifyOne.io = s.io ∧ s.notifyOne.stopped = s.stopped := by
      obtain ⟨_, hEq⟩ | ⟨_, hEq⟩ := s.notifyOne_cases <;> simp [hEq]
    cases event with
    | watcher =>
      rw [step, stepWatcher] at hStep
      split at hStep <;> cases hStep <;> exact h
    | clientOpen =>
      cases hStep
      exact h
    | signal =>
      rw [step] at hStep
      split_ifs at hStep
      cases hStep
      exact fun _ => rfl
    | beginUpdate | read | endUpdate | handlerNotify =>
      rw [step] at hStep
      split_ifs at hStep
      cases hStep
      simp
    | clientWrite text =>
      rw [step] at hStep
      split_ifs at hStep
      cases hStep
      exact h
    | clientNotify =>
      rw [step] at hStep
      split_ifs at hStep
      cases hStep
      exact fun hIo => hNotify.2.trans (h (hNotify.1 ▸ hIo))
  exact invariant hKeep (fun hIo => by simp [start] at hIo) hRun

/-- A missed notification that nothing makes up for can be the last event before
the watcher blocks. -/
theorem lost_of_not_heard (hStopped : s.io = .notifying → s.stopped = true)
    (hStep : s.step event = some s') (hMissed : ¬s.Heard event) :
    ∃ events t, run step s' events = some t ∧ ¬t.NothingLost := by
  cases event with
  | handlerNotify =>
    rw [step] at hStep
    split_ifs at hStep with hIo
    cases hStep
    have hStop := hStopped hIo
    have hPhase : s.watcher = .post ∨ s.watcher = .enter := by
      rwa [Heard, ← not_or, not_not] at hMissed
    have hSame : s.notifyOne = s := by
      rw [notifyOne, if_neg]
      obtain hPost | hEnter := hPhase
      · simp [hPost]
      · simp [hEnter]
    rw [hSame]
    obtain hPost | hEnter := hPhase
    · have hDeaf : Deaf { s with io := .idle, watcher := .enter, queued := s.queued + 1 } :=
        ⟨rfl, rfl, Or.inr hStop, fun h => absurd h.running (by simp [hStop])⟩
      obtain ⟨events, t, hRun, hLost⟩ := hDeaf.lost
      refine ⟨.watcher :: events, t, ?_, hLost⟩
      rw [run_cons, step, stepWatcher]
      simp only [hPost, Option.bind_some]
      exact hRun
    · have hDeaf : Deaf { s with io := .idle } :=
        ⟨hEnter, rfl, Or.inr hStop, fun h => absurd h.running (by simp [hStop])⟩
      exact hDeaf.lost
  | clientNotify =>
    rw [step] at hStep
    split_ifs at hStep with hOwing
    cases hStep
    rw [Heard, Classical.not_imp, not_or, Informed, not_or, not_or] at hMissed
    obtain ⟨hEnter, hRunning, hQueued, hUpdating, hRead⟩ := hMissed
    have hSame : s.notifyOne = s := by
      rw [notifyOne, if_neg (by simp [hEnter])]
    rw [hSame]
    have hDeaf : Deaf { s with io := .idle, owing := s.owing - 1 } :=
      ⟨hEnter, rfl, Or.inl (by simpa using hQueued), fun h => hRead h.current⟩
    cases hIo : s.io with
    | idle =>
      have hEq : { s with owing := s.owing - 1 } = { s with io := .idle, owing := s.owing - 1 } := by
        rw [← hIo]
      rw [hEq]
      exact hDeaf.lost
    | updating => exact absurd hIo hUpdating
    | updated =>
      obtain ⟨events, t, hRun, hLost⟩ := hDeaf.lost
      refine ⟨.endUpdate :: events, t, ?_, hLost⟩
      rw [run_cons, step]
      simpa [hIo] using hRun
    | notifying => exact absurd (hStopped hIo) hRunning
  | watcher | beginUpdate | read | endUpdate | signal | clientOpen | clientWrite =>
    exact absurd trivial hMissed

end Daemon

/-- The daemon is never left blocked with an old table or on a stopped context
when every notification is heard; one that is not can be followed by events that
leave it so. -/
theorem nothing_lost_iff (content : Str) :
    (∀ events t, Along Daemon.step Daemon.Heard (.start content) events →
      run Daemon.step (.start content) events = some t → t.NothingLost) ∧
    ∀ before s event s', run Daemon.step (.start content) before = some s →
      s.step event = some s' →
      (∀ after t, run Daemon.step s' after = some t → t.NothingLost) → s.Heard event := by
  constructor
  · intro events t hAlong hRun
    have hInv : t.Inv :=
      invariant_of_along (fun s event s' h hHeard hStep => h.step hHeard hStep)
        (Daemon.start_inv content) hAlong hRun
    exact hInv.nothingLost
  · intro before s event s' hBefore hStep hLaw
    by_contra hMissed
    obtain ⟨after, t, hRun, hLost⟩ :=
      Daemon.lost_of_not_heard (Daemon.notifying_stopped hBefore) hStep hMissed
    exact hLost (hLaw after t hRun)

/-- A client changes the file while the watcher waits. -/
def heardEvents : List DaemonEvent :=
  [.watcher, .watcher, .watcher, .beginUpdate, .read, .endUpdate, .clientOpen] ++
    .clientNotify :: [.watcher, .watcher, .beginUpdate, .read, .endUpdate, .watcher]

/-- It is heard, and the watcher waits again. -/
theorem nothing_lost_iff_heard :
    Along Daemon.step Daemon.Heard (.start "a 0 * * * * *\n") heardEvents ∧
      run Daemon.step (.start "a 0 * * * * *\n") heardEvents =
        some ⟨.waiting, .idle, 0, false, [], some [], 0⟩ ∧
      (⟨.waiting, .idle, 0, false, [], some [], 0⟩ : Daemon).NothingLost := by
  have hHeard : Along Daemon.step Daemon.Heard (.start "a 0 * * * * *\n") heardEvents := by
    refine along_append.mpr ⟨along_of_always (by simp [Daemon.Heard]), ?_⟩
    rintro _ ⟨⟩
    refine ⟨fun h => ?_, fun _ _ => along_of_always (by simp [Daemon.Heard])⟩
    cases h
  have hRun : run Daemon.step (.start "a 0 * * * * *\n") heardEvents = some _ := rfl
  exact ⟨hHeard, hRun, (nothing_lost_iff "a 0 * * * * *\n").1 heardEvents _ hHeard hRun⟩

/-- The client notifies after the update has read the file and before the
watcher waits. -/
theorem notification_lost : ¬∀ events t,
    run Daemon.step (.start "a 0 * * * * *\n") events = some t → t.NothingLost := by
  intro hLaw
  have hLost := hLaw [.watcher, .watcher, .beginUpdate, .read, .endUpdate, .clientOpen,
    .clientNotify, .watcher] _ rfl ⟨rfl, Or.inl rfl, rfl, rfl⟩
  exact absurd hLost.current (by decide)

end CisCore
