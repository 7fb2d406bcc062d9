import CisCore.Cron.Daemon
import CisCore.Cron.Running

/-! # The daemon as a process

Its watcher thread, its signal handler and the clients on one side, its map of
timers on the other: the update that reads the file is the one that changes the
map. When nothing is under way any more, the map is what the file holds.
-/

namespace CisCore

open Transition

structure DaemonProcess (ε : Type) where
  threads : Daemon
  loop : EventLoop ε

inductive ProcessEvent where
  | thread (event : DaemonEvent)
  | expire (id : Nat)
  | complete (id : Nat)

namespace DaemonProcess

section Model

-- the crons file lies in `tree`
variable {ε : Type} (makeCron : Str → Option ε) (os : Os) (ctx : Context) (tree : FileTree)

def start (content : Str) : DaemonProcess ε := ⟨.start content, .start⟩

/-- What an update does to the timers when it reads the file. -/
def stepLoop (s : DaemonProcess ε) : DaemonEvent → Option (EventLoop ε)
  | .read => s.loop.step makeCron os ctx (.update (tree.write (cronsFile ctx) s.threads.content))
  | _ => some s.loop

def step (s : DaemonProcess ε) : ProcessEvent → Option (DaemonProcess ε)
  | .thread event =>
    (s.threads.step event).bind fun threads =>
      (s.stepLoop makeCron os ctx tree event).map fun loop => ⟨threads, loop⟩
  | .expire id => (s.loop.step makeCron os ctx (.expire id)).map fun loop => ⟨s.threads, loop⟩
  | .complete id =>
    -- the thread of the io context is free, and the context not stopped
    if s.threads.io = .idle ∧ s.threads.stopped = false then
      (s.loop.step makeCron os ctx (.complete id)).map fun loop => ⟨s.threads, loop⟩
    else none

/-- No notification is missed. -/
def Heard (s : DaemonProcess ε) : ProcessEvent → Prop
  | .thread event => s.threads.Heard event
  | .expire _ => True
  | .complete _ => True

/-- No entry is removed whose timer has expired while the handler is still queued; the
handler of such a timer would run on an object that is gone. -/
def Timely (s : DaemonProcess ε) : ProcessEvent → Prop
  | .thread .read => s.loop.Timely os ctx (.update (tree.write (cronsFile ctx) s.threads.content))
  | _ => True

/-- Each entry of the file has a timer that runs its job, and there are no others. -/
structure RunsTable (s : DaemonProcess ε) (crons : Crons) : Prop where
  keys : s.loop.manager.timers.keys = crons.keys
  runs : ∀ e ∈ crons, s.loop.Runs makeCron e

/-- The timers are those of the table that was read last. -/
structure UpToRead (s : DaemonProcess ε) : Prop where
  live : s.loop.Live makeCron
  keys : ∀ text, s.threads.lastRead = some text →
    s.loop.manager.timers.keys = (readCrons text).keys

end Model

end DaemonProcess

variable {ε : Type} {makeCron : Str → Option ε} {os : Os} {ctx : Context} {tree : FileTree}
  {s s' : DaemonProcess ε}

/-! ### What one event changes -/

/-- Only a read changes what was read last. -/
theorem Daemon.lastRead_step {d d' : Daemon} {event : DaemonEvent} (hStep : d.step event = some d')
    (hRead : event ≠ .read) : d'.lastRead = d.lastRead := by
  have hNotify : d.notifyOne.lastRead = d.lastRead := by
    obtain ⟨_, hEq⟩ | ⟨_, hEq⟩ := d.notifyOne_cases <;> rw [hEq]
  cases event with
  | read => exact absurd rfl hRead
  | watcher =>
    rw [step, stepWatcher] at hStep
    split at hStep <;> cases hStep <;> rfl
  | clientOpen =>
    cases hStep
    rfl
  | beginUpdate | endUpdate | signal | clientWrite =>
    rw [step] at hStep
    split_ifs at hStep
    cases hStep
    rfl
  | handlerNotify | clientNotify =>
    rw [step] at hStep
    split_ifs at hStep
    cases hStep
    exact hNotify

theorem Daemon.lastRead_read {d d' : Daemon} (hStep : d.step .read = some d') :
    d'.lastRead = some d.content := by
  rw [step] at hStep
  split_ifs at hStep
  cases hStep
  rfl

/-- A handler of a wait leaves the map of timers alone. -/
theorem EventLoop.handler_manager {l l' : EventLoop ε} {id : Nat}
    (h : l.step makeCron os ctx (.expire id) = some l' ∨
      l.step makeCron os ctx (.complete id) = some l') : l'.manager = l.manager := by
  obtain h | h := h
  · obtain ⟨_, _, rfl⟩ := expire_eq_some h
    rfl
  · obtain ⟨_, _, rfl⟩ | ⟨_, _, rfl⟩ := complete_cases h
    · rfl
    · rfl

namespace DaemonProcess

theorem stepLoop_eq_some {event : DaemonEvent} {loop : EventLoop ε} (hRead : event ≠ .read)
    (h : s.stepLoop makeCron os ctx tree event = some loop) : loop = s.loop := by
  cases event with
  | read => exact absurd rfl hRead
  | watcher | beginUpdate | endUpdate | signal | handlerNotify | clientOpen | clientWrite
  | clientNotify =>
    cases h
    rfl

/-- An event of a thread is that of the threads alone; all others leave the threads
as they are. -/
theorem step_cases {event : ProcessEvent} (h : s.step makeCron os ctx tree event = some s') :
    (∃ thread, event = .thread thread ∧ s.threads.step thread = some s'.threads ∧
      s.stepLoop makeCron os ctx tree thread = some s'.loop) ∨
    (s'.threads = s.threads ∧ s'.loop.manager = s.loop.manager ∧
      ∃ handler, s.loop.step makeCron os ctx handler = some s'.loop) := by
  cases event with
  | thread thread =>
    obtain ⟨threads, hThreads, hRest⟩ := Option.bind_eq_some_iff.mp h
    obtain ⟨loop, hLoop, rfl⟩ := Option.map_eq_some_iff.mp hRest
    exact Or.inl ⟨thread, rfl, hThreads, hLoop⟩
  | expire id =>
    obtain ⟨loop, hLoop, rfl⟩ := Option.map_eq_some_iff.mp h
    exact Or.inr ⟨rfl, EventLoop.handler_manager (Or.inl hLoop), _, hLoop⟩
  | complete id =>
    rw [step] at h
    split_ifs at h
    obtain ⟨loop, hLoop, rfl⟩ := Option.map_eq_some_iff.mp h
    exact Or.inr ⟨rfl, EventLoop.handler_manager (Or.inr hLoop), _, hLoop⟩

/-! ### Whole runs -/

theorem UpToRead.start (content : Str) : (start content : DaemonProcess ε).UpToRead makeCron where
  live e hTimer := by cases hTimer
  keys text hRead := by cases hRead

theorem UpToRead.step (h : s.UpToRead makeCron) (hOs : os.Faultless) {event : ProcessEvent}
    (hStep : s.step makeCron os ctx tree event = some s') : s'.UpToRead makeCron := by
  obtain ⟨thread, _, hThreads, hLoop⟩ | ⟨hThreads, hManager, handler, hLoop⟩ := step_cases hStep
  · by_cases hRead : thread = .read
    · subst hRead
      have hLoad : loadCronList os (tree.write (cronsFile ctx) s.threads.content) (cronsFile ctx) =
          .ok (readCrons s.threads.content) :=
        loadCronList_of_content hOs (FileTree.content_write_self tree _ _)
      have hUpdate : s.loop.step makeCron os ctx
          (.update (tree.write (cronsFile ctx) s.threads.content)) = some s'.loop := hLoop
      obtain ⟨ops, hSync, _⟩ := EventLoop.update_loaded hUpdate hLoad
      refine ⟨h.live.step hUpdate, fun text hText => SortedMap.keys_eq_of_mem_iff fun e => ?_⟩
      obtain rfl := Option.some.inj ((Daemon.lastRead_read hThreads).symm.trans hText)
      rw [← SortedMap.find_isSome_iff, (hSync.settled e).isSome_iff, SortedSet.mem_iff_keys]
    · have hSame := stepLoop_eq_some hRead hLoop
      have hLast := Daemon.lastRead_step hThreads hRead
      exact ⟨hSame ▸ h.live, fun text hText => hSame ▸ h.keys text (hLast ▸ hText)⟩
  · refine ⟨h.live.step hLoop, fun text hText => ?_⟩
    rw [hManager]
    exact h.keys text (hThreads ▸ hText)

theorem UpToRead.runsTable (h : s.UpToRead makeCron) {text : Str}
    (hRead : s.threads.lastRead = some text) : s.RunsTable makeCron (readCrons text) := by
  have hKeys := h.keys text hRead
  refine ⟨hKeys, fun e he => h.live e ?_⟩
  rw [SortedMap.find_isSome_iff, hKeys]
  exact he

theorem threads_inv_step (h : s.threads.Inv) {event : ProcessEvent} (hHeard : s.Heard event)
    (hStep : s.step makeCron os ctx tree event = some s') : s'.threads.Inv := by
  obtain ⟨thread, rfl, hThreads, _⟩ | ⟨hThreads, _⟩ := step_cases hStep
  · exact h.step hHeard hThreads
  · rw [hThreads]
    exact h

end DaemonProcess

/-- As long as no timer goes with its handler still queued, the daemon runs the table that
it has read last. When every notification is heard as well, this is the table that the
file holds whenever the daemon has nothing to do. -/
theorem quiet_daemon_runs_table (makeCron : Str → Option ε) {os : Os} (hOs : os.Faultless)
    (ctx : Context) (tree : FileTree) (content : Str) :
    (∀ events s, Along (DaemonProcess.step makeCron os ctx tree)
        (DaemonProcess.Timely os ctx tree) (.start content) events →
      run (DaemonProcess.step makeCron os ctx tree) (.start content) events = some s →
      ∀ text, s.threads.lastRead = some text → s.RunsTable makeCron (readCrons text)) ∧
    ∀ events s, Along (DaemonProcess.step makeCron os ctx tree)
        (fun s event => s.Timely os ctx tree event ∧ s.Heard event) (.start content) events →
      run (DaemonProcess.step makeCron os ctx tree) (.start content) events = some s →
      s.threads.Blocked →
        s.threads.stopped = false ∧ s.RunsTable makeCron (readCrons s.threads.content) := by
  have hRead : ∀ events s, run (DaemonProcess.step makeCron os ctx tree) (.start content) events =
      some s → s.UpToRead makeCron := fun _ _ hRun =>
    invariant (fun _ _ _ h hStep => h.step hOs hStep) (.start content) hRun
  constructor
  · exact fun events s _ hRun text hText => (hRead events s hRun).runsTable hText
  · intro events s hAlong hRun hBlocked
    have hInv : s.threads.Inv := invariant_of_along
      (fun _ _ _ h hAllowed hStep => DaemonProcess.threads_inv_step h hAllowed.2 hStep)
      (Daemon.start_inv content) hAlong hRun
    have hUpToDate := hInv.nothingLost hBlocked
    exact ⟨hUpToDate.running, (hRead events s hRun).runsTable hUpToDate.current⟩

def quietEvents : List ProcessEvent :=
  [.thread .watcher, .thread .watcher, .thread .beginUpdate] ++ .thread .read ::
    [.expire 0, .thread .endUpdate, .complete 0, .thread .watcher]

theorem quiet_daemon_runs_table_one : ∃ s,
    run (DaemonProcess.step sixFields (.ideal ∅) demoContext ∅) (.start "a 0 * * * * *\n")
        quietEvents = some s ∧
      s.threads.stopped = false ∧ s.RunsTable sixFields (readCrons "a 0 * * * * *\n") := by
  have hRun : ∃ s, run (DaemonProcess.step sixFields (.ideal ∅) demoContext ∅)
      (.start "a 0 * * * * *\n") quietEvents = some s ∧ s.threads.Blocked ∧
      s.threads.content = "a 0 * * * * *\n" := ⟨_, rfl, ⟨rfl, Or.inl rfl, rfl, rfl⟩, rfl⟩
  have hAlong : Along (DaemonProcess.step sixFields (.ideal ∅) demoContext ∅)
      (fun s event => s.Timely (.ideal ∅) demoContext ∅ event ∧ s.Heard event)
      (.start "a 0 * * * * *\n") quietEvents := by
    refine along_append.mpr
      ⟨along_of_always (by simp [DaemonProcess.Timely, DaemonProcess.Heard, Daemon.Heard]), ?_⟩
    rintro _ ⟨⟩
    -- there are no timers before the first read
    refine ⟨⟨fun crons _ e timer _ hTimer => (by cases hTimer), trivial⟩, fun _ _ =>
      along_of_always (by simp [DaemonProcess.Timely, DaemonProcess.Heard, Daemon.Heard])⟩
  obtain ⟨s, hRun, hBlocked, hContent⟩ := hRun
  have hQuiet := (quiet_daemon_runs_table sixFields (Os.ideal_faultless ∅) demoContext ∅
    "a 0 * * * * *\n").2 quietEvents s hAlong hRun hBlocked
  rw [hContent] at hQuiet
  exact ⟨s, hRun, hQuiet⟩

end CisCore
