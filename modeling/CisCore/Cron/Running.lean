import CisCore.Cron.EventLoop

/-! # Entries with a running timer

Whatever the daemon has gone through, each entry of the map has a timer of its own
expression whose wait runs the entry's job. An update keeps this up, but it calls the
cron library directly: one entry with an invalid expression makes it throw.
-/

namespace CisCore

open Transition

namespace EventLoop

section Model

variable {ε : Type} (makeCron : Str → Option ε) (os : Os) (ctx : Context)

/-- The entry has a timer of its expression, whose wait runs its job. -/
def Runs (s : EventLoop ε) (e : CronEntry) : Prop :=
  ∃ timer wait, s.manager.timers.find e = some timer ∧ makeCron e.expr = some timer.expr ∧
    s.waits timer.id = some wait ∧ wait.state ≠ .aborted ∧ wait.job = e.job

def Live (s : EventLoop ε) : Prop :=
  ∀ e, (s.manager.timers.find e).isSome → s.Runs makeCron e

/-- The timer that the entry had is cancelled and no longer in the map. -/
structure Cancelled (s : EventLoop ε) (e : CronEntry) (timer : CronTimer ε) : Prop where
  erased : s.manager.timers.find e = none
  logged : .timer (.cancel timer.id) ∈ s.log
  stopped : ∀ wait, s.waits timer.id = some wait → wait.state ≠ .pending

/-- The update returns with a running timer for each entry of the file whose expression is
valid, and has cancelled those of the others. -/
def SurvivesUpdate (s : EventLoop ε) (tree : FileTree) : Prop :=
  ∃ s', step makeCron os ctx s (.update tree) = some s' ∧
    ∀ crons, loadCronList os tree (cronsFile ctx) = .ok crons →
      (∀ e ∈ crons, (makeCron e.expr).isSome → s'.Runs makeCron e) ∧
        ∀ e timer, e ∉ crons → s.manager.timers.find e = some timer → s'.Cancelled e timer

end Model

variable {ε : Type} {makeCron : Str → Option ε} {os : Os} {ctx : Context} {s s' : EventLoop ε}

/-! ### Each entry of the map has a running timer -/

/-- A step that leaves the map alone and stops no wait that is under way. -/
theorem Live.of_waits (h : s.Live makeCron) (hManager : s'.manager = s.manager)
    (hWaits : ∀ id wait, s.waits id = some wait → wait.state ≠ .aborted →
      ∃ wait', s'.waits id = some wait' ∧ wait'.state ≠ .aborted ∧ wait'.job = wait.job) :
    s'.Live makeCron := by
  intro e hTimer
  rw [hManager] at hTimer
  obtain ⟨timer, wait, hFind, hExpr, hWait, hState, hJob⟩ := h e hTimer
  obtain ⟨wait', hWait', hState', hJob'⟩ := hWaits timer.id wait hWait hState
  exact ⟨timer, wait', hManager ▸ hFind, hExpr, hWait', hState', hJob'.trans hJob⟩

/-- The start of a wait with the same callback keeps an entry running. -/
theorem Live.restart (h : s.Live makeCron) (hManager : s'.manager = s.manager) {id : Nat}
    {job : Str} {before after : WaitState} (hBefore : s.waits id = some ⟨before, job⟩)
    (hAfter : after ≠ .aborted)
    (hWaits : s'.waits = Function.update s.waits id (some ⟨after, job⟩)) : s'.Live makeCron := by
  refine h.of_waits hManager fun id' wait hWait hState => ?_
  rw [hWaits]
  obtain rfl | hne := eq_or_ne id' id
  · rw [hBefore] at hWait
    cases hWait
    exact ⟨_, Function.update_self .., hAfter, rfl⟩
  · exact ⟨wait, (Function.update_of_ne hne ..).trans hWait, hState, rfl⟩

theorem started_of_update {tree : FileTree}
    (hStep : step makeCron os ctx s (.update tree) = some s') {crons : Crons}
    (hLoad : loadCronList os tree (cronsFile ctx) = .ok crons) {e : CronEntry} (he : e ∈ crons)
    (hNew : s.manager.timers.find e = none) :
    ∃ timer, s'.manager.timers.find e = some timer ∧ makeCron e.expr = some timer.expr ∧
      s'.waits timer.id = some ⟨.pending, e.job⟩ := by
  obtain ⟨ops, hSync, _, hWaits⟩ := update_loaded hStep hLoad
  obtain ⟨timer, hFind, _, hExpr, hOps⟩ := (hSync.settled e).started he hNew
  refine ⟨timer, hFind, hExpr, ?_⟩
  rw [hWaits, hOps]
  rfl

theorem Live.runs_of_update (h : s.Live makeCron) {tree : FileTree}
    (hStep : step makeCron os ctx s (.update tree) = some s') {crons : Crons}
    (hLoad : loadCronList os tree (cronsFile ctx) = .ok crons) {e : CronEntry} (he : e ∈ crons) :
    s'.Runs makeCron e := by
  cases hBefore : s.manager.timers.find e with
  | none =>
    obtain ⟨timer, hFind, hExpr, hWait⟩ := started_of_update hStep hLoad he hBefore
    exact ⟨timer, ⟨.pending, e.job⟩, hFind, hExpr, hWait, by simp, rfl⟩
  | some timer =>
    obtain ⟨ops, hSync, _, hWaits⟩ := update_loaded hStep hLoad
    obtain ⟨hKept, hQuiet⟩ := (hSync.settled e).kept he timer hBefore
    obtain ⟨timer', wait, hFind, hExpr, hWait, hState, hJob⟩ := h e (by simp [hBefore])
    cases hBefore.symm.trans hFind
    refine ⟨timer, wait, hKept, hExpr, ?_, hState, hJob⟩
    rw [hWaits, hQuiet]
    exact hWait

theorem Live.update (h : s.Live makeCron) {tree : FileTree}
    (hStep : step makeCron os ctx s (.update tree) = some s') : s'.Live makeCron := by
  obtain ⟨m, ops, hUpdate, hManager, _, hWaits⟩ := update_eq_some hStep
  obtain ⟨_, rfl, rfl⟩ | ⟨crons, hLoad, hSync⟩ := CronManager.update_cases hUpdate
  · refine h.of_waits hManager fun id wait hWait hState => ⟨wait, ?_, hState, rfl⟩
    rw [hWaits]
    exact hWait
  · intro e hTimer
    rw [hManager] at hTimer
    exact h.runs_of_update hStep hLoad ((hSync.settled e).isSome_iff.mp hTimer)

theorem Live.step (h : s.Live makeCron) {event : LoopEvent}
    (hStep : EventLoop.step makeCron os ctx s event = some s') : s'.Live makeCron := by
  cases event with
  | update tree => exact h.update hStep
  | expire id =>
    obtain ⟨job, hWait, rfl⟩ := expire_eq_some hStep
    exact h.restart rfl hWait (by simp) rfl
  | complete id =>
    obtain ⟨job, hWait, rfl⟩ | ⟨job, hWait, rfl⟩ := complete_cases hStep
    · exact h.restart rfl hWait (by simp) (s.fire_waits id job)
    · -- the object of a cancelled wait belongs to no entry
      refine h.of_waits rfl fun id' wait hWait' hState => ⟨wait, ?_, hState, rfl⟩
      have hne : id' ≠ id := by
        rintro rfl
        rw [hWait] at hWait'
        cases hWait'
        exact hState rfl
      exact (Function.update_of_ne hne ..).trans hWait'

theorem live_of_run {events : List LoopEvent}
    (hRun : run (EventLoop.step makeCron os ctx) .start events = some s) : s.Live makeCron :=
  invariant (fun _ _ _ h hStep => h.step hStep) (fun e hTimer => by cases hTimer) hRun

/-! ### Updates that throw -/

theorem update_cancelled {tree : FileTree}
    (hStep : step makeCron os ctx s (.update tree) = some s') {crons : Crons}
    (hLoad : loadCronList os tree (cronsFile ctx) = .ok crons) {e : CronEntry}
    {timer : CronTimer ε} (hMissing : e ∉ crons) (hTimer : s.manager.timers.find e = some timer) :
    s'.Cancelled e timer := by
  obtain ⟨ops, hSync, hLog, _⟩ := update_loaded hStep hLoad
  obtain ⟨hGone, hOps⟩ := (hSync.settled e).dropped hMissing
  have hCancel : .cancel timer.id ∈ opsOn timer.id ops := by simp [hOps timer hTimer]
  refine ⟨hGone, ?_, fun wait hWait => ?_⟩
  · rw [hLog]
    exact List.mem_append_right _ (List.mem_map_of_mem (List.mem_filter.mp hCancel).1)
  · rw [(update_removed hStep hLoad hMissing hTimer).2.2] at hWait
    obtain ⟨wait₁, _, rfl⟩ := Option.map_eq_some_iff.mp hWait
    exact wait₁.cancel_not_pending

theorem Live.valid_of_update (h : s.Live makeCron) {tree : FileTree}
    (hStep : EventLoop.step makeCron os ctx s (.update tree) = some s') {crons : Crons}
    (hLoad : loadCronList os tree (cronsFile ctx) = .ok crons) :
    ∀ e ∈ crons, (makeCron e.expr).isSome := by
  intro e he
  obtain ⟨timer, _, _, hExpr, _⟩ := h.runs_of_update hStep hLoad he
  rw [hExpr]
  rfl

theorem update_of_valid (s : EventLoop ε) {tree : FileTree}
    (hValid : ∀ crons, loadCronList os tree (cronsFile ctx) = .ok crons →
      ∀ e ∈ crons, (makeCron e.expr).isSome) :
    ∃ s', step makeCron os ctx s (.update tree) = some s' := by
  rw [step, CronManager.update]
  cases hOpen : os.openIfstream tree (cronsFile ctx) with
  | none => exact ⟨_, rfl⟩
  | some text =>
    have hLoad := loadCronList_eq_ok.mpr ⟨text, hOpen, rfl⟩
    obtain ⟨m, ops, hSync⟩ := synchronise_of_valid s.manager (hValid _ hLoad)
    simp only [hSync, Option.map_some]
    exact ⟨_, rfl⟩

end EventLoop

/-- In whatever state the daemon is, an update does what it is for exactly if every entry of
the file has a valid expression; otherwise it throws. -/
theorem update_survives_iff {ε : Type} {makeCron : Str → Option ε} {os : Os} {ctx : Context}
    {events : List LoopEvent} {s : EventLoop ε}
    (hRun : run (EventLoop.step makeCron os ctx) .start events = some s) (tree : FileTree) :
    s.SurvivesUpdate makeCron os ctx tree ↔
      ∀ crons, loadCronList os tree (cronsFile ctx) = .ok crons →
        ∀ e ∈ crons, (makeCron e.expr).isSome := by
  have hLive := EventLoop.live_of_run hRun
  constructor
  · rintro ⟨s', hStep, _⟩ crons hLoad
    exact hLive.valid_of_update hStep hLoad
  · intro hValid
    obtain ⟨s', hStep⟩ := s.update_of_valid hValid
    refine ⟨s', hStep, fun crons hLoad => ⟨fun e he _ => ?_, fun e timer hMissing hTimer => ?_⟩⟩
    · exact hLive.runs_of_update hStep hLoad he
    · exact EventLoop.update_cancelled hStep hLoad hMissing hTimer

theorem update_survives_iff_two :
    ∃ s, run (EventLoop.step sixFields (.ideal ∅) demoContext) .start
        [.update (cronsTree "a 0 * * * * *\n"), .expire 0] = some s ∧
      (s.SurvivesUpdate sixFields (.ideal ∅) demoContext (cronsTree "b 5 * * * * *\n") ↔
        ∀ crons, loadCronList (.ideal ∅) (cronsTree "b 5 * * * * *\n") (cronsFile demoContext) =
          .ok crons → ∀ e ∈ crons, (sixFields e.expr).isSome) := by
  have hRun : ∃ s, run (EventLoop.step sixFields (.ideal ∅) demoContext) .start
      [.update (cronsTree "a 0 * * * * *\n"), .expire 0] = some s := ⟨_, rfl⟩
  obtain ⟨s, hRun⟩ := hRun
  exact ⟨s, hRun, update_survives_iff hRun _⟩

/-- A file with a bad line and a good one. -/
theorem bad_entry_stops_daemon :
    EventLoop.step sixFields (.ideal ∅) demoContext .start
        (.update (cronsTree "a bad\nb 0 * * * * *\n")) = none ∧
      ¬∀ tree, (EventLoop.start : EventLoop (List Str)).SurvivesUpdate sixFields (.ideal ∅)
        demoContext tree := by
  refine ⟨rfl, fun hAll => ?_⟩
  obtain ⟨s', hStep, _⟩ := hAll (cronsTree "a bad\nb 0 * * * * *\n")
  cases hStep

end CisCore
