import CisCore.Cron.Manager
import CisCore.Startjob

/-! # The event loop of the daemon

One thread takes the handlers from the queue of the io context: updates that the
watcher has posted, and the completions of the waits of the timers. A wait that
is cancelled completes with an error, unless it has expired before.
-/

namespace CisCore

open Transition

inductive WaitState where
  | pending
  | expired
  | aborted
deriving DecidableEq

/-- The wait of a timer object, with the job that its callback has captured. -/
structure Wait where
  state : WaitState
  job : Str
deriving DecidableEq

/-- Only a wait that is still pending can be cancelled. -/
def Wait.cancel (w : Wait) : Wait :=
  if w.state = .pending then { w with state := .aborted } else w

def TimerOp.onWait : TimerOp → Option Wait → Option Wait
  | .run _ job, _ => some ⟨.pending, job⟩
  | .cancel _, w => w.map Wait.cancel
  | .erase _, w => w.map Wait.cancel

inductive LoopAction where
  | timer (op : TimerOp)
  | spawn (id : Nat) (process : Spawn)

/-- The callback of the timer `id` has spawned its job or starts the wait again. -/
def LoopAction.Fires (id : Nat) : LoopAction → Prop
  | .timer (.run id' _) => id' = id
  | .timer (.cancel _) => False
  | .timer (.erase _) => False
  | .spawn id' _ => id' = id

structure EventLoop (ε : Type) where
  manager : CronManager ε
  waits : Nat → Option Wait
  log : List LoopAction

inductive LoopEvent where
  /-- The time of a wait has come. -/
  | expire (id : Nat)
  /-- The handler of a completed wait runs. -/
  | complete (id : Nat)
  /-- A posted update runs and reads the crons file of the tree. -/
  | update (tree : FileTree)

section Model

variable {ε : Type} (makeCron : Str → Option ε) (os : Os) (ctx : Context)

def runJob (job : Str) : Spawn :=
  ⟨ctx.baseDir, ([] : FsPath) / "core" / ctx.getEnvVar os "startjob", [job], ctx.env⟩

namespace EventLoop

def start : EventLoop ε := ⟨.empty, fun _ => none, []⟩

def perform (s : EventLoop ε) (op : TimerOp) : EventLoop ε where
  manager := s.manager
  waits := Function.update s.waits op.id (op.onWait (s.waits op.id))
  log := s.log ++ [.timer op]

/-- The callback and the next wait. After an erasure the source runs this on an
object that is gone; here its wait starts again as any other does. -/
def fire (s : EventLoop ε) (id : Nat) (job : Str) : EventLoop ε :=
  let spawned : EventLoop ε := { s with log := s.log ++ [.spawn id (runJob os ctx job)] }
  spawned.perform (.run id job)

def step (s : EventLoop ε) : LoopEvent → Option (EventLoop ε)
  | .expire id =>
    match s.waits id with
    | some ⟨.pending, job⟩ =>
      some { s with waits := Function.update s.waits id (some ⟨.expired, job⟩) }
    | _ => none
  | .complete id =>
    match s.waits id with
    | some ⟨.expired, job⟩ => some (s.fire os ctx id job)
    | some ⟨.aborted, _⟩ => some { s with waits := Function.update s.waits id none }
    | _ => none
  | .update tree =>
    (s.manager.update makeCron os tree (cronsFile ctx)).map fun r =>
      r.2.foldl perform { s with manager := r.1 }

/-- No update removes an entry whose timer has expired while the handler of the
expired wait is still queued. -/
def Timely (s : EventLoop ε) : LoopEvent → Prop
  | .update tree => ∀ crons, loadCronList os tree (cronsFile ctx) = .ok crons → ∀ e timer,
      e ∉ crons → s.manager.timers.find e = some timer →
      ∀ job, s.waits timer.id ≠ some ⟨.expired, job⟩
  | _ => True

end EventLoop

/-- Nothing that was done since the first log fires the timer. -/
def SilentSince (id : Nat) (log log' : List LoopAction) : Prop :=
  ∃ rest, log' = log ++ rest ∧ ∀ action ∈ rest, ¬action.Fires id

/-- From the update that finds an entry missing, the entry's timer is silent. -/
def RemovedStaysSilent (s₀ : EventLoop ε) (events : List LoopEvent) : Prop :=
  ∀ before tree after, events = before ++ .update tree :: after → ∀ s s' t,
    run (EventLoop.step makeCron os ctx) s₀ before = some s →
    EventLoop.step makeCron os ctx s (.update tree) = some s' →
    run (EventLoop.step makeCron os ctx) s' after = some t →
    ∀ crons e timer, loadCronList os tree (cronsFile ctx) = .ok crons → e ∉ crons →
      s.manager.timers.find e = some timer → SilentSince timer.id s'.log t.log

end Model

variable {ε : Type} {makeCron : Str → Option ε} {os : Os} {ctx : Context} {s s' t : EventLoop ε}

/-! ### Operations on waits -/

@[simp] theorem EventLoop.perform_manager (s : EventLoop ε) (op : TimerOp) :
    (s.perform op).manager = s.manager := rfl

@[simp] theorem EventLoop.perform_log (s : EventLoop ε) (op : TimerOp) :
    (s.perform op).log = s.log ++ [.timer op] := rfl

theorem EventLoop.foldl_perform_manager (ops : List TimerOp) (s : EventLoop ε) :
    (ops.foldl perform s).manager = s.manager := by
  induction ops generalizing s with
  | nil => rfl
  | cons op ops ih => rw [List.foldl_cons, ih, perform_manager]

theorem EventLoop.foldl_perform_log (ops : List TimerOp) (s : EventLoop ε) :
    (ops.foldl perform s).log = s.log ++ ops.map .timer := by
  induction ops generalizing s with
  | nil => simp
  | cons op ops ih => simp [ih]

/-- The wait of an object depends on the operations on that object only. -/
theorem EventLoop.foldl_perform_waits (ops : List TimerOp) (s : EventLoop ε) (id : Nat) :
    (ops.foldl perform s).waits id = (opsOn id ops).foldl (fun w op => op.onWait w) (s.waits id) := by
  induction ops generalizing s with
  | nil => rfl
  | cons op ops ih =>
    rw [List.foldl_cons, ih, opsOn, opsOn, List.filter_cons]
    by_cases hId : op.id = id
    · subst hId
      simp [perform]
    · simp [perform, hId, Function.update_of_ne (Ne.symm hId)]

@[simp] theorem Wait.cancel_job (w : Wait) : w.cancel.job = w.job := by
  rw [cancel]
  split_ifs <;> rfl

theorem Wait.cancel_aborted {w : Wait} (h : w.state ≠ .expired) : w.cancel.state = .aborted := by
  rw [cancel]
  cases hState : w.state with
  | pending => simp
  | expired => exact absurd hState h
  | aborted => simp [hState]

theorem Wait.cancel_not_pending (w : Wait) : w.cancel.state ≠ .pending := by
  rw [cancel]
  split_ifs with hPending
  · exact WaitState.noConfusion
  · exact hPending

/-- Operations that do not start a wait leave a cancelled one cancelled. -/
theorem aborted_of_opsOn {ops : List TimerOp} (id : Nat) {w₀ : Option Wait}
    (hOps : ∀ op ∈ ops, op.id = id ∧ ∀ job, op ≠ .run id job)
    (h₀ : ∀ w, w₀ = some w → w.state = .aborted) :
    ∀ w, ops.foldl (fun w op => op.onWait w) w₀ = some w → w.state = .aborted := by
  induction ops generalizing w₀ with
  | nil => exact h₀
  | cons op ops ih =>
    rw [List.foldl_cons]
    apply ih fun op' hOp' => hOps op' (List.mem_cons_of_mem op hOp')
    have hCancel : ∀ w, w₀.map Wait.cancel = some w → w.state = .aborted := by
      intro w hw
      obtain ⟨w', hw', rfl⟩ := Option.map_eq_some_iff.mp hw
      exact Wait.cancel_aborted (by rw [h₀ w' hw']; decide)
    obtain ⟨hId, hRun⟩ := hOps op List.mem_cons_self
    cases op with
    | run id' job =>
      obtain rfl : id' = id := hId
      exact absurd rfl (hRun job)
    | cancel id' => exact hCancel
    | erase id' => exact hCancel

/-! ### A timer that is gone -/

/-- The object belongs to no entry, and no handler is queued that would fire it. -/
structure EventLoop.Gone (s : EventLoop ε) (id : Nat) : Prop where
  known : id < s.manager.nextId
  unused : ∀ e timer, s.manager.timers.find e = some timer → timer.id ≠ id
  aborted : ∀ w, s.waits id = some w → w.state = .aborted

theorem EventLoop.update_eq_some {tree : FileTree}
    (h : step makeCron os ctx s (.update tree) = some s') :
    ∃ m ops, s.manager.update makeCron os tree (cronsFile ctx) = some (m, ops) ∧
      s'.manager = m ∧ s'.log = s.log ++ ops.map .timer ∧
      ∀ id, s'.waits id = (opsOn id ops).foldl (fun w op => op.onWait w) (s.waits id) := by
  obtain ⟨⟨m, ops⟩, hUpdate, rfl⟩ := Option.map_eq_some_iff.mp h
  exact ⟨m, ops, hUpdate, foldl_perform_manager ops _, foldl_perform_log ops _,
    foldl_perform_waits ops _⟩

theorem EventLoop.update_loaded {tree : FileTree} {crons : Crons}
    (h : step makeCron os ctx s (.update tree) = some s')
    (hLoad : loadCronList os tree (cronsFile ctx) = .ok crons) :
    ∃ ops, Synchronised makeCron s.manager s'.manager ops crons ∧
      s'.log = s.log ++ ops.map .timer ∧
      ∀ id, s'.waits id = (opsOn id ops).foldl (fun w op => op.onWait w) (s.waits id) := by
  obtain ⟨m, ops, hUpdate, rfl, hLog, hWaits⟩ := update_eq_some h
  obtain ⟨hError, _⟩ | ⟨crons', hLoad', hSync⟩ := CronManager.update_cases hUpdate
  · cases hError.symm.trans hLoad
  · cases hLoad.symm.trans hLoad'
    exact ⟨ops, hSync, hLog, hWaits⟩

theorem EventLoop.Gone.update {id : Nat} (h : s.Gone id) {tree : FileTree}
    (hStep : step makeCron os ctx s (.update tree) = some s') :
    s'.Gone id ∧ SilentSince id s.log s'.log := by
  obtain ⟨m, ops, hUpdate, hManager, hLog, hWaits⟩ := update_eq_some hStep
  obtain ⟨_, rfl, rfl⟩ | ⟨crons, _, hSync⟩ := CronManager.update_cases hUpdate
  · refine ⟨⟨hManager ▸ h.known, hManager ▸ h.unused, fun w hw => h.aborted w ?_⟩, [], hLog, by simp⟩
    rw [← hw, hWaits]
    rfl
  · have hRun : ∀ job, .run id job ∉ ops := fun job hOp =>
      absurd (hSync.fresh id job hOp) (not_le.mpr h.known)
    refine ⟨⟨?_, fun e timer hFind => ?_, fun w hw => ?_⟩, ops.map .timer, hLog, ?_⟩
    · rw [hManager]
      exact h.known.trans_le hSync.older
    · rw [hManager] at hFind
      obtain hBefore | hFresh := hSync.find hFind
      · exact h.unused e timer hBefore
      · exact (h.known.trans_le hFresh).ne'
    · rw [hWaits] at hw
      refine aborted_of_opsOn id (fun op hOp => ?_) h.aborted w hw
      rw [opsOn, List.mem_filter, decide_eq_true_eq] at hOp
      exact ⟨hOp.2, fun job hEq => hRun job (hEq ▸ hOp.1)⟩
    · intro action hAction
      obtain ⟨op, hOp, rfl⟩ := List.mem_map.mp hAction
      cases op with
      | run id' job =>
        rintro (rfl : id' = id)
        exact hRun job hOp
      | cancel id' => exact not_false
      | erase id' => exact not_false

theorem SilentSince.refl (id : Nat) (log : List LoopAction) : SilentSince id log log :=
  ⟨[], by simp, by simp⟩

theorem SilentSince.trans {id : Nat} {log log' log'' : List LoopAction}
    (h : SilentSince id log log') (h' : SilentSince id log' log'') : SilentSince id log log'' := by
  obtain ⟨rest, rfl, hRest⟩ := h
  obtain ⟨rest', rfl, hRest'⟩ := h'
  refine ⟨rest ++ rest', by rw [List.append_assoc], fun action hAction => ?_⟩
  obtain hAction | hAction := List.mem_append.mp hAction
  · exact hRest action hAction
  · exact hRest' action hAction

theorem EventLoop.expire_eq_some {id : Nat} (h : step makeCron os ctx s (.expire id) = some s') :
    ∃ job, s.waits id = some ⟨.pending, job⟩ ∧
      s' = { s with waits := Function.update s.waits id (some ⟨.expired, job⟩) } := by
  rw [step] at h
  split at h
  · rename_i job hWait
    exact ⟨job, hWait, (Option.some.inj h).symm⟩
  · cases h

theorem EventLoop.complete_cases {id : Nat}
    (h : step makeCron os ctx s (.complete id) = some s') :
    (∃ job, s.waits id = some ⟨.expired, job⟩ ∧ s' = s.fire os ctx id job) ∨
      ∃ job, s.waits id = some ⟨.aborted, job⟩ ∧
        s' = { s with waits := Function.update s.waits id none } := by
  rw [step] at h
  split at h
  · rename_i job hWait
    exact Or.inl ⟨job, hWait, (Option.some.inj h).symm⟩
  · rename_i job hWait
    exact Or.inr ⟨job, hWait, (Option.some.inj h).symm⟩
  · cases h

@[simp] theorem EventLoop.fire_waits (s : EventLoop ε) (id : Nat) (job : Str) :
    (s.fire os ctx id job).waits = Function.update s.waits id (some ⟨.pending, job⟩) := rfl

@[simp] theorem EventLoop.fire_manager (s : EventLoop ε) (id : Nat) (job : Str) :
    (s.fire os ctx id job).manager = s.manager := rfl

theorem EventLoop.fire_log (s : EventLoop ε) (id : Nat) (job : Str) :
    (s.fire os ctx id job).log =
      s.log ++ [.spawn id (runJob os ctx job), .timer (.run id job)] := by
  rw [fire, perform_log, List.append_assoc]
  rfl

theorem EventLoop.Gone.step {id : Nat} (h : s.Gone id) {event : LoopEvent}
    (hStep : EventLoop.step makeCron os ctx s event = some s') :
    s'.Gone id ∧ SilentSince id s.log s'.log := by
  cases event with
  | update tree => exact h.update hStep
  | expire id' =>
    obtain ⟨job, hWait, rfl⟩ := expire_eq_some hStep
    have hne : id ≠ id' := by
      rintro rfl
      cases h.aborted _ hWait
    refine ⟨⟨h.known, h.unused, fun w hw => h.aborted w ?_⟩, SilentSince.refl id _⟩
    simpa [Function.update_of_ne hne] using hw
  | complete id' =>
    obtain ⟨job, hWait, rfl⟩ | ⟨_, _, rfl⟩ := complete_cases hStep
    · have hne : id ≠ id' := by
        rintro rfl
        cases h.aborted _ hWait
      refine ⟨⟨h.known, h.unused, fun w hw => h.aborted w ?_⟩, _, s.fire_log id' job, ?_⟩
      · simpa [Function.update_of_ne hne] using hw
      · intro action hAction
        simp only [List.mem_cons, List.not_mem_nil, or_false] at hAction
        obtain rfl | rfl := hAction
        · exact hne.symm
        · exact hne.symm
    · refine ⟨⟨h.known, h.unused, fun w hw => ?_⟩, SilentSince.refl id _⟩
      obtain rfl | hne := eq_or_ne id id'
      · simp at hw
      · exact h.aborted w (by simpa [Function.update_of_ne hne] using hw)

theorem EventLoop.Gone.run {id : Nat} (h : s.Gone id) {events : List LoopEvent}
    (hRun : Transition.run (EventLoop.step makeCron os ctx) s events = some t) :
    SilentSince id s.log t.log := by
  have hKeep : ∀ (s₁ : EventLoop ε) event s₂, (s₁.Gone id ∧ SilentSince id s.log s₁.log) →
      EventLoop.step makeCron os ctx s₁ event = some s₂ →
      s₂.Gone id ∧ SilentSince id s.log s₂.log := by
    intro s₁ event s₂ hBefore hStep
    obtain ⟨hGone, hSilent⟩ := hBefore.1.step hStep
    exact ⟨hGone, hBefore.2.trans hSilent⟩
  exact (invariant hKeep ⟨h, SilentSince.refl id _⟩ hRun).2

/-! ### Removed entries -/

section Removed

variable {tree : FileTree} {crons : Crons} {e : CronEntry} {timer : CronTimer ε}

/-- The wait of a timer whose entry is missing has been cancelled, unless it had
expired. -/
theorem EventLoop.update_removed (hStep : step makeCron os ctx s (.update tree) = some s')
    (hLoad : loadCronList os tree (cronsFile ctx) = .ok crons) (hMissing : e ∉ crons)
    (hTimer : s.manager.timers.find e = some timer) :
    timer.id < s'.manager.nextId ∧
      (∀ e' timer', s'.manager.timers.find e' = some timer' → timer'.id ≠ timer.id) ∧
      s'.waits timer.id = ((s.waits timer.id).map Wait.cancel).map Wait.cancel := by
  obtain ⟨ops, hSync, _, hWaits⟩ := update_loaded hStep hLoad
  obtain ⟨hGone, hOps⟩ := (hSync.settled e).dropped hMissing
  have hOld := s.manager.below e timer hTimer
  refine ⟨hOld.trans_le hSync.older, fun e' timer' hTimer' hId => ?_, ?_⟩
  · obtain hBefore | hFresh := hSync.find hTimer'
    · have hSame := s.manager.apart e' e timer' timer hBefore hTimer hId
      subst hSame
      rw [hGone] at hTimer'
      cases hTimer'
    · omega
  · rw [hWaits, hOps timer hTimer]
    rfl

theorem EventLoop.update_gone (hStep : step makeCron os ctx s (.update tree) = some s')
    (hLoad : loadCronList os tree (cronsFile ctx) = .ok crons) (hMissing : e ∉ crons)
    (hTimer : s.manager.timers.find e = some timer)
    (hTimely : ∀ job, s.waits timer.id ≠ some ⟨.expired, job⟩) : s'.Gone timer.id := by
  obtain ⟨hKnown, hUnused, hWait⟩ := update_removed hStep hLoad hMissing hTimer
  refine ⟨hKnown, hUnused, fun w hw => ?_⟩
  rw [hWait] at hw
  obtain ⟨w₁, hw₁, rfl⟩ := Option.map_eq_some_iff.mp hw
  obtain ⟨w₀, hw₀, rfl⟩ := Option.map_eq_some_iff.mp hw₁
  have hState : w₀.state ≠ .expired := by
    intro hExpired
    apply hTimely w₀.job
    rw [hw₀, ← hExpired]
  apply Wait.cancel_aborted
  rw [Wait.cancel_aborted hState]
  decide

/-- The handler of a wait that had expired runs the job of the removed entry. -/
theorem EventLoop.update_fires (hStep : step makeCron os ctx s (.update tree) = some s')
    (hLoad : loadCronList os tree (cronsFile ctx) = .ok crons) (hMissing : e ∉ crons)
    (hTimer : s.manager.timers.find e = some timer) {job : Str}
    (hExpired : s.waits timer.id = some ⟨.expired, job⟩) :
    step makeCron os ctx s' (.complete timer.id) = some (s'.fire os ctx timer.id job) := by
  obtain ⟨_, _, hWait⟩ := update_removed hStep hLoad hMissing hTimer
  rw [hExpired] at hWait
  have hStill : s'.waits timer.id = some ⟨.expired, job⟩ := hWait
  rw [step]
  simp only [hStill]

theorem EventLoop.not_silentSince_fire (s : EventLoop ε) (id : Nat) (job : Str) :
    ¬SilentSince id s.log (s.fire os ctx id job).log := by
  rintro ⟨rest, hLog, hSilent⟩
  rw [fire_log] at hLog
  obtain rfl := List.append_cancel_left hLog
  exact hSilent (.spawn id (runJob os ctx job)) List.mem_cons_self rfl

theorem EventLoop.not_staysSilent {s₀ : EventLoop ε} {before : List LoopEvent}
    (hBefore : run (step makeCron os ctx) s₀ before = some s)
    (hStep : step makeCron os ctx s (.update tree) = some s')
    (hLoad : loadCronList os tree (cronsFile ctx) = .ok crons) (hMissing : e ∉ crons)
    (hTimer : s.manager.timers.find e = some timer) {job : Str}
    (hExpired : s.waits timer.id = some ⟨.expired, job⟩) :
    ¬RemovedStaysSilent makeCron os ctx s₀ (before ++ .update tree :: [.complete timer.id]) := by
  intro hSilent
  have hLast : run (step makeCron os ctx) s' [.complete timer.id] =
      some (s'.fire os ctx timer.id job) := by
    rw [run_cons, update_fires hStep hLoad hMissing hTimer hExpired]
    rfl
  exact s'.not_silentSince_fire timer.id job
    (hSilent before tree _ rfl s s' _ hBefore hStep hLast crons e timer hLoad hMissing hTimer)

end Removed

/-- The timers of removed entries stay silent in every run whose updates remove
no entry whose timer has expired with its handler still in the queue; each
update that does can be followed by that handler, which runs the job. -/
theorem removed_stays_silent_iff (makeCron : Str → Option ε) (os : Os) (ctx : Context)
    (s₀ : EventLoop ε) :
    (∀ events, Along (EventLoop.step makeCron os ctx) (EventLoop.Timely os ctx) s₀ events →
      RemovedStaysSilent makeCron os ctx s₀ events) ∧
    ∀ before s tree s', run (EventLoop.step makeCron os ctx) s₀ before = some s →
      EventLoop.step makeCron os ctx s (.update tree) = some s' →
      (∀ after, RemovedStaysSilent makeCron os ctx s₀ (before ++ .update tree :: after)) →
      s.Timely os ctx (.update tree) := by
  constructor
  · rintro events hAlong before tree after rfl s s' t hBefore hStep hAfter crons e timer hLoad
      hMissing hTimer
    have hTimely := ((along_append.mp hAlong).2 s hBefore).1
    have hGone := EventLoop.update_gone hStep hLoad hMissing hTimer
      (hTimely crons hLoad e timer hMissing hTimer)
    exact hGone.run hAfter
  · intro before s tree s' hBefore hStep hSilent crons hLoad e timer hMissing hTimer job hExpired
    exact EventLoop.not_staysSilent hBefore hStep hLoad hMissing hTimer hExpired
      (hSilent [.complete timer.id])

theorem removed_stays_silent_iff_two : RemovedStaysSilent sixFields (.ideal ∅) demoContext .start
    [.update (cronsTree "a 0 * * * * *\n"), .update (cronsTree ""), .complete 0] := by
  refine (removed_stays_silent_iff sixFields (.ideal ∅) demoContext .start).1 _ ⟨?_, fun s₁ h₁ => ?_⟩
  · intro crons _ e timer _ hTimer
    cases hTimer
  · have hWaits : s₁.waits = Function.update (fun _ => none) 0 (some ⟨.pending, "a"⟩) := by
      cases h₁
      rfl
    refine ⟨fun crons _ e timer _ _ job hExpired => ?_, fun _ _ => ⟨trivial, fun _ _ => trivial⟩⟩
    rw [hWaits, Function.update_apply] at hExpired
    split_ifs at hExpired with hId
    cases hExpired

/-- The update that removes the entry is dequeued before the handler of its
expired wait. -/
theorem removed_entry_fires : ¬∀ events,
    RemovedStaysSilent sixFields (.ideal ∅) demoContext .start events := by
  intro hSilent
  have hRun : ∃ s s', run (EventLoop.step sixFields (.ideal ∅) demoContext) .start
        [.update (cronsTree "a 0 * * * * *\n"), .expire 0] = some s ∧
      EventLoop.step sixFields (.ideal ∅) demoContext s (.update (cronsTree "")) = some s' ∧
      (s.manager.timers.find ⟨"a", "0 * * * * *"⟩).map CronTimer.id = some 0 ∧
      s.waits 0 = some ⟨.expired, "a"⟩ := ⟨_, _, rfl, rfl, by decide, by decide⟩
  obtain ⟨s, s', hBefore, hUpdate, hTimer, hExpired⟩ := hRun
  obtain ⟨timer, hFind, hId⟩ := Option.map_eq_some_iff.mp hTimer
  have hLoad : loadCronList (.ideal ∅) (cronsTree "") (cronsFile demoContext) = .ok ∅ := rfl
  exact EventLoop.not_staysSilent hBefore hUpdate hLoad (by decide) hFind (hId ▸ hExpired)
    (hSilent _)

end CisCore
