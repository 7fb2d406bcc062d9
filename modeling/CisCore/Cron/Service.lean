import CisCore.Cron.CommandLine
import CisCore.Cron.Running
import CisCore.Library.Machine

/-! # The cron service

The table that `cis_cron` changes and the daemon that starts its jobs are one
system: commands run one after the other, and the loop of the daemon handles its
events in between. Seen from outside it is a board with the entries of the table,
those that the daemon runs, and those whose time has come.
-/

namespace CisCore

open Labelled

/-- What is seen of the service. -/
inductive ServiceLabel where
  | answered (c : CronCall) (answer : CronAnswer)
  | spawned (process : Spawn)
  /-- An exception has left the loop of the daemon. -/
  | died

structure CronService (ε : Type) where
  tree : FileTree
  /-- The loop of the daemon, as long as it runs. -/
  loop : Option (EventLoop ε)

inductive ServiceEvent where
  | command (c : CronCall)
  /-- The loop handles an update. The watcher posts it when it is notified, and
  its condition may wake it for no reason. -/
  | update
  | expire (id : Nat)
  | complete (id : Nat)

/-- The service as its users see it. -/
structure CronBoard where
  table : Crons
  /-- The entries that the daemon runs. -/
  watched : Crons
  /-- Those of them whose time has come. -/
  due : Crons

def LoopAction.spawned : LoopAction → Option Spawn
  | .timer _ => none
  | .spawn _ process => some process

def spawnedSince (log log' : List LoopAction) : Option ServiceLabel :=
  ((log'.drop log.length).findSome? LoopAction.spawned).map .spawned

section Model

variable (P : ProtoUtils) (version : Version) {ε : Type} (makeCron : Str → Option ε)
  (regex : Str → Option (Str → Bool)) (os : Os) (ctx : Context)

namespace CronService

def handle (s : CronService ε) (event : LoopEvent) : Option (CronService ε × Option ServiceLabel) :=
  match s.loop with
  | none => none
  | some l =>
    (l.step makeCron os ctx event).map fun l' => (⟨s.tree, some l'⟩, spawnedSince l.log l'.log)

def step (s : CronService ε) : ServiceEvent → Option (CronService ε × Option ServiceLabel)
  | .command c =>
    let r := c.run P version makeCron regex s.tree
    some (⟨r.1, s.loop⟩, some (.answered c r.2))
  | .update =>
    match s.loop with
    | none => none
    | some l =>
      match l.step makeCron os ctx (.update s.tree) with
      -- `make_cron` throws, and nothing in the daemon catches the exception
      | none => some (⟨s.tree, none⟩, some .died)
      | some l' => some (⟨s.tree, some l'⟩, spawnedSince l.log l'.log)
  | .expire id => s.handle makeCron os ctx (.expire id)
  | .complete id => s.handle makeCron os ctx (.complete id)

/-- Commands at the site, which start no other daemon, and updates that remove no
entry whose handler is in the queue. -/
def Allowed (t₀ : FileTree) (baseDir : FsPath) (s : CronService ε) : ServiceEvent → Prop
  | .command c => c.Allowed P t₀ baseDir ∧ (c.args = ["--daemon".toList] → c.daemonStarts = false)
  | .update => ∀ l, s.loop = some l → l.Timely os ctx (.update s.tree)
  | .expire _ => True
  | .complete _ => True

def Steps (t₀ : FileTree) (baseDir : FsPath) (s : CronService ε) (label : Option ServiceLabel)
    (s' : CronService ε) : Prop :=
  ∃ event, s.Allowed P os ctx t₀ baseDir event ∧
    s.step P version makeCron regex os ctx event = some (s', label)

end CronService

inductive CronBoard.Steps (t₀ : FileTree) (baseDir : FsPath) (b : CronBoard) :
    Option ServiceLabel → CronBoard → Prop
  | command {c : CronCall} (allowed : c.Allowed P t₀ baseDir)
      (noDaemon : c.args = ["--daemon".toList] → c.daemonStarts = false) :
      Steps t₀ baseDir b (some (.answered c (cronTable version makeCron regex b.table c).2))
        { b with table := (cronTable version makeCron regex b.table c).1 }
  | update (timely : ∀ e ∈ b.due, e ∈ b.table) :
      Steps t₀ baseDir b none { b with watched := b.table }
  | expire {e : CronEntry} (watched : e ∈ b.watched) (waiting : e ∉ b.due) :
      Steps t₀ baseDir b none { b with due := b.due.add e }
  | fire {e : CronEntry} (due : e ∈ b.due) :
      Steps t₀ baseDir b (some (.spawned (runJob os ctx e.job))) { b with due := b.due.remove e }

/-- What has been done to timers is done to the timers of entries, apart from what
came to an end. -/
structure Started (m : CronManager ε) (ops : List TimerOp) : Prop where
  known : ∀ op ∈ ops, op.id < m.nextId
  owned : ∀ id w, (opsOn id ops).foldl (fun w op => op.onWait w) none = some w →
    w.state ≠ .expired ∧
      (w.state = .aborted ∨ ∃ e timer, m.timers.find e = some timer ∧ timer.id = id)

namespace EventLoop

/-- Each wait that is under way is one of an entry's timer. -/
structure Tidy (l : EventLoop ε) : Prop where
  known : ∀ id w, l.waits id = some w → id < l.manager.nextId
  owned : ∀ id w, l.waits id = some w → w.state ≠ .aborted →
    ∃ e timer, l.manager.timers.find e = some timer ∧ timer.id = id

/-- The timers of the daemon are those of the watched entries, and the waits tell
which of them are due. -/
structure Shows (watched due : Crons) (l : EventLoop ε) : Prop where
  tidy : l.Tidy
  timers : ∀ e, (l.manager.timers.find e).isSome ↔ e ∈ watched
  wait : ∀ e timer, l.manager.timers.find e = some timer →
    l.waits timer.id = some ⟨if e ∈ due then .expired else .pending, e.job⟩
  due : ∀ e ∈ due, e ∈ watched

end EventLoop

/-- The file holds the table of the board, and the daemon runs. -/
structure CronService.Shows (t₀ : FileTree) (baseDir : FsPath) (s : CronService ε) (b : CronBoard) :
    Prop where
  stands : CronsStand t₀ baseDir s.tree b.table
  valid : ∀ e ∈ b.table, (makeCron e.expr).isSome
  running : ∃ l, s.loop = some l ∧ l.Shows b.watched b.due

end Model

variable {P : ProtoUtils} {version : Version} {ε : Type} {makeCron : Str → Option ε}
  {regex : Str → Option (Str → Bool)} {os : Os} {ctx : Context} {t₀ : FileTree} {baseDir : FsPath}

/-! ### Waits that are under way -/

/-! What the operations on one entry keep, the loops of an update keep. -/

section Loops

variable {Q : CronManager ε → List TimerOp → Prop}
  (hStart : ∀ m ops e r, Q m ops → m.start makeCron e = some r → Q r.1 (ops ++ r.2))
  (hDrop : ∀ m ops e, Q m ops → Q (m.drop e).1 (ops ++ (m.drop e).2)) {s s' : Merge ε}

include hStart in
theorem Merge.startNew_rule {n : CronEntry} {new : List CronEntry} (h : Q s.manager s.ops)
    (hNew : s.startNew makeCron n new = some s') : Q s'.manager s'.ops := by
  obtain ⟨r, hr, rfl⟩ := Option.map_eq_some_iff.mp hNew
  exact hStart _ _ n r h hr

include hStart in
theorem startLoop_rule {new : List CronEntry} (h : Q s.manager s.ops)
    (hLoop : startLoop makeCron new s = some s') : Q s'.manager s'.ops := by
  induction new generalizing s with
  | nil =>
    cases hLoop
    exact h
  | cons n new ih =>
    obtain ⟨s₁, hNew, hRest⟩ := Option.bind_eq_some_iff.mp hLoop
    exact ih (Merge.startNew_rule hStart h hNew) hRest

include hDrop in
theorem dropLoop_rule (fuel : Nat) (h : Q s.manager s.ops) :
    Q (dropLoop fuel s).manager (dropLoop fuel s).ops := by
  induction fuel generalizing s with
  | zero => exact h
  | succ fuel ih =>
    rw [dropLoop]
    cases s.old with
    | none => exact h
    | some old => exact ih (hDrop _ _ _ h)

include hStart hDrop

theorem mergeLoop_rule {fuel : Nat} (h : Q s.manager s.ops)
    (hLoop : mergeLoop makeCron fuel s = some s') : Q s'.manager s'.ops := by
  induction fuel generalizing s with
  | zero =>
    cases hLoop
    exact h
  | succ fuel ih =>
    rw [mergeLoop] at hLoop
    split at hLoop
    · rename_i n new old _ _
      split_ifs at hLoop
      · obtain ⟨s₁, hNew, hRest⟩ := Option.bind_eq_some_iff.mp hLoop
        exact ih (Merge.startNew_rule hStart h hNew) hRest
      · exact ih (hDrop _ _ _ h) hLoop
      · exact ih (s := s.keepBoth old new) h hLoop
    · cases hLoop
      exact h
    · cases hLoop
      exact h

theorem synchronise_rule {m m' : CronManager ε} {ops : List TimerOp} {crons : Crons} (h : Q m [])
    (hSync : m.synchronise makeCron crons = some (m', ops)) : Q m' ops := by
  obtain ⟨s₁, hLoop, hRest⟩ := Option.bind_eq_some_iff.mp hSync
  obtain ⟨s₂, hLast, hEnd⟩ := Option.map_eq_some_iff.mp hRest
  cases hEnd
  exact startLoop_rule hStart (dropLoop_rule hDrop _ (mergeLoop_rule hStart hDrop h hLoop)) hLast

end Loops

theorem CronManager.start_eq_some {m m' : CronManager ε} {e : CronEntry} {ops : List TimerOp}
    (h : m.start makeCron e = some (m', ops)) :
    ∃ expr timer, m' = m.emplace e expr ∧ m'.timers.find e = some timer ∧
      ops = [.run timer.id e.job] := by
  cases hExpr : makeCron e.expr with
  | none => simp [start, hExpr] at h
  | some expr =>
    obtain ⟨timer, hTimer⟩ : ∃ timer, (m.emplace e expr).timers.find e = some timer := by
      rw [emplace, SortedMap.find_emplace, if_pos rfl]
      exact ⟨_, rfl⟩
    simp only [start, hExpr, hTimer] at h
    cases h
    exact ⟨expr, timer, rfl, hTimer, rfl⟩

/-- The entry of an object keeps it when another object is started. -/
theorem CronManager.emplace_keeps {m : CronManager ε} {e e' : CronEntry} {expr : ε}
    {timer : CronTimer ε} (h : m.timers.find e' = some timer) :
    (m.emplace e expr).timers.find e' = some timer := by
  rw [emplace, SortedMap.find_emplace]
  split_ifs with he
  · rw [← he, h]
    rfl
  · exact h

theorem opsOn_run_of_ne {id id' : Nat} (h : id' ≠ id) (ops : List TimerOp) (job : Str) :
    opsOn id (ops ++ [.run id' job]) = opsOn id ops := by
  apply opsOn_append_of_forall_ne
  intro op hOp
  rw [List.mem_singleton.mp hOp]
  exact h

theorem Started.start {m m' : CronManager ε} {ops ops' : List TimerOp} {e : CronEntry}
    (h : Started m ops) (hStart : m.start makeCron e = some (m', ops')) :
    Started m' (ops ++ ops') := by
  obtain ⟨expr, timer, rfl, hTimer, rfl⟩ := CronManager.start_eq_some hStart
  refine ⟨fun op hOp => ?_, fun id w hw => ?_⟩
  · obtain hOp | hOp := List.mem_append.mp hOp
    · exact (h.known op hOp).trans (Nat.lt_succ_self _)
    · rw [List.mem_singleton.mp hOp]
      exact (m.emplace e expr).below e timer hTimer
  · obtain rfl | hne := eq_or_ne timer.id id
    · have hRun : some ⟨.pending, e.job⟩ = some w := by
        rw [← hw, opsOn_append, List.foldl_append]
        simp [opsOn, TimerOp.id, TimerOp.onWait]
      cases hRun
      exact ⟨WaitState.noConfusion, Or.inr ⟨e, timer, hTimer, rfl⟩⟩
    · rw [opsOn_run_of_ne hne] at hw
      obtain ⟨hExpired, hOwner⟩ := h.owned id w hw
      refine ⟨hExpired, hOwner.imp_right ?_⟩
      rintro ⟨e', timer', hTimer', hId⟩
      exact ⟨e', timer', CronManager.emplace_keeps hTimer', hId⟩

theorem Started.drop {m : CronManager ε} {ops : List TimerOp} (h : Started m ops) (e : CronEntry) :
    Started (m.drop e).1 (ops ++ (m.drop e).2) := by
  -- the other entries keep their timers
  have hKeeps : ∀ {e' timer'}, m.timers.find e' = some timer' → e' ≠ e →
      (m.erase e).timers.find e' = some timer' := by
    intro e' timer' hTimer' hne
    rw [CronManager.erase, SortedMap.find_erase, if_neg hne]
    exact hTimer'
  cases hTimer : m.timers.find e with
  | none =>
    rw [CronManager.drop, hTimer, List.append_nil]
    refine ⟨h.known, fun id w hw => ?_⟩
    obtain ⟨hExpired, hOwner⟩ := h.owned id w hw
    refine ⟨hExpired, hOwner.imp_right ?_⟩
    rintro ⟨e', timer', hTimer', hId⟩
    refine ⟨e', timer', hKeeps hTimer' ?_, hId⟩
    rintro rfl
    rw [hTimer] at hTimer'
    cases hTimer'
  | some timer =>
    rw [CronManager.drop_eq hTimer]
    refine ⟨fun op hOp => ?_, fun id w hw => ?_⟩
    · have hLt := m.below e timer hTimer
      simp only [List.mem_append, List.mem_cons, List.not_mem_nil, or_false] at hOp
      obtain hOp | rfl | rfl := hOp
      · exact h.known op hOp
      · exact hLt
      · exact hLt
    · rw [opsOn_append, List.foldl_append] at hw
      obtain rfl | hne := eq_or_ne timer.id id
      · simp only [opsOn, TimerOp.id, List.filter_cons, decide_true, if_true, List.filter_nil,
          List.foldl_cons, List.foldl_nil, TimerOp.onWait] at hw
        obtain ⟨w₁, hw₁, rfl⟩ := Option.map_eq_some_iff.mp hw
        obtain ⟨w₀, hw₀, rfl⟩ := Option.map_eq_some_iff.mp hw₁
        have hAborted := Wait.cancel_aborted (h.owned _ w₀ hw₀).1
        have hStill := Wait.cancel_aborted (w := w₀.cancel) (by rw [hAborted]; decide)
        exact ⟨by rw [hStill]; decide, Or.inl hStill⟩
      · have hQuiet : opsOn id [.cancel timer.id, .erase timer.id] = [] := by
          simp [opsOn, TimerOp.id, hne]
        rw [hQuiet] at hw
        obtain ⟨hExpired, hOwner⟩ := h.owned id w hw
        refine ⟨hExpired, hOwner.imp_right ?_⟩
        rintro ⟨e', timer', hTimer', rfl⟩
        refine ⟨e', timer', hKeeps hTimer' ?_, rfl⟩
        rintro rfl
        rw [hTimer] at hTimer'
        cases hTimer'
        exact hne rfl

theorem CronManager.update_started {t : FileTree} {path : FsPath} {m m' : CronManager ε}
    {ops : List TimerOp} (h : m.update makeCron os t path = some (m', ops)) : Started m' ops := by
  have hNothing : Started m [] := ⟨by simp, fun id w hw => by cases hw⟩
  rw [update] at h
  cases hOpen : os.openIfstream t path with
  | none =>
    rw [hOpen] at h
    cases h
    exact hNothing
  | some text =>
    rw [hOpen] at h
    exact synchronise_rule (fun _ _ _ _ h hStart => h.start hStart) (fun _ _ e h => h.drop e)
      hNothing h

namespace EventLoop

variable {l l' : EventLoop ε} {watched due crons : Crons} {t : FileTree} {e : CronEntry}
  {timer : CronTimer ε}

theorem Tidy.update (h : l.Tidy) (hLoad : loadCronList os t (cronsFile ctx) = .ok crons)
    (hTimely : l.Timely os ctx (.update t)) (hStep : l.step makeCron os ctx (.update t) = some l') :
    l'.Tidy := by
  obtain ⟨m, ops, hUpdate, hManager, _, hWaits⟩ := update_eq_some hStep
  have hStarted := CronManager.update_started hUpdate
  obtain ⟨hError, _⟩ | ⟨crons', hLoad', hSync⟩ := CronManager.update_cases hUpdate
  · cases hError.symm.trans hLoad
  obtain rfl := Except.ok.inj (hLoad.symm.trans hLoad')
  rw [← hManager] at hStarted hSync
  have hNew : ∀ id, l.manager.nextId ≤ id → l.waits id = none := by
    intro id hId
    cases hWait : l.waits id with
    | none => rfl
    | some w => exact absurd (h.known id w hWait) (not_lt.mpr hId)
  refine ⟨fun id w hw => ?_, fun id w hw hState => ?_⟩
  · obtain hId | hId := lt_or_ge id l.manager.nextId
    · exact hId.trans_le hSync.older
    · rw [hWaits, hNew id hId] at hw
      -- something was done to the object
      cases hOps : opsOn id ops with
      | nil =>
        rw [hOps] at hw
        cases hw
      | cons op rest =>
        have hMem : op ∈ opsOn id ops := hOps ▸ List.mem_cons_self
        rw [opsOn, List.mem_filter, decide_eq_true_eq] at hMem
        exact hMem.2 ▸ hStarted.known op hMem.1
  · obtain hId | hId := lt_or_ge id l.manager.nextId
    · by_cases hOwned : ∃ e timer, l.manager.timers.find e = some timer ∧ timer.id = id
      · obtain ⟨e, timer, hTimer, rfl⟩ := hOwned
        by_cases he : e ∈ crons
        · exact ⟨e, timer, ((hSync.settled e).kept he timer hTimer).1, rfl⟩
        · have hGone := update_gone hStep hLoad he hTimer (hTimely crons hLoad e timer he hTimer)
          exact absurd (hGone.aborted w hw) hState
      · rw [hWaits] at hw
        refine absurd (aborted_of_opsOn id (fun op hOp => ?_) (fun w₀ hw₀ => ?_) w hw) hState
        · rw [opsOn, List.mem_filter, decide_eq_true_eq] at hOp
          refine ⟨hOp.2, fun job hRun => ?_⟩
          exact absurd (hSync.fresh id job (hRun ▸ hOp.1)) (not_le.mpr hId)
        · by_contra hState₀
          exact hOwned (h.owned id w₀ hw₀ hState₀)
    · rw [hWaits, hNew id hId] at hw
      exact (hStarted.owned id w hw).2.resolve_left hState

/-! ### One event of the loop -/

theorem start_shows : (start : EventLoop ε).Shows ∅ ∅ where
  tidy := ⟨fun _ _ h => (by cases h), fun _ _ h => (by cases h)⟩
  timers e := iff_of_false (by simp [start, CronManager.empty]) (SortedSet.not_mem_empty e)
  wait _ _ h := by cases h
  due e he := absurd he (SortedSet.not_mem_empty e)

/-- The wait of one entry goes on. -/
theorem Shows.goesOn (h : l.Shows watched due) (hTimer : l.manager.timers.find e = some timer)
    (hManager : l'.manager = l.manager) {due' : Crons} (hWaits : l'.waits =
      Function.update l.waits timer.id (some ⟨if e ∈ due' then .expired else .pending, e.job⟩))
    (hDue : ∀ e', e' ≠ e → (e' ∈ due' ↔ e' ∈ due)) : l'.Shows watched due' := by
  have hMem : e ∈ watched := (h.timers e).mp (Option.isSome_of_eq_some hTimer)
  refine ⟨⟨fun id w hw => ?_, fun id w hw hState => ?_⟩, ?_, fun e' timer' hTimer' => ?_, ?_⟩
  · rw [hManager]
    obtain rfl | hne := eq_or_ne id timer.id
    · exact l.manager.below e timer hTimer
    · rw [hWaits, Function.update_of_ne hne] at hw
      exact h.tidy.known id w hw
  · rw [hManager]
    obtain rfl | hne := eq_or_ne id timer.id
    · exact ⟨e, timer, hTimer, rfl⟩
    · rw [hWaits, Function.update_of_ne hne] at hw
      exact h.tidy.owned id w hw hState
  · rw [hManager]
    exact h.timers
  · rw [hManager] at hTimer'
    obtain rfl | hne := eq_or_ne e' e
    · obtain rfl := Option.some.inj (hTimer.symm.trans hTimer')
      rw [hWaits, Function.update_self]
    · have hId : timer'.id ≠ timer.id := fun hId =>
        hne (l.manager.apart e' e timer' timer hTimer' hTimer hId)
      rw [hWaits, Function.update_of_ne hId, h.wait e' timer' hTimer']
      simp only [hDue e' hne]
  · intro e' he'
    obtain rfl | hne := eq_or_ne e' e
    · exact hMem
    · exact h.due e' ((hDue e' hne).mp he')

/-- Whose wait it is that is under way. -/
theorem Shows.owner (h : l.Shows watched due) {id : Nat} {w : Wait} (hWait : l.waits id = some w)
    (hState : w.state ≠ .aborted) :
    ∃ e timer, l.manager.timers.find e = some timer ∧ timer.id = id ∧ e ∈ watched ∧
      w = ⟨if e ∈ due then .expired else .pending, e.job⟩ := by
  obtain ⟨e, timer, hTimer, rfl⟩ := h.tidy.owned id w hWait hState
  refine ⟨e, timer, hTimer, rfl, (h.timers e).mp (Option.isSome_of_eq_some hTimer), ?_⟩
  exact Option.some.inj (hWait.symm.trans (h.wait e timer hTimer))

theorem Shows.running (h : l.Shows watched due) (he : e ∈ watched) :
    ∃ timer, l.manager.timers.find e = some timer ∧
      l.waits timer.id = some ⟨if e ∈ due then .expired else .pending, e.job⟩ := by
  obtain ⟨timer, hTimer⟩ := Option.isSome_iff_exists.mp ((h.timers e).mpr he)
  exact ⟨timer, hTimer, h.wait e timer hTimer⟩

theorem Shows.timely_iff (h : l.Shows watched due)
    (hLoad : loadCronList os t (cronsFile ctx) = .ok crons) :
    l.Timely os ctx (.update t) ↔ ∀ e ∈ due, e ∈ crons := by
  constructor
  · intro hTimely e he
    by_contra hMissing
    obtain ⟨timer, hTimer, hWait⟩ := h.running (h.due e he)
    rw [if_pos he] at hWait
    exact hTimely crons hLoad e timer hMissing hTimer e.job hWait
  · intro hDue crons' hLoad' e timer hMissing hTimer job hExpired
    obtain rfl := Except.ok.inj (hLoad.symm.trans hLoad')
    rw [h.wait e timer hTimer, if_neg fun he => hMissing (hDue e he)] at hExpired
    cases hExpired

theorem Shows.update (h : l.Shows watched due) (hLoad : loadCronList os t (cronsFile ctx) = .ok crons)
    (hTimely : l.Timely os ctx (.update t)) (hStep : l.step makeCron os ctx (.update t) = some l') :
    l'.Shows crons due := by
  obtain ⟨ops, hSync, _, hWaits⟩ := update_loaded hStep hLoad
  have hTimers : ∀ e, (l'.manager.timers.find e).isSome ↔ e ∈ crons := fun e =>
    (hSync.settled e).isSome_iff
  refine ⟨h.tidy.update hLoad hTimely hStep, hTimers, fun e timer hTimer => ?_,
    (h.timely_iff hLoad).mp hTimely⟩
  have he : e ∈ crons := (hTimers e).mp (Option.isSome_of_eq_some hTimer)
  cases hBefore : l.manager.timers.find e with
  | none =>
    obtain ⟨timer', hTimer', _, hWait⟩ := started_of_update hStep hLoad he hBefore
    obtain rfl := Option.some.inj (hTimer.symm.trans hTimer')
    have hNotDue : e ∉ due := by
      intro hDue
      have hSome := (h.timers e).mpr (h.due e hDue)
      rw [hBefore] at hSome
      cases hSome
    rw [hWait, if_neg hNotDue]
  | some timer' =>
    obtain ⟨hKept, hQuiet⟩ := (hSync.settled e).kept he timer' hBefore
    obtain rfl := Option.some.inj (hTimer.symm.trans hKept)
    rw [hWaits, hQuiet]
    exact h.wait e timer hBefore

theorem Shows.expired (h : l.Shows watched due) (hTimer : l.manager.timers.find e = some timer) :
    Shows watched (due.add e)
      { l with waits := Function.update l.waits timer.id (some ⟨.expired, e.job⟩) } := by
  refine h.goesOn hTimer ?_ ?_ fun e' hne => ?_
  · rfl
  · rw [if_pos (SortedSet.mem_add.mpr (Or.inl rfl))]
  · rw [SortedSet.mem_add, or_iff_right hne]

theorem Shows.fired (h : l.Shows watched due) (hTimer : l.manager.timers.find e = some timer) :
    Shows watched (due.remove e) (l.fire os ctx timer.id e.job) := by
  refine h.goesOn hTimer ?_ ?_ fun e' hne => ?_
  · exact l.fire_manager timer.id e.job
  · rw [fire_waits, if_neg fun hMem => (SortedSet.mem_remove.mp hMem).1 rfl]
  · rw [SortedSet.mem_remove, and_iff_right hne]

/-- The handler of a cancelled wait does nothing to an entry. -/
theorem Shows.forgotten (h : l.Shows watched due) {id : Nat} {job : Str}
    (hWait : l.waits id = some ⟨.aborted, job⟩) :
    Shows watched due { l with waits := Function.update l.waits id none } := by
  have hKeep : ∀ id' w, Function.update l.waits id none id' = some w → l.waits id' = some w := by
    intro id' w hw
    rw [Function.update_apply] at hw
    split_ifs at hw
    exact hw
  refine ⟨⟨fun id' w hw => h.tidy.known id' w (hKeep id' w hw),
    fun id' w hw => h.tidy.owned id' w (hKeep id' w hw)⟩, h.timers, fun e timer hTimer => ?_, h.due⟩
  have hRunning := h.wait e timer hTimer
  have hne : timer.id ≠ id := by
    rintro rfl
    rw [hWait] at hRunning
    split_ifs at hRunning <;> cases hRunning
  exact (Function.update_of_ne hne ..).trans hRunning

end EventLoop

theorem spawnedSince_append (log rest : List LoopAction) :
    spawnedSince log (log ++ rest) = (rest.findSome? LoopAction.spawned).map .spawned := by
  rw [spawnedSince, List.drop_left]

theorem spawnedSince_self (log : List LoopAction) : spawnedSince log log = none := by
  have hAppend := spawnedSince_append log []
  rwa [List.append_nil] at hAppend

theorem EventLoop.update_spawns {l l' : EventLoop ε} {t : FileTree}
    (hStep : l.step makeCron os ctx (.update t) = some l') : spawnedSince l.log l'.log = none := by
  obtain ⟨m, ops, _, _, hLog, _⟩ := update_eq_some hStep
  have hNone : (ops.map LoopAction.timer).findSome? LoopAction.spawned = none := by
    simp [LoopAction.spawned]
  rw [hLog, spawnedSince_append, hNone, Option.map_none]

theorem EventLoop.fire_spawns (l : EventLoop ε) (id : Nat) (job : Str) :
    spawnedSince l.log (l.fire os ctx id job).log = some (.spawned (runJob os ctx job)) := by
  rw [fire_log, spawnedSince_append]
  rfl

/-- The entries of the table keep valid expressions. -/
theorem cronTable_valid {crons : Crons} (hValid : ∀ e ∈ crons, (makeCron e.expr).isSome)
    (c : CronCall) : ∀ e ∈ (cronTable version makeCron regex crons c).1, (makeCron e.expr).isSome := by
  obtain ⟨p, args, daemonStarts⟩ := c
  by_cases hVersion : args = ["--version".toList]
  · simp only [cronTable, hVersion, if_true]
    exact hValid
  simp only [cronTable, hVersion, if_false]
  obtain _ | ⟨option, _ | ⟨first, _ | ⟨second, _ | ⟨third, rest⟩⟩⟩⟩ := args
  · exact hValid
  · dsimp only
    split_ifs
    all_goals exact hValid
  · dsimp only
    split_ifs
    all_goals exact hValid
  · dsimp only [tableAdd, tableDel]
    split_ifs with _ hExpr
    · intro e he
      obtain rfl | he := SortedSet.mem_add.mp he
      · exact hExpr
      · exact hValid e he
    · exact hValid
    · exact hValid
    · exact fun e he => hValid e (SortedSet.mem_remove.mp he).2
    · exact hValid
    · exact hValid
  · exact hValid

/-! ### The service and its board -/

section Service

variable {s : CronService ε} {b : CronBoard} (hOs : os.Faultless) (hBase : ctx.baseDir = baseDir)
  (h : s.Shows makeCron t₀ baseDir b)
include hOs hBase h

/-- No exception leaves an update. -/
theorem CronService.Shows.updates {l : EventLoop ε} (hLoop : s.loop = some l) :
    ∃ l', l.step makeCron os ctx (.update s.tree) = some l' ∧
      (l.Timely os ctx (.update s.tree) → l'.Shows b.table b.due) := by
  have hLoad := h.stands.load hOs hBase
  have hValid : ∀ crons, loadCronList os s.tree (cronsFile ctx) = .ok crons →
      ∀ e ∈ crons, (makeCron e.expr).isSome := by
    intro crons hLoad'
    obtain rfl := Except.ok.inj (hLoad.symm.trans hLoad')
    exact h.valid
  obtain ⟨l', hStep⟩ := l.update_of_valid hValid
  obtain ⟨l₀, hLoop₀, hShows⟩ := h.running
  obtain rfl := Option.some.inj (hLoop.symm.trans hLoop₀)
  exact ⟨l', hStep, fun hTimely => hShows.update hLoad hTimely hStep⟩

end Service

theorem CronService.Shows.command (hCron : Accepting makeCron) (version : Version)
    (regex : Str → Option (Str → Bool)) {s : CronService ε} {b : CronBoard}
    (h : s.Shows makeCron t₀ baseDir b) {c : CronCall} (hAllowed : c.Allowed P t₀ baseDir) :
    (c.run P version makeCron regex s.tree).2 = (cronTable version makeCron regex b.table c).2 ∧
      CronService.Shows makeCron t₀ baseDir ⟨(c.run P version makeCron regex s.tree).1, s.loop⟩
        { b with table := (cronTable version makeCron regex b.table c).1 } := by
  obtain ⟨hStands, hAnswer⟩ := CronCall.run_simulates hCron version s.tree b.table c hAllowed h.stands
  exact ⟨hAnswer, hStands, cronTable_valid h.valid c, h.running⟩

theorem CronService.refines_board (hCron : Accepting makeCron) (hOs : os.Faultless)
    (hBase : ctx.baseDir = baseDir) :
    Simulates (Steps P version makeCron regex os ctx t₀ baseDir)
      (CronBoard.Steps P version makeCron regex os ctx t₀ baseDir)
      (fun s b => s.Shows makeCron t₀ baseDir b) := by
  rintro s b label s' h ⟨event, hAllowed, hStep⟩
  cases event with
  | command c =>
    obtain ⟨hAnswer, hShows⟩ := h.command hCron version regex hAllowed.1
    cases hStep
    refine ⟨_, ?_, hShows⟩
    rw [hAnswer]
    exact .single (.command hAllowed.1 hAllowed.2)
  | update =>
    obtain ⟨l, hLoop, hShows⟩ := h.running
    obtain ⟨l', hUpdate, hNext⟩ := h.updates hOs hBase hLoop
    have hTimely := hAllowed l hLoop
    simp only [step, hLoop, hUpdate] at hStep
    cases hStep
    rw [EventLoop.update_spawns hUpdate]
    refine ⟨_, .single (.update ?_), h.stands, h.valid, l', rfl, hNext hTimely⟩
    exact (hShows.timely_iff (h.stands.load hOs hBase)).mp hTimely
  | expire id =>
    obtain ⟨l, hLoop, hShows⟩ := h.running
    simp only [step, handle, hLoop] at hStep
    obtain ⟨l', hExpire, hEq⟩ := Option.map_eq_some_iff.mp hStep
    cases hEq
    obtain ⟨job, hWait, rfl⟩ := EventLoop.expire_eq_some hExpire
    obtain ⟨e, timer, hTimer, rfl, hWatched, hOwner⟩ := hShows.owner hWait WaitState.noConfusion
    obtain ⟨hNotDue, rfl⟩ : e ∉ b.due ∧ job = e.job := by
      split_ifs at hOwner with hDue
      · cases hOwner
      · cases hOwner
        exact ⟨hDue, rfl⟩
    rw [spawnedSince_self]
    exact ⟨_, .single (.expire hWatched hNotDue), h.stands, h.valid, _, rfl, hShows.expired hTimer⟩
  | complete id =>
    obtain ⟨l, hLoop, hShows⟩ := h.running
    simp only [step, handle, hLoop] at hStep
    obtain ⟨l', hComplete, hEq⟩ := Option.map_eq_some_iff.mp hStep
    cases hEq
    obtain ⟨job, hWait, rfl⟩ | ⟨job, hWait, rfl⟩ := EventLoop.complete_cases hComplete
    · obtain ⟨e, timer, hTimer, rfl, hWatched, hOwner⟩ := hShows.owner hWait WaitState.noConfusion
      obtain ⟨hDue, rfl⟩ : e ∈ b.due ∧ job = e.job := by
        split_ifs at hOwner with hDue
        · cases hOwner
          exact ⟨hDue, rfl⟩
        · cases hOwner
      rw [EventLoop.fire_spawns]
      exact ⟨_, .single (.fire hDue), h.stands, h.valid, _, rfl, hShows.fired hTimer⟩
    · rw [spawnedSince_self]
      exact ⟨b, .nil b, h.stands, h.valid, _, rfl, hShows.forgotten hWait⟩

/-! ### What the board shows, the service can do -/

theorem CronBoard.refines_service (hCron : Accepting makeCron) (hOs : os.Faultless)
    (hBase : ctx.baseDir = baseDir) :
    Simulates (CronBoard.Steps P version makeCron regex os ctx t₀ baseDir)
      (CronService.Steps P version makeCron regex os ctx t₀ baseDir)
      (fun b s => s.Shows makeCron t₀ baseDir b) := by
  rintro b s label b' h hStep
  obtain ⟨l, hLoop, hShows⟩ := h.running
  cases hStep with
  | @command c hAllowed hNoDaemon =>
    obtain ⟨hAnswer, hNext⟩ := h.command hCron version regex hAllowed
    refine ⟨_, .single ⟨.command c, ⟨hAllowed, hNoDaemon⟩, ?_⟩, hNext⟩
    rw [CronService.step, hAnswer]
  | update hTimely =>
    obtain ⟨l', hUpdate, hNext⟩ := h.updates hOs hBase hLoop
    have hAllowed := (hShows.timely_iff (h.stands.load hOs hBase)).mpr hTimely
    refine ⟨⟨s.tree, some l'⟩, .single ⟨.update, ?_, ?_⟩, h.stands, h.valid, l', rfl, hNext hAllowed⟩
    · intro l₀ hLoop₀
      obtain rfl := Option.some.inj (hLoop.symm.trans hLoop₀)
      exact hAllowed
    · simp only [CronService.step, hLoop, hUpdate, EventLoop.update_spawns hUpdate]
  | @expire e hWatched hNotDue =>
    obtain ⟨timer, hTimer, hWait⟩ := hShows.running hWatched
    rw [if_neg hNotDue] at hWait
    refine ⟨⟨s.tree, some _⟩, .single ⟨.expire timer.id, trivial, ?_⟩, h.stands, h.valid, _, rfl,
      hShows.expired hTimer⟩
    simp only [CronService.step, CronService.handle, hLoop, EventLoop.step, hWait, Option.map_some,
      spawnedSince_self]
  | @fire e hDue =>
    obtain ⟨timer, hTimer, hWait⟩ := hShows.running (hShows.due e hDue)
    rw [if_pos hDue] at hWait
    refine ⟨⟨s.tree, some (l.fire os ctx timer.id e.job)⟩,
      .single ⟨.complete timer.id, trivial, ?_⟩, h.stands, h.valid, _, rfl, hShows.fired hTimer⟩
    simp only [CronService.step, CronService.handle, hLoop, EventLoop.step, hWait, Option.map_some,
      EventLoop.fire_spawns]

/-- From outside, the commands and the daemon are a board: whatever is seen of the
one can be seen of the other. So the daemon starts the jobs of the entries in the
table that it has read last, and no exception ends it. -/
theorem cron_service_refines (hCron : Accepting makeCron) (version : Version)
    (regex : Str → Option (Str → Bool)) {os : Os} (hOs : os.Faultless) {ctx : Context}
    (hBase : ctx.baseDir = baseDir) {t : FileTree} {crons : Crons}
    (hSaved : t.content (baseDir / "core" / "crons") = some (saveText crons))
    (hProper : ∀ e ∈ crons, e.HasJob ∧ e.HasExpr) (hValid : ∀ e ∈ crons, (makeCron e.expr).isSome)
    (seen : List ServiceLabel) :
    (∀ s, Traces (CronService.Steps P version makeCron regex os ctx t baseDir) ⟨t, some .start⟩ seen s →
      ∃ b, Traces (CronBoard.Steps P version makeCron regex os ctx t baseDir) ⟨crons, ∅, ∅⟩ seen b ∧
        s.Shows makeCron t baseDir b) ∧
    ∀ b, Traces (CronBoard.Steps P version makeCron regex os ctx t baseDir) ⟨crons, ∅, ∅⟩ seen b →
      ∃ s, Traces (CronService.Steps P version makeCron regex os ctx t baseDir) ⟨t, some .start⟩ seen s ∧
        s.Shows makeCron t baseDir b := by
  have hShows : CronService.Shows makeCron t baseDir ⟨t, some .start⟩ ⟨crons, ∅, ∅⟩ :=
    ⟨⟨hSaved, hProper, FileTree.SameOutside.refl _ t⟩, hValid, _, rfl, EventLoop.start_shows⟩
  constructor
  · intro s hTraces
    exact (CronService.refines_board hCron hOs hBase).traces hTraces hShows
  · intro b hTraces
    exact (CronBoard.refines_service hCron hOs hBase).traces hTraces hShows

/-! ### A job that is added and started -/

def serviceCall : CronCall := ⟨siteProcess siteEnv 7 1, ["--add", "0 * * * * *", "a"], true⟩

theorem serviceCall_allowed : serviceCall.Allowed .reference cronSite [] := by
  refine ⟨Os.ideal_faultless _, ⟨_, rfl, rfl⟩, ?_⟩
  rintro cron job h
  obtain ⟨rfl, rfl⟩ : "0 * * * * *".toList = cron ∧ "a".toList = job := by simpa [serviceCall] using h
  decide

def serviceSeen : List ServiceLabel :=
  [.answered serviceCall ⟨[], 0, true⟩, .spawned (runJob (.ideal ∅) demoContext "a")]

def serviceSteps : CronBoard → Option ServiceLabel → CronBoard → Prop :=
  CronBoard.Steps .reference scriptVersion sixFields literalMask (.ideal ∅) demoContext cronSite []

theorem serviceSeen_board : ∃ b, Traces serviceSteps ⟨∅, ∅, ∅⟩ serviceSeen b := by
  have hNone : ∀ e : CronEntry, e ∉ (∅ : Crons) := SortedSet.not_mem_empty
  have hDue : (⟨"a", "0 * * * * *"⟩ : CronEntry) ∈ (∅ : Crons).add ⟨"a", "0 * * * * *"⟩ :=
    SortedSet.mem_add.mpr (Or.inl rfl)
  obtain ⟨table, hAdd, hEntry⟩ : ∃ table : Crons, serviceSteps ⟨∅, ∅, ∅⟩
      (some (.answered serviceCall ⟨[], 0, true⟩)) ⟨table, ∅, ∅⟩ ∧ ⟨"a", "0 * * * * *"⟩ ∈ table :=
    ⟨_, .command serviceCall_allowed (by decide), by decide⟩
  have hUpdate : serviceSteps ⟨table, ∅, ∅⟩ none ⟨table, table, ∅⟩ :=
    .update fun e he => absurd he (hNone e)
  have hExpire : serviceSteps ⟨table, table, ∅⟩ none
      ⟨table, table, (∅ : Crons).add ⟨"a", "0 * * * * *"⟩⟩ := .expire hEntry (hNone _)
  have hFire : serviceSteps ⟨table, table, (∅ : Crons).add ⟨"a", "0 * * * * *"⟩⟩ _ _ := .fire hDue
  exact ⟨_, .cons hAdd (.cons hUpdate (.cons hExpire (.single hFire)))⟩

theorem cron_service_refines_one : ∃ s, Traces (CronService.Steps .reference scriptVersion sixFields
    literalMask (.ideal ∅) demoContext cronSite []) ⟨cronSite, some .start⟩ serviceSeen s := by
  obtain ⟨b, hSeen⟩ := serviceSeen_board
  obtain ⟨s, hTraces, _⟩ := (cron_service_refines sixFields_accepting scriptVersion literalMask
    (Os.ideal_faultless ∅) rfl (by decide) (fun e he => absurd he (SortedSet.not_mem_empty e))
    (fun e he => absurd he (SortedSet.not_mem_empty e)) serviceSeen).2 b hSeen
  exact ⟨s, hTraces⟩

end CisCore
