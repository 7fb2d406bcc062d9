import CisCore.Cron.Running
import CisCore.Library.Order
import Mathlib.Data.Int.SuccPred
import Mathlib.Data.Rat.Floor
import Mathlib.Tactic.Linarith

/-! # Timers and clocks

`cron_timer::run` reads the system clock in whole seconds and takes the wait from there
to the next time of the expression; the steady clock counts the wait from the instant at
which the timer is armed. Instants are those of the system clock, with the parts of a
second; the steady clock differs from it by a constant.
-/

namespace CisCore

open Transition

/-- The time that the cron library has named, and what the steady clock shows when the wait
for it is over. -/
structure Deadline (τ : Type) where
  next : ℤ
  expiry : τ

structure Firing (τ : Type) where
  next : ℤ
  dispatched : τ

structure ArmedTimer (τ : Type) where
  deadline : Deadline τ
  armed : τ
  fired : List (Firing τ)

/-- The handler of an expired wait: it calls the callback, and behind it `run` reads the
system clock at `now` and the steady one at `armed`. -/
structure Dispatch (τ : Type) where
  dispatched : τ
  now : τ
  armed : τ

/-- What the loop does in the place of the services of one timer. -/
def serviceEvents {τ : Type} (id : Nat) (ds : List (Dispatch τ)) : List LoopEvent :=
  ds.flatMap fun _ => [.expire id, .complete id]

section Model

variable {ε τ : Type} [Field τ] [LinearOrder τ] [FloorRing τ] (cronNext : ε → ℤ → ℤ) (offset : τ)

/-- `std::time`. -/
def time (now : τ) : ℤ := ⌊now⌋

def steady (instant : τ) : τ := instant + offset

def CronTimer.run (timer : CronTimer ε) (now armed : τ) : Deadline τ :=
  let next := cronNext timer.expr (time now)
  let timeToNext := next - time now
  ⟨next, steady offset armed + (timeToNext : ℤ)⟩

namespace ArmedTimer

def start (timer : CronTimer ε) (now armed : τ) : ArmedTimer τ :=
  ⟨timer.run cronNext offset now armed, armed, []⟩

def step (timer : CronTimer ε) (s : ArmedTimer τ) (d : Dispatch τ) : Option (ArmedTimer τ) :=
  if s.deadline.expiry ≤ steady offset d.dispatched ∧ s.armed ≤ d.dispatched ∧
      d.dispatched ≤ d.now ∧ d.now ≤ d.armed then
    some ⟨timer.run cronNext offset d.now d.armed, d.armed,
      s.fired ++ [⟨s.deadline.next, d.dispatched⟩]⟩
  else none

/-- No wait is over before the time that it is for, and the times so far are increasing. -/
structure Punctual (occurs : Set ℤ) (s : ArmedTimer τ) : Prop where
  waits : s.deadline.next + offset ≤ s.deadline.expiry
  increasing : (s.fired.map Firing.next ++ [s.deadline.next]).Pairwise (· < ·)
  occurs : ∀ o ∈ s.fired.map Firing.next ++ [s.deadline.next], o ∈ occurs
  notEarly : ∀ f ∈ s.fired, f.next ≤ f.dispatched

/-- The timer whose iteration `k` is armed at `instants k`, as soon as the one before is served. -/
def serve (timer : CronTimer ε) (instants : ℕ → τ) : ℕ → ArmedTimer τ
  | 0 => start cronNext offset timer (instants 0) (instants 0)
  | k + 1 =>
    let s := serve timer instants k
    ⟨timer.run cronNext offset (instants (k + 1)) (instants (k + 1)), instants (k + 1),
      s.fired ++ [⟨s.deadline.next, instants (k + 1)⟩]⟩

end ArmedTimer

/-- An unending run whose handlers and callbacks take no time: iteration `k` is armed at
`instants k`, and its handler begins `delays k` after its wait is over, less than a second. -/
structure PromptRun (timer : CronTimer ε) (states : ℕ → ArmedTimer τ) (instants delays : ℕ → τ) :
    Prop where
  first : states 0 = .start cronNext offset timer (instants 0) (instants 0)
  step : ∀ k, (states k).step cronNext offset timer
    ⟨instants (k + 1), instants (k + 1), instants (k + 1)⟩ = some (states (k + 1))
  dispatched : ∀ k, steady offset (instants (k + 1)) = (states k).deadline.expiry + delays k
  prompt : ∀ k, delays k < 1

/-- However long the timer is served, its callback does not run. -/
def CronTimer.NeverFires (timer : CronTimer ε) (now armed : τ) : Prop :=
  ∀ ds s, Transition.run (ArmedTimer.step cronNext offset timer)
    (.start cronNext offset timer now armed) ds = some s → s.fired = []

end Model

/-- Each service of a timer is an expiry and a completion of its wait in the loop. -/
theorem EventLoop.run_serviceEvents {ε τ : Type} (makeCron : Str → Option ε) (os : Os)
    (ctx : Context) {l : EventLoop ε} {id : Nat} {job : Str}
    (hWait : l.waits id = some ⟨.pending, job⟩) (ds : List (Dispatch τ)) :
    ∃ l', Transition.run (step makeCron os ctx) l (serviceEvents id ds) = some l' ∧
      l'.log = l.log ++
        ds.flatMap fun _ => [.spawn id (runJob os ctx job), .timer (.run id job)] := by
  induction ds generalizing l with
  | nil => exact ⟨l, rfl, by simp⟩
  | cons d ds ih =>
    have hExpire : step makeCron os ctx l (.expire id) =
        some { l with waits := Function.update l.waits id (some ⟨.expired, job⟩) } := by
      rw [step]
      simp only [hWait]
    obtain ⟨l', hRest, hLog⟩ := ih (l := ({ l with
      waits := Function.update l.waits id (some ⟨.expired, job⟩) } : EventLoop ε).fire os ctx id job)
      (by simp)
    refine ⟨l', ?_, ?_⟩
    · rw [serviceEvents, List.flatMap_cons, List.cons_append, run_cons, hExpire, Option.bind_some,
        List.singleton_append, run_cons, step]
      simp only [Function.update_self, Option.bind_some]
      exact hRest
    · rw [hLog, fire_log, List.flatMap_cons, List.append_assoc]

variable {ε τ : Type} [Field τ] [LinearOrder τ] [FloorRing τ] {cronNext : ε → ℤ → ℤ} {offset : τ}
  {timer : CronTimer ε} {occurs : Set ℤ} {s s' : ArmedTimer τ}

theorem ArmedTimer.step_eq_some {d : Dispatch τ} :
    s.step cronNext offset timer d = some s' ↔
      (s.deadline.expiry ≤ steady offset d.dispatched ∧ s.armed ≤ d.dispatched ∧
        d.dispatched ≤ d.now ∧ d.now ≤ d.armed) ∧
      s' = ⟨timer.run cronNext offset d.now d.armed, d.armed,
        s.fired ++ [⟨s.deadline.next, d.dispatched⟩]⟩ := by
  rw [step]
  split_ifs with h
  · rw [Option.some_inj, eq_comm, and_iff_right h]
  · simp [h]

namespace PromptRun

variable {states : ℕ → ArmedTimer τ} {instants delays : ℕ → τ}

theorem deadline (h : PromptRun cronNext offset timer states instants delays) (k : ℕ) :
    (states k).deadline = timer.run cronNext offset (instants k) (instants k) := by
  cases k with
  | zero =>
    rw [h.first]
    rfl
  | succ k =>
    rw [(ArmedTimer.step_eq_some.mp (h.step k)).2]

theorem next_eq (h : PromptRun cronNext offset timer states instants delays) (k : ℕ) :
    (states k).deadline.next = cronNext timer.expr ⌊instants k⌋ := by
  rw [h.deadline]
  rfl

/-- The part of a second at which a timer was armed is still there when it is served. -/
theorem served_at (h : PromptRun cronNext offset timer states instants delays) (k : ℕ) :
    instants (k + 1) = (states k).deadline.next + Int.fract (instants k) + delays k := by
  have hDispatched := h.dispatched k
  rw [h.deadline k] at hDispatched ⊢
  rw [Int.fract]
  simp only [CronTimer.run, steady, time] at hDispatched ⊢
  push_cast at hDispatched
  refine add_right_cancel (hDispatched.trans ?_)
  ring

end PromptRun

theorem ArmedTimer.serve_eq (timer : CronTimer ε) (instants : ℕ → τ) (k : ℕ) :
    (serve cronNext offset timer instants k).deadline =
        timer.run cronNext offset (instants k) (instants k) ∧
      (serve cronNext offset timer instants k).armed = instants k := by
  cases k with
  | zero => exact ⟨rfl, rfl⟩
  | succ k => exact ⟨rfl, rfl⟩

variable [IsStrictOrderedRing τ]

theorem promptRun_serve {instants delays : ℕ → τ} (hLater : ∀ k, instants k ≤ instants (k + 1))
    (hDispatched : ∀ k, steady offset (instants (k + 1)) =
      (timer.run cronNext offset (instants k) (instants k)).expiry + delays k)
    (hDelays : ∀ k, 0 ≤ delays k ∧ delays k < 1) :
    PromptRun cronNext offset timer (.serve cronNext offset timer instants) instants delays := by
  refine ⟨rfl, fun k => ArmedTimer.step_eq_some.mpr ⟨⟨?_, ?_, le_refl _, le_refl _⟩, rfl⟩,
    fun k => ?_, fun k => (hDelays k).2⟩
  · rw [(ArmedTimer.serve_eq timer instants k).1, hDispatched k]
    exact le_add_of_nonneg_right (hDelays k).1
  · rw [(ArmedTimer.serve_eq timer instants k).2]
    exact hLater k
  · rw [(ArmedTimer.serve_eq timer instants k).1]
    exact hDispatched k

/-! ### No callback runs early -/

/-- The seconds that the system clock has cut off only make the wait longer. -/
theorem CronTimer.run_waits (timer : CronTimer ε) {now armed : τ} (h : now ≤ armed) :
    (timer.run cronNext offset now armed).next + offset ≤
      (timer.run cronNext offset now armed).expiry := by
  have hFloor : ((time now : ℤ) : τ) ≤ now := Int.floor_le now
  simp only [CronTimer.run, steady]
  push_cast
  linarith

theorem ArmedTimer.Punctual.start (hNext : Schedule.IsNext occurs (cronNext timer.expr))
    {now armed : τ} (h : now ≤ armed) :
    (ArmedTimer.start cronNext offset timer now armed).Punctual offset occurs := by
  refine ⟨timer.run_waits h, List.pairwise_singleton .., ?_, by simp [ArmedTimer.start]⟩
  intro o ho
  rw [List.mem_singleton.mp ho]
  exact hNext.mem (time now)

theorem ArmedTimer.Punctual.step (hNext : Schedule.IsNext occurs (cronNext timer.expr))
    (h : s.Punctual offset occurs) {d : Dispatch τ}
    (hStep : s.step cronNext offset timer d = some s') : s'.Punctual offset occurs := by
  obtain ⟨⟨hExpired, _, hNow, hArmed⟩, rfl⟩ := ArmedTimer.step_eq_some.mp hStep
  have hDue : (s.deadline.next : τ) ≤ d.dispatched := by
    have hWaits := h.waits.trans hExpired
    rw [steady] at hWaits
    linarith
  have hLater : s.deadline.next < cronNext timer.expr (time d.now) :=
    (Int.le_floor.mpr (hDue.trans hNow)).trans_lt (hNext.lt _)
  have hOld := h.increasing
  rw [List.pairwise_append] at hOld
  refine ⟨timer.run_waits hArmed, ?_, ?_, ?_⟩
  · rw [List.map_append, List.pairwise_append]
    refine ⟨h.increasing, List.pairwise_singleton .., fun o ho o' ho' => ?_⟩
    rw [List.mem_singleton.mp ho']
    obtain ho | ho := List.mem_append.mp ho
    · exact (hOld.2.2 o ho _ (List.mem_singleton.mpr rfl)).trans hLater
    · exact (List.mem_singleton.mp ho).trans_lt hLater
  · intro o ho
    rw [List.map_append] at ho
    obtain ho | ho := List.mem_append.mp ho
    · exact h.occurs o ho
    · rw [List.mem_singleton.mp ho]
      exact hNext.mem _
  · intro f hf
    obtain hf | hf := List.mem_append.mp hf
    · exact h.notEarly f hf
    · rw [List.mem_singleton.mp hf]
      exact hDue

/-- In every run the times that the iterations are for are increasing times of the expression,
and no callback runs before its own. -/
theorem cron_timer_punctual (hNext : Schedule.IsNext occurs (cronNext timer.expr))
    {now armed : τ} (hArmed : now ≤ armed) {ds : List (Dispatch τ)}
    (hRun : run (ArmedTimer.step cronNext offset timer) (.start cronNext offset timer now armed) ds =
      some s) :
    (s.fired.map Firing.next ++ [s.deadline.next]).Pairwise (· < ·) ∧
      (∀ o ∈ s.fired.map Firing.next ++ [s.deadline.next], o ∈ occurs) ∧
      ∀ f ∈ s.fired, f.next ≤ f.dispatched := by
  have hPunctual : s.Punctual offset occurs :=
    invariant (fun _ _ _ h hStep => h.step hNext hStep) (.start hNext hArmed) hRun
  exact ⟨hPunctual.increasing, hPunctual.occurs, hPunctual.notEarly⟩

def everySecond : Unit → ℤ → ℤ := fun _ t => t + 1

theorem everySecond_isNext : Schedule.IsNext Set.univ (everySecond ()) :=
  fun t => ⟨⟨trivial, Int.lt_succ t⟩, fun _ h => h.2⟩

theorem cron_timer_punctual_one :
    ∃ s, run (ArmedTimer.step everySecond (3 : ℚ) ⟨0, ()⟩) (.start everySecond 3 ⟨0, ()⟩ (1 / 2) (3 / 4))
        [⟨2, 9 / 4, 5 / 2⟩] = some s ∧
      (s.fired.map Firing.next ++ [s.deadline.next]).Pairwise (· < ·) ∧
      (∀ o ∈ s.fired.map Firing.next ++ [s.deadline.next], o ∈ Set.univ) ∧
      ∀ f ∈ s.fired, f.next ≤ f.dispatched := by
  have hRun : ∃ s, run (ArmedTimer.step everySecond (3 : ℚ) ⟨0, ()⟩)
      (.start everySecond 3 ⟨0, ()⟩ (1 / 2) (3 / 4)) [⟨2, 9 / 4, 5 / 2⟩] = some s := by
    rw [run_cons, ArmedTimer.step, if_pos]
    · exact ⟨_, rfl⟩
    · norm_num [ArmedTimer.start, CronTimer.run, everySecond, time, steady]
  obtain ⟨s, hRun⟩ := hRun
  exact ⟨s, hRun, cron_timer_punctual everySecond_isNext (by norm_num) hRun⟩

/-! ### The occurrences that are passed by -/

namespace PromptRun

variable {states : ℕ → ArmedTimer τ} {instants delays : ℕ → τ}

theorem delays_nonneg (h : PromptRun cronNext offset timer states instants delays) (k : ℕ) :
    0 ≤ delays k := by
  have hExpired := (ArmedTimer.step_eq_some.mp (h.step k)).1.1
  rw [h.dispatched k] at hExpired
  exact nonneg_of_le_add_right hExpired

theorem next_le_floor (h : PromptRun cronNext offset timer states instants delays) (k : ℕ) :
    (states k).deadline.next ≤ ⌊instants (k + 1)⌋ := by
  rw [Int.le_floor, h.served_at k]
  have hFract := Int.fract_nonneg (instants k)
  have hLate := h.delays_nonneg k
  linarith

theorem next_lt_succ (hNext : Schedule.IsNext occurs (cronNext timer.expr))
    (h : PromptRun cronNext offset timer states instants delays) (k : ℕ) :
    (states k).deadline.next < (states (k + 1)).deadline.next := by
  rw [h.next_eq (k + 1)]
  exact (h.next_le_floor k).trans_lt (hNext.lt _)

/-- An iteration passes an occurrence by exactly if it is served behind the one that follows
its own by a second. -/
theorem no_gap_iff (hNext : Schedule.IsNext occurs (cronNext timer.expr))
    (h : PromptRun cronNext offset timer states instants delays) (k : ℕ) :
    (∀ o ∈ occurs, (states k).deadline.next < o → (states (k + 1)).deadline.next ≤ o) ↔
      (cronNext timer.expr ⌊instants k⌋ + 1 ∈ occurs → Int.fract (instants k) + delays k < 1) := by
  have hServed := h.served_at k
  rw [← h.next_eq k]
  constructor
  · intro hGap hOccurs
    have hReached := hGap _ hOccurs (Int.lt_succ _)
    rw [h.next_eq (k + 1)] at hReached
    have hFloor := Int.floor_lt.mp ((hNext.lt ⌊instants (k + 1)⌋).trans_le hReached)
    push_cast at hFloor
    linarith
  · intro hInTime o ho hBehind
    rw [h.next_eq (k + 1)]
    by_contra! hPassed
    have hBefore : (o : τ) ≤ instants (k + 1) := by
      by_contra! hAfter
      exact absurd (hNext.le ho (Int.floor_lt.mpr hAfter)) (not_le.mpr hPassed)
    -- less than two seconds lie between the target and the service
    have hFract := Int.fract_lt_one (instants k)
    have hLate := h.prompt k
    have hFollows : o = (states k).deadline.next + 1 := by
      have hLt : (o : τ) < ((states k).deadline.next + 2 : ℤ) := by
        push_cast
        linarith
      have hInt := Int.cast_lt.mp hLt
      omega
    subst hFollows
    have hSum := hInTime ho
    push_cast at hBefore
    linarith

end PromptRun

/-- Every occurrence after the first arming has its iteration exactly if no iteration that is
for the second before an occurrence is served too late for it, the part of the second at
which it was armed added to the delay of its callback. -/
theorem no_occurrence_skipped_iff {states : ℕ → ArmedTimer τ} {instants delays : ℕ → τ}
    (hNext : Schedule.IsNext occurs (cronNext timer.expr))
    (hRun : PromptRun cronNext offset timer states instants delays) :
    (∀ o ∈ occurs, instants 0 < o → ∃! k, (states k).deadline.next = o) ↔
      ∀ k, cronNext timer.expr ⌊instants k⌋ + 1 ∈ occurs →
        Int.fract (instants k) + delays k < 1 := by
  have hFirst := hRun.next_eq 0
  have hWalk := Schedule.existsUnique_iff_no_gap (strictMono_nat_of_lt_succ (hRun.next_lt_succ hNext))
    (S := occurs) (b := ⌊instants 0⌋) (hFirst ▸ hNext.lt _)
    (fun o ho hBehind => hFirst ▸ hNext.le ho hBehind)
  simp only [Int.floor_lt] at hWalk
  rw [hWalk]
  exact forall_congr' fun k => hRun.no_gap_iff hNext k

theorem no_occurrence_skipped_iff_whole :
    (∀ o ∈ (Set.univ : Set ℤ), ((0 : ℕ) : ℚ) < o → ∃! k : ℕ,
        (ArmedTimer.serve everySecond 0 ⟨0, ()⟩ (fun k => (k : ℚ)) k).deadline.next = o) ↔
      ∀ k : ℕ, everySecond () ⌊(k : ℚ)⌋ + 1 ∈ (Set.univ : Set ℤ) →
        Int.fract (k : ℚ) + (0 : ℚ) < 1 := by
  refine no_occurrence_skipped_iff everySecond_isNext
    (promptRun_serve (fun k => ?_) (fun k => ?_) fun k => ⟨le_refl 0, zero_lt_one⟩)
  · push_cast
    linarith
  · simp only [CronTimer.run, everySecond, time, steady, Int.floor_natCast]
    push_cast
    ring

/-- Armed half a second behind a full one, and the first callback is six tenths late. -/
def halfPast : ℕ → ℚ
  | 0 => 1 / 2
  | k + 1 => 21 / 10 + k

def firstLate : ℕ → ℚ
  | 0 => 3 / 5
  | _ + 1 => 0

/-- Second 2 has no iteration. -/
theorem second_skipped :
    PromptRun everySecond 0 ⟨0, ()⟩ (.serve everySecond 0 ⟨0, ()⟩ halfPast) halfPast firstLate ∧
      ¬∀ o ∈ (Set.univ : Set ℤ), halfPast 0 < o → ∃! k,
        (ArmedTimer.serve everySecond 0 ⟨0, ()⟩ halfPast k).deadline.next = o := by
  have hFloor : ∀ k : ℕ, ⌊(21 / 10 : ℚ) + k⌋ = 2 + k := by
    intro k
    rw [Int.floor_add_natCast]
    norm_num
  have hNext : ∀ k, (CronTimer.run everySecond 0 ⟨0, ()⟩ (halfPast (k + 1)) (halfPast (k + 1))).next =
      3 + k := by
    intro k
    simp only [CronTimer.run, everySecond, time, halfPast, hFloor]
    ring
  constructor
  · refine promptRun_serve (fun k => ?_) (fun k => ?_) fun k => ?_
    · cases k with
      | zero => norm_num [halfPast]
      | succ k =>
        simp only [halfPast]
        push_cast
        linarith
    · cases k with
      | zero => norm_num [halfPast, firstLate, CronTimer.run, everySecond, time, steady]
      | succ k =>
        simp only [halfPast, firstLate, CronTimer.run, everySecond, time, steady, hFloor]
        push_cast
        ring
    · cases k with
      | zero => norm_num [firstLate]
      | succ k => norm_num [firstLate]
  · intro hAll
    obtain ⟨k, hMeets, _⟩ := hAll 2 trivial (by norm_num [halfPast])
    rw [(ArmedTimer.serve_eq _ _ k).1] at hMeets
    cases k with
    | zero => norm_num [halfPast, CronTimer.run, everySecond, time] at hMeets
    | succ k =>
      rw [hNext] at hMeets
      omega

/-! ### Expressions without a next time -/

section Invalid

variable {d : τ}

/-- The wait for the time -1 is over at once, and so is each one behind it. -/
theorem ArmedTimer.run_invalid (hInvalid : cronNext timer.expr (time d) = -1) (hEpoch : -1 ≤ d)
    (hNext : s.deadline.next = -1) (hExpired : s.deadline.expiry ≤ steady offset d)
    (hArmed : s.armed ≤ d) (n : ℕ) :
    ∃ s', run (step cronNext offset timer) s (List.replicate n ⟨d, d, d⟩) = some s' ∧
      s'.fired = s.fired ++ List.replicate n ⟨-1, d⟩ := by
  induction n generalizing s with
  | zero => exact ⟨s, rfl, by simp⟩
  | succ n ih =>
    have hFloor : (-1 : τ) ≤ (time d : ℤ) := by
      have hInt : (-1 : ℤ) ≤ ⌊d⌋ := Int.le_floor.mpr (by simpa using hEpoch)
      exact_mod_cast hInt
    have hAgain : (timer.run cronNext offset d d).expiry ≤ steady offset d := by
      simp only [CronTimer.run, hInvalid]
      push_cast
      linarith
    obtain ⟨s', hRun, hFired⟩ := ih
      (s := ⟨timer.run cronNext offset d d, d, s.fired ++ [⟨s.deadline.next, d⟩]⟩)
      hInvalid hAgain (le_refl d)
    refine ⟨s', ?_, ?_⟩
    · rw [List.replicate_succ, run_cons,
        step_eq_some.mpr ⟨⟨hExpired, hArmed, le_refl d, le_refl d⟩, rfl⟩]
      exact hRun
    · rw [hFired, hNext, List.replicate_succ, List.append_assoc]
      rfl

theorem CronTimer.exists_served (offset : τ) {now armed : τ} (hArmed : now ≤ armed)
    (hInvalid : cronNext timer.expr (time now) = -1) :
    ∃ d, armed ≤ d ∧ -1 ≤ d ∧
      (timer.run cronNext offset now armed).expiry ≤ steady offset d := by
  have hReached : armed + (-1 - (time now : ℤ)) ≤ max armed (armed + (-1 - (time now : ℤ))) :=
    le_max_right ..
  refine ⟨max armed (armed + (-1 - (time now : ℤ))), le_max_left .., ?_, ?_⟩
  · have hFloor : ((time now : ℤ) : τ) ≤ now := Int.floor_le now
    linarith
  · simp only [CronTimer.run, hInvalid, steady]
    push_cast
    linarith

theorem CronTimer.not_neverFires {now armed : τ} (hArmed : now ≤ armed)
    (hInvalid : cronNext timer.expr (time now) = -1) :
    ¬timer.NeverFires cronNext offset now armed := by
  obtain ⟨d, hLater, _, hExpired⟩ := timer.exists_served offset hArmed hInvalid
  intro hNever
  have hFirst : ∃ s', ArmedTimer.step cronNext offset timer
      (.start cronNext offset timer now armed) ⟨d, d, d⟩ = some s' ∧ s'.fired.length = 1 :=
    ⟨_, ArmedTimer.step_eq_some.mpr ⟨⟨hExpired, hLater, le_refl d, le_refl d⟩, rfl⟩, rfl⟩
  obtain ⟨s', hStep, hFired⟩ := hFirst
  rw [hNever [⟨d, d, d⟩] s' (by rw [run_cons, hStep]; rfl)] at hFired
  cases hFired

end Invalid

/-- A new entry whose expression has no further time is started like any other: its callback
runs, and it runs without end at one instant while there is still no further time. -/
theorem invalid_time_fires {makeCron : Str → Option ε} {os : Os} {ctx : Context}
    {l l' : EventLoop ε} {tree : FileTree} {crons : Crons} {e : CronEntry}
    (hUpdate : EventLoop.step makeCron os ctx l (.update tree) = some l')
    (hLoad : loadCronList os tree (cronsFile ctx) = .ok crons) (he : e ∈ crons)
    (hNew : l.manager.timers.find e = none) (cronNext : ε → ℤ → ℤ) :
    ∃ timer, l'.manager.timers.find e = some timer ∧ makeCron e.expr = some timer.expr ∧
      ∀ offset now armed : τ, now ≤ armed → cronNext timer.expr (time now) = -1 →
        ¬timer.NeverFires cronNext offset now armed ∧
        ((∀ t, time now ≤ t → cronNext timer.expr t = -1) →
          ∃ d, armed ≤ d ∧ ∀ n, ∃ s' l'',
            run (ArmedTimer.step cronNext offset timer) (.start cronNext offset timer now armed)
              (List.replicate n ⟨d, d, d⟩) = some s' ∧
            s'.fired = List.replicate n ⟨-1, d⟩ ∧
            run (EventLoop.step makeCron os ctx) l'
              (serviceEvents timer.id (List.replicate n (⟨d, d, d⟩ : Dispatch τ))) = some l'' ∧
            l''.log = l'.log ++ (List.replicate n (⟨d, d, d⟩ : Dispatch τ)).flatMap fun _ =>
              [.spawn timer.id (runJob os ctx e.job), .timer (.run timer.id e.job)]) := by
  obtain ⟨timer, hFind, hExpr, hWait⟩ := EventLoop.started_of_update hUpdate hLoad he hNew
  refine ⟨timer, hFind, hExpr, fun offset now armed hArmed hInvalid => ?_⟩
  refine ⟨timer.not_neverFires hArmed hInvalid, fun hStill => ?_⟩
  obtain ⟨d, hLater, hEpoch, hExpired⟩ := timer.exists_served offset hArmed hInvalid
  have hTime : time now ≤ time d := Int.floor_le_floor (hArmed.trans hLater)
  refine ⟨d, hLater, fun n => ?_⟩
  obtain ⟨s', hRun, hFired⟩ := ArmedTimer.run_invalid (s := .start cronNext offset timer now armed)
    (hStill _ hTime) hEpoch hInvalid hExpired hLater n
  obtain ⟨l'', hLoop, hLog⟩ := EventLoop.run_serviceEvents makeCron os ctx hWait
    (List.replicate n (⟨d, d, d⟩ : Dispatch τ))
  exact ⟨s', l'', hRun, hFired, hLoop, hLog⟩

/-- Knows no 30 February; every other expression is for each second. -/
def noSuchDay (fields : List Str) (t : ℤ) : ℤ :=
  if fields = ["0".toList, "0".toList, "0".toList, "30".toList, "2".toList, "*".toList] then -1
  else t + 1

theorem update_noSuchDay : ∃ l', EventLoop.step sixFields (.ideal ∅) demoContext .start
    (.update (cronsTree "a 0 0 0 30 2 *\n")) = some l' := ⟨_, rfl⟩

theorem loadCronList_noSuchDay :
    loadCronList (.ideal ∅) (cronsTree "a 0 0 0 30 2 *\n") (cronsFile demoContext) =
      .ok (readCrons "a 0 0 0 30 2 *\n") := rfl

theorem noSuchDay_eq {fields : List Str} (h : sixFields "0 0 0 30 2 *" = some fields) (t : ℤ) :
    noSuchDay fields t = -1 := by
  have hFields : sixFields "0 0 0 30 2 *" =
    some ["0".toList, "0".toList, "0".toList, "30".toList, "2".toList, "*".toList] := by decide
  rw [noSuchDay, if_pos (Option.some.inj (h.symm.trans hFields))]

theorem invalid_time_fires_noSuchDay :
    ∃ l', EventLoop.step sixFields (.ideal ∅) demoContext .start
        (.update (cronsTree "a 0 0 0 30 2 *\n")) = some l' ∧
      ∃ timer, l'.manager.timers.find ⟨"a", "0 0 0 30 2 *"⟩ = some timer ∧
        ¬timer.NeverFires noSuchDay (0 : ℚ) 1700000000 1700000000 := by
  obtain ⟨l', hUpdate⟩ := update_noSuchDay
  obtain ⟨timer, hFind, hExpr, hFires⟩ := invalid_time_fires (τ := ℚ) hUpdate
    loadCronList_noSuchDay (e := ⟨"a", "0 0 0 30 2 *"⟩) (by decide) rfl noSuchDay
  exact ⟨l', hUpdate, timer, hFind, (hFires 0 _ _ (le_refl _) (noSuchDay_eq hExpr _)).1⟩

/-- The job of an entry for 30 February is started after the daemon has read it. -/
theorem noSuchDay_fires :
    ∃ l', EventLoop.step sixFields (.ideal ∅) demoContext .start
        (.update (cronsTree "a 0 0 0 30 2 *\n")) = some l' ∧
      ∃ timer, l'.manager.timers.find ⟨"a", "0 0 0 30 2 *"⟩ = some timer ∧
        (∀ t, noSuchDay timer.expr t = -1) ∧
        ¬timer.NeverFires noSuchDay (0 : ℚ) 1700000000 1700000000 := by
  obtain ⟨l', hUpdate⟩ := update_noSuchDay
  obtain ⟨timer, hFind, hExpr, _⟩ := EventLoop.started_of_update hUpdate
    loadCronList_noSuchDay (e := ⟨"a", "0 0 0 30 2 *"⟩) (by decide) rfl
  have hInvalid := noSuchDay_eq hExpr
  exact ⟨l', hUpdate, timer, hFind, hInvalid, timer.not_neverFires (le_refl _) (hInvalid _)⟩

end CisCore
