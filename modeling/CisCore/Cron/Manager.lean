import CisCore.Cron.Commands

/-! # The timers of the daemon

`cron_manager::update` walks over the timers and the entries of the file at the
same time, both in the order of the entries. Entries without a timer get a new
one that is started at once; timers without an entry are cancelled and erased;
where both agree, the timer stays what it is.
-/

namespace CisCore

/-- A timer object; `id` tells objects apart. -/
structure CronTimer (ε : Type) where
  id : Nat
  expr : ε
deriving DecidableEq

/-- What happens to a timer object. `run` starts its wait with the callback that
runs the job. -/
inductive TimerOp where
  | run (id : Nat) (job : Str)
  | cancel (id : Nat)
  | erase (id : Nat)
deriving DecidableEq

def TimerOp.id : TimerOp → Nat
  | run id _ => id
  | cancel id => id
  | erase id => id

def opsOn (id : Nat) (ops : List TimerOp) : List TimerOp := ops.filter fun op => op.id = id

structure CronManager (ε : Type) where
  timers : SortedMap CronEntry (CronTimer ε)
  /-- The identity of the next timer object. -/
  nextId : Nat
  below : ∀ e timer, timers.find e = some timer → timer.id < nextId
  apart : ∀ e e' timer timer', timers.find e = some timer → timers.find e' = some timer' →
    timer.id = timer'.id → e = e'

namespace CronManager

section Model

variable {ε : Type}

def empty : CronManager ε := ⟨∅, 0, nofun, nofun⟩

/-- `emplace_hint`: a timer that is there already stays. -/
def emplace (m : CronManager ε) (e : CronEntry) (expr : ε) : CronManager ε where
  timers := m.timers.emplace e ⟨m.nextId, expr⟩
  nextId := m.nextId + 1
  below e' timer h := by
    rw [SortedMap.find_emplace] at h
    split_ifs at h with he
    · cases hFind : m.timers.find e with
      | none =>
        rw [hFind] at h
        cases h
        exact Nat.lt_succ_self _
      | some timer' =>
        rw [hFind] at h
        cases h
        exact (m.below e _ hFind).trans (Nat.lt_succ_self _)
    · exact (m.below e' timer h).trans (Nat.lt_succ_self _)
  apart e₁ e₂ timer timer' h₁ h₂ hId := by
    rw [SortedMap.find_emplace] at h₁ h₂
    cases hFind : m.timers.find e with
    | none =>
      rw [hFind] at h₁ h₂
      split_ifs at h₁ h₂ with he₁ he₂ he₂
      · exact he₁.trans he₂.symm
      · cases h₁
        exact absurd hId (m.below e₂ timer' h₂).ne'
      · cases h₂
        exact absurd hId (m.below e₁ timer h₁).ne
      · exact m.apart e₁ e₂ timer timer' h₁ h₂ hId
    | some old =>
      rw [hFind] at h₁ h₂
      split_ifs at h₁ h₂ with he₁ he₂ he₂
      · exact he₁.trans he₂.symm
      · cases h₁
        exact he₁.trans (m.apart e e₂ _ timer' hFind h₂ hId)
      · cases h₂
        exact (m.apart e₁ e timer _ h₁ hFind hId).trans he₂.symm
      · exact m.apart e₁ e₂ timer timer' h₁ h₂ hId

def erase (m : CronManager ε) (e : CronEntry) : CronManager ε where
  timers := m.timers.erase e
  nextId := m.nextId
  below e' timer h := by
    rw [SortedMap.find_erase] at h
    split_ifs at h
    exact m.below e' timer h
  apart e₁ e₂ timer timer' h₁ h₂ hId := by
    rw [SortedMap.find_erase] at h₁ h₂
    split_ifs at h₁ h₂
    exact m.apart e₁ e₂ timer timer' h₁ h₂ hId

variable (makeCron : Str → Option ε)

/-- A new timer for the entry, and its start. `none` when `make_cron` throws. -/
def start (m : CronManager ε) (e : CronEntry) : Option (CronManager ε × List TimerOp) :=
  match makeCron e.expr with
  | none => none
  | some expr =>
    let m := m.emplace e expr
    match m.timers.find e with
    | none => some (m, [])
    | some timer => some (m, [.run timer.id e.job])

/-- The timer at the iterator is cancelled and erased. -/
def drop (m : CronManager ε) (e : CronEntry) : CronManager ε × List TimerOp :=
  match m.timers.find e with
  | none => (m.erase e, [])
  | some timer => (m.erase e, [.cancel timer.id, .erase timer.id])

end Model

end CronManager

/-- The local variables of `update`: the entries from `new_it` on, `old_it`, and
what was done so far. -/
structure Merge (ε : Type) where
  new : List CronEntry
  old : Option CronEntry
  manager : CronManager ε
  ops : List TimerOp

section Model

variable {ε : Type} (makeCron : Str → Option ε)

def Merge.startNew (s : Merge ε) (n : CronEntry) (new : List CronEntry) : Option (Merge ε) :=
  (s.manager.start makeCron n).map fun r => ⟨new, s.old, r.1, s.ops ++ r.2⟩

def Merge.dropOld (s : Merge ε) (old : CronEntry) : Merge ε :=
  ⟨s.new, s.manager.timers.next old, (s.manager.drop old).1, s.ops ++ (s.manager.drop old).2⟩

def Merge.keepBoth (s : Merge ε) (old : CronEntry) (new : List CronEntry) : Merge ε :=
  ⟨new, s.manager.timers.next old, s.manager, s.ops⟩

/-- The loop while neither sequence has ended. -/
def mergeLoop : Nat → Merge ε → Option (Merge ε)
  | 0, s => some s
  | fuel + 1, s =>
    match s.new, s.old with
    | n :: new, some old =>
      if n < old then (s.startNew makeCron n new).bind (mergeLoop fuel)
      else if old < n then mergeLoop fuel (s.dropOld old)
      else mergeLoop fuel (s.keepBoth old new)
    | [], _ => some s
    | _ :: _, none => some s

/-- The loop over the timers that are left. -/
def dropLoop : Nat → Merge ε → Merge ε
  | 0, s => s
  | fuel + 1, s =>
    match s.old with
    | none => s
    | some old => dropLoop fuel (s.dropOld old)

/-- The loop over the entries that are left. -/
def startLoop : List CronEntry → Merge ε → Option (Merge ε)
  | [], s => some s
  | n :: new, s => (s.startNew makeCron n new).bind (startLoop new)

namespace CronManager

/-- The three loops; `none` when an expression is invalid and the exception
leaves `update`. -/
def synchronise (m : CronManager ε) (crons : Crons) : Option (CronManager ε × List TimerOp) :=
  let fuel := crons.keys.length + m.timers.keys.length
  (mergeLoop makeCron fuel ⟨crons.keys, m.timers.first, m, []⟩).bind fun s =>
    let s := dropLoop fuel s
    (startLoop makeCron s.new s).map fun s => (s.manager, s.ops)

def update (os : Os) (t : FileTree) (path : FsPath) (m : CronManager ε) :
    Option (CronManager ε × List TimerOp) :=
  match os.openIfstream t path with
  | none => some (m, [])
  | some text => m.synchronise makeCron (readCrons text)

end CronManager

end Model

variable {ε : Type} {makeCron : Str → Option ε}

/-! ### Operations on one object -/

theorem opsOn_append (id : Nat) (ops ops' : List TimerOp) :
    opsOn id (ops ++ ops') = opsOn id ops ++ opsOn id ops' := List.filter_append _ _

theorem opsOn_of_forall_ne {id : Nat} {ops : List TimerOp} (h : ∀ op ∈ ops, op.id ≠ id) :
    opsOn id ops = [] := by
  rw [opsOn, List.filter_eq_nil_iff]
  intro op hOp
  simpa using h op hOp

theorem opsOn_append_of_forall_ne {id : Nat} (ops : List TimerOp) {ops' : List TimerOp}
    (h : ∀ op ∈ ops', op.id ≠ id) : opsOn id (ops ++ ops') = opsOn id ops := by
  rw [opsOn_append, opsOn_of_forall_ne h, List.append_nil]

/-- What becomes of one entry: `wanted` says whether the file has it. -/
structure Settled (makeCron : Str → Option ε) (m₀ m : CronManager ε) (ops : List TimerOp)
    (e : CronEntry) (wanted : Prop) : Prop where
  kept : wanted → ∀ timer, m₀.timers.find e = some timer →
    m.timers.find e = some timer ∧ opsOn timer.id ops = []
  started : wanted → m₀.timers.find e = none →
    ∃ timer, m.timers.find e = some timer ∧ m₀.nextId ≤ timer.id ∧
      makeCron e.expr = some timer.expr ∧ opsOn timer.id ops = [.run timer.id e.job]
  dropped : ¬wanted → m.timers.find e = none ∧ ∀ timer, m₀.timers.find e = some timer →
    opsOn timer.id ops = [.cancel timer.id, .erase timer.id]

/-- An entry that the loops have not come to. -/
structure Untouched (m₀ m : CronManager ε) (ops : List TimerOp) (e : CronEntry) : Prop where
  same : m.timers.find e = m₀.timers.find e
  quiet : ∀ timer, m₀.timers.find e = some timer → opsOn timer.id ops = []

/-- The state of the loops when the old entries `passed` and the new entries
`done` are handled. -/
structure MergeInv (makeCron : Str → Option ε) (m₀ : CronManager ε) (crons : Crons)
    (passed rest done : List CronEntry) (s : Merge ε) : Prop where
  oldKeys : m₀.timers.keys = passed ++ rest
  old : s.old = rest.head?
  newKeys : crons.keys = done ++ s.new
  done_lt : ∀ e ∈ done, ∀ r ∈ rest, e < r
  passed_lt : ∀ e ∈ passed, ∀ n ∈ s.new, e < n
  settled : ∀ e ∈ passed ++ done, Settled makeCron m₀ s.manager s.ops e (e ∈ done)
  untouched : ∀ e, e ∉ passed ++ done → Untouched m₀ s.manager s.ops e
  older : m₀.nextId ≤ s.manager.nextId
  known : ∀ op ∈ s.ops, op.id < s.manager.nextId
  fresh : ∀ id job, .run id job ∈ s.ops → m₀.nextId ≤ id

section Steps

variable {m₀ m m' : CronManager ε} {ops ops' : List TimerOp} {e : CronEntry}

theorem CronManager.find_emplace (m : CronManager ε) (e e' : CronEntry) (expr : ε)
    (h : m.timers.find e = none) : (m.emplace e expr).timers.find e' =
      if e' = e then some ⟨m.nextId, expr⟩ else m.timers.find e' := by
  rw [emplace, SortedMap.find_emplace, h, Option.getD_none]

theorem CronManager.start_new {expr : ε} (hNew : m.timers.find e = none)
    (hExpr : makeCron e.expr = some expr) :
    m.start makeCron e = some (m.emplace e expr, [.run m.nextId e.job]) := by
  have hFind : (m.emplace e expr).timers.find e = some ⟨m.nextId, expr⟩ := by
    rw [m.find_emplace e e expr hNew, if_pos rfl]
  simp only [start, hExpr, hFind]

theorem CronManager.start_isSome_iff : (m.start makeCron e).isSome ↔ (makeCron e.expr).isSome := by
  rw [start]
  cases makeCron e.expr with
  | none => rfl
  | some expr => cases hFind : (m.emplace e expr).timers.find e <;> simp [hFind]

theorem CronManager.drop_eq {timer : CronTimer ε} (h : m.timers.find e = some timer) :
    m.drop e = (m.erase e, [.cancel timer.id, .erase timer.id]) := by
  rw [drop, h]

/-- Operations on other objects leave an entry as it is. -/
theorem Settled.of_same {wanted wanted' : Prop} (h : Settled makeCron m₀ m ops e wanted)
    (hWanted : wanted' ↔ wanted) (hFind : m'.timers.find e = m.timers.find e)
    (hOps : ∀ timer, m₀.timers.find e = some timer ∨ m.timers.find e = some timer →
      opsOn timer.id ops' = opsOn timer.id ops) : Settled makeCron m₀ m' ops' e wanted' := by
  refine ⟨fun hw timer hTimer => ?_, fun hw hNone => ?_, fun hw => ?_⟩
  · obtain ⟨hKept, hQuiet⟩ := h.kept (hWanted.mp hw) timer hTimer
    exact ⟨hFind.trans hKept, (hOps timer (Or.inl hTimer)).trans hQuiet⟩
  · obtain ⟨timer, hTimer, hFresh, hExpr, hRun⟩ := h.started (hWanted.mp hw) hNone
    exact ⟨timer, hFind.trans hTimer, hFresh, hExpr, (hOps timer (Or.inr hTimer)).trans hRun⟩
  · obtain ⟨hGone, hCancelled⟩ := h.dropped (mt hWanted.mpr hw)
    exact ⟨hFind.trans hGone, fun timer hTimer =>
      (hOps timer (Or.inl hTimer)).trans (hCancelled timer hTimer)⟩

theorem Untouched.of_same (h : Untouched m₀ m ops e)
    (hFind : m'.timers.find e = m.timers.find e)
    (hOps : ∀ timer, m₀.timers.find e = some timer ∨ m.timers.find e = some timer →
      opsOn timer.id ops' = opsOn timer.id ops) : Untouched m₀ m' ops' e :=
  ⟨hFind.trans h.same, fun timer hTimer => (hOps timer (Or.inl hTimer)).trans (h.quiet timer hTimer)⟩

theorem Settled.of_start {expr : ε} {wanted : Prop} (hWanted : wanted)
    (hNone₀ : m₀.timers.find e = none) (hNone : m.timers.find e = none)
    (hOlder : m₀.nextId ≤ m.nextId) (hExpr : makeCron e.expr = some expr)
    (hKnown : ∀ op ∈ ops, op.id < m.nextId) :
    Settled makeCron m₀ (m.emplace e expr) (ops ++ [.run m.nextId e.job]) e wanted := by
  refine ⟨fun _ timer hTimer => ?_, fun _ _ => ?_, fun hw => absurd hWanted hw⟩
  · rw [hNone₀] at hTimer
    cases hTimer
  · refine ⟨⟨m.nextId, expr⟩, ?_, hOlder, hExpr, ?_⟩
    · rw [m.find_emplace e e expr hNone, if_pos rfl]
    · rw [opsOn_append, opsOn_of_forall_ne fun op hOp => (hKnown op hOp).ne]
      simp [opsOn, TimerOp.id]

theorem Settled.of_drop {timer : CronTimer ε} {wanted : Prop} (hNot : ¬wanted)
    (h : Untouched m₀ m ops e) (hTimer : m₀.timers.find e = some timer) :
    Settled makeCron m₀ (m.erase e) (ops ++ [.cancel timer.id, .erase timer.id]) e wanted := by
  refine ⟨fun hw => absurd hw hNot, fun hw => absurd hw hNot, fun _ => ⟨?_, ?_⟩⟩
  · rw [CronManager.erase, SortedMap.find_erase, if_pos rfl]
  · intro timer' hTimer'
    rw [hTimer] at hTimer'
    cases hTimer'
    rw [opsOn_append, h.quiet timer hTimer]
    simp [opsOn, TimerOp.id]

variable {crons : Crons} {passed rest done : List CronEntry} {s : Merge ε}

theorem Merge.startNew_eq_some {s' : Merge ε} {n : CronEntry} {new : List CronEntry}
    (h : s.startNew makeCron n new = some s') : (makeCron n.expr).isSome ∧ s'.new = new := by
  obtain ⟨r, hStart, rfl⟩ := Option.map_eq_some_iff.mp h
  exact ⟨CronManager.start_isSome_iff.mp (Option.isSome_of_eq_some hStart), rfl⟩

theorem Merge.startNew_of_valid (s : Merge ε) {n : CronEntry} (hValid : (makeCron n.expr).isSome)
    (new : List CronEntry) : ∃ s', s.startNew makeCron n new = some s' ∧ s'.new = new := by
  obtain ⟨r, hStart⟩ := Option.isSome_iff_exists.mp
    ((CronManager.start_isSome_iff (m := s.manager)).mpr hValid)
  exact ⟨_, by rw [startNew, hStart, Option.map_some], rfl⟩

theorem MergeInv.startNew (h : MergeInv makeCron m₀ crons passed rest done s) {s' : Merge ε}
    {n : CronEntry} {new : List CronEntry} (hNew : s.new = n :: new) (hRest : ∀ r ∈ rest, n < r)
    (hStart : s.startNew makeCron n new = some s') :
    MergeInv makeCron m₀ crons passed rest (done ++ [n]) s' := by
  obtain ⟨expr, hExpr⟩ := Option.isSome_iff_exists.mp (Merge.startNew_eq_some hStart).1
  have hSorted := crons.keys_sorted
  rw [h.newKeys, hNew] at hSorted
  have hNotDone : n ∉ done := fun hMem =>
    lt_irrefl n ((List.pairwise_append.mp hSorted).2.2 n hMem n List.mem_cons_self)
  have hNotPassed : n ∉ passed := fun hMem =>
    lt_irrefl n (h.passed_lt n hMem n (hNew ▸ List.mem_cons_self))
  have hUntouched := h.untouched n (by simp [hNotPassed, hNotDone])
  have hNone₀ : m₀.timers.find n = none := by
    rw [← Option.not_isSome_iff_eq_none, SortedMap.find_isSome_iff, h.oldKeys, List.mem_append]
    rintro (hMem | hMem)
    · exact hNotPassed hMem
    · exact lt_irrefl n (hRest n hMem)
  have hNone : s.manager.timers.find n = none := hUntouched.same.trans hNone₀
  have hFind : ∀ e, e ≠ n → (s.manager.emplace n expr).timers.find e = s.manager.timers.find e := by
    intro e he
    rw [s.manager.find_emplace n e expr hNone, if_neg he]
  -- the new object is none of those that the other entries have or had
  have hOps : ∀ e timer, m₀.timers.find e = some timer ∨ s.manager.timers.find e = some timer →
      opsOn timer.id (s.ops ++ [.run s.manager.nextId n.job]) = opsOn timer.id s.ops := by
    intro e timer hTimer
    have hLt : timer.id < s.manager.nextId := by
      obtain hTimer | hTimer := hTimer
      · exact (m₀.below e timer hTimer).trans_le h.older
      · exact s.manager.below e timer hTimer
    apply opsOn_append_of_forall_ne
    intro op hOp
    rw [List.mem_singleton.mp hOp]
    exact hLt.ne'
  rw [Merge.startNew, CronManager.start_new hNone hExpr, Option.map_some, Option.some_inj] at hStart
  subst hStart
  refine ⟨h.oldKeys, h.old, ?_, ?_, ?_, ?_, ?_, ?_, ?_, ?_⟩
  · rw [h.newKeys, hNew, List.append_assoc]
    rfl
  · intro e he r hr
    obtain he | he := List.mem_append.mp he
    · exact h.done_lt e he r hr
    · rw [List.mem_singleton.mp he]
      exact hRest r hr
  · exact fun e he k hk => h.passed_lt e he k (hNew ▸ List.mem_cons_of_mem n hk)
  · intro e he
    obtain rfl | hne := eq_or_ne e n
    · exact .of_start (by simp) hNone₀ hNone h.older hExpr h.known
    · have hOld : e ∈ passed ++ done := by
        rw [← List.append_assoc, List.mem_append, List.mem_singleton] at he
        exact he.resolve_right hne
      exact (h.settled e hOld).of_same (by simp [hne]) (hFind e hne) (hOps e)
  · intro e he
    have hne : e ≠ n := by
      rintro rfl
      simp at he
    have hNot : e ∉ passed ++ done := fun hMem =>
      he (by rw [← List.append_assoc]; exact List.mem_append_left _ hMem)
    exact (h.untouched e hNot).of_same (hFind e hne) (hOps e)
  · exact h.older.trans (Nat.le_succ _)
  · intro op hOp
    obtain hOp | hOp := List.mem_append.mp hOp
    · exact (h.known op hOp).trans (Nat.lt_succ_self _)
    · rw [List.mem_singleton.mp hOp]
      exact Nat.lt_succ_self _
  · intro id job hOp
    obtain hOp | hOp := List.mem_append.mp hOp
    · exact h.fresh id job hOp
    · cases List.mem_singleton.mp hOp
      exact h.older

/-- The iterator behind the old entry that is handled next. -/
theorem MergeInv.next (h : MergeInv makeCron m₀ crons passed rest done s) {old : CronEntry}
    {rest' : List CronEntry} (hRest : rest = old :: rest') :
    s.manager.timers.next old = rest'.head? := by
  have hKeys := h.oldKeys
  have hSorted := m₀.timers.keys_sorted
  rw [hRest] at hKeys
  rw [hKeys] at hSorted
  rw [← SortedMap.next_eq_head hKeys]
  apply SortedMap.next_congr
  intro e he
  refine (h.untouched e ?_).same
  rw [List.mem_append]
  rintro (hMem | hMem)
  · exact lt_asymm he ((List.pairwise_append.mp hSorted).2.2 e hMem old List.mem_cons_self)
  · exact lt_asymm he (h.done_lt e hMem old (hRest ▸ List.mem_cons_self))

theorem MergeInv.old_untouched (h : MergeInv makeCron m₀ crons passed rest done s) {old : CronEntry}
    (hMem : old ∈ rest) : Untouched m₀ s.manager s.ops old := by
  have hNodup := m₀.timers.keys_nodup
  rw [h.oldKeys] at hNodup
  apply h.untouched
  rw [List.mem_append]
  rintro (hPassed | hDone)
  · exact (List.nodup_append.mp hNodup).2.2 old hPassed old hMem rfl
  · exact lt_irrefl old (h.done_lt old hDone old hMem)

theorem MergeInv.lt_rest (h : MergeInv makeCron m₀ crons passed rest done s) {old : CronEntry}
    {rest' : List CronEntry} (hRest : rest = old :: rest') : ∀ r ∈ rest', old < r := by
  have hSorted := m₀.timers.keys_sorted
  rw [h.oldKeys, hRest] at hSorted
  exact (List.pairwise_cons.mp (List.pairwise_append.mp hSorted).2.1).1

theorem MergeInv.dropOld (h : MergeInv makeCron m₀ crons passed rest done s) {old : CronEntry}
    {rest' : List CronEntry} (hRest : rest = old :: rest') (hNew : ∀ n ∈ s.new, old < n) :
    MergeInv makeCron m₀ crons (passed ++ [old]) rest' done (s.dropOld old) := by
  have hOldMem : old ∈ rest := hRest ▸ List.mem_cons_self
  have hUntouched := h.old_untouched hOldMem
  have hNotDone : old ∉ done := fun hMem => lt_irrefl old (h.done_lt old hMem old hOldMem)
  have hFind₀ : (m₀.timers.find old).isSome := by
    rw [SortedMap.find_isSome_iff, h.oldKeys]
    exact List.mem_append_right _ hOldMem
  obtain ⟨timer₀, hTimer₀⟩ := Option.isSome_iff_exists.mp hFind₀
  have hTimer : s.manager.timers.find old = some timer₀ := hUntouched.same.trans hTimer₀
  have hDrop : s.dropOld old = ⟨s.new, s.manager.timers.next old, s.manager.erase old,
      s.ops ++ [.cancel timer₀.id, .erase timer₀.id]⟩ := by
    rw [Merge.dropOld, CronManager.drop_eq hTimer]
  have hFind : ∀ e, e ≠ old → (s.manager.erase old).timers.find e = s.manager.timers.find e := by
    intro e he
    rw [CronManager.erase, SortedMap.find_erase, if_neg he]
  have hOps : ∀ e, e ≠ old → ∀ timer,
      m₀.timers.find e = some timer ∨ s.manager.timers.find e = some timer →
      opsOn timer.id (s.ops ++ [.cancel timer₀.id, .erase timer₀.id]) = opsOn timer.id s.ops := by
    intro e he timer hTimer'
    have hne : timer₀.id ≠ timer.id := by
      intro hId
      obtain hTimer' | hTimer' := hTimer'
      · exact he (m₀.apart e old timer timer₀ hTimer' hTimer₀ hId.symm)
      · exact he (s.manager.apart e old timer timer₀ hTimer' hTimer hId.symm)
    apply opsOn_append_of_forall_ne
    intro op hOp
    simp only [List.mem_cons, List.not_mem_nil, or_false] at hOp
    obtain rfl | rfl := hOp
    · exact hne
    · exact hne
  rw [hDrop]
  refine ⟨?_, h.next hRest, h.newKeys, ?_, ?_, ?_, ?_, h.older, ?_, ?_⟩
  · rw [h.oldKeys, hRest, List.append_assoc]
    rfl
  · exact fun e he r hr => h.done_lt e he r (hRest ▸ List.mem_cons_of_mem old hr)
  · intro e he n hn
    obtain he | he := List.mem_append.mp he
    · exact h.passed_lt e he n hn
    · rw [List.mem_singleton.mp he]
      exact hNew n hn
  · intro e he
    obtain rfl | hne := eq_or_ne e old
    · exact .of_drop hNotDone hUntouched hTimer₀
    · have hMem : e ∈ passed ++ done := by
        simp only [List.mem_append, List.mem_singleton] at he ⊢
        exact he.imp_left fun he => he.resolve_right hne
      exact (h.settled e hMem).of_same Iff.rfl (hFind e hne) (hOps e hne)
  · intro e he
    simp only [List.mem_append, List.mem_singleton, not_or] at he
    have hNot : e ∉ passed ++ done := by
      rw [List.mem_append, not_or]
      exact ⟨he.1.1, he.2⟩
    exact (h.untouched e hNot).of_same (hFind e he.1.2) (hOps e he.1.2)
  · intro op hOp
    have hLt := s.manager.below old timer₀ hTimer
    simp only [List.mem_append, List.mem_cons, List.not_mem_nil, or_false] at hOp
    obtain hOp | rfl | rfl := hOp
    · exact h.known op hOp
    · exact hLt
    · exact hLt
  · intro id job hOp
    simp only [List.mem_append, List.mem_cons, List.not_mem_nil, or_false, reduceCtorEq] at hOp
    exact h.fresh id job hOp

theorem MergeInv.keepBoth (h : MergeInv makeCron m₀ crons passed rest done s) {old : CronEntry}
    {rest' new : List CronEntry} (hRest : rest = old :: rest') (hNew : s.new = old :: new) :
    MergeInv makeCron m₀ crons (passed ++ [old]) rest' (done ++ [old]) (s.keepBoth old new) := by
  have hUntouched := h.old_untouched (hRest ▸ List.mem_cons_self : old ∈ rest)
  have hSorted := crons.keys_sorted
  rw [h.newKeys, hNew] at hSorted
  have hLtNew := (List.pairwise_cons.mp (List.pairwise_append.mp hSorted).2.1).1
  refine ⟨?_, h.next hRest, ?_, ?_, ?_, ?_, ?_, h.older, h.known, h.fresh⟩
  · rw [h.oldKeys, hRest, List.append_assoc]
    rfl
  · rw [h.newKeys, hNew, List.append_assoc]
    rfl
  · intro e he r hr
    obtain he | he := List.mem_append.mp he
    · exact h.done_lt e he r (hRest ▸ List.mem_cons_of_mem old hr)
    · rw [List.mem_singleton.mp he]
      exact h.lt_rest hRest r hr
  · intro e he n hn
    obtain he | he := List.mem_append.mp he
    · exact h.passed_lt e he n (hNew ▸ List.mem_cons_of_mem old hn)
    · rw [List.mem_singleton.mp he]
      exact hLtNew n hn
  · intro e he
    obtain rfl | hne := eq_or_ne e old
    · refine ⟨fun _ timer hTimer => ⟨hUntouched.same.trans hTimer, hUntouched.quiet timer hTimer⟩,
        fun _ hNone => ?_, fun hw => absurd (by simp) hw⟩
      have hFind₀ : (m₀.timers.find e).isSome := by
        rw [SortedMap.find_isSome_iff, h.oldKeys, hRest]
        simp
      rw [hNone] at hFind₀
      cases hFind₀
    · have hMem : e ∈ passed ++ done := by
        simp only [List.mem_append, List.mem_singleton] at he ⊢
        exact he.imp (fun he => he.resolve_right hne) fun he => he.resolve_right hne
      exact (h.settled e hMem).of_same (by simp [hne]) rfl fun _ _ => rfl
  · intro e he
    simp only [List.mem_append, List.mem_singleton, not_or] at he
    have hNot : e ∉ passed ++ done := by
      rw [List.mem_append, not_or]
      exact ⟨he.1.1, he.2.1⟩
    exact (h.untouched e hNot).of_same rfl fun _ _ => rfl

/-! ### The loops -/

theorem mergeLoop_inv {s' : Merge ε} {fuel : Nat} (hFuel : s.new.length + rest.length ≤ fuel)
    (h : MergeInv makeCron m₀ crons passed rest done s)
    (hLoop : mergeLoop makeCron fuel s = some s') :
    ∃ passed' rest' done', MergeInv makeCron m₀ crons passed' rest' done' s' ∧
      (s'.new = [] ∨ rest' = []) ∧ rest'.length ≤ rest.length := by
  induction fuel generalizing s passed rest done with
  | zero =>
    cases hLoop
    exact ⟨passed, rest, done, h, Or.inl (List.length_eq_zero_iff.mp (by omega)), le_refl _⟩
  | succ fuel ih =>
    rw [mergeLoop] at hLoop
    cases hNew : s.new with
    | nil =>
      rw [hNew] at hLoop
      cases hLoop
      exact ⟨passed, rest, done, h, Or.inl hNew, le_refl _⟩
    | cons n new =>
      rw [hNew, List.length_cons] at hFuel
      rw [hNew] at hLoop
      cases hRest : rest with
      | nil =>
        rw [h.old, hRest] at hLoop
        cases hLoop
        exact ⟨passed, rest, done, h, Or.inr hRest, (congrArg List.length hRest).le⟩
      | cons old rest' =>
        have hOld : s.old = some old := by rw [h.old, hRest, List.head?_cons]
        have hLength : rest.length = rest'.length + 1 := congrArg List.length hRest
        have hSorted := crons.keys_sorted
        rw [h.newKeys, hNew] at hSorted
        have hLtNew := (List.pairwise_cons.mp (List.pairwise_append.mp hSorted).2.1).1
        simp only [hOld] at hLoop
        split_ifs at hLoop with hBefore hAfter
        · have hFirst : ∀ r ∈ rest, n < r := by
            intro r hr
            rw [hRest] at hr
            obtain rfl | hr := List.mem_cons.mp hr
            · exact hBefore
            · exact hBefore.trans (h.lt_rest hRest r hr)
          obtain ⟨s₁, hStart, hLoop⟩ := Option.bind_eq_some_iff.mp hLoop
          have hNew₁ := (Merge.startNew_eq_some hStart).2
          rw [← hRest]
          exact ih (by rw [hNew₁]; omega) (h.startNew hNew hFirst hStart) hLoop
        · have hLater : ∀ k ∈ s.new, old < k := by
            intro k hk
            rw [hNew] at hk
            obtain rfl | hk := List.mem_cons.mp hk
            · exact hAfter
            · exact hAfter.trans (hLtNew k hk)
          obtain ⟨passed', rest'', done', hInv, hEnd, hShorter⟩ :=
            ih (by rw [Merge.dropOld, hNew, List.length_cons]; omega) (h.dropOld hRest hLater) hLoop
          exact ⟨passed', rest'', done', hInv, hEnd, hShorter.trans (Nat.le_succ _)⟩
        · obtain rfl := le_antisymm (not_lt.mp hAfter) (not_lt.mp hBefore)
          obtain ⟨passed', rest'', done', hInv, hEnd, hShorter⟩ :=
            ih (show new.length + rest'.length ≤ fuel by omega) (h.keepBoth hRest hNew) hLoop
          exact ⟨passed', rest'', done', hInv, hEnd, hShorter.trans (Nat.le_succ _)⟩

/-- Only an invalid expression ends the loop before one of the sequences does. -/
theorem mergeLoop_of_valid (fuel : Nat) (hValid : ∀ e ∈ s.new, (makeCron e.expr).isSome) :
    ∃ s', mergeLoop makeCron fuel s = some s' ∧ ∀ e ∈ s'.new, (makeCron e.expr).isSome := by
  induction fuel generalizing s with
  | zero => exact ⟨s, rfl, hValid⟩
  | succ fuel ih =>
    rw [mergeLoop]
    cases hNew : s.new with
    | nil => exact ⟨s, rfl, hValid⟩
    | cons n new =>
      cases hOld : s.old with
      | none => exact ⟨s, rfl, hValid⟩
      | some old =>
        rw [hNew] at hValid
        have hTail : ∀ e ∈ new, (makeCron e.expr).isSome := fun e he =>
          hValid e (List.mem_cons_of_mem n he)
        simp only
        split_ifs
        · obtain ⟨s₁, hStart, hNew₁⟩ := s.startNew_of_valid (hValid n List.mem_cons_self) new
          rw [hStart, Option.bind_some]
          exact ih (hNew₁ ▸ hTail)
        · exact ih (show ∀ e ∈ s.new, _ from hNew ▸ hValid)
        · exact ih (show ∀ e ∈ new, _ from hTail)

theorem dropLoop_inv {fuel : Nat} (hFuel : rest.length ≤ fuel)
    (h : MergeInv makeCron m₀ crons passed rest done s) (hEnd : s.new = [] ∨ rest = []) :
    ∃ passed', MergeInv makeCron m₀ crons passed' [] done (dropLoop fuel s) := by
  induction fuel generalizing s passed rest with
  | zero =>
    obtain rfl := List.length_eq_zero_iff.mp (Nat.le_zero.mp hFuel)
    exact ⟨passed, h⟩
  | succ fuel ih =>
    rw [dropLoop]
    cases rest with
    | nil =>
      rw [h.old]
      exact ⟨passed, h⟩
    | cons old rest' =>
      have hNew : s.new = [] := hEnd.resolve_right (List.cons_ne_nil _ _)
      rw [h.old, List.head?_cons]
      rw [List.length_cons] at hFuel
      exact ih (by omega) (h.dropOld rfl (by simp [hNew])) (Or.inl hNew)

theorem dropLoop_new (fuel : Nat) (s : Merge ε) : (dropLoop fuel s).new = s.new := by
  induction fuel generalizing s with
  | zero => rfl
  | succ fuel ih =>
    rw [dropLoop]
    cases s.old with
    | none => rfl
    | some old => exact ih (s.dropOld old)

theorem startLoop_inv {s' : Merge ε} {new : List CronEntry} (hNew : s.new = new)
    (h : MergeInv makeCron m₀ crons passed [] done s) (hLoop : startLoop makeCron new s = some s') :
    ∃ done', s'.new = [] ∧ MergeInv makeCron m₀ crons passed [] done' s' := by
  induction new generalizing s done with
  | nil =>
    cases hLoop
    exact ⟨done, hNew, h⟩
  | cons n new ih =>
    rw [startLoop] at hLoop
    obtain ⟨s₁, hStart, hLoop⟩ := Option.bind_eq_some_iff.mp hLoop
    exact ih (Merge.startNew_eq_some hStart).2 (h.startNew hNew (by simp) hStart) hLoop

theorem startLoop_of_valid {new : List CronEntry} (hValid : ∀ e ∈ new, (makeCron e.expr).isSome)
    (s : Merge ε) : ∃ s', startLoop makeCron new s = some s' := by
  induction new generalizing s with
  | nil => exact ⟨s, rfl⟩
  | cons n new ih =>
    obtain ⟨s₁, hStart, _⟩ := s.startNew_of_valid (hValid n List.mem_cons_self) new
    rw [startLoop, hStart, Option.bind_some]
    exact ih (fun e he => hValid e (List.mem_cons_of_mem n he)) s₁

end Steps

/-- What `update` makes of every entry, when no expression stops it. -/
structure Synchronised (makeCron : Str → Option ε) (m m' : CronManager ε) (ops : List TimerOp)
    (crons : Crons) : Prop where
  settled : ∀ e, Settled makeCron m m' ops e (e ∈ crons)
  older : m.nextId ≤ m'.nextId
  fresh : ∀ id job, .run id job ∈ ops → m.nextId ≤ id

theorem synchronise_of_valid (m : CronManager ε) {crons : Crons}
    (hValid : ∀ e ∈ crons, (makeCron e.expr).isSome) :
    ∃ m' ops, m.synchronise makeCron crons = some (m', ops) := by
  obtain ⟨s₁, hLoop, hValid₁⟩ := mergeLoop_of_valid (s := ⟨crons.keys, m.timers.first, m, []⟩)
    (crons.keys.length + m.timers.keys.length)
    fun e he => hValid e (SortedSet.mem_iff_keys.mpr he)
  rw [← dropLoop_new (crons.keys.length + m.timers.keys.length)] at hValid₁
  obtain ⟨s₂, hStarted⟩ := startLoop_of_valid hValid₁
    (dropLoop (crons.keys.length + m.timers.keys.length) s₁)
  refine ⟨s₂.manager, s₂.ops, ?_⟩
  rw [CronManager.synchronise, hLoop, Option.bind_some]
  simp only [hStarted, Option.map_some]

theorem synchronise_synchronised {m m' : CronManager ε} {ops : List TimerOp} {crons : Crons}
    (hSync : m.synchronise makeCron crons = some (m', ops)) :
    Synchronised makeCron m m' ops crons := by
  have hInit : MergeInv makeCron m crons [] m.timers.keys []
      ⟨crons.keys, m.timers.first, m, []⟩ := by
    refine ⟨rfl, rfl, rfl, by simp, by simp, by simp, ?_, le_refl _, by simp, by simp⟩
    exact fun e _ => ⟨rfl, fun _ _ => rfl⟩
  rw [CronManager.synchronise] at hSync
  obtain ⟨s₁, hLoop, hRest⟩ := Option.bind_eq_some_iff.mp hSync
  obtain ⟨s₂, hStarted, hEq⟩ := Option.map_eq_some_iff.mp hRest
  cases hEq
  obtain ⟨passed, rest, done, hInv, hEnd, hShorter⟩ := mergeLoop_inv (le_refl _) hInit hLoop
  obtain ⟨passed', hInv⟩ := dropLoop_inv (hShorter.trans (Nat.le_add_left _ crons.keys.length))
    hInv hEnd
  obtain ⟨done', hNew, hInv⟩ := startLoop_inv rfl hInv hStarted
  refine ⟨fun e => ?_, hInv.older, hInv.fresh⟩
  have hDone : e ∈ done' ↔ e ∈ crons := by
    rw [SortedSet.mem_iff_keys, hInv.newKeys, hNew, List.append_nil]
  by_cases hMem : e ∈ passed' ++ done'
  · exact (hInv.settled e hMem).of_same hDone.symm rfl fun _ _ => rfl
  · have hUntouched := hInv.untouched e hMem
    have hNone : m.timers.find e = none := by
      rw [← Option.not_isSome_iff_eq_none, SortedMap.find_isSome_iff, hInv.oldKeys,
        List.append_nil]
      exact fun h => hMem (List.mem_append_left _ h)
    have hNot : e ∉ crons := fun h => hMem (List.mem_append_right _ (hDone.mpr h))
    refine ⟨fun hw => absurd hw hNot, fun hw => absurd hw hNot, fun _ =>
      ⟨hUntouched.same.trans hNone, fun timer hTimer => ?_⟩⟩
    rw [hNone] at hTimer
    cases hTimer

theorem Settled.isSome_iff {m₀ m : CronManager ε} {ops : List TimerOp} {e : CronEntry}
    {wanted : Prop} (h : Settled makeCron m₀ m ops e wanted) :
    (m.timers.find e).isSome ↔ wanted := by
  by_cases hw : wanted
  · refine iff_of_true ?_ hw
    cases hFind : m₀.timers.find e with
    | none =>
      obtain ⟨timer, hTimer, _⟩ := h.started hw hFind
      simp [hTimer]
    | some timer => simp [(h.kept hw timer hFind).1]
  · refine iff_of_false ?_ hw
    simp [(h.dropped hw).1]

theorem CronManager.update_cases {os : Os} {t : FileTree} {path : FsPath} {m m' : CronManager ε}
    {ops : List TimerOp} (h : m.update makeCron os t path = some (m', ops)) :
    (loadCronList os t path = .error .cantReadCronsFile ∧ m' = m ∧ ops = []) ∨
      ∃ crons, loadCronList os t path = .ok crons ∧ Synchronised makeCron m m' ops crons := by
  rw [update] at h
  cases hOpen : os.openIfstream t path with
  | none =>
    rw [hOpen] at h
    cases h
    exact Or.inl ⟨by rw [loadCronList, hOpen], rfl, rfl⟩
  | some text =>
    rw [hOpen] at h
    exact Or.inr ⟨readCrons text, by rw [loadCronList, hOpen], synchronise_synchronised h⟩

theorem Synchronised.find {m m' : CronManager ε} {ops : List TimerOp} {crons : Crons}
    (h : Synchronised makeCron m m' ops crons) {e : CronEntry} {timer : CronTimer ε}
    (hFind : m'.timers.find e = some timer) :
    m.timers.find e = some timer ∨ m.nextId ≤ timer.id := by
  by_cases hMem : e ∈ crons
  · cases hBefore : m.timers.find e with
    | none =>
      obtain ⟨timer', hAfter, hFresh, _⟩ := (h.settled e).started hMem hBefore
      rw [hAfter] at hFind
      cases hFind
      exact Or.inr hFresh
    | some timer' =>
      have hKept := ((h.settled e).kept hMem timer' hBefore).1
      exact Or.inl (hKept ▸ hFind)
  · rw [((h.settled e).dropped hMem).1] at hFind
    cases hFind

/-- After `update` the timers are those of the entries that the file holds. A
timer whose entry stays is the same object and nothing is done to it, a timer
whose entry is gone was cancelled once and erased, and a new entry has one new
object that was started with the entry's job. Without the file nothing changes. -/
theorem cron_update_synchronises (makeCron : Str → Option ε) (m : CronManager ε) (os : Os)
    (t : FileTree) (path : FsPath) :
    (os.openIfstream t path = none → m.update makeCron os t path = some (m, [])) ∧
    ∀ crons, loadCronList os t path = .ok crons → (∀ e ∈ crons, (makeCron e.expr).isSome) →
      ∃ m' ops, m.update makeCron os t path = some (m', ops) ∧
        m'.timers.keys = crons.keys ∧ ∀ e, Settled makeCron m m' ops e (e ∈ crons) := by
  constructor
  · intro hClosed
    rw [CronManager.update, hClosed]
  · intro crons hLoad hValid
    rw [loadCronList] at hLoad
    rw [CronManager.update]
    cases hOpen : os.openIfstream t path with
    | none =>
      rw [hOpen] at hLoad
      cases hLoad
    | some text =>
      rw [hOpen] at hLoad
      obtain rfl := Except.ok.inj hLoad
      obtain ⟨m', ops, hSync⟩ := synchronise_of_valid m hValid
      have hSettled := (synchronise_synchronised hSync).settled
      refine ⟨m', ops, hSync, SortedMap.keys_eq_of_mem_iff fun e => ?_, hSettled⟩
      rw [← SortedMap.find_isSome_iff, (hSettled e).isSome_iff, SortedSet.mem_iff_keys]

def demoManager : CronManager (List Str) :=
  (CronManager.empty.emplace ⟨"a", "0 * * * * *"⟩ []).emplace ⟨"b", "0 * * * * *"⟩ []

theorem cron_update_synchronises_three :
    ∃ m' ops, demoManager.update sixFields (.ideal ∅)
        (cronsTree "b 0 * * * * *\nc 5 * * * * *\n") (cronsFile ⟨[], ∅, 1, 0⟩) = some (m', ops) ∧
      m'.timers.keys = [⟨"b", "0 * * * * *"⟩, ⟨"c", "5 * * * * *"⟩] ∧
      ∀ e, Settled sixFields demoManager m' ops e
        (e ∈ readCrons "b 0 * * * * *\nc 5 * * * * *\n") :=
  (cron_update_synchronises sixFields demoManager (.ideal ∅)
    (cronsTree "b 0 * * * * *\nc 5 * * * * *\n") (cronsFile ⟨[], ∅, 1, 0⟩)).2 _ rfl (by decide)

end CisCore
