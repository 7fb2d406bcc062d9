import CisCore.Lineage
import CisCore.Library.Interleaving
import CisCore.Script.ToolLog
import Mathlib.Data.Fintype.EquivFin

/-! # The logs of a process tree

Nested builds and the tools that their scripts call log side by side. Whatever
the order in which they do, the records of a session lie between the one of its
opening and the one of its closing.
-/

namespace CisCore

/-- A record with what its logger knows of the process. -/
structure Record where
  sessionId : Str
  processId : Nat
  parentId : Nat
  call : LogCall
  deriving DecidableEq

section Model

variable (P : ProtoUtils) (os : Os)

def jobLog (act : Actions) (jobName : Str) : LogCall :=
  .sessionLog ⟨act, "job_name=\"".toList ++ jobName ++ "\"".toList⟩

def stdoutLog (text : Str) : LogCall := .webuiLog ⟨.startjobStdout, text⟩

def openSession : LogCall := .cisLog ⟨.openSession, "start"⟩

/-- The handler that the destructor of the session calls. -/
def closeSession : LogCall := .cisLog ⟨.closeSession, "stop"⟩

/-- What `main` of `startjob` logs in its session before the script runs and
after it. -/
def startjobLog (session : Session) (ctx : Context) (t : FileTree) (args : StartjobArgs)
    (stdin : List Str) (script : Launch → ScriptRun) : List LogCall × List LogCall :=
  match loadJob P os t ctx args.jobName with
  | .error _ => ([], [])
  | .ok job =>
    match chooseParams P os t ctx session args stdin job.config.params with
    | (_, none) => ([], [])
    | (_, some params) =>
      match job.prepareBuild P os t ctx session params with
      | (_, _, _, some e) => ([errorLog os (some e)], [])
      | (t, job, handle, none) =>
        let number := handle.getD 0
        let ctx := exportBuild os ctx args.jobName number
        let run := job.execute os t ctx.env number args.force script (-1)
        ([jobLog .startJob args.jobName],
          match run.ec with
          | some e => [errorLog os (some e)]
          | none => jobLog .finishJob args.jobName ::
            match publishBuild P os run.tree ctx session args.jobName number with
            | (_, some e) => [errorLog os (some e)]
            | (_, none) =>
              if session.openedByMe then
                [stdoutLog (startedText ctx session args.jobName number),
                  stdoutLog (exitCodeText run.exitCode)]
              else [])

/-- What a tool adds to the logs. -/
def ToolCall.stamped (t : FileTree) (c : ToolCall) : List Record :=
  match initContext P c.process t with
  | .error _ => []
  | .ok ctx =>
    let session := (invokeSession c.process.os c.process.freshSessionId ctx false).1
    (c.log P t).map fun call => ⟨session.sessionId, ctx.processId, ctx.parentStartjobId, call⟩

end Model

variable {P : ProtoUtils}

namespace JobProcess

variable (p : JobProcess P)

def stamp (call : LogCall) : Record :=
  ⟨p.session.sessionId, p.ctx.processId, p.ctx.parentStartjobId, call⟩

def bodyLog : List LogCall × List LogCall :=
  startjobLog P p.os p.session p.sessionCtx p.tree p.args p.stdin p.script

def logBefore : List Record :=
  ((if p.session.openedByMe then [openSession, stdoutLog p.session.sessionId] else []) ++
    p.bodyLog.1).map p.stamp

/-- An exception that nobody catches ends the process without the destructor. -/
def logAfter : List Record :=
  (p.bodyLog.2 ++ if p.session.openedByMe ∧ p.result.thrown = none then [closeSession] else []).map
    p.stamp

/-- `main` is left by a return: every directory can be listed, and the maintenance
process can be started. -/
structure Returns : Prop where
  lists : ∀ dir, p.os.listFault dir = none
  starts : p.result.thrown = none

/-- What a tool logs that the script of the process has called. -/
def ToolLog (log : List Record) : Prop :=
  ∃ launch t c, p.result.launch = some launch ∧ c.process.os.environment = launch.env ∧
    c.process.os.SplitsAtColon ∧ log = ToolCall.stamped P t c

end JobProcess

/-- A process logs before it runs its script, in which the tools and the nested
builds log in any order, and after it. -/
inductive ProcessTree.Logs : ProcessTree P → List Record → Prop where
  | startjob {own : JobProcess P} {tools : List (List Record)}
      {children : List (ProcessTree P × List Record)} {inner : List Record}
      (tooled : ∀ log ∈ tools, own.ToolLog log) (below : ∀ c ∈ children, Logs c.1 c.2)
      (merged : Interleaving (tools ++ children.map Prod.snd) inner) :
      Logs (.startjob own (children.map Prod.fst)) (own.logBefore ++ inner ++ own.logAfter)

mutual

/-- The processes of a tree that open a session. -/
def ProcessTree.openers : ProcessTree P → List (JobProcess P)
  | .startjob own nested => (if own.session.openedByMe then [own] else []) ++ openersBelow nested

def openersBelow : List (ProcessTree P) → List (JobProcess P)
  | [] => []
  | tree :: trees => tree.openers ++ openersBelow trees

end

def ProcessTree.openedIds (tree : ProcessTree P) : List Str :=
  tree.openers.map fun p => p.session.sessionId

/-- No two processes open a session in the same second under the same ids. -/
def ProcessTree.OpenedApart (tree : ProcessTree P) : Prop :=
  (tree.openers.map fun p => (p.now, p.processId, p.parentId)).Nodup

/-- A process that opens a session returns from `main`. -/
def ProcessTree.OpenersReturn (tree : ProcessTree P) : Prop :=
  ∀ subtree above, tree.Under subtree above → subtree.own.session.openedByMe = true →
    subtree.own.Returns

def Record.Quiet (r : Record) : Prop :=
  r.call.entry.act ≠ .openSession ∧ r.call.entry.act ≠ .closeSession

def inSession (sessionId : Str) (log : List Record) : List Record :=
  log.filter fun r => r.sessionId = sessionId

/-- The opening, the closing, and nothing of the kind between them. -/
def Bracketed (log : List Record) : Prop :=
  ∃ first middle last, log = first :: middle ++ [last] ∧ first.call = openSession ∧
    last.call = closeSession ∧ first.processId = last.processId ∧ ∀ r ∈ middle, r.Quiet

theorem Bracketed.filter {log : List Record} (h : Bracketed log) {f : LogFile}
    (hOpen : openSession.reaches f = true) (hClose : closeSession.reaches f = true) :
    Bracketed (log.filter fun r => r.call.reaches f) := by
  obtain ⟨first, middle, last, rfl, hFirst, hLast, hSame, hMiddle⟩ := h
  refine ⟨first, middle.filter fun r => r.call.reaches f, last, ?_, hFirst, hLast, hSame, ?_⟩
  · simp [hFirst, hLast, hOpen, hClose]
  · exact fun r hr => hMiddle r (List.mem_filter.mp hr).1

theorem Bracketed.quiet {log : List Record} (h : Bracketed log) :
    ∀ r ∈ log, r.call.reaches .session = true → r.Quiet := by
  obtain ⟨first, middle, last, rfl, hFirst, hLast, _, hMiddle⟩ := h
  intro r hr hReaches
  simp only [List.cons_append, List.mem_cons, List.mem_append, List.not_mem_nil, or_false] at hr
  obtain rfl | hMem | rfl := hr
  · rw [hFirst] at hReaches
    cases hReaches
  · exact hMiddle r hMem
  · rw [hLast] at hReaches
    cases hReaches

/-! ### What one process logs -/

theorem startjobLog_quiet (P : ProtoUtils) (os : Os) (session : Session) (ctx : Context) (t : FileTree)
    (args : StartjobArgs) (stdin : List Str) (script : Launch → ScriptRun) :
    ∀ call ∈ (startjobLog P os session ctx t args stdin script).1 ++
        (startjobLog P os session ctx t args stdin script).2,
      call.entry.act ≠ .openSession ∧ call.entry.act ≠ .closeSession := by
  unfold startjobLog
  split
  · simp
  split
  · simp
  split
  · simp [errorLog, LogCall.entry]
  dsimp only
  split
  · simp [jobLog, errorLog, LogCall.entry]
  split
  · simp [jobLog, errorLog, LogCall.entry]
  split
  · simp [jobLog, stdoutLog, LogCall.entry]
  · simp [jobLog, LogCall.entry]

theorem SessionTool.act_quiet (tool : SessionTool) :
    tool.act ≠ .openSession ∧ tool.act ≠ .closeSession := by
  cases tool <;> decide

theorem setCommandLog_quiet (tool : SessionTool)
    (set : FileTree → Context → Session → Str → Str → FileTree × Ec) (os : Os) (freshId : Str)
    (ctx : Context) (args : List Str) (t : FileTree) :
    ∀ call ∈ setCommandLog tool set os freshId ctx args t,
      call.entry.act ≠ .openSession ∧ call.entry.act ≠ .closeSession := by
  unfold setCommandLog
  dsimp only
  split
  · split
    · simp [textLog, LogCall.entry]
    split
    · simp [errorLog, LogCall.entry]
    · simpa [entryLog, LogCall.entry] using tool.act_quiet
  · simp [textLog, LogCall.entry]

theorem getCommandLog_quiet (tool : SessionTool)
    (get : FileTree → Context → Session → Str → Option Str × Ec) (os : Os) (freshId : Str)
    (ctx : Context) (args : List Str) (t : FileTree) :
    ∀ call ∈ getCommandLog tool get os freshId ctx args t,
      call.entry.act ≠ .openSession ∧ call.entry.act ≠ .closeSession := by
  unfold getCommandLog
  dsimp only
  split
  · split
    · simp [textLog, LogCall.entry]
    split
    · simp [errorLog, LogCall.entry]
    · simpa [entryLog, LogCall.entry] using tool.act_quiet
  · simp [textLog, LogCall.entry]

theorem ToolCall.log_quiet (P : ProtoUtils) (t : FileTree) (c : ToolCall) :
    ∀ call ∈ c.log P t, call.entry.act ≠ .openSession ∧ call.entry.act ≠ .closeSession := by
  unfold ToolCall.log
  dsimp only
  split
  · simp
  split
  · simp
  · split
    · exact setCommandLog_quiet _ _ _ _ _ _ _
    · exact getCommandLog_quiet _ _ _ _ _ _ _
    · exact setCommandLog_quiet _ _ _ _ _ _ _
    · exact getCommandLog_quiet _ _ _ _ _ _ _

/-- A tool joins the session of the script that calls it. -/
theorem JobProcess.ToolLog.records {own : JobProcess P} {above : List (JobProcess P)} {log : List Record}
    (h : own.ToolLog log) (hKnown : SessionKnown own above) :
    ∀ r ∈ log, r.sessionId = own.session.sessionId ∧ r.Quiet := by
  obtain ⟨launch, t, c, hLaunch, hEnv, hSplits, rfl⟩ := h
  have hId := (JobProcess.find_launch_session hLaunch).1
  have hJoined := Os.getEnvVar_eq_self hSplits (hEnv ▸ hId) hKnown.no_colon
  intro r hr
  unfold ToolCall.stamped at hr
  split at hr
  · cases hr
  · obtain ⟨call, hCall, rfl⟩ := List.mem_map.mp hr
    refine ⟨?_, c.log_quiet P t call hCall⟩
    rw [invokeSession_joined hKnown.ne_nil hJoined]

namespace JobProcess

variable (p : JobProcess P)

theorem inSession_stamp (calls : List LogCall) :
    inSession p.session.sessionId (calls.map p.stamp) = calls.map p.stamp := by
  rw [inSession, List.filter_eq_self]
  intro r hr
  obtain ⟨call, _, rfl⟩ := List.mem_map.mp hr
  simp [stamp]

theorem inSession_stamp_of_ne {sessionId : Str} (h : p.session.sessionId ≠ sessionId)
    (calls : List LogCall) : inSession sessionId (calls.map p.stamp) = [] := by
  rw [inSession, List.filter_eq_nil_iff]
  intro r hr
  obtain ⟨call, _, rfl⟩ := List.mem_map.mp hr
  simp [stamp, h]

theorem body_quiet {call : LogCall} (h : call ∈ p.bodyLog.1 ++ p.bodyLog.2) : (p.stamp call).Quiet :=
  startjobLog_quiet P p.os p.session p.sessionCtx p.tree p.args p.stdin p.script call h

theorem own_record {r : Record} (h : r ∈ p.logBefore ∨ r ∈ p.logAfter) :
    r.sessionId = p.session.sessionId ∧ (p.session.openedByMe = false → r.Quiet) := by
  have hBody : ∀ call ∈ p.bodyLog.1 ++ p.bodyLog.2, (p.stamp call).Quiet := fun call => p.body_quiet
  obtain hBefore | hAfter := h
  · obtain ⟨call, hCall, rfl⟩ := List.mem_map.mp hBefore
    refine ⟨rfl, fun hJoined => hBody call (List.mem_append_left _ ?_)⟩
    simpa [hJoined] using hCall
  · obtain ⟨call, hCall, rfl⟩ := List.mem_map.mp hAfter
    refine ⟨rfl, fun hJoined => hBody call (List.mem_append_right _ ?_)⟩
    simpa [hJoined] using hCall

end JobProcess

/-! ### Session ids -/

theorem digits_append_inj {a a' s s' : Str} {c : Char} (hc : c.isDigit = false)
    (ha : ∀ d ∈ a, d.isDigit = true) (ha' : ∀ d ∈ a', d.isDigit = true)
    (h : a ++ c :: s = a' ++ c :: s') : a = a' ∧ s = s' := by
  have hTake : ∀ b r : Str, (∀ d ∈ b, d.isDigit = true) → (b ++ c :: r).takeWhile Char.isDigit = b := by
    intro b r hb
    rw [List.takeWhile_append_of_pos hb, List.takeWhile_cons, hc]
    exact List.append_nil b
  have hSame : a = a' := by
    rw [← hTake a s ha, h, hTake a' s' ha']
  subst hSame
  exact ⟨rfl, (List.cons.inj (List.append_cancel_left h)).2⟩

theorem decimal_append_inj {n n' : Nat} {s s' : Str} {c : Char} (hc : c.isDigit = false)
    (h : Text.decimal n ++ c :: s = Text.decimal n' ++ c :: s') : n = n' ∧ s = s' := by
  obtain ⟨hNumber, hRest⟩ := digits_append_inj hc (fun _ => Text.isDigit_of_mem_decimal)
    (fun _ => Text.isDigit_of_mem_decimal) h
  refine ⟨?_, hRest⟩
  rw [← Text.digitsValue_decimal n, hNumber, Text.digitsValue_decimal]

theorem zeroPadded_append_inj {n n' : Nat} {s s' : Str} {c : Char} (hc : c.isDigit = false)
    (h : Text.zeroPadded 2 n ++ c :: s = Text.zeroPadded 2 n' ++ c :: s') : n = n' ∧ s = s' := by
  obtain ⟨hNumber, hRest⟩ := digits_append_inj hc (fun _ => Text.isDigit_of_mem_zeroPadded)
    (fun _ => Text.isDigit_of_mem_zeroPadded) h
  exact ⟨Text.zeroPadded_injective 2 hNumber, hRest⟩

/-- The text of a session that a process opens tells when it was opened and by
which process. -/
theorem freshSessionId_inj {now now' : LocalTime} {id id' parentId parentId' : Nat}
    (h : freshSessionId now id parentId = freshSessionId now' id' parentId') :
    now = now' ∧ id = id' ∧ parentId = parentId' := by
  obtain ⟨year, month, day, hour, minute, second⟩ := now
  obtain ⟨year', month', day', hour', minute', second'⟩ := now'
  have hDash : "-".toList = ['-'] := rfl
  have hUnderscore : "_".toList = ['_'] := rfl
  simp only [freshSessionId, List.flatMap_cons, List.flatMap_nil, List.append_assoc, List.append_nil,
    hDash, hUnderscore, List.cons_append, List.nil_append] at h
  obtain ⟨hYear, h⟩ := decimal_append_inj (by decide) h
  obtain ⟨hMonth, h⟩ := zeroPadded_append_inj (by decide) h
  obtain ⟨hDay, h⟩ := zeroPadded_append_inj (by decide) h
  obtain ⟨hHour, h⟩ := zeroPadded_append_inj (by decide) h
  obtain ⟨hMinute, h⟩ := zeroPadded_append_inj (by decide) h
  obtain ⟨hSecond, h⟩ := zeroPadded_append_inj (by decide) h
  obtain ⟨hId, h⟩ := decimal_append_inj (by decide) h
  have hParent : parentId = parentId' := by
    rw [← Text.digitsValue_decimal parentId, h, Text.digitsValue_decimal]
  exact ⟨by rw [hYear, hMonth, hDay, hHour, hMinute, hSecond], hId, hParent⟩

/-! ### Sessions -/

theorem openersBelow_eq (trees : List (ProcessTree P)) :
    openersBelow trees = trees.flatMap ProcessTree.openers := by
  induction trees with
  | nil => rfl
  | cons tree trees ih => rw [openersBelow, ih, List.flatMap_cons]

theorem ProcessTree.openedIds_startjob (own : JobProcess P) (nested : List (ProcessTree P)) :
    (ProcessTree.startjob own nested).openedIds =
      (if own.session.openedByMe then [own.session.sessionId] else []) ++
        nested.flatMap ProcessTree.openedIds := by
  rw [ProcessTree.openedIds, ProcessTree.openers, openersBelow_eq, List.map_append, List.map_flatMap]
  split <;> rfl

mutual

theorem ProcessTree.opened_of_mem_openers : (tree : ProcessTree P) → ∀ p ∈ tree.openers,
    p.session.openedByMe = true
  | .startjob own nested => by
    intro p hp
    rw [ProcessTree.openers] at hp
    obtain hOwn | hBelow := List.mem_append.mp hp
    · split at hOwn
      · rename_i hOpened
        rw [List.mem_singleton.mp hOwn]
        exact hOpened
      · cases hOwn
    · exact opened_of_mem_openersBelow nested p hBelow

theorem opened_of_mem_openersBelow : (trees : List (ProcessTree P)) → ∀ p ∈ openersBelow trees,
    p.session.openedByMe = true
  | [] => by
    intro p hp
    cases hp
  | tree :: trees => by
    intro p hp
    obtain hFirst | hRest := List.mem_append.mp hp
    · exact tree.opened_of_mem_openers p hFirst
    · exact opened_of_mem_openersBelow trees p hRest

end

theorem JobProcess.sessionId_of_opened {p : JobProcess P} (h : p.session.openedByMe = true) :
    p.session.sessionId = freshSessionId p.now p.processId p.parentId := by
  by_cases hOpens : p.args.newSession = true ∨ p.os.getEnvVar "session_id" = []
  · rw [JobProcess.session_opened hOpens]
    rfl
  · obtain ⟨hNew, hId⟩ := not_or.mp hOpens
    rw [JobProcess.session_joined (Bool.not_eq_true _ ▸ hNew) hId] at h
    cases h

theorem ProcessTree.OpenedApart.nodup {tree : ProcessTree P} (h : tree.OpenedApart) :
    tree.openedIds.Nodup := by
  have hIds : tree.openedIds = (tree.openers.map fun p => (p.now, p.processId, p.parentId)).map
      fun opened => freshSessionId opened.1 opened.2.1 opened.2.2 := by
    rw [ProcessTree.openedIds, List.map_map]
    exact List.map_congr_left fun p hp => JobProcess.sessionId_of_opened (tree.opened_of_mem_openers p hp)
  rw [hIds]
  apply List.Nodup.map _ h
  rintro ⟨now, id, parentId⟩ ⟨now', id', parentId'⟩ hSame
  obtain ⟨rfl, rfl, rfl⟩ := freshSessionId_inj hSame
  rfl

theorem JobProcess.opened_or_joined {own parent : JobProcess P} {above : List (JobProcess P)}
    (hKnown : SessionKnown parent above) (hSplits : own.os.SplitsAtColon)
    (hInherits : own.environment.find "session_id" = some parent.session.sessionId) :
    own.session.openedByMe = true ∨ own.session.sessionId = parent.session.sessionId := by
  have hId := Os.getEnvVar_eq_self hSplits hInherits hKnown.no_colon
  cases hNew : own.args.newSession with
  | true => exact Or.inl (by rw [JobProcess.session_opened (Or.inl hNew)])
  | false =>
    rw [JobProcess.session_joined hNew (hId ▸ hKnown.ne_nil)]
    exact Or.inr hId

/-- The records of a part of the tree belong to the sessions it opens or, and
then nothing is opened or closed, to the session it has inherited. -/
structure LogInv (inherited : Str) (tree : ProcessTree P) (log : List Record) : Prop where
  known : ∀ r ∈ log, r.sessionId ∈ tree.openedIds ∨ r.sessionId = inherited ∧ r.Quiet
  bracketed : ∀ sessionId ∈ tree.openedIds, Bracketed (inSession sessionId log)

theorem LogInv.inSession_eq_nil {inherited sessionId : Str} {tree : ProcessTree P} {log : List Record}
    (h : LogInv inherited tree log) (hOpened : sessionId ∉ tree.openedIds) (hne : inherited ≠ sessionId) :
    inSession sessionId log = [] := by
  rw [inSession, List.filter_eq_nil_iff]
  intro r hr hSession
  obtain rfl : r.sessionId = sessionId := by simpa using hSession
  obtain hMem | ⟨hInherited, _⟩ := h.known r hr
  · exact hOpened hMem
  · exact hne hInherited.symm

section Node

variable {own : JobProcess P} {tools : List (List Record)}
  {children : List (ProcessTree P × List Record)} {inner : List Record}
  (hTools : ∀ log ∈ tools, ∀ r ∈ log, r.sessionId = own.session.sessionId ∧ r.Quiet)
  (hChildren : ∀ c ∈ children, LogInv own.session.sessionId c.1 c.2)
  (merged : Interleaving (tools ++ children.map Prod.snd) inner)
include hTools hChildren merged

theorem inner_known : ∀ r ∈ inner, (∃ c ∈ children, r.sessionId ∈ c.1.openedIds) ∨
    r.sessionId = own.session.sessionId ∧ r.Quiet := by
  intro r hr
  obtain ⟨part, hPart, hMem⟩ := merged.mem_iff.mp hr
  obtain hTool | hChild := List.mem_append.mp hPart
  · exact Or.inr (hTools part hTool r hMem)
  · obtain ⟨c, hc, rfl⟩ := List.mem_map.mp hChild
    obtain hOpened | hQuiet := (hChildren c hc).known r hMem
    · exact Or.inl ⟨c, hc, hOpened⟩
    · exact Or.inr hQuiet

/-- The records of a session that one of the children opens are that child's. -/
theorem inner_child {left right : List (ProcessTree P × List Record)}
    {c : ProcessTree P × List Record} {sessionId : Str} (hSplit : children = left ++ c :: right)
    (hOthers : ∀ c' ∈ left ++ right, sessionId ∉ c'.1.openedIds)
    (hne : own.session.sessionId ≠ sessionId) : inSession sessionId inner = inSession sessionId c.2 := by
  have hNil : ∀ c' ∈ left ++ right, inSession sessionId c'.2 = [] := by
    intro c' hc'
    have hMem : c' ∈ children := by
      rw [hSplit]
      obtain hLeft | hRight := List.mem_append.mp hc'
      · exact List.mem_append_left _ hLeft
      · exact List.mem_append_right _ (List.mem_cons_of_mem c hRight)
    exact (hChildren c' hMem).inSession_eq_nil (hOthers c' hc') hne
  rw [hSplit, List.map_append, List.map_cons, ← List.append_assoc] at merged
  apply merged.filter_eq
  · intro log hLog
    obtain hTool | hLeft := List.mem_append.mp hLog
    · rw [List.filter_eq_nil_iff]
      intro r hr
      rw [(hTools log hTool r hr).1]
      simp [hne]
    · obtain ⟨c', hc', rfl⟩ := List.mem_map.mp hLeft
      exact hNil c' (List.mem_append_left _ hc')
  · intro log hLog
    obtain ⟨c', hc', rfl⟩ := List.mem_map.mp hLog
    exact hNil c' (List.mem_append_right _ hc')

theorem bracketed_child {sessionId : Str}
    (hNodup : ((children.map Prod.fst).flatMap ProcessTree.openedIds).Nodup)
    (hMem : sessionId ∈ (children.map Prod.fst).flatMap ProcessTree.openedIds)
    (hne : own.session.sessionId ≠ sessionId) :
    Bracketed (inSession sessionId (own.logBefore ++ inner ++ own.logAfter)) := by
  obtain ⟨tree, hTree, hOpens⟩ := List.mem_flatMap.mp hMem
  obtain ⟨c, hc, rfl⟩ := List.mem_map.mp hTree
  obtain ⟨left, right, hSplit⟩ := List.append_of_mem hc
  have hOthers : ∀ c' ∈ left ++ right, sessionId ∉ c'.1.openedIds := by
    rw [hSplit] at hNodup
    simp only [List.map_append, List.map_cons, List.flatMap_append, List.flatMap_cons,
      List.nodup_append] at hNodup
    obtain ⟨_, ⟨_, _, hRight⟩, hLeft⟩ := hNodup
    intro c' hc' hOther
    obtain hMem' | hMem' := List.mem_append.mp hc'
    · exact hLeft sessionId (List.mem_flatMap.mpr ⟨c'.1, List.mem_map_of_mem hMem', hOther⟩)
        sessionId (List.mem_append_left _ hOpens) rfl
    · exact hRight sessionId hOpens sessionId
        (List.mem_flatMap.mpr ⟨c'.1, List.mem_map_of_mem hMem', hOther⟩) rfl
  have hBefore : inSession sessionId own.logBefore = [] := own.inSession_stamp_of_ne hne _
  have hAfter : inSession sessionId own.logAfter = [] := own.inSession_stamp_of_ne hne _
  have hInner := inner_child hTools hChildren merged hSplit hOthers hne
  have hLog : inSession sessionId (own.logBefore ++ inner ++ own.logAfter) =
      inSession sessionId c.2 := by
    rw [← hInner]
    rw [inSession] at hBefore hAfter ⊢
    rw [List.filter_append, List.filter_append, hBefore, hAfter, List.append_nil]
    rfl
  rw [hLog]
  exact (hChildren c hc).bracketed sessionId hOpens

/-- The process that has opened a session writes the first and the last of its records. -/
theorem bracketed_own (hOpened : own.session.openedByMe = true) (hReturns : own.Returns)
    (hBelow : own.session.sessionId ∉ (children.map Prod.fst).flatMap ProcessTree.openedIds) :
    Bracketed (inSession own.session.sessionId (own.logBefore ++ inner ++ own.logAfter)) := by
  have hBefore : own.logBefore = own.stamp openSession ::
      own.stamp (stdoutLog own.session.sessionId) :: own.bodyLog.1.map own.stamp := by
    rw [JobProcess.logBefore, if_pos hOpened]
    rfl
  have hAfter : own.logAfter = own.bodyLog.2.map own.stamp ++ [own.stamp closeSession] := by
    rw [JobProcess.logAfter, if_pos ⟨hOpened, hReturns.starts⟩, List.map_append]
    rfl
  have hOwnBefore : inSession own.session.sessionId own.logBefore = own.logBefore :=
    own.inSession_stamp _
  have hOwnAfter : inSession own.session.sessionId own.logAfter = own.logAfter :=
    own.inSession_stamp _
  have hInner : ∀ r ∈ inSession own.session.sessionId inner, r.Quiet := by
    intro r hr
    obtain ⟨hMem, hSession⟩ := List.mem_filter.mp hr
    obtain ⟨c, hc, hOpens⟩ | ⟨_, hQuiet⟩ := inner_known hTools hChildren merged r hMem
    · rw [of_decide_eq_true hSession] at hOpens
      exact absurd (List.mem_flatMap.mpr ⟨c.1, List.mem_map_of_mem hc, hOpens⟩) hBelow
    · exact hQuiet
  refine ⟨own.stamp openSession, own.stamp (stdoutLog own.session.sessionId) ::
    own.bodyLog.1.map own.stamp ++ inSession own.session.sessionId inner ++
      own.bodyLog.2.map own.stamp, own.stamp closeSession, ?_, rfl, rfl, rfl, ?_⟩
  · rw [inSession] at hOwnBefore hOwnAfter ⊢
    rw [List.filter_append, List.filter_append, hOwnBefore, hOwnAfter, hBefore, hAfter]
    simp [inSession]
  · intro r hr
    simp only [List.cons_append, List.mem_cons, List.mem_append, List.mem_map] at hr
    obtain rfl | (⟨call, hCall, rfl⟩ | hMem) | ⟨call, hCall, rfl⟩ := hr
    · exact ⟨by simp [JobProcess.stamp, stdoutLog, LogCall.entry],
        by simp [JobProcess.stamp, stdoutLog, LogCall.entry]⟩
    · exact own.body_quiet (List.mem_append_left _ hCall)
    · exact hInner r hMem
    · exact own.body_quiet (List.mem_append_right _ hCall)

/-- A record of the process itself, or of what runs below it. -/
theorem node_record {r : Record} (hr : r ∈ own.logBefore ++ inner ++ own.logAfter) :
    r.sessionId ∈ (children.map Prod.fst).flatMap ProcessTree.openedIds ∨
      r.sessionId = own.session.sessionId ∧ (own.session.openedByMe = false → r.Quiet) := by
  rw [List.mem_append, List.mem_append] at hr
  obtain (hBefore | hInner) | hAfter := hr
  · exact Or.inr (own.own_record (Or.inl hBefore))
  · obtain ⟨c, hc, hOpens⟩ | ⟨hSession, hQuiet⟩ := inner_known hTools hChildren merged r hInner
    · exact Or.inl (List.mem_flatMap.mpr ⟨c.1, List.mem_map_of_mem hc, hOpens⟩)
    · exact Or.inr ⟨hSession, fun _ => hQuiet⟩
  · exact Or.inr (own.own_record (Or.inr hAfter))

theorem LogInv.startjob {inherited : Str}
    (hInherits : own.session.openedByMe = true ∨ own.session.sessionId = inherited)
    (hReturns : own.session.openedByMe = true → own.Returns)
    (hNodup : (ProcessTree.startjob own (children.map Prod.fst)).openedIds.Nodup)
    (hApart : inherited ∉ (ProcessTree.startjob own (children.map Prod.fst)).openedIds) :
    LogInv inherited (.startjob own (children.map Prod.fst))
      (own.logBefore ++ inner ++ own.logAfter) := by
  have hRecord := fun r => @node_record P own tools children inner hTools hChildren merged r
  have hIds := ProcessTree.openedIds_startjob own (children.map Prod.fst)
  rw [hIds] at hNodup hApart
  cases hOpened : own.session.openedByMe with
  | true =>
    simp only [hOpened, if_true, List.cons_append, List.nil_append, List.nodup_cons] at hIds hNodup
    constructor
    · intro r hr
      rw [hIds]
      obtain hBelow | ⟨hSession, _⟩ := hRecord r hr
      · exact Or.inl (List.mem_cons_of_mem _ hBelow)
      · exact Or.inl (hSession ▸ List.mem_cons_self)
    · intro sessionId hMem
      rw [hIds] at hMem
      obtain rfl | hBelow := List.mem_cons.mp hMem
      · exact bracketed_own hTools hChildren merged hOpened (hReturns hOpened) hNodup.1
      · exact bracketed_child hTools hChildren merged hNodup.2 hBelow fun h => hNodup.1 (h ▸ hBelow)
  | false =>
    have hOwn := hInherits.resolve_left (by simp [hOpened])
    simp only [hOpened, Bool.false_eq_true, if_false, List.nil_append] at hIds hNodup hApart
    constructor
    · intro r hr
      rw [hIds]
      obtain hBelow | ⟨hSession, hQuiet⟩ := hRecord r hr
      · exact Or.inl hBelow
      · exact Or.inr ⟨hSession.trans hOwn, hQuiet hOpened⟩
    · intro sessionId hMem
      rw [hIds] at hMem
      exact bracketed_child hTools hChildren merged hNodup hMem fun h => hApart (hOwn ▸ h ▸ hMem)

end Node

/-! ### The whole tree -/

section Tree

variable {root : ProcessTree P} {environment : SortedMap Str Str} (hRuns : root.Runs environment)
  (hSplits : root.SplitsAtColon) (hNoSession : environment.find "session_id" = none)
  (hReturns : root.OpenersReturn)
include hRuns hSplits hNoSession hReturns

/-- By induction over the tree: below a process, its session is the inherited one. -/
theorem ProcessTree.Logs.inv {tree : ProcessTree P} {log : List Record} (h : tree.Logs log) :
    ∀ {above : List (JobProcess P)} {inherited : Str}, root.Under tree above →
      (tree.own.session.openedByMe = true ∨ tree.own.session.sessionId = inherited) →
      tree.openedIds.Nodup → inherited ∉ tree.openedIds → LogInv inherited tree log := by
  induction h with
  | @startjob own tools children inner tooled below merged ih =>
    intro above inherited hUnder hInherits hNodup hApart
    have hKnown : SessionKnown own above := hUnder.sessionKnown hRuns hSplits hNoSession
    have hTools : ∀ log ∈ tools, ∀ r ∈ log, r.sessionId = own.session.sessionId ∧ r.Quiet :=
      fun log hLog => (tooled log hLog).records hKnown
    refine LogInv.startjob hTools (fun c hc => ?_) merged hInherits (hReturns _ _ hUnder) hNodup hApart
    have hBelow := ProcessTree.Under.nested hUnder (List.mem_map_of_mem hc)
    obtain ⟨_, launch, _, hLaunch, hEnv⟩ := hBelow.inherits hRuns
    have hJoins : c.1.own.session.openedByMe = true ∨
        c.1.own.session.sessionId = own.session.sessionId := by
      apply JobProcess.opened_or_joined hKnown (hSplits c.1 _ hBelow)
      rw [hEnv]
      exact (JobProcess.find_launch_session hLaunch).1
    rw [ProcessTree.openedIds_startjob] at hNodup hApart
    obtain ⟨_, hChildren, hDisjoint⟩ := List.nodup_append.mp hNodup
    have hMem : ∀ s ∈ c.1.openedIds, s ∈ (children.map Prod.fst).flatMap ProcessTree.openedIds :=
      fun s hs => List.mem_flatMap.mpr ⟨c.1, List.mem_map_of_mem hc, hs⟩
    refine ih c hc hBelow hJoins ((List.nodup_flatMap.mp hChildren).1 c.1 (List.mem_map_of_mem hc)) ?_
    intro hOwn
    obtain hOpened | hSame := hInherits
    · exact hDisjoint _ (by simp [show own.session.openedByMe = true from hOpened]) _ (hMem _ hOwn) rfl
    · exact hApart (List.mem_append_right _ (hMem _ (hSame ▸ hOwn)))

/-- In whatever order the processes of a tree log, each record belongs to a session
that one of them has opened. In the log of the site and in its combined
log, the opening is the first record of a session and the closing the last one. -/
theorem sessions_bracketed {log : List Record} (hLog : root.Logs log) (hApart : root.OpenedApart) :
    (∀ r ∈ log, r.sessionId ∈ root.openedIds) ∧
    ∀ sessionId ∈ root.openedIds,
      Bracketed ((inSession sessionId log).filter fun r => r.call.reaches .cis) ∧
      Bracketed ((inSession sessionId log).filter fun r => r.call.reaches .combined) ∧
      ∀ r ∈ inSession sessionId log, r.call.reaches .session = true → r.Quiet := by
  have hRoot : root.own.session.openedByMe = true := by
    have hKnown : SessionKnown root.own [] :=
      ProcessTree.Under.root.sessionKnown hRuns hSplits hNoSession
    exact hKnown.opens.mpr (Or.inr rfl)
  -- nothing is inherited at the root, so any name that does not occur will do
  obtain ⟨inherited, hInherited⟩ := Infinite.exists_notMem_finset
    (root.openedIds ++ log.map Record.sessionId).toFinset
  rw [List.mem_toFinset, List.mem_append, not_or] at hInherited
  have hInv := hLog.inv hRuns hSplits hNoSession hReturns .root (Or.inl hRoot) hApart.nodup hInherited.1
  constructor
  · intro r hr
    obtain hOpened | ⟨hSame, _⟩ := hInv.known r hr
    · exact hOpened
    · exact absurd (hSame ▸ List.mem_map_of_mem hr) hInherited.2
  · intro sessionId hOpened
    have hBracketed := hInv.bracketed sessionId hOpened
    exact ⟨hBracketed.filter rfl rfl, hBracketed.filter rfl rfl, hBracketed.quiet⟩

end Tree

/-- The nested process logs in a session of its own. -/
def nestedLog : List Record := nestedJob.logBefore ++ [] ++ nestedJob.logAfter

def twoLog : List Record := rootJob.logBefore ++ nestedLog ++ rootJob.logAfter

theorem nestedLog_logs : (ProcessTree.startjob nestedJob []).Logs nestedLog :=
  @ProcessTree.Logs.startjob _ nestedJob [] [] [] (fun _ h => absurd h List.not_mem_nil)
    (fun _ h => absurd h List.not_mem_nil) (.done fun _ h => absurd h List.not_mem_nil)

theorem twoLog_logs : twoProcesses.Logs twoLog := by
  refine @ProcessTree.Logs.startjob _ rootJob [] [(.startjob nestedJob [], nestedLog)] nestedLog
    (fun _ h => absurd h List.not_mem_nil) (fun c hc => ?_) (.single nestedLog)
  obtain rfl := List.mem_singleton.mp hc
  exact nestedLog_logs

theorem twoProcesses_apart : twoProcesses.OpenedApart := by
  rw [ProcessTree.OpenedApart, show twoProcesses.openers = [rootJob, nestedJob] from rfl]
  simp [rootJob, nestedJob, siteJob, siteProcess]

theorem twoProcesses_return : twoProcesses.OpenersReturn := by
  intro sub above h _
  obtain rfl | rfl := twoProcesses_under h
  · exact ⟨fun _ => rfl, rfl⟩
  · exact ⟨fun _ => rfl, rfl⟩

theorem sessions_bracketed_two :
    (∀ r ∈ twoLog, r.sessionId ∈ twoProcesses.openedIds) ∧
    ∀ sessionId ∈ twoProcesses.openedIds,
      Bracketed ((inSession sessionId twoLog).filter fun r => r.call.reaches .cis) ∧
      Bracketed ((inSession sessionId twoLog).filter fun r => r.call.reaches .combined) ∧
      ∀ r ∈ inSession sessionId twoLog, r.call.reaches .session = true → r.Quiet :=
  sessions_bracketed twoProcesses_runs twoProcesses_splits (by decide) twoProcesses_return twoLog_logs
    twoProcesses_apart

end CisCore
