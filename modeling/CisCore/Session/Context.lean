import CisCore.Os

/-! # Contexts and sessions -/

namespace CisCore

structure Context where
  baseDir : FsPath
  env : SortedMap Str Str
  processId : Nat
  parentStartjobId : Nat

def Context.setEnvVar (ctx : Context) (key val : Str) : Context :=
  { ctx with env := ctx.env.insert key val }

def Context.getEnvVar (ctx : Context) (os : Os) (key : Str) : Str :=
  match ctx.env.find key with
  | some value => (os.toVector value).headD []
  | none => []

structure Session where
  sessionId : Str
  openedByMe : Bool

/-- Joins the session named by the environment unless `force` is set; `freshId`
is the identifier built from the time and the process ids. -/
def invokeSession (os : Os) (freshId : Str) (ctx : Context) (force : Bool) : Session × Context :=
  let sessionId : Str := if force then [] else os.getEnvVar "session_id"
  let openedByMe := sessionId.isEmpty
  let sessionId := if openedByMe then freshId else sessionId
  let ctx := ctx.setEnvVar "session_id" sessionId
  let ctx := ctx.setEnvVar "session_opened_by_me" (if openedByMe then "true" else "false")
  (⟨sessionId, openedByMe⟩, ctx)

def sessionDat (ctx : Context) (session : Session) : FsPath :=
  ctx.baseDir / "sessions" / (session.sessionId ++ ".dat".toList)

def sessionPrm (ctx : Context) (session : Session) : FsPath :=
  ctx.baseDir / "sessions" / (session.sessionId ++ ".prm".toList)

theorem sessionDat_ne_sessionPrm (ctx : Context) (session : Session) :
    sessionDat ctx session ≠ sessionPrm ctx session := by
  intro h
  have hName := List.append_cancel_left (List.cons.inj h).1
  revert hName
  decide

@[simp] theorem Context.setEnvVar_baseDir (ctx : Context) (key val : Str) :
    (ctx.setEnvVar key val).baseDir = ctx.baseDir := rfl

@[simp] theorem Context.find_setEnvVar_self (ctx : Context) (key val : Str) :
    (ctx.setEnvVar key val).env.find key = some val := SortedMap.find_insert_self _ _ _

theorem Context.find_setEnvVar_of_ne (ctx : Context) {key key' : Str} (val : Str)
    (h : key' ≠ key) : (ctx.setEnvVar key val).env.find key' = ctx.env.find key' :=
  SortedMap.find_insert_of_ne _ _ h

theorem invokeSession_joined {os : Os} {sessionId : Str} (hId : sessionId ≠ [])
    (h : os.getEnvVar "session_id" = sessionId) (freshId : Str) (ctx : Context) :
    (invokeSession os freshId ctx false).1 = ⟨sessionId, false⟩ := by
  have hEmpty : sessionId.isEmpty = false := by simpa using hId
  unfold invokeSession
  simp only [Bool.false_eq_true, if_false, h, hEmpty]

theorem invokeSession_opened {os : Os} {force : Bool}
    (h : force = true ∨ os.getEnvVar "session_id" = []) (freshId : Str) (ctx : Context) :
    (invokeSession os freshId ctx force).1 = ⟨freshId, true⟩ := by
  have hId : (if force then [] else os.getEnvVar "session_id") = [] := by
    obtain rfl | h := h
    · rfl
    · rw [h, ite_self]
  unfold invokeSession
  simp only [hId, List.isEmpty_nil, if_true]

@[simp] theorem invokeSession_baseDir (os : Os) (freshId : Str) (ctx : Context) (force : Bool) :
    (invokeSession os freshId ctx force).2.baseDir = ctx.baseDir := rfl

end CisCore
