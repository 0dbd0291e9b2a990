import Trillian.CachedQuota
import Trillian.Transaction

/-! The quota accounting of `server/interceptor/interceptor.go`: `Before` takes a request's
tokens with `GetTokens`, `After` gives tokens back with `PutTokens`. What the environment returns
is given to each call, and the quota manager calls are recorded. -/

namespace Trillian

namespace Interceptor

open Quota

/-- `trillian.TreeType`, of the types `newRPCInfoForRequestType` names. -/
inductive TreeType where
  | log
  | preorderedLog
  | map
  deriving DecidableEq, Repr

/-- The Go types of the requests `newRPCInfoForRequestType` maps, and any other type by its name. -/
inductive RequestType where
  | createConfig | deleteConfig | getConfig | listConfigs | updateConfig
  | createTree | listTrees | getTree | deleteTree | undeleteTree | updateTree
  | getConsistencyProof | getEntryAndProof | getInclusionProofByHash | getInclusionProof
  | getLatestSignedLogRoot | getLeavesByHash | getLeavesByIndex | getLeavesByRange
  | getSequencedLeafCount
  | queueLeaf | queueLeaves | addSequencedLeaf | addSequencedLeaves | initLog
  | getMapLeavesByRevision | getMapLeaves | getSignedMapRootByRevision | getSignedMapRoot
  | setMapLeaves | initMap
  | other (typeName : String)
  deriving DecidableEq, Repr

/-- Whether the type has one of the tree ID getters `newRPCInfo` matches: `GetLogId`, `GetMapId`,
`GetTreeId` or `GetTree`. -/
def RequestType.hasTreeID : RequestType → Bool
  | .createConfig | .deleteConfig | .getConfig | .listConfigs | .updateConfig | .listTrees
  | .other _ => false
  | _ => true

/-- Whether the type has `GetLeaves`: `logLeavesRequest` or `mapLeavesRequest`. -/
def RequestType.hasLeaves : RequestType → Bool
  | .queueLeaves | .addSequencedLeaves | .setMapLeaves => true
  | _ => false

/-- A request, by its type and what `newRPCInfo` reads of it: the ID its tree ID getter returns, and
the number of leaves `GetLeaves` returns. -/
structure Request where
  type : RequestType
  id : ℤ
  leaves : ℕ
  deriving DecidableEq, Repr

structure RPCInfo where
  auth : Bool
  getTree : Bool
  quota : Bool
  readonly : Bool
  treeID : ℤ
  treeTypes : List TreeType
  specs : List Spec
  tokens : ℕ

/-- The "safe" defaults of `newRPCInfoForRequestType`: all interception on, and read-only. -/
def safeDefaults : RPCInfo := ⟨true, true, true, true, 0, [], [], 0⟩

def newRPCInfoForRequestType : RequestType → Except String RPCInfo
  -- Not intercepted at all
  | .createConfig | .deleteConfig | .getConfig | .listConfigs | .updateConfig =>
    .ok { safeDefaults with auth := false, getTree := false, quota := false, readonly := false }
  -- Admin create
  | .createTree => .ok { safeDefaults with auth := false, getTree := false, quota := false, readonly := false }
  -- Admin list
  | .listTrees => .ok { safeDefaults with auth := false, getTree := false, quota := false }
  -- Admin / readonly
  | .getTree => .ok { safeDefaults with getTree := false, quota := false }
  -- Admin / readwrite
  | .deleteTree | .undeleteTree | .updateTree =>
    .ok { safeDefaults with getTree := false, quota := false, readonly := false }
  -- Log / readonly
  | .getConsistencyProof | .getEntryAndProof | .getInclusionProofByHash | .getInclusionProof
  | .getLatestSignedLogRoot | .getLeavesByHash | .getLeavesByIndex | .getLeavesByRange
  | .getSequencedLeafCount => .ok { safeDefaults with treeTypes := [.log, .preorderedLog] }
  -- Log / readwrite
  | .queueLeaf | .queueLeaves => .ok { safeDefaults with readonly := false, treeTypes := [.log] }
  -- Pre-ordered Log / readwrite
  | .addSequencedLeaf | .addSequencedLeaves =>
    .ok { safeDefaults with readonly := false, treeTypes := [.preorderedLog] }
  | .initLog => .ok { safeDefaults with readonly := false, treeTypes := [.log, .preorderedLog] }
  -- Map / readonly
  | .getMapLeavesByRevision | .getMapLeaves | .getSignedMapRootByRevision | .getSignedMapRoot =>
    .ok { safeDefaults with treeTypes := [.map] }
  -- Map / readwrite
  | .setMapLeaves | .initMap => .ok { safeDefaults with readonly := false, treeTypes := [.map] }
  | .other typeName =>
    .error s!"rpc error: code = Internal desc = newRPCInfo: unmapped request type: {typeName}"

/-- The name `%T` prints of a request type without a tree ID getter. -/
def RequestType.typeName : RequestType → String
  | .createConfig => "*quotapb.CreateConfigRequest"
  | .deleteConfig => "*quotapb.DeleteConfigRequest"
  | .getConfig => "*quotapb.GetConfigRequest"
  | .listConfigs => "*quotapb.ListConfigsRequest"
  | .updateConfig => "*quotapb.UpdateConfigRequest"
  | .listTrees => "*trillian.ListTreesRequest"
  | .other typeName => typeName
  | _ => ""

/-- The first switch of `newRPCInfo`: the tree ID, read when any interception is on. -/
def readTreeID (req : Request) (info : RPCInfo) : Except String RPCInfo :=
  if info.auth || info.getTree || info.quota then
    if req.type.hasTreeID then .ok { info with treeID := req.id }
    else
      let t := req.type.typeName
      .error s!"rpc error: code = Internal desc = cannot retrieve treeID from request: {t}"
  else .ok info

/-- The quota block of `newRPCInfo`: the user, tree and global specs of the request's kind, and its
tokens, one per leaf for a request with leaves. -/
def setQuota (req : Request) (quotaUser : String) (info : RPCInfo) : RPCInfo :=
  if info.quota then
    let kind : Kind := if info.readonly then .read else .write
    { info with
      specs := [⟨.user, kind, 0, quotaUser⟩, ⟨.tree, kind, info.treeID, ""⟩, ⟨.global, kind, 0, ""⟩]
      tokens := if req.type.hasLeaves then req.leaves else 1 }
  else info

def newRPCInfo (req : Request) (quotaUser : String) : Except String RPCInfo := do
  let info ← newRPCInfoForRequestType req.type
  let info ← readTreeID req info
  pure (setQuota req quotaUser info)

/-- `trillian.QueuedLogLeaf`, by the code of its status; `none` for a nil status. -/
structure QueuedLogLeaf where
  status : Option ℤ
  deriving DecidableEq, Repr

/-- `isLeafOK`: a nil leaf, a nil status and the code `OK` are all OK. -/
def isLeafOK : Option QueuedLogLeaf → Bool
  | none => true
  | some leaf =>
    match leaf.status with
    | none => true
    | some code => code = 0

/-- A handler's response, by what the type switch of `After` tells apart. -/
inductive Response where
  /-- a `logLeafResponse`: `QueueLeafResponse` -/
  | queuedLeaf (leaf : Option QueuedLogLeaf)
  /-- a `logLeavesResponse`: `QueueLeavesResponse` -/
  | queuedLeaves (leaves : List (Option QueuedLogLeaf))
  /-- any other response, nil included -/
  | other
  deriving DecidableEq, Repr

/-- The tokens `After` gives back for a response without a handler error. -/
def Response.nonOKLeaves : Response → ℕ
  | .queuedLeaf leaf => if isLeafOK leaf then 0 else 1
  | .queuedLeaves leaves => leaves.countP fun leaf => !isLeafOK leaf
  | .other => 0

/-- What the calls `Before` makes return: `GetUser`, `trees.GetTree`, `ctx.Err()` after it,
`GetTokens`, and `ctx.Err()` after that. -/
structure Env where
  quotaUser : String
  getTreeErr : Option String
  ctxErrAfterGetTree : Option String
  getTokensErr : Option String
  ctxErrAfterGetTokens : Option String
  deriving DecidableEq, Repr

/-- A call of the quota manager, with what it returned. -/
inductive QuotaCall where
  | getTokens (tokens : ℕ) (specs : List Spec) (err : Option String)
  | putTokens (tokens : ℕ) (specs : List Spec)

namespace TrillianProcessor

/-- `Before`: the `rpcInfo` it keeps for `After`, its error, and its calls of the quota manager. -/
def before (quotaDryRun : Bool) (env : Env) (req : Request) :
    Option RPCInfo × Option String × List QuotaCall :=
  match newRPCInfo req env.quotaUser with
  | .error err => (none, some err, [])
  | .ok info =>
    -- a `GetTree` error, or else the context's error after it
    match (if info.getTree then env.getTreeErr.or env.ctxErrAfterGetTree else none) with
    | some err => (some info, some err, [])
    | none =>
      if info.quota && !info.specs.isEmpty && 0 < info.tokens then
        let calls := [QuotaCall.getTokens info.tokens info.specs env.getTokensErr]
        match env.getTokensErr with
        | some err =>
          if !quotaDryRun then
            (some info, some s!"rpc error: code = ResourceExhausted desc = quota exhausted: {err}", calls)
          -- dry run: the request is let through
          else (some info, env.ctxErrAfterGetTokens, calls)
        | none => (some info, env.ctxErrAfterGetTokens, calls)
      else (some info, none, [])

/-- `After`: its call of `PutTokens`, if it makes one. -/
def after (info : Option RPCInfo) (resp : Response) (handlerErr : Option String) : List QuotaCall :=
  match info with
  | none => []
  | some info =>
    if !info.quota then []
    else
      let tokens := if handlerErr.isSome then info.tokens else resp.nonOKLeaves
      if !info.specs.isEmpty && 0 < tokens then [.putTokens tokens info.specs] else []

end TrillianProcessor

/-- `UnaryInterceptor` on a request whose handler returns `handler`: the response and error it
returns, and the calls of the quota manager made for the request. -/
def unaryInterceptor (quotaDryRun : Bool) (env : Env) (req : Request) (handler : Response × Option String) :
    (Option Response × Option String) × List QuotaCall :=
  let (info, err, calls) := TrillianProcessor.before quotaDryRun env req
  match err with
  | some err => ((none, some err), calls)
  | none => ((some handler.1, handler.2), calls ++ TrillianProcessor.after info handler.1 handler.2)

/-- The tokens a call took from the quota. -/
def QuotaCall.acquired : QuotaCall → ℕ
  | .getTokens tokens _ none => tokens
  | _ => 0

/-- The tokens a call gave back. -/
def QuotaCall.returned : QuotaCall → ℕ
  | .putTokens tokens _ => tokens
  | _ => 0

/-- The tokens `GetTokens` acquired in a list of calls. -/
def acquired (calls : List QuotaCall) : ℕ := (calls.map QuotaCall.acquired).sum

/-- The tokens passed to `PutTokens` in a list of calls. -/
def returned (calls : List QuotaCall) : ℕ := (calls.map QuotaCall.returned).sum

section Accounting

open Transaction

variable {req : Request} {user : String} {info : RPCInfo}

theorem newRPCInfo_eq_ok (h : newRPCInfo req user = .ok info) : ∃ info₀, info = setQuota req user info₀ := by
  obtain ⟨info₁, -, h⟩ := except_bind_eq_ok.mp h
  obtain ⟨info₀, -, h⟩ := except_bind_eq_ok.mp h
  exact ⟨info₀, (Except.ok.inj h).symm⟩

/-- A request charged to the quota is charged to three specs, with one token a leaf for a request
with leaves and one token otherwise. -/
theorem setQuota_of_quota {info₀ : RPCInfo} (hq : (setQuota req user info₀).quota = true) :
    (setQuota req user info₀).specs.isEmpty = false ∧
      (setQuota req user info₀).tokens = if req.type.hasLeaves then req.leaves else 1 := by
  by_cases hq₀ : info₀.quota = true
  · simp [setQuota, if_pos hq₀]
  · simp only [setQuota, if_neg hq₀] at hq
    exact absurd hq hq₀

theorem specs_of_quota (h : newRPCInfo req user = .ok info) (hq : info.quota = true) :
    info.specs.isEmpty = false := by
  obtain ⟨info₀, rfl⟩ := newRPCInfo_eq_ok h
  exact (setQuota_of_quota hq).1

namespace TrillianProcessor

variable {quotaDryRun : Bool} {env : Env}

/-- What `Before` can do: make no quota call, or one `GetTokens` call of the request's tokens, and
when it lets a request through after a failed `GetTokens`, it is in dry-run mode. -/
theorem before_cases {i : Option RPCInfo} {err : Option String} {calls : List QuotaCall}
    (h : before quotaDryRun env req = (i, err, calls)) :
    (calls = [] ∧ (err = none → ∃ info, i = some info ∧ newRPCInfo req env.quotaUser = .ok info ∧
      (info.quota = true → info.tokens = 0))) ∨
    (∃ info, i = some info ∧ newRPCInfo req env.quotaUser = .ok info ∧ info.quota = true ∧
      calls = [.getTokens info.tokens info.specs env.getTokensErr] ∧
      (err = none → env.getTokensErr = none ∨ quotaDryRun = true)) := by
  unfold before at h
  split at h
  · -- `newRPCInfo` failed
    cases h
    exact .inl ⟨rfl, nofun⟩
  · next info hinfo =>
    split at h
    · -- `GetTree` failed, or the context did
      cases h
      exact .inl ⟨rfl, nofun⟩
    · split at h
      · next hcharge =>
        have hq : info.quota = true := by simp_all
        split at h
        · next e he =>
          split at h
          · cases h
            exact .inr ⟨info, rfl, hinfo, hq, rfl, nofun⟩
          · next hdry =>
            cases h
            exact .inr ⟨info, rfl, hinfo, hq, rfl, fun _ => .inr (by simpa using hdry)⟩
        · next he =>
          cases h
          exact .inr ⟨info, rfl, hinfo, hq, by rw [he], fun _ => .inl he⟩
      · next hcharge =>
        -- a request not charged: no quota, or no token
        cases h
        refine .inl ⟨rfl, fun _ => ⟨info, rfl, hinfo, fun hq => ?_⟩⟩
        have hspecs := specs_of_quota hinfo hq
        simp only [hq, hspecs, Bool.not_false, Bool.true_and, decide_eq_true_eq, not_lt] at hcharge
        omega

theorem acquired_after (i : Option RPCInfo) (resp : Response) (handlerErr : Option String) :
    acquired (after i resp handlerErr) = 0 := by
  unfold after
  split
  · rfl
  · split
    · rfl
    · -- at most one `PutTokens`
      dsimp only
      split <;> split <;> rfl

/-- The tokens `After` gives back: on a request charged to the quota, the request's tokens after a
handler error and its non-OK leaves otherwise. -/
theorem returned_after (hinfo : newRPCInfo req user = .ok info) (resp : Response) (handlerErr : Option String) :
    returned (after (some info) resp handlerErr) =
      if info.quota then (if handlerErr.isSome then info.tokens else resp.nonOKLeaves) else 0 := by
  by_cases hq : info.quota = true
  · have hspecs := specs_of_quota hinfo hq
    simp only [after, hq, hspecs, Bool.not_true, Bool.false_eq_true, if_false, if_true, Bool.not_false,
      Bool.true_and, decide_eq_true_eq]
    by_cases hpos : 0 < if handlerErr.isSome = true then info.tokens else resp.nonOKLeaves
    · rw [if_pos hpos]
      simp [returned, QuotaCall.returned]
    · -- nothing to give back
      rw [if_neg hpos]
      simp only [returned, List.map_nil, List.sum_nil]
      omega
  · simp [after, hq, returned]

end TrillianProcessor

@[simp] theorem returned_append (calls calls' : List QuotaCall) :
    returned (calls ++ calls') = returned calls + returned calls' := by
  simp [returned]

@[simp] theorem acquired_append (calls calls' : List QuotaCall) :
    acquired (calls ++ calls') = acquired calls + acquired calls' := by
  simp [acquired]

@[simp] theorem returned_getTokens (tokens : ℕ) (specs : List Spec) (err : Option String) :
    returned [.getTokens tokens specs err] = 0 := rfl

@[simp] theorem acquired_getTokens_none (tokens : ℕ) (specs : List Spec) :
    acquired [.getTokens tokens specs none] = tokens := by
  simp [acquired, QuotaCall.acquired]

/-- The tokens given back are at most the tokens taken, for every request, environment and handler
result, provided `GetTokens` did not fail in dry-run mode, and a handler that succeeds reports no
more non-OK leaves than the request was charged tokens. -/
theorem returned_le_acquired (quotaDryRun : Bool) (env : Env) (req : Request) (handler : Response × Option String)
    (hdry : quotaDryRun = false ∨ env.getTokensErr = none)
    (hresp : handler.2 = none → ∀ info, newRPCInfo req env.quotaUser = .ok info →
      handler.1.nonOKLeaves ≤ info.tokens) :
    returned (unaryInterceptor quotaDryRun env req handler).2 ≤
      acquired (unaryInterceptor quotaDryRun env req handler).2 := by
  rcases hb : TrillianProcessor.before quotaDryRun env req with ⟨i, err, calls⟩
  have hcases := TrillianProcessor.before_cases hb
  -- `Before`'s own calls give nothing back
  have hcalls : returned calls = 0 := by
    rcases hcases with ⟨rfl, -⟩ | ⟨info, -, -, -, rfl, -⟩ <;> rfl
  cases err with
  | some e =>
    simp only [unaryInterceptor, hb, hcalls]
    exact Nat.zero_le _
  | none =>
    simp only [unaryInterceptor, hb, returned_append, acquired_append, hcalls, zero_add,
      TrillianProcessor.acquired_after, add_zero]
    -- what `After` gives back is bounded by what the request was charged
    have hback : ∀ info, i = some info → newRPCInfo req env.quotaUser = .ok info →
        returned (TrillianProcessor.after i handler.1 handler.2) ≤ if info.quota then info.tokens else 0 := by
      intro info hi hinfo
      rw [hi, TrillianProcessor.returned_after hinfo]
      split
      · cases hherr : handler.2 with
        | some e => simp
        | none => simpa using hresp hherr info hinfo
      · exact le_rfl
    rcases hcases with ⟨rfl, hnone⟩ | ⟨info, hi, hinfo, hq, rfl, hget⟩
    · obtain ⟨info, hi, hinfo, hzero⟩ := hnone rfl
      -- the request was not charged: nothing is given back
      have h0 : returned (TrillianProcessor.after i handler.1 handler.2) = 0 := by
        have h := hback info hi hinfo
        by_cases hq : info.quota = true
        · simpa [hq, hzero hq] using h
        · simpa [hq] using h
      rw [h0]
      exact Nat.zero_le _
    · -- `GetTokens` took the request's tokens
      have hok : env.getTokensErr = none := by
        rcases hget rfl with h | h
        · exact h
        · rcases hdry with hd | hd
          · rw [h] at hd
            cases hd
          · exact hd
      rw [hok, acquired_getTokens_none]
      simpa [hq] using hback info hi hinfo

theorem returned_le_acquired_queueLeaf :
    let env : Env := ⟨"user", none, none, none, none⟩
    returned (unaryInterceptor false env ⟨.queueLeaf, 1, 0⟩ (.other, none)).2 ≤
      acquired (unaryInterceptor false env ⟨.queueLeaf, 1, 0⟩ (.other, none)).2 := by
  intro env
  apply returned_le_acquired false env ⟨.queueLeaf, 1, 0⟩ (.other, none) (.inl rfl)
  intro _ info _
  exact Nat.zero_le _

/-- Where `GetTokens` took a request's tokens and the handler ran, `After` gives back all of them
on a handler error, and one per non-OK leaf otherwise. -/
theorem returned_of_getTokens (quotaDryRun : Bool) (env : Env) (handler : Response × Option String)
    (hinfo : newRPCInfo req env.quotaUser = .ok info) (hq : info.quota = true) (hpos : 0 < info.tokens)
    (hget : env.getTokensErr = none)
    (hran : (unaryInterceptor quotaDryRun env req handler).1.1 = some handler.1) :
    acquired (unaryInterceptor quotaDryRun env req handler).2 = info.tokens ∧
      returned (unaryInterceptor quotaDryRun env req handler).2 =
        if handler.2.isSome then info.tokens else handler.1.nonOKLeaves := by
  rcases hb : TrillianProcessor.before quotaDryRun env req with ⟨i, err, calls⟩
  -- the handler ran, so `Before` returned no error
  have herr : err = none := by
    cases err with
    | none => rfl
    | some e => simp [unaryInterceptor, hb] at hran
  subst herr
  simp only [unaryInterceptor, hb, returned_append, acquired_append, TrillianProcessor.acquired_after,
    add_zero]
  rcases TrillianProcessor.before_cases hb with ⟨-, hnone⟩ | ⟨info', hi, hinfo', -, rfl, -⟩
  · -- a request charged with tokens does call `GetTokens`
    obtain ⟨info', -, hinfo', hzero⟩ := hnone rfl
    rw [hinfo] at hinfo'
    cases hinfo'
    exact absurd (hzero hq) (Nat.pos_iff_ne_zero.mp hpos)
  · rw [hinfo] at hinfo'
    cases hinfo'
    rw [hi, hget, acquired_getTokens_none, returned_getTokens, zero_add,
      TrillianProcessor.returned_after hinfo, if_pos hq]
    exact ⟨rfl, rfl⟩

end Accounting

/-- A dry run lets a request through when `GetTokens` fails, and `After` then gives back the tokens
it never took. And a handler reporting more non-OK leaves than the request had gives back more
tokens than were taken. -/
theorem returned_exceeds_acquired :
    let failing : Env := ⟨"user", none, none, some "insufficient tokens", none⟩
    let ok : Env := ⟨"user", none, none, none, none⟩
    let duplicates : Response := .queuedLeaves [some ⟨some 6⟩, some ⟨some 6⟩]
    acquired (unaryInterceptor true failing ⟨.queueLeaf, 1, 0⟩ (.other, some "invalid leaf")).2 = 0 ∧
      returned (unaryInterceptor true failing ⟨.queueLeaf, 1, 0⟩ (.other, some "invalid leaf")).2 = 1 ∧
      acquired (unaryInterceptor false ok ⟨.queueLeaves, 1, 1⟩ (duplicates, none)).2 = 1 ∧
      returned (unaryInterceptor false ok ⟨.queueLeaves, 1, 1⟩ (duplicates, none)).2 = 2 := by
  decide

end Interceptor

end Trillian
