import Trillian.EtcdQuotaConfig

/-! `QuotaStorage` of `quota/etcd/storage/quota_storage.go`: configs and token buckets kept in
etcd, each call one serializable STM transaction, a `Transaction.Txn` run by `atomically`. Times
are given to each call. Go's `int64` sums wrap (`addInt64`); other integers are unbounded. -/

namespace Trillian

namespace Quota

/-- `MaxTokens`: `MaxInt` of a 64-bit build. -/
def maxTokens : ℤ := 2 ^ 63 - 1

end Quota

namespace EtcdQuota

open Transaction

structure Bucket where
  tokens : ℤ
  lastReplenishMillisSinceEpoch : ℤ
  deriving DecidableEq, Repr

/-- What an etcd key holds: the `Configs` or the `Bucket` marshalled into its value. -/
inductive Value where
  | configs (cfgs : Configs)
  | bucket (b : Bucket)
  deriving DecidableEq, Repr

/-- The etcd key space. A key that is not there reads as the empty value. -/
abbrev Store := String → Option Value

def emptyStore : Store := fun _ => none

/-- A transaction of `concurrency.NewSTMSerializable`. -/
abbrev STM := Txn Store QuotaError

/-- `time.Time`, by its nanoseconds since the epoch. -/
structure Time where
  unixNano : ℤ
  deriving DecidableEq, Repr

/-- `Unix`: the seconds since the epoch, rounded down. -/
def Time.unix (t : Time) : ℤ := t.unixNano.fdiv 1000000000

/-- A sum of two `int64`s, which wraps. -/
def addInt64 (a b : ℤ) : ℤ := (a + b).bmod (2 ^ 64)

def configsKey : String := "quotas/configs"

/-- `bucketKey`: `fmt.Sprintf("%v/0", cfg.Name)`. -/
def bucketKey (cfg : Config) : String := cfg.name ++ "/0"

/-- `getConfigs`. A stored bucket does not unmarshal as `Configs`. -/
def getConfigs : STM Configs := do
  match ← read configsKey with
  | none => pure ⟨[]⟩  -- no config was explicitly created yet
  | some (.configs cfgs) => pure cfgs
  | some (.bucket _) => throw (.errorf s!"error unmarshaling {configsKey}")

/-- The time-based block of `modBucket`: a bucket due replenishment gets `TokensToReplenish` more
tokens, up to `MaxTokens`, and is stamped with `now`; a positive `add` is dropped, since
time-based quotas are not replenished by `Put`. -/
def replenish (cfg : Config) (now : Time) (prevBucket : Bucket) (add : ℤ) : Bucket × ℤ :=
  match cfg.replenishmentStrategy with
  | .timeBased tokensToReplenish replenishIntervalSeconds =>
    let newBucket : Bucket :=
      if now.unix ≥ addInt64 (prevBucket.lastReplenishMillisSinceEpoch.tdiv 1000)
          replenishIntervalSeconds then
        let tokens := addInt64 prevBucket.tokens tokensToReplenish
        ⟨if tokens > cfg.maxTokens then cfg.maxTokens else tokens, now.unixNano.tdiv 1000000⟩
      else prevBucket
    (newBucket, if add > 0 then 0 else add)
  | _ => (prevBucket, add)

/-- `s.Get(key)` of `modBucket`, unmarshalled as a bucket. A stored `Configs` does not unmarshal
as a bucket. -/
def readBucket (key : String) : STM Bucket := do
  match ← read key with
  | none => pure ⟨0, 0⟩  -- the empty value unmarshals to the zero bucket
  | some (.bucket b) => pure b
  | some (.configs _) => throw (.errorf s!"error unmarshaling {key}")

/-- The arithmetic of `modBucket` on the bucket it read: the replenishment, then the add, an error
if that leaves fewer than zero tokens, and the cap at `MaxTokens`. -/
def modTokens (cfg : Config) (now : Time) (key : String) (prevBucket : Bucket) (add : ℤ) :
    Except QuotaError Bucket :=
  let (newBucket, add) := replenish cfg now prevBucket add
  let tokens := addInt64 newBucket.tokens add
  if tokens < 0 then
    let prevTokens := prevBucket.tokens
    let want := (-add).bmod (2 ^ 64)
    .error (.errorf s!"insufficient tokens on {key} ({prevTokens} vs {want})")
  else
    .ok ⟨if tokens > cfg.maxTokens then cfg.maxTokens else tokens,
      newBucket.lastReplenishMillisSinceEpoch⟩

/-- `modBucket`: adds `add` tokens to the bucket of `cfg` (`modTokens`), writes it back if it
changed, and returns the tokens left. -/
def modBucket (cfg : Config) (now : Time) (add : ℤ) : STM ℤ := do
  let key := bucketKey cfg
  let prevBucket ← readBucket key
  let newBucket ← MonadExcept.ofExcept (modTokens cfg now key prevBucket add)
  if prevBucket ≠ newBucket then
    write key (.bucket newBucket)
  pure newBucket.tokens

/-- The bucket `UpdateConfigs` and `Reset` write: full, and replenished at `now`. -/
def fullBucket (cfg : Config) (now : Time) : Bucket := ⟨cfg.maxTokens, now.unixNano.tdiv 1000000⟩

/-- The switch of `UpdateConfigs` for one config of the update: a new config, one that was
disabled, or any config on a reset gets a full bucket; a config whose `MaxTokens` is lowered has
its bucket capped by `modBucket`; the others keep their bucket. -/
def updateBucket (reset : Bool) (now : Time) (previous : Configs) (cfg : Config) : STM Unit :=
  match previous.configs.find? (·.name = cfg.name) with
  | none => write (bucketKey cfg) (.bucket (fullBucket cfg now))
  | some prev =>
    if prev.state = .disabled ∨ reset = true then write (bucketKey cfg) (.bucket (fullBucket cfg now))
    else if cfg.maxTokens < prev.maxTokens then do
      let _ ← modBucket cfg now 0
    else pure ()

/-- The transaction of `UpdateConfigs`. -/
def updateConfigsTxn (reset : Bool) (update : Configs → Configs) (now : Time) : STM Configs := do
  let previous ← getConfigs
  -- a deep copy of previous, read again
  let updated ← getConfigs
  if previous ≠ updated then
    throw (.status .internal "verification failed: previous quota config != updated")
  let updated := update updated
  MonadExcept.ofExcept (validate updated)
  if previous ≠ updated then
    write configsKey (.configs updated)
  forM updated.configs (updateBucket reset now previous)
  pure updated

inductive ForNamesMode where
  /-- only known, enabled configs are emitted -/
  | defaultMode
  /-- a name that is unknown or disabled is emitted with a nil config too -/
  | emitInfinite
  deriving DecidableEq, Repr

/-- What the loop of `forNames` does for a name it has not seen: the config of that name is
handed to `fn` if it is enabled, and a nil config if none was and the mode emits infinite quotas.
Go's `fn` writes its result to a variable of the caller; here it is returned, with `none` when
`fn` was not called. -/
def forName {β : Type} (cfgs : Configs) (mode : ForNamesMode) (fn : String → Option Config → STM β)
    (name : String) : STM (Option β) := do
  let emitted ← (match cfgs.configs.find? (·.name = name) with
    | some cfg => if cfg.state = .enabled then some <$> fn name (some cfg) else pure none
    | none => pure none)
  if emitted.isNone ∧ mode = .emitInfinite then some <$> fn name none else pure emitted

/-- The loop of `forNames` over the names, with the names seen so far; it returns `fn`'s results
with their names. -/
def forNamesLoop {β : Type} (cfgs : Configs) (mode : ForNamesMode)
    (fn : String → Option Config → STM β) : List String → List String → STM (List (String × β))
  | [], _ => pure []
  | name :: names, seenNames =>
    if name ∈ seenNames then forNamesLoop cfgs mode fn names seenNames
    else do
      let r ← forName cfgs mode fn name
      let rs ← forNamesLoop cfgs mode fn names (name :: seenNames)
      pure (r.toList.map (name, ·) ++ rs)

namespace QuotaStorage

/-- `forNames`: checks the names, then runs `fn` over the configs they name in one transaction. -/
def forNames {β : Type} (names : List String) (mode : ForNamesMode)
    (fn : String → Option Config → STM β) (s : Store) : Except QuotaError (List (String × β)) × Store :=
  match names.find? (fun name => !isNameValid name) with
  | some name =>
    let q := name.quote
    (.error (.errorf s!"invalid name: {q}"), s)
  | none => atomically (do
      let cfgs ← getConfigs
      forNamesLoop cfgs mode fn names []) s

/-- `UpdateConfigs`; `none` is a nil update function. -/
def updateConfigs (reset : Bool) (update : Option (Configs → Configs)) (now : Time) (s : Store) :
    Except QuotaError Configs × Store :=
  match update with
  | none => (.error (.status .internal "update function required"), s)
  | some update => atomically (updateConfigsTxn reset update now) s

def configs (s : Store) : Except QuotaError Configs × Store := atomically getConfigs s

/-- `mod`: `modBucket` on the enabled configs named. -/
def mod (names : List String) (add : ℤ) (now : Time) (s : Store) : Except QuotaError Unit × Store :=
  let r := forNames names .defaultMode (fun _ cfg => match cfg with
    | some cfg => do
      let _ ← modBucket cfg now add
    -- defaultMode emits no nil config; `modBucket` would dereference it
    | none => throw .nilDereference) s
  (r.1.map fun _ => (), r.2)

def get (names : List String) (tokens : ℤ) (now : Time) (s : Store) : Except QuotaError Unit × Store :=
  if tokens < 0 then (.error (.errorf s!"invalid number of tokens: {tokens}"), s)
  else mod names (-tokens) now s

/-- `Peek`: the tokens of each name, `MaxTokens` for an unknown or disabled one. -/
def peek (names : List String) (now : Time) (s : Store) :
    Except QuotaError (List (String × ℤ)) × Store :=
  forNames names .emitInfinite (fun _ cfg => match cfg with
    | none => pure Quota.maxTokens
    | some cfg => modBucket cfg now 0) s

def put (names : List String) (tokens : ℤ) (now : Time) (s : Store) : Except QuotaError Unit × Store :=
  if tokens < 0 then (.error (.errorf s!"invalid number of tokens: {tokens}"), s)
  else mod names tokens now s

/-- `Reset`: a full bucket for each enabled config named. -/
def reset (names : List String) (now : Time) (s : Store) : Except QuotaError Unit × Store :=
  let r := forNames names .defaultMode (fun _ cfg => match cfg with
    | some cfg => write (bucketKey cfg) (.bucket (fullBucket cfg now))
    -- defaultMode emits no nil config; `cfg.MaxTokens` would dereference it
    | none => throw .nilDereference) s
  (r.1.map fun _ => (), r.2)

end QuotaStorage

/-- A call to the storage. -/
inductive Request where
  | updateConfigs (reset : Bool) (update : Option (Configs → Configs))
  | configs
  | get (names : List String) (tokens : ℤ)
  | peek (names : List String)
  | put (names : List String) (tokens : ℤ)
  | reset (names : List String)

/-- The store after a call made at time `now`. -/
def Request.apply (s : Store) (now : Time) : Request → Store
  | .updateConfigs r update => (QuotaStorage.updateConfigs r update now s).2
  | .configs => (QuotaStorage.configs s).2
  | .get names tokens => (QuotaStorage.get names tokens now s).2
  | .peek names => (QuotaStorage.peek names now s).2
  | .put names tokens => (QuotaStorage.put names tokens now s).2
  | .reset names => (QuotaStorage.reset names now s).2

def runRequests (s : Store) : List (Time × Request) → Store
  | [] => s
  | (now, r) :: calls => runRequests (r.apply s now) calls

theorem bucketKey_ne_configsKey (cfg : Config) : bucketKey cfg ≠ configsKey := by
  intro h
  -- a bucket key ends in `0`, the configs key in `s`
  have hlast := congrArg (fun s : String => s.toList.getLast?) h
  simp only [bucketKey, configsKey, String.toList_append] at hlast
  rw [List.getLast?_append] at hlast
  simp at hlast

theorem bucketKey_eq_iff {c c' : Config} : bucketKey c = bucketKey c' ↔ c.name = c'.name :=
  String.append_left_inj "/0"

section Reads

variable {s s' : Store} {cfgs : Configs}

theorem getConfigs_run_store (h : getConfigs.run s = .ok (cfgs, s')) : s' = s := by
  unfold getConfigs at h
  rw [run_bind_of_ok (run_read _ _)] at h
  cases hv : s configsKey with
  | none =>
    rw [hv] at h
    exact (Prod.mk.inj (Except.ok.inj h)).2.symm
  | some v =>
    cases v with
    | configs c =>
      rw [hv] at h
      exact (Prod.mk.inj (Except.ok.inj h)).2.symm
    | bucket b =>
      rw [hv] at h
      cases h

theorem getConfigs_run_congr (hkey : s' configsKey = s configsKey)
    (h : getConfigs.run s = .ok (cfgs, s)) : getConfigs.run s' = .ok (cfgs, s') := by
  unfold getConfigs at h ⊢
  rw [run_bind_of_ok (run_read _ _)] at h ⊢
  rw [hkey]
  cases hv : s configsKey with
  | none =>
    rw [hv] at h
    rw [(Prod.mk.inj (Except.ok.inj h)).1.symm]
    rfl
  | some v =>
    cases v with
    | configs c =>
      rw [hv] at h
      rw [(Prod.mk.inj (Except.ok.inj h)).1.symm]
      rfl
    | bucket b =>
      rw [hv] at h
      cases h

theorem getConfigs_run_write (s : Store) (c : Configs) :
    getConfigs.run (Function.update s configsKey (some (.configs c))) =
      .ok (c, Function.update s configsKey (some (.configs c))) := by
  unfold getConfigs
  rw [run_bind_of_ok (run_read _ _), Function.update_self]
  rfl

theorem readBucket_run {key : String} {b : Bucket} (hb : s key = some (.bucket b)) :
    (readBucket key).run s = .ok (b, s) := by
  rw [readBucket, run_bind_of_ok (run_read key s), hb]
  rfl

end Reads

/-- A bucket within the bounds of a config: `0 ≤ Tokens ≤ MaxTokens`. -/
def Bucket.Within (b : Bucket) (cfg : Config) : Prop := 0 ≤ b.tokens ∧ b.tokens ≤ cfg.maxTokens

/-- The bucket of `cfg` is in the store, within its bounds. -/
def BucketWithinBounds (s : Store) (cfg : Config) : Prop :=
  ∃ b, s (bucketKey cfg) = some (.bucket b) ∧ b.Within cfg

/-- The invariant of the storage, with the configs it holds: `getConfigs` reads them, `validate`
accepts them, and each has its bucket within its bounds. -/
structure BucketsInBounds (s : Store) (cfgs : Configs) : Prop where
  stored : getConfigs.run s = .ok (cfgs, s)
  valid : validate cfgs = .ok ()
  buckets : ∀ cfg ∈ cfgs.configs, BucketWithinBounds s cfg

section Bounds

variable {s : Store} {cfg : Config} {cfgs : Configs} {b : Bucket}

theorem fullBucket_within (hmax : 0 < cfg.maxTokens) (now : Time) : (fullBucket cfg now).Within cfg :=
  ⟨hmax.le, le_rfl⟩

theorem modTokens_within {now : Time} {key : String} {prevBucket : Bucket} {add : ℤ}
    (h : modTokens cfg now key prevBucket add = .ok b) (hmax : 0 ≤ cfg.maxTokens) : b.Within cfg := by
  unfold modTokens at h
  generalize replenish cfg now prevBucket add = p at h
  obtain ⟨nb, a⟩ := p
  simp only at h
  split_ifs at h with hneg hcap <;> cases h
  · exact ⟨hmax, le_rfl⟩
  · exact ⟨not_lt.mp hneg, not_lt.mp hcap⟩

/-- A successful `modBucket` on a stored bucket writes a bucket within bounds (the bucket it read,
if nothing changed) and returns its tokens. -/
theorem modBucket_run {now : Time} {add t : ℤ} {s' : Store} {b₀ : Bucket}
    (hb : s (bucketKey cfg) = some (.bucket b₀)) (hmax : 0 ≤ cfg.maxTokens)
    (h : (modBucket cfg now add).run s = .ok (t, s')) :
    ∃ b, s' = Function.update s (bucketKey cfg) (some (.bucket b)) ∧ b.Within cfg ∧ t = b.tokens := by
  unfold modBucket at h
  rw [run_bind_of_ok (readBucket_run hb)] at h
  obtain ⟨b, s₁, hmod, hwrite⟩ := run_bind_eq_ok.mp h
  obtain ⟨hb', hs₁⟩ := run_ofExcept_eq_ok.mp hmod
  rw [hs₁] at hwrite
  -- the bucket is written back only if it changed
  have hs' : s' = Function.update s (bucketKey cfg) (some (.bucket b)) ∧ t = b.tokens := by
    simp only at hwrite
    split_ifs at hwrite with hne
    · rw [run_bind_of_ok (run_write _ _ _), run_pure, Except.ok.injEq, Prod.mk.injEq] at hwrite
      exact ⟨hwrite.2.symm, hwrite.1.symm⟩
    · rw [run_pure, Except.ok.injEq, Prod.mk.injEq] at hwrite
      rw [not_not] at hne
      subst hne
      rw [← hwrite.2, ← hb, Function.update_eq_self]
      exact ⟨rfl, hwrite.1.symm⟩
  exact ⟨b, hs'.1, modTokens_within hb' hmax, hs'.2⟩

theorem BucketWithinBounds.update_of_ne {k : String} {v : Option Value}
    (h : BucketWithinBounds s cfg) (hk : bucketKey cfg ≠ k) :
    BucketWithinBounds (Function.update s k v) cfg := by
  obtain ⟨b, hb, hw⟩ := h
  exact ⟨b, by rw [Function.update_of_ne hk, hb], hw⟩

theorem bucketWithinBounds_update_self (hb : b.Within cfg) :
    BucketWithinBounds (Function.update s (bucketKey cfg) (some (.bucket b))) cfg :=
  ⟨b, Function.update_self _ _ _, hb⟩

/-- Writing a config's bucket within its bounds keeps the invariant: the configs' key is another
key, and so is the bucket key of every other config, whose name differs. -/
theorem BucketsInBounds.write_bucket (h : BucketsInBounds s cfgs) (hc : cfg ∈ cfgs.configs)
    (hb : b.Within cfg) : BucketsInBounds (Function.update s (bucketKey cfg) (some (.bucket b))) cfgs where
  stored := getConfigs_run_congr (Function.update_of_ne (bucketKey_ne_configsKey cfg).symm _ _) h.stored
  valid := h.valid
  buckets c hc' := by
    by_cases hname : c.name = cfg.name
    · rw [eq_of_name_eq_of_validate h.valid hc' hc hname]
      exact bucketWithinBounds_update_self hb
    · exact (h.buckets c hc').update_of_ne fun heq => hname (bucketKey_eq_iff.mp heq)

theorem BucketsInBounds.maxTokens_pos (h : BucketsInBounds s cfgs) (hc : cfg ∈ cfgs.configs) :
    0 < cfg.maxTokens :=
  maxTokens_pos_of_validate h.valid hc

theorem bucketsInBounds_emptyStore : BucketsInBounds emptyStore ⟨[]⟩ where
  stored := rfl
  valid := rfl
  buckets _ h := absurd h List.not_mem_nil

end Bounds

section ForNames

variable {β : Type} {I : Store → Prop} {cfgs : Configs} {mode : ForNamesMode}
  {fn : String → Option Config → STM β}

theorem getConfigs_triple :
    Triple (BucketsInBounds · cfgs) getConfigs fun c s => BucketsInBounds s cfgs ∧ c = cfgs := by
  intro s hs c s' h
  rw [hs.stored, Except.ok.injEq, Prod.mk.injEq] at h
  obtain ⟨rfl, rfl⟩ := h
  exact ⟨hs, rfl⟩

section Loop

variable (hfn : ∀ name cfg, cfg ∈ cfgs.configs → Triple I (fn name (some cfg)) fun _ => I)
  (hnil : ∀ name, Triple I (fn name none) fun _ => I)
include hfn hnil

theorem forName_triple (name : String) : Triple I (forName cfgs mode fn name) fun _ => I := by
  unfold forName
  refine Triple.bind (Q := fun _ => I) ?_ fun _ => ?_
  · split
    · next cfg hfind =>
      refine Triple.ite (fun _ => Triple.map ?_) fun _ => Triple.pure fun _ hs => hs
      exact hfn name cfg (List.mem_of_find?_eq_some hfind)
    · exact Triple.pure fun _ hs => hs
  · exact Triple.ite (fun _ => Triple.map (hnil name)) fun _ => Triple.pure fun _ hs => hs

theorem forNamesLoop_triple :
    ∀ (names seenNames : List String), Triple I (forNamesLoop cfgs mode fn names seenNames) fun _ => I
  | [], _ => Triple.pure fun _ hs => hs
  | name :: names, seenNames => by
    unfold forNamesLoop
    refine Triple.ite (fun _ => forNamesLoop_triple names seenNames) fun _ => ?_
    refine Triple.bind (forName_triple hfn hnil name) fun _ => ?_
    exact Triple.bind (forNamesLoop_triple names (name :: seenNames)) fun _ => Triple.pure fun _ hs => hs

end Loop

theorem forNames_bucketsInBounds {names : List String} {s : Store} (hs : BucketsInBounds s cfgs)
    (hfn : ∀ name cfg, cfg ∈ cfgs.configs →
      Triple (BucketsInBounds · cfgs) (fn name (some cfg)) fun _ => (BucketsInBounds · cfgs))
    (hnil : ∀ name, Triple (BucketsInBounds · cfgs) (fn name none) fun _ => (BucketsInBounds · cfgs)) :
    BucketsInBounds (QuotaStorage.forNames names mode fn s).2 cfgs := by
  unfold QuotaStorage.forNames
  split
  · exact hs
  · refine atomically_preserves (Triple.bind getConfigs_triple fun c => ?_) hs
    rintro s ⟨hs', rfl⟩ r s' hloop
    exact forNamesLoop_triple hfn hnil names [] s hs' r s' hloop

end ForNames

section Calls

variable {cfgs : Configs} {cfg : Config}

theorem modBucket_triple (hc : cfg ∈ cfgs.configs) (now : Time) (add : ℤ) :
    Triple (BucketsInBounds · cfgs) (modBucket cfg now add) fun _ => (BucketsInBounds · cfgs) := by
  intro s hs t s' h
  obtain ⟨b₀, hb₀, -⟩ := hs.buckets cfg hc
  obtain ⟨b, rfl, hb, -⟩ := modBucket_run hb₀ (hs.maxTokens_pos hc).le h
  exact hs.write_bucket hc hb

theorem mod_bucketsInBounds {s : Store} (hs : BucketsInBounds s cfgs) (names : List String) (add : ℤ)
    (now : Time) : BucketsInBounds (QuotaStorage.mod names add now s).2 cfgs :=
  forNames_bucketsInBounds hs
    (fun _ _ hc => Triple.bind (modBucket_triple hc now add) fun _ => Triple.pure fun _ hs => hs)
    fun _ => Triple.throw _

theorem get_bucketsInBounds {s : Store} (hs : BucketsInBounds s cfgs) (names : List String)
    (tokens : ℤ) (now : Time) : BucketsInBounds (QuotaStorage.get names tokens now s).2 cfgs := by
  unfold QuotaStorage.get
  split
  · exact hs
  · exact mod_bucketsInBounds hs names (-tokens) now

theorem put_bucketsInBounds {s : Store} (hs : BucketsInBounds s cfgs) (names : List String)
    (tokens : ℤ) (now : Time) : BucketsInBounds (QuotaStorage.put names tokens now s).2 cfgs := by
  unfold QuotaStorage.put
  split
  · exact hs
  · exact mod_bucketsInBounds hs names tokens now

theorem peek_bucketsInBounds {s : Store} (hs : BucketsInBounds s cfgs) (names : List String)
    (now : Time) : BucketsInBounds (QuotaStorage.peek names now s).2 cfgs :=
  forNames_bucketsInBounds hs (fun _ _ hc => modBucket_triple hc now 0)
    fun _ => Triple.pure fun _ hs => hs

theorem reset_bucketsInBounds {s : Store} (hs : BucketsInBounds s cfgs) (names : List String)
    (now : Time) : BucketsInBounds (QuotaStorage.reset names now s).2 cfgs := by
  refine forNames_bucketsInBounds hs (fun _ cfg hc => ?_) fun _ => Triple.throw _
  -- a full bucket is within bounds, as `validate` asks for a positive `MaxTokens`
  have hwrite : Triple (BucketsInBounds · cfgs)
      (write (bucketKey cfg) (.bucket (fullBucket cfg now)) : STM Unit) fun _ => (BucketsInBounds · cfgs) :=
    (Triple.write (Q := fun _ s => BucketsInBounds s cfgs)).mono
      (fun _ hs => hs.write_bucket hc (fullBucket_within (hs.maxTokens_pos hc) now)) fun _ _ h => h
  exact hwrite

end Calls

section UpdateConfigs

variable {reset : Bool} {now : Time} {previous : Configs}

/-- One step of the loop of `UpdateConfigs`: it writes the bucket of `cfg` within bounds, and
nothing else, given the buckets of the previous configs when the transaction began (in `s₀`) and
the bucket of `cfg` not yet touched by the loop. -/
theorem updateBucket_run {cfg : Config} {s₀ s s' : Store}
    (hprev : ∀ p ∈ previous.configs, BucketWithinBounds s₀ p)
    (hkey : s (bucketKey cfg) = s₀ (bucketKey cfg)) (hmax : 0 < cfg.maxTokens)
    (h : (updateBucket reset now previous cfg).run s = .ok (⟨⟩, s')) :
    ∃ b, s' = Function.update s (bucketKey cfg) (some (.bucket b)) ∧ b.Within cfg := by
  unfold updateBucket at h
  split at h
  · -- a new config gets a full bucket
    rw [run_write] at h
    exact ⟨fullBucket cfg now, (Prod.mk.inj (Except.ok.inj h)).2.symm, fullBucket_within hmax now⟩
  · next prev hfind =>
    -- the previous config of that name has the same bucket key
    have hname : prev.name = cfg.name := by simpa using List.find?_some hfind
    obtain ⟨b₀, hb₀, hw₀⟩ := hprev prev (List.mem_of_find?_eq_some hfind)
    rw [bucketKey_eq_iff.mpr hname, ← hkey] at hb₀
    split_ifs at h with hreset hlow
    · rw [run_write] at h
      exact ⟨fullBucket cfg now, (Prod.mk.inj (Except.ok.inj h)).2.symm, fullBucket_within hmax now⟩
    · -- a lowered `MaxTokens`: `modBucket` caps the bucket
      obtain ⟨t, s₁, hmod, hpure⟩ := run_bind_eq_ok.mp h
      obtain ⟨b, rfl, hb, -⟩ := modBucket_run hb₀ hmax.le hmod
      rw [run_pure] at hpure
      exact ⟨b, (Prod.mk.inj (Except.ok.inj hpure)).2.symm, hb⟩
    · -- a kept or raised `MaxTokens`: the bucket is still within bounds
      rw [run_pure] at h
      have hs' := (Prod.mk.inj (Except.ok.inj h)).2
      refine ⟨b₀, by rw [← hs', ← hb₀, Function.update_eq_self], hw₀.1, ?_⟩
      exact hw₀.2.trans (not_lt.mp hlow)

/-- The loop of `UpdateConfigs`: when it ends, every config of the update has its bucket within
bounds, and the configs' key is as it was. -/
theorem forM_updateBucket_run {updated : Configs} {s₀ s₁ s' : Store}
    (hprev : ∀ p ∈ previous.configs, BucketWithinBounds s₀ p) (hvalid : validate updated = .ok ())
    (hkeys : ∀ c ∈ updated.configs, s₁ (bucketKey c) = s₀ (bucketKey c))
    (h : (forM updated.configs (updateBucket reset now previous)).run s₁ = .ok (⟨⟩, s')) :
    s' configsKey = s₁ configsKey ∧ ∀ c ∈ updated.configs, BucketWithinBounds s' c := by
  have hnodup : updated.configs.Nodup := ((validate_eq_ok_iff updated).mp hvalid).2.of_map _
  -- configs of the update with the same bucket key are the same config
  have hother : ∀ c ∈ updated.configs, ∀ c' ∈ updated.configs, c ≠ c' → bucketKey c ≠ bucketKey c' :=
    fun c hc c' hc' hne heq => hne (eq_of_name_eq_of_validate hvalid hc hc' (bucketKey_eq_iff.mp heq))
  -- after the configs `pre`: their buckets are within bounds, the others' are as they were
  let I : List Config → Store → Prop := fun pre s =>
    s configsKey = s₁ configsKey ∧ (∀ c ∈ updated.configs, c ∉ pre → s (bucketKey c) = s₀ (bucketKey c)) ∧
      ∀ c ∈ pre, BucketWithinBounds s c
  have hloop : Triple (I []) (forM updated.configs (updateBucket reset now previous))
      fun _ => I updated.configs := by
    refine Triple.forM_prefix fun pre cfg post hxs => ?_
    rintro s ⟨hcfgs, huntouched, hdone⟩ ⟨⟩ s' hstep
    have hmem : cfg ∈ updated.configs := by rw [hxs]; simp
    have hpre : ∀ c ∈ pre, c ∈ updated.configs := fun c hc => by rw [hxs]; simp [hc]
    have hnot : cfg ∉ pre := by
      rw [hxs, List.nodup_append] at hnodup
      exact fun hc => hnodup.2.2 cfg hc cfg List.mem_cons_self rfl
    obtain ⟨b, rfl, hb⟩ := updateBucket_run hprev (huntouched cfg hmem hnot)
      (maxTokens_pos_of_validate hvalid hmem) hstep
    refine ⟨?_, fun c hc hcpre => ?_, fun c hc => ?_⟩
    · rw [Function.update_of_ne (bucketKey_ne_configsKey cfg).symm]
      exact hcfgs
    · have hne : c ≠ cfg := fun heq => hcpre (by simp [heq])
      rw [Function.update_of_ne (hother c hc cfg hmem hne)]
      exact huntouched c hc fun h => hcpre (List.mem_append_left _ h)
    · rcases List.mem_append.mp hc with hc | hc
      · exact (hdone c hc).update_of_ne
          (hother c (hpre c hc) cfg hmem fun heq => hnot (heq ▸ hc))
      · rw [List.mem_singleton.mp hc]
        exact bucketWithinBounds_update_self hb
  obtain ⟨hkey, -, hdone⟩ := hloop s₁ ⟨rfl, fun c hc _ => hkeys c hc, fun _ h => absurd h List.not_mem_nil⟩
    ⟨⟩ s' h
  exact ⟨hkey, hdone⟩

/-- A successful `UpdateConfigs` transaction leaves the configs it returns stored, with their
buckets within bounds. -/
theorem updateConfigsTxn_triple (update : Configs → Configs) :
    Triple (fun s => ∃ cfgs, BucketsInBounds s cfgs) (updateConfigsTxn reset update now)
      fun updated s => BucketsInBounds s updated := by
  rintro s ⟨cfgs, hs⟩ updated s' h
  unfold updateConfigsTxn at h
  -- both reads return the stored configs, so the sanity check passes
  rw [run_bind_of_ok hs.stored, run_bind_of_ok hs.stored] at h
  simp only [ne_eq, not_true_eq_false, if_false] at h
  obtain ⟨⟨⟩, s₁, hcheck, h⟩ := run_bind_eq_ok.mp h
  obtain ⟨hvalid, hs₁⟩ := run_ofExcept_eq_ok.mp hcheck
  rw [hs₁] at h
  -- the update's configs are written if they changed; the buckets are not touched yet
  obtain ⟨s₂, hstored, hkeys, h⟩ : ∃ s₂, getConfigs.run s₂ = .ok (update cfgs, s₂) ∧
      (∀ c, s₂ (bucketKey c) = s (bucketKey c)) ∧
      (forM (update cfgs).configs (updateBucket reset now cfgs) >>= fun _ => pure (update cfgs)).run s₂ =
        .ok (updated, s') := by
    split_ifs at h with hsame
    · exact ⟨s, hsame ▸ hs.stored, fun _ => rfl, h⟩
    · rw [run_bind_of_ok (run_write _ _ _)] at h
      exact ⟨_, getConfigs_run_write s _, fun c => Function.update_of_ne (bucketKey_ne_configsKey c) _ _, h⟩
  obtain ⟨⟨⟩, s₃, hfor, hret⟩ := run_bind_eq_ok.mp h
  rw [run_pure, Except.ok.injEq, Prod.mk.injEq] at hret
  obtain ⟨rfl, rfl⟩ := hret
  obtain ⟨hkey, hbuckets⟩ := forM_updateBucket_run hs.buckets hvalid (fun c _ => hkeys c) hfor
  exact ⟨getConfigs_run_congr hkey hstored, hvalid, hbuckets⟩

theorem updateConfigs_bucketsInBounds {s : Store} {cfgs : Configs} (hs : BucketsInBounds s cfgs)
    (update : Option (Configs → Configs)) :
    ∃ cfgs', BucketsInBounds (QuotaStorage.updateConfigs reset update now s).2 cfgs' := by
  unfold QuotaStorage.updateConfigs
  split
  · exact ⟨cfgs, hs⟩
  · exact atomically_preserves ((updateConfigsTxn_triple _).mono (fun _ h => h) fun r _ h => ⟨r, h⟩)
      ⟨cfgs, hs⟩

end UpdateConfigs

theorem Request.apply_bucketsInBounds {s : Store} {cfgs : Configs} (hs : BucketsInBounds s cfgs)
    (now : Time) : ∀ r : Request, ∃ cfgs', BucketsInBounds (r.apply s now) cfgs'
  | .updateConfigs _ update => updateConfigs_bucketsInBounds hs update
  | .configs => ⟨cfgs, atomically_preserves (getConfigs_triple.mono (fun _ h => h) fun _ _ h => h.1) hs⟩
  | .get names tokens => ⟨cfgs, get_bucketsInBounds hs names tokens now⟩
  | .peek names => ⟨cfgs, peek_bucketsInBounds hs names now⟩
  | .put names tokens => ⟨cfgs, put_bucketsInBounds hs names tokens now⟩
  | .reset names => ⟨cfgs, reset_bucketsInBounds hs names now⟩

theorem runRequests_bucketsInBounds :
    ∀ {s : Store} {cfgs : Configs}, BucketsInBounds s cfgs →
      ∀ calls, ∃ cfgs', BucketsInBounds (runRequests s calls) cfgs'
  | _, cfgs, hs, [] => ⟨cfgs, hs⟩
  | s, _, hs, (now, r) :: calls => by
    obtain ⟨cfgs', hs'⟩ := r.apply_bucketsInBounds hs now
    exact runRequests_bucketsInBounds hs' calls

/-- The quota buckets stay within bounds over every run from an empty store: the configs the
storage returns pass `validate`, and each has its bucket with `0 ≤ Tokens ≤ MaxTokens`. -/
theorem buckets_within_bounds (calls : List (Time × Request)) :
    ∃ cfgs, (QuotaStorage.configs (runRequests emptyStore calls)).1 = .ok cfgs ∧
      validate cfgs = .ok () ∧
      ∀ cfg ∈ cfgs.configs, ∃ b, runRequests emptyStore calls (bucketKey cfg) = some (.bucket b) ∧
        0 ≤ b.tokens ∧ b.tokens ≤ cfg.maxTokens := by
  obtain ⟨cfgs, hs⟩ := runRequests_bucketsInBounds bucketsInBounds_emptyStore calls
  refine ⟨cfgs, by rw [QuotaStorage.configs, atomically_of_ok hs.stored], hs.valid, fun cfg hc => ?_⟩
  obtain ⟨b, hb, hw⟩ := hs.buckets cfg hc
  exact ⟨b, hb, hw⟩

end EtcdQuota

end Trillian
