import Mathlib
import Trillian.Transaction

/-! The quota configs of `quota/etcd/storagepb` and the checks of `quota/etcd/storage`:
`IsNameValid` and `validate`. Go's name patterns are written over the parts `strings.Split`
gives. -/

namespace Trillian

namespace EtcdQuota

open Transaction

inductive State where
  | unknownConfigState
  | enabled
  | disabled
  deriving DecidableEq, Repr

/-- The text `%s` prints for a state, its `String()`. -/
def State.string : State → String
  | .unknownConfigState => "UNKNOWN_CONFIG_STATE"
  | .enabled => "ENABLED"
  | .disabled => "DISABLED"

/-- `Config.ReplenishmentStrategy`, a oneof: unset (a nil interface), `SequencingBased` or
`TimeBased`. -/
inductive ReplenishmentStrategy where
  | none
  | sequencingBased
  | timeBased (tokensToReplenish replenishIntervalSeconds : ℤ)
  deriving DecidableEq, Repr

structure Config where
  name : String
  state : State
  maxTokens : ℤ
  replenishmentStrategy : ReplenishmentStrategy
  deriving DecidableEq, Repr

structure Configs where
  configs : List Config
  deriving DecidableEq, Repr

/-- The gRPC codes of the storage's status errors. -/
inductive Code where
  | internal
  | invalidArgument
  deriving DecidableEq, Repr

/-- An error of the quota storage. -/
inductive QuotaError where
  /-- `status.Error` and `status.Errorf`: a gRPC status. -/
  | status (code : Code) (msg : String)
  /-- `fmt.Errorf`: a plain error. -/
  | errorf (msg : String)
  /-- A nil `*Config` dereferenced: a panic, which aborts the transaction it happens in. -/
  | nilDereference
  deriving DecidableEq, Repr

/-- `strconv.ParseInt(s, 10, 64)`: an optional sign, then decimal digits, of a value that fits an
`int64`. -/
def parseInt (s : String) : Option ℤ :=
  let (neg, digits) := match s.toList with
    | '+' :: ds => (false, ds)
    | '-' :: ds => (true, ds)
    | ds => (false, ds)
  if digits = [] ∨ !digits.all Char.isDigit then none
  else
    let un := digits.foldl (fun n c => n * 10 + (c.toNat - '0'.toNat)) 0
    if neg then (if un ≤ 2 ^ 63 then some (-(un : ℤ)) else none)
    else if un < 2 ^ 63 then some un else none

def isReadOrWrite (kind : String) : Bool := kind = "read" || kind = "write"

/-- `globalPattern`: `^quotas/global/(read|write)/config$`. -/
def globalPattern (name : String) : Bool :=
  match name.splitOn "/" with
  | ["quotas", "global", kind, "config"] => isReadOrWrite kind
  | _ => false

/-- `treesPattern`: `^quotas/trees/\d+/(read|write)/config$`. -/
def treesPattern (name : String) : Bool :=
  match name.splitOn "/" with
  | ["quotas", "trees", id, kind, "config"] => id ≠ "" && id.toList.all Char.isDigit && isReadOrWrite kind
  | _ => false

/-- `usersPattern`: `^quotas/users/[^/]+/(read|write)/config$`. -/
def usersPattern (name : String) : Bool :=
  match name.splitOn "/" with
  | ["quotas", "users", user, kind, "config"] => user ≠ "" && isReadOrWrite kind
  | _ => false

def isNameValid (name : String) : Bool :=
  if globalPattern name then true
  else if usersPattern name then true
  else if treesPattern name then
    -- Tree ID must fit on an int64
    let id := (name.splitOn "/").getD 2 ""
    (parseInt id).isSome
  else false

/-- The type switch of `validate` on `Configs[i].ReplenishmentStrategy`. -/
def validateStrategy (i : ℕ) (cfg : Config) : Except QuotaError Unit :=
  match cfg.replenishmentStrategy with
  | .sequencingBased => do
    if usersPattern cfg.name then
      throw (.status .invalidArgument
        s!"user quotas cannot use sequencing-based replenishment (Configs[{i}].ReplenishmentStrategy)")
    if cfg.name.endsWith "/read/config" then
      throw (.status .invalidArgument
        s!"read quotas cannot use sequencing-based replenishment (Configs[{i}].ReplenishmentStrategy)")
  | .timeBased t r => do
    if t ≤ 0 then
      throw (.status .invalidArgument
        s!"time based tokens must be > 0 (Configs[{i}].TimeBased.TokensToReplenish = {t})")
    if r ≤ 0 then
      throw (.status .invalidArgument
        s!"time based replenish interval must be > 0 (Configs[{i}].TimeBased.ReplenishIntervalSeconds = {r})")
  | .none =>
    -- %T of the nil interface
    throw (.status .invalidArgument
      s!"unsupported replenishment strategy (Configs[{i}].ReplenishmentStrategy = <nil>)")

/-- The checks `validate` makes of `Configs[i]` before it looks for a duplicate name. -/
def validateConfig (i : ℕ) (cfg : Config) : Except QuotaError Unit := do
  let n := cfg.name
  if n = "" then
    throw (.status .invalidArgument s!"config name is required (Configs[{i}].Name is empty)")
  if !isNameValid cfg.name then
    let q := n.quote
    throw (.status .invalidArgument s!"config name malformed (Configs[{i}].Name = {q})")
  let s := cfg.state.string
  if cfg.state = .unknownConfigState then
    throw (.status .invalidArgument s!"config state invalid (Configs[{i}].State = {s})")
  let t := cfg.maxTokens
  if t ≤ 0 then
    throw (.status .invalidArgument s!"config max tokens must be > 0 (Configs[{i}].MaxTokens = {t})")
  validateStrategy i cfg

/-- The loop of `validate` from `Configs[i]` on, with the names seen before it. -/
def validateLoop : ℕ → List String → List Config → Except QuotaError Unit
  | _, _, [] => pure ()
  | i, names, cfg :: cfgs => do
    validateConfig i cfg
    if cfg.name ∈ names then
      throw (.status .invalidArgument s!"duplicate config name found at Configs[{i}].Name")
    validateLoop (i + 1) (cfg.name :: names) cfgs

def validate (cfgs : Configs) : Except QuotaError Unit := validateLoop 0 [] cfgs.configs

/-- What `validate` asks of a strategy: a sequencing-based one is for a tree or global write
quota, and a time-based one replenishes a positive number of tokens at a positive interval. -/
def StrategyOk (cfg : Config) : Prop :=
  match cfg.replenishmentStrategy with
  | .none => False
  | .sequencingBased => usersPattern cfg.name = false ∧ cfg.name.endsWith "/read/config" = false
  | .timeBased t r => 0 < t ∧ 0 < r

/-- What `validate` asks of one config. -/
structure ConfigOk (cfg : Config) : Prop where
  name_ne : cfg.name ≠ ""
  name_valid : isNameValid cfg.name = true
  state_ne : cfg.state ≠ .unknownConfigState
  maxTokens_pos : 0 < cfg.maxTokens
  strategy : StrategyOk cfg

section Validate

variable {i : ℕ} {cfg : Config}

theorem validateStrategy_eq_ok_iff : validateStrategy i cfg = .ok () ↔ StrategyOk cfg := by
  unfold validateStrategy StrategyOk
  cases cfg.replenishmentStrategy with
  | none => exact ⟨nofun, nofun⟩
  | sequencingBased => simp
  | timeBased t r => simp

/-- `validateConfig` passes exactly the configs that satisfy `ConfigOk`, whatever index it is
given. -/
theorem validateConfig_eq_ok_iff : validateConfig i cfg = .ok () ↔ ConfigOk cfg := by
  simp only [validateConfig, except_throw, except_error_bind, except_ite_error_eq_ok,
    validateStrategy_eq_ok_iff, Bool.not_eq_true', Bool.not_eq_false, not_le]
  constructor
  · rintro ⟨hn, hv, hs, ht, hst⟩
    exact ⟨hn, by simpa using hv, hs, ht, hst⟩
  · intro h
    exact ⟨h.name_ne, by simpa using h.name_valid, h.state_ne, h.maxTokens_pos, h.strategy⟩

theorem validateLoop_eq_ok_iff :
    ∀ (i : ℕ) (names : List String) (cfgs : List Config), validateLoop i names cfgs = .ok () ↔
      (∀ cfg ∈ cfgs, ConfigOk cfg) ∧ (cfgs.map Config.name).Nodup ∧ ∀ cfg ∈ cfgs, cfg.name ∉ names
  | _, _, [] => by simp [validateLoop]
  | i, names, cfg :: cfgs => by
    have ih := validateLoop_eq_ok_iff (i + 1) (cfg.name :: names) cfgs
    simp only [validateLoop, except_bind_eq_ok, except_throw, except_error_bind,
      except_ite_error_eq_ok, ih]
    -- the checks of `cfg`, its name not seen, then the rest with `cfg`'s name seen
    constructor
    · rintro ⟨⟨⟩, hcfg, hfresh, hok, hnodup, hseen⟩
      have hnot : cfg.name ∉ cfgs.map Config.name := fun hm => by
        obtain ⟨c, hc, hname⟩ := List.mem_map.mp hm
        exact hseen c hc (hname ▸ List.mem_cons_self)
      refine ⟨List.forall_mem_cons.mpr ⟨validateConfig_eq_ok_iff.mp hcfg, hok⟩,
        List.nodup_cons.mpr ⟨hnot, hnodup⟩, List.forall_mem_cons.mpr ⟨hfresh, ?_⟩⟩
      exact fun c hc hm => hseen c hc (List.mem_cons_of_mem _ hm)
    · rintro ⟨hok, hnodup, hfresh⟩
      rw [List.forall_mem_cons] at hok hfresh
      rw [List.map_cons, List.nodup_cons] at hnodup
      refine ⟨(), validateConfig_eq_ok_iff.mpr hok.1, hfresh.1, hok.2, hnodup.2, ?_⟩
      intro c hc hm
      rcases List.mem_cons.mp hm with hname | hm
      · exact hnodup.1 (hname ▸ List.mem_map_of_mem hc)
      · exact hfresh.2 c hc hm

theorem validate_eq_ok_iff (cfgs : Configs) :
    validate cfgs = .ok () ↔ (∀ cfg ∈ cfgs.configs, ConfigOk cfg) ∧ (cfgs.configs.map Config.name).Nodup := by
  rw [validate, validateLoop_eq_ok_iff]
  simp

theorem eq_of_name_eq_of_validate {cfgs : Configs} (h : validate cfgs = .ok ()) {c c' : Config}
    (hc : c ∈ cfgs.configs) (hc' : c' ∈ cfgs.configs) (hname : c.name = c'.name) : c = c' :=
  List.inj_on_of_nodup_map ((validate_eq_ok_iff cfgs).mp h).2 hc hc' hname

theorem maxTokens_pos_of_validate {cfgs : Configs} (h : validate cfgs = .ok ()) {cfg : Config}
    (hc : cfg ∈ cfgs.configs) : 0 < cfg.maxTokens :=
  (((validate_eq_ok_iff cfgs).mp h).1 cfg hc).maxTokens_pos

end Validate

end EtcdQuota

end Trillian
