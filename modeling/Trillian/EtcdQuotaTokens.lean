import Trillian.EtcdQuotaStorage

/-! The token arithmetic of `Get` and `Put` of the etcd `QuotaStorage`: over the integers, and
in `int64`, where the code's sums wrap. The loop over the names updates distinct bucket keys, so
it runs as its steps side by side (`Transaction.run_forM_eq_updateEach`). -/

namespace Trillian

namespace EtcdQuota

open Transaction

section Loop

variable {cfgs : Configs}

/-- The configs the loop of `forNames` hands to `fn` in `defaultMode`, in order: for each name not
seen before, the config of that name if it is enabled. -/
def namedConfigs (cfgs : Configs) : List String → List String → List Config
  | [], _ => []
  | name :: names, seenNames =>
    if name ∈ seenNames then namedConfigs cfgs names seenNames
    else
      let rest := namedConfigs cfgs names (name :: seenNames)
      match cfgs.configs.find? (·.name = name) with
      | some cfg => if cfg.state = .enabled then cfg :: rest else rest
      | none => rest

theorem find?_name_eq_some_iff (hnd : (cfgs.configs.map Config.name).Nodup) {name : String}
    {cfg : Config} : cfgs.configs.find? (·.name = name) = some cfg ↔ cfg ∈ cfgs.configs ∧ cfg.name = name := by
  constructor
  · intro h
    exact ⟨List.mem_of_find?_eq_some h, by simpa using List.find?_some h⟩
  · rintro ⟨hc, rfl⟩
    obtain ⟨c, hfind⟩ : ∃ c, cfgs.configs.find? (·.name = cfg.name) = some c :=
      Option.isSome_iff_exists.mp (List.find?_isSome.mpr ⟨cfg, hc, by simp⟩)
    have hname : c.name = cfg.name := by simpa using List.find?_some hfind
    rw [hfind, List.inj_on_of_nodup_map hnd (List.mem_of_find?_eq_some hfind) hc hname]

/-- What the loop hands to `fn` for a name it has not seen: the config of that name, if it is
enabled. -/
def namedConfig (cfgs : Configs) (name : String) : List Config :=
  match cfgs.configs.find? (·.name = name) with
  | some cfg => if cfg.state = .enabled then [cfg] else []
  | none => []

theorem namedConfigs_cons (name : String) (names seenNames : List String) :
    namedConfigs cfgs (name :: names) seenNames =
      if name ∈ seenNames then namedConfigs cfgs names seenNames
      else namedConfig cfgs name ++ namedConfigs cfgs names (name :: seenNames) := by
  by_cases hseen : name ∈ seenNames
  · simp only [namedConfigs, if_pos hseen]
  · simp only [namedConfigs, namedConfig, if_neg hseen]
    split
    · split_ifs <;> rfl
    · rfl

theorem namedConfig_cases (name : String) :
    namedConfig cfgs name = [] ∨ ∃ cfg, namedConfig cfgs name = [cfg] ∧ cfg.name = name := by
  unfold namedConfig
  split
  · next cfg hfind =>
    split_ifs
    · exact .inr ⟨cfg, rfl, by simpa using List.find?_some hfind⟩
    · exact .inl rfl
  · exact .inl rfl

theorem mem_namedConfig (hnd : (cfgs.configs.map Config.name).Nodup) {name : String} {cfg : Config} :
    cfg ∈ namedConfig cfgs name ↔ cfg ∈ cfgs.configs ∧ cfg.state = .enabled ∧ cfg.name = name := by
  unfold namedConfig
  cases hfind : cfgs.configs.find? (·.name = name) with
  | none =>
    -- no config has that name
    refine ⟨nofun, fun ⟨hc, _, hname⟩ => ?_⟩
    rw [(find?_name_eq_some_iff hnd).mpr ⟨hc, hname⟩] at hfind
    cases hfind
  | some c =>
    dsimp only
    obtain ⟨hc, hcname⟩ := (find?_name_eq_some_iff hnd).mp hfind
    -- `c` is the only config of that name
    have hiff : cfg ∈ cfgs.configs ∧ cfg.name = name ↔ cfg = c := by
      rw [← find?_name_eq_some_iff hnd, hfind, Option.some_inj, eq_comm]
    by_cases hen : c.state = .enabled
    · rw [if_pos hen, List.mem_singleton]
      constructor
      · rintro rfl
        exact ⟨hc, hen, hcname⟩
      · exact fun ⟨hc', _, hname⟩ => hiff.mp ⟨hc', hname⟩
    · rw [if_neg hen]
      refine ⟨nofun, fun ⟨hc', hen', hname⟩ => ?_⟩
      exact absurd (hiff.mp ⟨hc', hname⟩ ▸ hen') hen

theorem mem_namedConfigs (hnd : (cfgs.configs.map Config.name).Nodup) {cfg : Config} :
    ∀ (names seenNames : List String), cfg ∈ namedConfigs cfgs names seenNames ↔
      cfg ∈ cfgs.configs ∧ cfg.state = .enabled ∧ cfg.name ∈ names ∧ cfg.name ∉ seenNames
  | [], _ => by simp [namedConfigs]
  | name :: names, seenNames => by
    rw [namedConfigs_cons]
    by_cases hseen : name ∈ seenNames
    · -- a repeat adds nothing: a config of that name was seen
      rw [if_pos hseen, mem_namedConfigs hnd names seenNames]
      constructor
      · rintro ⟨hc, hen, hn, hs⟩
        exact ⟨hc, hen, List.mem_cons_of_mem _ hn, hs⟩
      · rintro ⟨hc, hen, hn, hs⟩
        rcases List.mem_cons.mp hn with hn | hn
        · exact absurd (hn ▸ hseen) hs
        · exact ⟨hc, hen, hn, hs⟩
    · rw [if_neg hseen, List.mem_append, mem_namedConfig hnd, mem_namedConfigs hnd names]
      -- the config of this name is handed over here, the others later
      by_cases hname : cfg.name = name
      · simp [hname, hseen]
      · simp [hname]

theorem nodup_namedConfigs :
    ∀ (names seenNames : List String), ((namedConfigs cfgs names seenNames).map Config.name).Nodup ∧
      ∀ cfg ∈ namedConfigs cfgs names seenNames, cfg.name ∉ seenNames
  | [], _ => by simp [namedConfigs]
  | name :: names, seenNames => by
    rw [namedConfigs_cons]
    by_cases hseen : name ∈ seenNames
    · rw [if_pos hseen]
      exact nodup_namedConfigs names seenNames
    · rw [if_neg hseen]
      obtain ⟨hnd, hfresh⟩ := nodup_namedConfigs names (name :: seenNames)
      -- the names of the rest are neither `name` nor seen
      have hrest : ∀ cfg ∈ namedConfigs cfgs names (name :: seenNames), cfg.name ≠ name ∧ cfg.name ∉ seenNames :=
        fun cfg hc => by simpa using hfresh cfg hc
      rcases @namedConfig_cases cfgs name with hnil | ⟨c, hc, hcname⟩
      · rw [hnil, List.nil_append]
        exact ⟨hnd, fun cfg hcfg => (hrest cfg hcfg).2⟩
      · rw [hc, List.singleton_append, List.map_cons, List.nodup_cons]
        refine ⟨⟨fun hm => ?_, hnd⟩, fun cfg hcfg => ?_⟩
        · obtain ⟨c', hc', hname'⟩ := List.mem_map.mp hm
          exact (hrest c' hc').1 (hname'.trans hcname)
        · rcases List.mem_cons.mp hcfg with rfl | hcfg
          · exact hcname ▸ hseen
          · exact (hrest cfg hcfg).2

theorem nodup_map_bucketKey_namedConfigs (names : List String) :
    ((namedConfigs cfgs names []).map bucketKey).Nodup := by
  have hmap : (namedConfigs cfgs names []).map bucketKey =
      ((namedConfigs cfgs names []).map Config.name).map (· ++ "/0") := by
    rw [List.map_map]
    rfl
  rw [hmap]
  exact (nodup_namedConfigs names []).1.map fun _ _ h => String.append_left_inj "/0" |>.mp h

theorem forName_defaultMode {β : Type} (fn : String → Option Config → STM β) (name : String) :
    forName cfgs .defaultMode fn name = match cfgs.configs.find? (·.name = name) with
      | some cfg => if cfg.state = .enabled then some <$> fn name (some cfg) else pure none
      | none => pure none := by
  unfold forName
  simp only [reduceCtorEq, and_false, if_false]
  exact bind_pure _

theorem run_bind_pure_map_snd {α β : Type} (x : STM α) (g : α → β) (s : Store) :
    ((x >>= fun a => pure (g a)).run s).map Prod.snd = (x.run s).map Prod.snd := by
  rw [StateT.run_bind]
  cases x.run s <;> rfl

/-- The loop of `forNames` in `defaultMode` ends in the store that `fn` run over `namedConfigs`
ends in, or fails as that run fails. -/
theorem forNamesLoop_run_snd (fn : String → Option Config → STM Unit) :
    ∀ (names seenNames : List String) (s : Store),
      ((forNamesLoop cfgs .defaultMode fn names seenNames).run s).map Prod.snd =
        ((forM (namedConfigs cfgs names seenNames) fun cfg => fn cfg.name (some cfg)).run s).map Prod.snd
  | [], _, _ => rfl
  | name :: names, seenNames, s => by
    by_cases hseen : name ∈ seenNames
    · simp only [forNamesLoop, namedConfigs, if_pos hseen]
      exact forNamesLoop_run_snd fn names seenNames s
    · simp only [forNamesLoop, namedConfigs, if_neg hseen, forName_defaultMode]
      -- the rest of the loop, whatever the name was handed to
      have hrest : ∀ (r : Option Unit) (s' : Store),
          ((do let rs ← forNamesLoop cfgs .defaultMode fn names (name :: seenNames)
               pure (r.toList.map (name, ·) ++ rs)).run s').map Prod.snd =
            ((forM (namedConfigs cfgs names (name :: seenNames)) fun cfg =>
              fn cfg.name (some cfg)).run s').map Prod.snd := by
        intro r s'
        rw [run_bind_pure_map_snd]
        exact forNamesLoop_run_snd fn names (name :: seenNames) s'
      split
      · next cfg hfind =>
        have hname : cfg.name = name := by simpa using List.find?_some hfind
        split_ifs
        · rw [List.forM_cons, StateT.run_bind, StateT.run_bind, hname, StateT.run_map]
          cases (fn name (some cfg)).run s with
          | error e => rfl
          | ok p => exact hrest _ p.2
        · exact hrest none s
      · exact hrest none s

end Loop

section Mod

variable {cfgs : Configs}

/-- The bucket `readBucket` reads from the value under its key. -/
def decodeBucket (key : String) : Option Value → Except QuotaError Bucket
  | none => .ok ⟨0, 0⟩
  | some (.bucket b) => .ok b
  | some (.configs _) => .error (.errorf s!"error unmarshaling {key}")

theorem readBucket_run_eq (key : String) (s : Store) :
    (readBucket key).run s = (decodeBucket key (s key)).map (·, s) := by
  unfold readBucket
  rw [run_bind_of_ok (run_read key s)]
  cases s key with
  | none => rfl
  | some v => cases v <;> rfl

/-- `modBucket` as an update of the value under its bucket key: the bucket read from it, and the
bucket `modTokens` computes, written back if it changed. -/
def bucketUpdate (cfg : Config) (now : Time) (add : ℤ) (v : Option Value) :
    Except QuotaError (Option Value) := do
  let key := bucketKey cfg
  let prevBucket ← decodeBucket key v
  let newBucket ← modTokens cfg now key prevBucket add
  pure (if prevBucket ≠ newBucket then some (.bucket newBucket) else v)

theorem modBucket_run_updates (cfg : Config) (now : Time) (add : ℤ) (s : Store) :
    (do let _ ← modBucket cfg now add : STM Unit).run s =
      (bucketUpdate cfg now add (s (bucketKey cfg))).map
        fun v => (⟨⟩, Function.update s (bucketKey cfg) v) := by
  simp only [modBucket, bucketUpdate, bind_assoc, StateT.run_bind, readBucket_run_eq]
  cases decodeBucket (bucketKey cfg) (s (bucketKey cfg)) with
  | error e => rfl
  | ok prevBucket =>
    cases hm : modTokens cfg now (bucketKey cfg) prevBucket add with
    | error e => simp [hm, Except.map, MonadExcept.ofExcept]
    | ok newBucket =>
      by_cases hne : prevBucket = newBucket
      · -- nothing is written, and the value under the key stays
        subst hne
        simp [hm, Except.map, MonadExcept.ofExcept]
      · simp [hm, hne, Except.map, MonadExcept.ofExcept]

theorem bucketUpdate_bucket (cfg : Config) (now : Time) (add : ℤ) (b : Bucket) :
    bucketUpdate cfg now add (some (.bucket b)) =
      (modTokens cfg now (bucketKey cfg) b add).map fun b' => some (.bucket b') := by
  simp only [bucketUpdate, decodeBucket, except_ok_bind]
  cases modTokens cfg now (bucketKey cfg) b add with
  | error e => rfl
  | ok b' =>
    by_cases h : b = b'
    · -- an unchanged bucket is not written, and the value stays the same bucket
      subst h
      simp [Except.map]
    · simp [h, Except.map]

/-- `forNames` in `defaultMode` on valid names, with an `fn` that updates the bucket key of the
config it is handed: the buckets of the configs handed over are updated side by side, all of them
or none. -/
theorem forNames_defaultMode_eq {s : Store} (hcfgs : getConfigs.run s = .ok (cfgs, s))
    {names : List String} (hnames : ∀ name ∈ names, isNameValid name = true)
    {fn : String → Option Config → STM Unit} {step : Config → Option Value → Except QuotaError (Option Value)}
    (hfn : ∀ cfg s, (fn cfg.name (some cfg)).run s =
      (step cfg (s (bucketKey cfg))).map fun v => (⟨⟩, Function.update s (bucketKey cfg) v)) :
    ((QuotaStorage.forNames names .defaultMode fn s).1.map fun _ => (),
        (QuotaStorage.forNames names .defaultMode fn s).2) =
      match updateEach bucketKey step s (namedConfigs cfgs names []) with
      | .ok s' => (.ok (), s')
      | .error e => (.error e, s) := by
  have hvalid : names.find? (fun name => !isNameValid name) = none := by
    rw [List.find?_eq_none]
    intro name hname
    simp [hnames name hname]
  -- the loop ends as the updates do, side by side
  have hloop := @forNamesLoop_run_snd cfgs fn names [] s
  rw [run_forM_eq_updateEach hfn (nodup_map_bucketKey_namedConfigs names)] at hloop
  simp only [QuotaStorage.forNames, hvalid, atomically, run_bind_of_ok hcfgs]
  cases hu : updateEach bucketKey step s (namedConfigs cfgs names []) with
  | error e =>
    -- the loop fails with the same error, and nothing is committed
    cases h : (forNamesLoop cfgs .defaultMode fn names []).run s with
    | error e' =>
      simp only [h, hu, Except.map, Except.error.injEq] at hloop
      rw [hloop]
      rfl
    | ok p => simp [h, hu, Except.map] at hloop
  | ok s' =>
    cases h : (forNamesLoop cfgs .defaultMode fn names []).run s with
    | error e' => simp [h, hu, Except.map] at hloop
    | ok p =>
      simp only [h, hu, Except.map, Except.ok.injEq] at hloop
      rw [hloop]
      rfl

/-- `mod` on valid names, from a store whose configs are `cfgs`: `bucketUpdate` on the bucket of
each config handed over, side by side. -/
theorem mod_eq_updateEach {s : Store} (hcfgs : getConfigs.run s = .ok (cfgs, s))
    {names : List String} (hnames : ∀ name ∈ names, isNameValid name = true) (add : ℤ) (now : Time) :
    QuotaStorage.mod names add now s =
      match updateEach bucketKey (fun cfg => bucketUpdate cfg now add) s (namedConfigs cfgs names []) with
      | .ok s' => (.ok (), s')
      | .error e => (.error e, s) :=
  forNames_defaultMode_eq hcfgs hnames fun cfg => modBucket_run_updates cfg now add

end Mod

section Arithmetic

variable {cfg : Config} {now : Time} {b : Bucket} {t : ℤ}

/-- `x` fits an `int64`. -/
def IsInt64 (x : ℤ) : Prop := -2 ^ 63 ≤ x ∧ x < 2 ^ 63

theorem addInt64_of_isInt64 {x y : ℤ} (h : IsInt64 (x + y)) : addInt64 x y = x + y :=
  Int.bmod_eq_of_le (by have := h.1; norm_num; omega) (by have := h.2; norm_num; omega)

/-- `T'`: the bucket `b` of `cfg` after the replenishment due at `now`, over the integers. A
time-based bucket due a replenishment gets `TokensToReplenish` more tokens, up to `MaxTokens`, and
is stamped with `now`. -/
def replenished (cfg : Config) (now : Time) (b : Bucket) : Bucket :=
  match cfg.replenishmentStrategy with
  | .timeBased tokensToReplenish replenishIntervalSeconds =>
    if now.unix ≥ b.lastReplenishMillisSinceEpoch.tdiv 1000 + replenishIntervalSeconds then
      ⟨min (b.tokens + tokensToReplenish) cfg.maxTokens, now.unixNano.tdiv 1000000⟩
    else b
  | _ => b

/-- The bucket after a `Get` of `t` tokens that succeeds: `T' - t`. -/
def takenBucket (cfg : Config) (now : Time) (t : ℤ) (b : Bucket) : Bucket :=
  ⟨(replenished cfg now b).tokens - t, (replenished cfg now b).lastReplenishMillisSinceEpoch⟩

/-- The bucket after a `Put` of `t` tokens: a time-based bucket is only replenished, any other gets
the tokens, up to `MaxTokens`. -/
def putBucket (cfg : Config) (now : Time) (t : ℤ) (b : Bucket) : Bucket :=
  match cfg.replenishmentStrategy with
  | .timeBased _ _ => replenished cfg now b
  | _ => ⟨min ((replenished cfg now b).tokens + t) cfg.maxTokens,
      (replenished cfg now b).lastReplenishMillisSinceEpoch⟩

/-- The `int64` sums of the replenishment of the bucket `b` of `cfg` at `now` do not wrap: the time
it is due, and the tokens after it if it is; and `MaxTokens` is an `int64`. -/
structure NoWrap (cfg : Config) (now : Time) (b : Bucket) : Prop where
  maxTokens_le : cfg.maxTokens ≤ Quota.maxTokens
  due : ∀ t r, cfg.replenishmentStrategy = .timeBased t r →
    IsInt64 (b.lastReplenishMillisSinceEpoch.tdiv 1000 + r)
  replenish : ∀ t r, cfg.replenishmentStrategy = .timeBased t r →
    now.unix ≥ b.lastReplenishMillisSinceEpoch.tdiv 1000 + r → IsInt64 (b.tokens + t)

theorem cap_eq_min (x m : ℤ) : (if x > m then m else x) = min x m := by
  split_ifs with h
  · exact (min_eq_right h.le).symm
  · exact (min_eq_left (not_lt.mp h)).symm

theorem replenish_fst (hw : NoWrap cfg now b) (add : ℤ) :
    (replenish cfg now b add).1 = replenished cfg now b := by
  unfold replenish replenished
  cases hstrategy : cfg.replenishmentStrategy with
  | timeBased tokensToReplenish r =>
    simp only
    rw [addInt64_of_isInt64 (hw.due _ _ hstrategy)]
    by_cases hdue : now.unix ≥ b.lastReplenishMillisSinceEpoch.tdiv 1000 + r
    · rw [if_pos hdue, if_pos hdue, addInt64_of_isInt64 (hw.replenish _ _ hstrategy hdue), cap_eq_min]
    · rw [if_neg hdue, if_neg hdue]
  | none => rfl
  | sequencingBased => rfl

theorem replenish_snd_of_nonpos {add : ℤ} (hadd : add ≤ 0) : (replenish cfg now b add).2 = add := by
  unfold replenish
  split
  · simp [not_lt.mpr hadd]
  · rfl

theorem replenished_within (hcfg : ConfigOk cfg) (hb : b.Within cfg) :
    (replenished cfg now b).Within cfg := by
  have hstrategy := hcfg.strategy
  unfold StrategyOk at hstrategy
  unfold replenished
  split
  · next tokensToReplenish r heq =>
    rw [heq] at hstrategy
    split_ifs
    · -- `TokensToReplenish` is positive, so the sum is not below zero either
      exact ⟨le_min (by linarith [hb.1, hstrategy.1]) hcfg.maxTokens_pos.le, min_le_right _ _⟩
    · exact hb
  · exact hb

theorem maxTokens_eq : Quota.maxTokens = 9223372036854775807 := by norm_num [Quota.maxTokens]

/-- A take of `t` tokens from a bucket within bounds, without a wrap: `T' - t`, or an error that
names the bucket key, the tokens the bucket held and `t`. -/
theorem modTokens_take (hcfg : ConfigOk cfg) (hw : NoWrap cfg now b) (hb : b.Within cfg)
    (ht : 0 ≤ t) (ht' : t ≤ Quota.maxTokens) (key : String) :
    modTokens cfg now key b (-t) =
      if t ≤ (replenished cfg now b).tokens then .ok (takenBucket cfg now t b)
      else .error (.errorf s!"insufficient tokens on {key} ({b.tokens} vs {t})") := by
  have hT : (replenished cfg now b).Within cfg := replenished_within hcfg hb
  obtain ⟨hlo, hhi⟩ := hT
  have hmax := hw.maxTokens_le
  rw [maxTokens_eq] at hmax ht'
  have hrep : replenish cfg now b (-t) = (replenished cfg now b, -t) :=
    Prod.ext (replenish_fst hw _) (replenish_snd_of_nonpos (by omega))
  -- `T' - t` lies between `-MaxInt64` and `MaxTokens`: the sum cannot wrap
  have hsum : IsInt64 ((replenished cfg now b).tokens + -t) := by
    unfold IsInt64
    norm_num
    omega
  unfold modTokens
  simp only [hrep, addInt64_of_isInt64 hsum]
  by_cases hle : t ≤ (replenished cfg now b).tokens
  · rw [if_neg (by omega), if_pos hle, if_neg (by omega)]
    rfl
  · -- the amount in the message is `-add`, which is `t` again
    have hwant : (- -t).bmod (2 ^ 64) = t := by
      rw [neg_neg]
      exact Int.bmod_eq_of_le (by norm_num; omega) (by norm_num; omega)
    rw [if_pos (by omega), if_neg hle, hwant]

theorem modTokens_put (hcfg : ConfigOk cfg) (hw : NoWrap cfg now b) (hb : b.Within cfg) (ht : 0 ≤ t)
    (hsum : cfg.replenishmentStrategy = .sequencingBased → b.tokens + t ≤ Quota.maxTokens)
    (key : String) : modTokens cfg now key b t = .ok (putBucket cfg now t b) := by
  have hT : (replenished cfg now b).Within cfg := replenished_within hcfg hb
  obtain ⟨hlo, hhi⟩ := hT
  have hmax := hw.maxTokens_le
  have hstrategy := hcfg.strategy
  rw [maxTokens_eq] at hmax hsum
  unfold modTokens
  rw [← Prod.mk.eta (p := replenish cfg now b t), replenish_fst hw]
  unfold StrategyOk at hstrategy
  cases hs : cfg.replenishmentStrategy with
  | none => simp [hs] at hstrategy
  | sequencingBased =>
    -- the tokens are added to the bucket as it is
    have hadd : IsInt64 (b.tokens + t) := by
      unfold IsInt64
      norm_num
      have := hsum hs
      have := hb.1
      omega
    have hrep : replenished cfg now b = b := by simp [replenished, hs]
    simp only [replenish, hs, hrep, addInt64_of_isInt64 hadd, putBucket]
    rw [if_neg (by linarith [hb.1]), cap_eq_min]
  | timeBased tokensToReplenish r =>
    -- a time-based bucket gets no tokens from a `Put`
    have hzero : (replenish cfg now b t).2 = 0 := by
      simp only [replenish, hs]
      split_ifs <;> omega
    have hT : IsInt64 ((replenished cfg now b).tokens + 0) := by
      unfold IsInt64
      norm_num
      omega
    simp only [hzero, addInt64_of_isInt64 hT, add_zero, putBucket, hs]
    rw [if_neg (by omega), if_neg (by omega)]

end Arithmetic

section Named

variable {s : Store} {cfgs : Configs} {names : List String} {add : ℤ} {now : Time}

/-- The configs `Get` and `Put` of `names` act on: the enabled configs of those names. -/
def IsNamed (cfgs : Configs) (names : List String) (cfg : Config) : Prop :=
  cfg ∈ cfgs.configs ∧ cfg.state = .enabled ∧ cfg.name ∈ names

variable (hs : BucketsInBounds s cfgs) (hnames : ∀ name ∈ names, isNameValid name = true)
include hs

theorem mem_namedConfigs_iff {cfg : Config} :
    cfg ∈ namedConfigs cfgs names [] ↔ IsNamed cfgs names cfg := by
  rw [mem_namedConfigs ((validate_eq_ok_iff cfgs).mp hs.valid).2]
  simp [IsNamed]

theorem bucketUpdate_of_named {cfg : Config} (hc : cfg ∈ namedConfigs cfgs names []) :
    ∃ b, s (bucketKey cfg) = some (.bucket b) ∧
      bucketUpdate cfg now add (s (bucketKey cfg)) =
        (modTokens cfg now (bucketKey cfg) b add).map fun b' => some (.bucket b') := by
  obtain ⟨b, hb, -⟩ := hs.buckets cfg ((mem_namedConfigs_iff hs).mp hc).1
  exact ⟨b, hb, by rw [hb, bucketUpdate_bucket]⟩

/-- In a run of the updates that succeeds, the bucket of each config named becomes the one
`modTokens` computes from it. -/
theorem modTokens_of_updateEach {s' : Store}
    (hu : updateEach bucketKey (fun cfg => bucketUpdate cfg now add) s (namedConfigs cfgs names []) = .ok s')
    {cfg : Config} (hc : IsNamed cfgs names cfg) {b : Bucket} (hb : s (bucketKey cfg) = some (.bucket b)) :
    (modTokens cfg now (bucketKey cfg) b add).map (fun b' => some (.bucket b')) =
      .ok (s' (bucketKey cfg)) := by
  have hstep := ((updateEach_eq_ok_iff (nodup_map_bucketKey_namedConfigs names)).mp hu).1 cfg
    ((mem_namedConfigs_iff hs).mpr hc)
  rwa [hb, bucketUpdate_bucket] at hstep

include hnames

theorem mod_eq_ok_iff :
    (QuotaStorage.mod names add now s).1 = .ok () ↔
      ∀ cfg, IsNamed cfgs names cfg → ∀ b, s (bucketKey cfg) = some (.bucket b) →
        ∃ b', modTokens cfg now (bucketKey cfg) b add = .ok b' := by
  rw [mod_eq_updateEach hs.stored hnames]
  constructor
  · intro h cfg hc b hb
    cases hu : updateEach bucketKey (fun cfg => bucketUpdate cfg now add) s (namedConfigs cfgs names []) with
    | error e =>
      rw [hu] at h
      cases h
    | ok s' =>
      -- the step of `cfg` succeeded on its bucket
      have hstep := modTokens_of_updateEach hs hu hc hb
      cases hm : modTokens cfg now (bucketKey cfg) b add with
      | error e =>
        rw [hm] at hstep
        cases hstep
      | ok b' => exact ⟨b', rfl⟩
  · intro h
    -- every step succeeds on the bucket it reads, so all of them do
    obtain ⟨s', hu⟩ : ∃ s', updateEach bucketKey (fun cfg => bucketUpdate cfg now add) s
        (namedConfigs cfgs names []) = .ok s' := by
      refine exists_updateEach_eq_ok_iff.mpr fun cfg hc => ?_
      obtain ⟨b, hb, hupdate⟩ := bucketUpdate_of_named hs hc
      obtain ⟨b', hm⟩ := h cfg ((mem_namedConfigs_iff hs).mp hc) b hb
      exact ⟨_, by rw [hupdate, hm]; rfl⟩
    rw [hu]

theorem mod_bucket_of_ok (hok : (QuotaStorage.mod names add now s).1 = .ok ()) {cfg : Config}
    (hc : IsNamed cfgs names cfg) {b b' : Bucket} (hb : s (bucketKey cfg) = some (.bucket b))
    (hm : modTokens cfg now (bucketKey cfg) b add = .ok b') :
    (QuotaStorage.mod names add now s).2 (bucketKey cfg) = some (.bucket b') := by
  rw [mod_eq_updateEach hs.stored hnames] at hok ⊢
  cases hu : updateEach bucketKey (fun cfg => bucketUpdate cfg now add) s (namedConfigs cfgs names []) with
  | error e =>
    rw [hu] at hok
    cases hok
  | ok s' =>
    have hstep := modTokens_of_updateEach hs hu hc hb
    rw [hm] at hstep
    exact (Except.ok.inj hstep).symm

theorem mod_of_ne_bucketKey {key : String} (hkey : ∀ cfg, IsNamed cfgs names cfg → key ≠ bucketKey cfg) :
    (QuotaStorage.mod names add now s).2 key = s key := by
  rw [mod_eq_updateEach hs.stored hnames]
  cases hu : updateEach bucketKey (fun cfg => bucketUpdate cfg now add) s (namedConfigs cfgs names []) with
  | error e => rfl
  | ok s' =>
    refine ((updateEach_eq_ok_iff (nodup_map_bucketKey_namedConfigs names)).mp hu).2 key fun hk => ?_
    obtain ⟨cfg, hc, rfl⟩ := List.mem_map.mp hk
    exact hkey cfg ((mem_namedConfigs_iff hs).mp hc) rfl

theorem mod_of_ne_ok (herr : (QuotaStorage.mod names add now s).1 ≠ .ok ()) :
    (QuotaStorage.mod names add now s).2 = s := by
  rw [mod_eq_updateEach hs.stored hnames] at herr ⊢
  cases hu : updateEach bucketKey (fun cfg => bucketUpdate cfg now add) s (namedConfigs cfgs names []) with
  | error e => rfl
  | ok s' =>
    rw [hu] at herr
    exact absurd rfl herr

end Named

section Exact

variable {s : Store} {cfgs : Configs} {names : List String} {t : ℤ} {now : Time}

theorem get_eq_mod (ht : 0 ≤ t) : QuotaStorage.get names t now s = QuotaStorage.mod names (-t) now s := by
  rw [QuotaStorage.get, if_neg (not_lt.mpr ht)]

theorem put_eq_mod (ht : 0 ≤ t) : QuotaStorage.put names t now s = QuotaStorage.mod names t now s := by
  rw [QuotaStorage.put, if_neg (not_lt.mpr ht)]

theorem BucketsInBounds.of_mem (hs : BucketsInBounds s cfgs) {cfg : Config} (hc : cfg ∈ cfgs.configs)
    {b : Bucket} (hb : s (bucketKey cfg) = some (.bucket b)) : ConfigOk cfg ∧ b.Within cfg := by
  obtain ⟨b', hb', hw⟩ := hs.buckets cfg hc
  rw [hb] at hb'
  cases hb'
  exact ⟨((validate_eq_ok_iff cfgs).mp hs.valid).1 cfg hc, hw⟩

variable (hs : BucketsInBounds s cfgs) (hnames : ∀ name ∈ names, isNameValid name = true)
  (ht : 0 ≤ t)
  (hwrap : ∀ cfg, IsNamed cfgs names cfg → ∀ b, s (bucketKey cfg) = some (.bucket b) → NoWrap cfg now b)
include hs hnames ht hwrap

/-- Without a wrap, `Get` succeeds exactly when every bucket named holds `t` tokens after its
replenishment. -/
theorem get_eq_ok_iff (ht' : t ≤ Quota.maxTokens) :
    (QuotaStorage.get names t now s).1 = .ok () ↔
      ∀ cfg, IsNamed cfgs names cfg → ∀ b, s (bucketKey cfg) = some (.bucket b) →
        t ≤ (replenished cfg now b).tokens := by
  rw [get_eq_mod ht, mod_eq_ok_iff hs hnames]
  refine forall_congr' fun cfg => forall_congr' fun hc => forall_congr' fun b => forall_congr' fun hb => ?_
  obtain ⟨hcfg, hw⟩ := hs.of_mem hc.1 hb
  rw [modTokens_take hcfg (hwrap cfg hc b hb) hw ht ht']
  by_cases hle : t ≤ (replenished cfg now b).tokens
  · simp [hle]
  · simp [hle]

theorem get_bucket_of_ok (ht' : t ≤ Quota.maxTokens) (hok : (QuotaStorage.get names t now s).1 = .ok ())
    {cfg : Config} (hc : IsNamed cfgs names cfg) {b : Bucket} (hb : s (bucketKey cfg) = some (.bucket b)) :
    (QuotaStorage.get names t now s).2 (bucketKey cfg) = some (.bucket (takenBucket cfg now t b)) := by
  have hle := (get_eq_ok_iff hs hnames ht hwrap ht').mp hok cfg hc b hb
  obtain ⟨hcfg, hw⟩ := hs.of_mem hc.1 hb
  rw [get_eq_mod ht] at hok ⊢
  refine mod_bucket_of_ok hs hnames hok hc hb ?_
  rw [modTokens_take hcfg (hwrap cfg hc b hb) hw ht ht', if_pos hle]

variable (hsum : ∀ cfg, IsNamed cfgs names cfg → cfg.replenishmentStrategy = .sequencingBased →
  ∀ b, s (bucketKey cfg) = some (.bucket b) → b.tokens + t ≤ Quota.maxTokens)
include hsum

theorem put_eq_ok : (QuotaStorage.put names t now s).1 = .ok () := by
  rw [put_eq_mod ht, mod_eq_ok_iff hs hnames]
  intro cfg hc b hb
  obtain ⟨hcfg, hw⟩ := hs.of_mem hc.1 hb
  exact ⟨_, modTokens_put hcfg (hwrap cfg hc b hb) hw ht (fun h => hsum cfg hc h b hb) _⟩

theorem put_bucket {cfg : Config} (hc : IsNamed cfgs names cfg) {b : Bucket}
    (hb : s (bucketKey cfg) = some (.bucket b)) :
    (QuotaStorage.put names t now s).2 (bucketKey cfg) = some (.bucket (putBucket cfg now t b)) := by
  have hok := put_eq_ok hs hnames ht hwrap hsum
  obtain ⟨hcfg, hw⟩ := hs.of_mem hc.1 hb
  rw [put_eq_mod ht] at hok ⊢
  exact mod_bucket_of_ok hs hnames hok hc hb
    (modTokens_put hcfg (hwrap cfg hc b hb) hw ht (fun h => hsum cfg hc h b hb) _)

end Exact

/-- Without a wrap, `Get` and `Put` of `t` tokens on valid names, from a store within bounds, do
what the integers say, all or nothing. `Get` succeeds exactly when the bucket of every enabled
config named holds `t` tokens after its replenishment (`T'`), and then holds `T' - t`; `Put`
succeeds, and leaves each such bucket at `putBucket`; both leave every other key, and a `Get` that
fails leaves the store. -/
theorem get_put_exact_of_noWrap {s : Store} {cfgs : Configs} {names : List String} {t : ℤ}
    (now : Time) (hs : BucketsInBounds s cfgs) (hnames : ∀ name ∈ names, isNameValid name = true)
    (ht : 0 ≤ t) (ht' : t ≤ Quota.maxTokens)
    (hwrap : ∀ cfg, IsNamed cfgs names cfg → ∀ b, s (bucketKey cfg) = some (.bucket b) → NoWrap cfg now b)
    (hsum : ∀ cfg, IsNamed cfgs names cfg → cfg.replenishmentStrategy = .sequencingBased →
      ∀ b, s (bucketKey cfg) = some (.bucket b) → b.tokens + t ≤ Quota.maxTokens) :
    ((QuotaStorage.get names t now s).1 = .ok () ↔
      ∀ cfg, IsNamed cfgs names cfg → ∀ b, s (bucketKey cfg) = some (.bucket b) →
        t ≤ (replenished cfg now b).tokens) ∧
    (∀ cfg, IsNamed cfgs names cfg → ∀ b, s (bucketKey cfg) = some (.bucket b) →
      ((QuotaStorage.get names t now s).1 = .ok () →
        (QuotaStorage.get names t now s).2 (bucketKey cfg) = some (.bucket (takenBucket cfg now t b))) ∧
      (QuotaStorage.put names t now s).2 (bucketKey cfg) = some (.bucket (putBucket cfg now t b))) ∧
    (QuotaStorage.put names t now s).1 = .ok () ∧
    (∀ key, (∀ cfg, IsNamed cfgs names cfg → key ≠ bucketKey cfg) →
      (QuotaStorage.get names t now s).2 key = s key ∧ (QuotaStorage.put names t now s).2 key = s key) ∧
    ((QuotaStorage.get names t now s).1 ≠ .ok () → (QuotaStorage.get names t now s).2 = s) := by
  refine ⟨get_eq_ok_iff hs hnames ht hwrap ht', fun cfg hc b hb => ⟨fun hok => ?_, ?_⟩,
    put_eq_ok hs hnames ht hwrap hsum, fun key hkey => ⟨?_, ?_⟩, fun herr => ?_⟩
  · exact get_bucket_of_ok hs hnames ht hwrap ht' hok hc hb
  · exact put_bucket hs hnames ht hwrap hsum hc hb
  · rw [get_eq_mod ht]
    exact mod_of_ne_bucketKey hs hnames hkey
  · rw [put_eq_mod ht]
    exact mod_of_ne_bucketKey hs hnames hkey
  · rw [get_eq_mod ht] at herr ⊢
    exact mod_of_ne_ok hs hnames herr

section Global

/-- The global write quota: sequencing-based, with the largest `MaxTokens`. -/
def globalWriteConfig : Config :=
  ⟨"quotas/global/write/config", .enabled, Quota.maxTokens, .sequencingBased⟩

/-- The global read quota: 100 tokens, replenished by `MaxInt64` tokens every second. -/
def globalReadConfig : Config :=
  ⟨"quotas/global/read/config", .enabled, 100, .timeBased Quota.maxTokens 1⟩

def globalConfigs : Configs := ⟨[globalWriteConfig, globalReadConfig]⟩

/-- The store of both global quotas, the write bucket with 1 token and the read bucket with 50,
both last replenished at the epoch. -/
def globalStore : Store :=
  Function.update
    (Function.update (Function.update emptyStore configsKey (some (.configs globalConfigs)))
      (bucketKey globalWriteConfig) (some (.bucket ⟨1, 0⟩)))
    (bucketKey globalReadConfig) (some (.bucket ⟨50, 0⟩))

-- `String.splitOn` is defined by well-founded recursion, so it is evaluated a step at a time
theorem splitOn_globalWrite :
    "quotas/global/write/config".splitOn "/" = ["quotas", "global", "write", "config"] := by
  unfold String.splitOn
  simp +decide only [if_false]
  repeat (rw [String.splitOnAux]; simp +decide only [if_false, if_true])

theorem splitOn_globalRead :
    "quotas/global/read/config".splitOn "/" = ["quotas", "global", "read", "config"] := by
  unfold String.splitOn
  simp +decide only [if_false]
  repeat (rw [String.splitOnAux]; simp +decide only [if_false, if_true])

theorem isNameValid_globalWrite : isNameValid globalWriteConfig.name = true := by
  simp [globalWriteConfig, isNameValid, globalPattern, splitOn_globalWrite, isReadOrWrite]

theorem isNameValid_globalRead : isNameValid globalReadConfig.name = true := by
  simp [globalReadConfig, isNameValid, globalPattern, splitOn_globalRead, isReadOrWrite]

theorem configOk_globalWrite : ConfigOk globalWriteConfig where
  name_ne := by decide
  name_valid := isNameValid_globalWrite
  state_ne := by decide
  maxTokens_pos := by norm_num [globalWriteConfig, Quota.maxTokens]
  strategy := by
    refine ⟨by simp [globalWriteConfig, usersPattern, splitOn_globalWrite], ?_⟩
    -- a write quota does not end in `/read/config`
    rw [globalWriteConfig, ← String.endsWith_toSlice, String.Slice.endsWith_string_eq_false_iff,
      String.copy_toSlice]
    decide

theorem configOk_globalRead : ConfigOk globalReadConfig where
  name_ne := by decide
  name_valid := isNameValid_globalRead
  state_ne := by decide
  maxTokens_pos := by decide
  strategy := by norm_num [StrategyOk, globalReadConfig, Quota.maxTokens]

theorem bucketKey_globalRead_ne : bucketKey globalReadConfig ≠ bucketKey globalWriteConfig := by
  decide

theorem globalStore_write : globalStore (bucketKey globalWriteConfig) = some (.bucket ⟨1, 0⟩) := by
  rw [globalStore, Function.update_of_ne bucketKey_globalRead_ne.symm, Function.update_self]

theorem globalStore_read : globalStore (bucketKey globalReadConfig) = some (.bucket ⟨50, 0⟩) := by
  rw [globalStore, Function.update_self]

theorem bucketsInBounds_globalStore : BucketsInBounds globalStore globalConfigs where
  stored := by
    refine getConfigs_run_congr ?_ (getConfigs_run_write emptyStore globalConfigs)
    rw [globalStore, Function.update_of_ne (bucketKey_ne_configsKey _).symm,
      Function.update_of_ne (bucketKey_ne_configsKey _).symm]
  valid := by
    refine (validate_eq_ok_iff _).mpr ⟨fun cfg hc => ?_, by decide⟩
    rcases List.mem_pair.mp hc with rfl | rfl
    · exact configOk_globalWrite
    · exact configOk_globalRead
  buckets cfg hc := by
    rcases List.mem_pair.mp hc with rfl | rfl
    · exact ⟨⟨1, 0⟩, globalStore_write, by norm_num [Bucket.Within, globalWriteConfig, Quota.maxTokens]⟩
    · exact ⟨⟨50, 0⟩, globalStore_read, by norm_num [Bucket.Within, globalReadConfig]⟩

theorem namedConfigs_globalWrite :
    namedConfigs globalConfigs [globalWriteConfig.name] [] = [globalWriteConfig] := by
  decide

theorem namedConfigs_globalRead :
    namedConfigs globalConfigs [globalReadConfig.name] [] = [globalReadConfig] := by
  decide

/-- A `Get` and a `Put` of one token on the global write quota, where no sum wraps, both succeed. -/
theorem get_put_exact_globalWrite :
    (QuotaStorage.get [globalWriteConfig.name] 1 ⟨0⟩ globalStore).1 = .ok () ∧
      (QuotaStorage.put [globalWriteConfig.name] 1 ⟨0⟩ globalStore).1 = .ok () := by
  -- the only config of that name is the write quota
  have hnamed : ∀ cfg, IsNamed globalConfigs [globalWriteConfig.name] cfg → cfg = globalWriteConfig := by
    rintro cfg ⟨hc, -, hn⟩
    rcases List.mem_pair.mp hc with rfl | rfl
    · rfl
    · exact absurd hn (by decide)
  have hbucket : ∀ b, globalStore (bucketKey globalWriteConfig) = some (.bucket b) → b = ⟨1, 0⟩ := by
    intro b hb
    rw [globalStore_write] at hb
    cases hb
    rfl
  obtain ⟨hget, -, hput, -⟩ := get_put_exact_of_noWrap (t := 1) ⟨0⟩ bucketsInBounds_globalStore
    (by simpa using isNameValid_globalWrite) (by norm_num) (by norm_num [Quota.maxTokens])
    (fun cfg hc b _ => (hnamed cfg hc).symm ▸ ⟨le_rfl, nofun, nofun⟩)
    (fun cfg hc _ b hb => by
      obtain rfl := hnamed cfg hc
      obtain rfl := hbucket b hb
      norm_num [Quota.maxTokens])
  refine ⟨hget.mpr fun cfg hc b hb => ?_, hput⟩
  obtain rfl := hnamed cfg hc
  obtain rfl := hbucket b hb
  rfl

/-- The sums wrap on the global quotas, whose buckets are within bounds. A `Put` of `MaxInt64`
tokens onto the write bucket, which holds 1, is refused; so is a `Get` of one token from the read
bucket a second after its last replenishment, though over the integers the replenishment fills it
to its `MaxTokens` of 100. Neither writes anything. -/
theorem get_put_wrap_around :
    BucketsInBounds globalStore globalConfigs ∧
    QuotaStorage.put [globalWriteConfig.name] Quota.maxTokens ⟨0⟩ globalStore =
      (.error (.errorf "insufficient tokens on quotas/global/write/config/0 (1 vs -9223372036854775807)"),
        globalStore) ∧
    (replenished globalReadConfig ⟨1000000000⟩ ⟨50, 0⟩).tokens = 100 ∧
    QuotaStorage.get [globalReadConfig.name] 1 ⟨1000000000⟩ globalStore =
      (.error (.errorf "insufficient tokens on quotas/global/read/config/0 (50 vs 1)"), globalStore) := by
  refine ⟨bucketsInBounds_globalStore, ?_, by decide, ?_⟩
  · -- `1 + MaxInt64` wraps to `MinInt64`
    have hmod : modTokens globalWriteConfig ⟨0⟩ (bucketKey globalWriteConfig) ⟨1, 0⟩ Quota.maxTokens =
        .error (.errorf "insufficient tokens on quotas/global/write/config/0 (1 vs -9223372036854775807)") := by
      decide
    rw [put_eq_mod (by norm_num [Quota.maxTokens]),
      mod_eq_updateEach bucketsInBounds_globalStore.stored (by simpa using isNameValid_globalWrite),
      namedConfigs_globalWrite]
    simp only [updateEach, globalStore_write, bucketUpdate_bucket, hmod]
    rfl
  · -- `50 + MaxInt64` wraps to a negative number of tokens, which the cap does not catch
    have hmod : modTokens globalReadConfig ⟨1000000000⟩ (bucketKey globalReadConfig) ⟨50, 0⟩ (-1) =
        .error (.errorf "insufficient tokens on quotas/global/read/config/0 (50 vs 1)") := by
      decide
    rw [get_eq_mod (by norm_num),
      mod_eq_updateEach bucketsInBounds_globalStore.stored (by simpa using isNameValid_globalRead),
      namedConfigs_globalRead]
    simp only [updateEach, globalStore_read, bucketUpdate_bucket, hmod]
    rfl

end Global

end EtcdQuota

end Trillian
