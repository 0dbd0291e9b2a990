import Mathlib

/-! The caching quota manager of `quota/cacheqm/cache.go`: a bucket of tokens per spec, refilled
with one call to the wrapped manager, and an eviction of least recently used non-global buckets
that runs right after the call that starts it. Times are numbers, `0` the zero time. -/

namespace Trillian

namespace Quota

inductive Group where
  | global
  | tree
  | user
deriving DecidableEq

inductive Kind where
  | read
  | write
deriving DecidableEq

structure Spec where
  group : Group
  kind : Kind
  treeID : ℤ
  user : String
deriving DecidableEq

/-- `quota.Manager`, with the two calls the caching manager makes of the manager it wraps, over
that manager's own state. -/
structure Manager (σ : Type*) where
  getTokens : ℤ → List Spec → σ → Except String σ
  putTokens : ℤ → List Spec → σ → Except String σ

end Quota

namespace CacheQM

open Quota

structure Bucket where
  tokens : ℤ
  lastModified : ℕ
deriving DecidableEq

/-- `manager`, without the wrapped manager, which each call is given with its state. -/
structure Manager where
  minBatchSize : ℤ
  maxEntries : ℤ
  cache : AList fun _ : Spec => Bucket

/-- The refill loop of `GetTokens`: each listed spec's bucket, created empty if missing, gains
`tokens`, once for each time the spec is listed. -/
def refillBuckets (tokens : ℤ) (cache : AList fun _ : Spec => Bucket) :
    List Spec → AList fun _ : Spec => Bucket
  | [] => cache
  | spec :: specs =>
    let b := (cache.lookup spec).getD ⟨0, 0⟩
    refillBuckets tokens (cache.insert spec { b with tokens := b.tokens + tokens }) specs

/-- The loop of `GetTokens` that takes the tokens out of the buckets. A bucket that is missing or
short stops it with no error, the buckets before it already debited. -/
def subtractTokens (numTokens : ℤ) (lastModified : ℕ) (cache : AList fun _ : Spec => Bucket) :
    List Spec → AList fun _ : Spec => Bucket
  | [] => cache
  | spec :: specs =>
    match cache.lookup spec with
    | none => cache
    | some bucket =>
      -- sanity check: let requests go through
      if bucket.tokens < 0 ∨ bucket.tokens < numTokens then cache
      else
        subtractTokens numTokens lastModified
          (cache.insert spec ⟨bucket.tokens - numTokens, lastModified⟩) specs

/-- `GetTokens` at time `now`: the result, the manager, the wrapped manager's state, and whether
an eviction was started. -/
def Manager.getTokens {σ : Type*} (m : Manager) (qm : Quota.Manager σ) (st : σ) (now : ℕ)
    (numTokens : ℤ) (specs : List Spec) : Except String Unit × Manager × σ × Bool :=
  -- verify which buckets need more tokens, if any
  let specsToRefill := specs.filter fun spec =>
    match m.cache.lookup spec with
    | none => true
    | some bucket => decide (bucket.tokens < numTokens)
  if specsToRefill.length ≠ 0 then
    let tokens := numTokens + m.minBatchSize
    match qm.getTokens tokens specsToRefill st with
    | .error err => (.error err, m, st, true)
    | .ok st =>
      let cache := refillBuckets tokens m.cache specsToRefill
      (.ok (), { m with cache := subtractTokens numTokens now cache specs }, st, true)
  else (.ok (), { m with cache := subtractTokens numTokens now m.cache specs }, st, false)

/-- The least recently used first; Go's `sort.Sort` leaves the order of equal times open, and
this is one of its orders. -/
def bucketsByTime (buckets : List (Spec × Bucket)) : List (Spec × Bucket) :=
  buckets.insertionSort fun a b => a.2.lastModified ≤ b.2.lastModified

/-- The loop of `evict`: the first `evicts` buckets leave the cache and their tokens go back to
the wrapped manager, whose errors are only logged. Indexing past the buckets panics. -/
def evictLoop {σ : Type*} (qm : Quota.Manager σ) (buckets : List (Spec × Bucket)) :
    ℕ → ℕ → (AList fun _ : Spec => Bucket) → σ → Option ((AList fun _ : Spec => Bucket) × σ)
  | 0, _, cache, st => some (cache, st)
  | evicts + 1, i, cache, st =>
    match buckets[i]? with
    | none => none
    | some (spec, b) =>
      let st := match qm.putTokens b.tokens [spec] st with
        | .error _ => st
        | .ok st => st
      evictLoop qm buckets evicts (i + 1) (cache.erase spec) st

/-- `evict`: past `maxEntries` entries, counted with the global ones, the oldest non-global
buckets are returned. -/
def Manager.evict {σ : Type*} (m : Manager) (qm : Quota.Manager σ) (st : σ) :
    Option (Manager × σ) :=
  if (m.cache.entries.length : ℤ) ≤ m.maxEntries then some (m, st)
  else
    let buckets := bucketsByTime ((m.cache.entries.filter fun e => e.1.group ≠ .global).map
      fun e => (e.1, e.2))
    let evicts := m.cache.entries.length - m.maxEntries
    (evictLoop qm buckets evicts.toNat 0 m.cache st).map fun (cache, st) => ({ m with cache }, st)

/-- A call of `GetTokens` followed by the eviction it starts, run to completion. -/
def Manager.getTokensAndEvict {σ : Type*} (m : Manager) (qm : Quota.Manager σ) (st : σ)
    (now : ℕ) (numTokens : ℤ) (specs : List Spec) : Option (Except String Unit × Manager × σ) :=
  match m.getTokens qm st now numTokens specs with
  | (r, m, st, false) => some (r, m, st)
  | (r, m, st, true) => (m.evict qm st).map fun (m, st) => (r, m, st)

-- An eviction removes only the non-global buckets it picks, and when it does not panic it leaves at
-- most `maxEntries` entries. It panics exactly when it is due and more than `maxEntries` of the
-- entries are global: it counts them among the entries to remove but never picks them.

theorem eq_of_getElem?_of_nodup {β : Type*} {l : List β} (h : l.Nodup) {i j : ℕ} {a : β}
    (hi : l[i]? = some a) (hj : l[j]? = some a) : i = j := by
  obtain ⟨hil, hi'⟩ := List.getElem?_eq_some_iff.mp hi
  obtain ⟨hjl, hj'⟩ := List.getElem?_eq_some_iff.mp hj
  exact h.getElem_inj_iff.mp (hi'.trans hj'.symm)

theorem fst_ne_of_getElem? {buckets : List (Spec × Bucket)} (hnodup : (buckets.map Prod.fst).Nodup)
    {i j : ℕ} (hij : i ≠ j) {b b' : Spec × Bucket} (hb : buckets[i]? = some b)
    (hb' : buckets[j]? = some b') : b'.1 ≠ b.1 := by
  intro heq
  have hi : (buckets.map Prod.fst)[i]? = some b.1 := by simp [hb]
  have hj : (buckets.map Prod.fst)[j]? = some b.1 := by simp [hb', heq]
  exact hij (eq_of_getElem?_of_nodup hnodup hi hj)

section Evict

variable {σ : Type*} (qm : Quota.Manager σ)

theorem length_keys (cache : AList fun _ : Spec => Bucket) :
    cache.keys.length = cache.entries.length := by
  simp [AList.keys, List.keys]

theorem evictLoop_lookup_of_not_mem {buckets : List (Spec × Bucket)} {spec : Spec}
    (hs : ∀ b ∈ buckets, b.1 ≠ spec) :
    ∀ {evicts i : ℕ} {cache cache' : AList fun _ : Spec => Bucket} {st st' : σ},
      evictLoop qm buckets evicts i cache st = some (cache', st') →
        cache'.lookup spec = cache.lookup spec := by
  intro evicts
  induction evicts with
  | zero =>
    intro i cache cache' st st' h
    simp only [evictLoop, Option.some.injEq, Prod.mk.injEq] at h
    rw [h.1]
  | succ evicts ih =>
    intro i cache cache' st st' h
    unfold evictLoop at h
    split at h
    · contradiction
    · rename_i spec' b hb
      have hne : spec' ≠ spec := hs (spec', b) (List.mem_of_getElem? hb)
      rw [ih h, AList.lookup_erase_ne (Ne.symm hne)]

theorem evictLoop_eq_none_iff {buckets : List (Spec × Bucket)} :
    ∀ {evicts i : ℕ} {cache : AList fun _ : Spec => Bucket} {st : σ},
      evictLoop qm buckets evicts i cache st = none ↔ buckets.length < i + evicts ∧ 0 < evicts := by
  intro evicts
  induction evicts with
  | zero => intro i cache st; simp [evictLoop]
  | succ evicts ih =>
    intro i cache st
    unfold evictLoop
    split
    · rename_i hb
      simp only [true_iff]
      rw [List.getElem?_eq_none_iff] at hb
      omega
    · rename_i spec b hb
      rw [ih]
      have := (List.getElem?_eq_some_iff.mp hb).1
      omega

theorem evictLoop_length {buckets : List (Spec × Bucket)} (hnodup : (buckets.map Prod.fst).Nodup) :
    ∀ {evicts i : ℕ} {cache cache' : AList fun _ : Spec => Bucket} {st st' : σ},
      (∀ j b, i ≤ j → buckets[j]? = some b → b.1 ∈ cache.keys) →
      evictLoop qm buckets evicts i cache st = some (cache', st') →
        cache'.keys.length + evicts = cache.keys.length := by
  intro evicts
  induction evicts with
  | zero =>
    intro i cache cache' st st' _ h
    simp only [evictLoop, Option.some.injEq, Prod.mk.injEq] at h
    rw [h.1, Nat.add_zero]
  | succ evicts ih =>
    intro i cache cache' st st' hmem h
    unfold evictLoop at h
    split at h
    · contradiction
    · rename_i spec b hb
      have hin : spec ∈ cache.keys := hmem i (spec, b) le_rfl hb
      -- the later buckets name other specs, which the erasure keeps
      have hmem' : ∀ j b', i + 1 ≤ j → buckets[j]? = some b' → b'.1 ∈ (cache.erase spec).keys := by
        intro j b' hj hb'
        rw [AList.keys_erase]
        have hne : b'.1 ≠ spec := fst_ne_of_getElem? hnodup (by omega) hb hb'
        exact (List.mem_erase_of_ne hne).mpr (hmem j b' (by omega) hb')
      have hlen := ih hmem' h
      rw [AList.keys_erase, List.length_erase_of_mem hin] at hlen
      have hpos : 0 < cache.keys.length := List.length_pos_of_mem hin
      omega

variable {qm}

theorem group_of_mem_bucketsByTime {m : Manager} {b : Spec × Bucket}
    (hb : b ∈ bucketsByTime ((m.cache.entries.filter fun e => e.1.group ≠ .global).map
      fun e => (e.1, e.2))) : b.1.group ≠ .global := by
  have hmem := (List.perm_insertionSort _ _).mem_iff.mp hb
  simp only [List.mem_map, List.mem_filter, decide_eq_true_eq] at hmem
  obtain ⟨e, ⟨-, hg⟩, rfl⟩ := hmem
  exact hg

/-- An eviction never removes a global spec. -/
theorem evict_lookup_global {m m' : Manager} {st st' : σ} (h : m.evict qm st = some (m', st'))
    {spec : Spec} (hg : spec.group = .global) : m'.cache.lookup spec = m.cache.lookup spec := by
  unfold Manager.evict at h
  split at h
  · simp only [Option.some.injEq, Prod.mk.injEq] at h
    rw [h.1]
  · obtain ⟨⟨cache, st''⟩, hloop, heq⟩ := Option.map_eq_some_iff.mp h
    simp only [Prod.mk.injEq] at heq
    rw [← heq.1]
    apply evictLoop_lookup_of_not_mem qm _ hloop
    intro b hb heqs
    exact group_of_mem_bucketsByTime hb (heqs ▸ hg)

theorem nodup_bucketsByTime (m : Manager) :
    ((bucketsByTime ((m.cache.entries.filter fun e => e.1.group ≠ .global).map
      fun e => (e.1, e.2))).map Prod.fst).Nodup := by
  unfold bucketsByTime
  apply ((List.perm_insertionSort _ _).map Prod.fst).nodup_iff.mpr
  have hkeys : (m.cache.entries.filter fun e => e.1.group ≠ .global).NodupKeys :=
    m.cache.nodupKeys.sublist List.filter_sublist
  simpa [List.NodupKeys, List.keys, List.map_map, Function.comp_def] using hkeys

theorem lookup_of_mem_bucketsByTime {m : Manager} {b : Spec × Bucket}
    (hb : b ∈ bucketsByTime ((m.cache.entries.filter fun e => e.1.group ≠ .global).map
      fun e => (e.1, e.2))) : m.cache.lookup b.1 = some b.2 := by
  have hmem := (List.perm_insertionSort _ _).mem_iff.mp hb
  simp only [List.mem_map, List.mem_filter] at hmem
  obtain ⟨e, ⟨he, -⟩, rfl⟩ := hmem
  exact AList.mem_lookup_iff.mpr he

theorem mem_keys_of_mem_bucketsByTime {m : Manager} {b : Spec × Bucket}
    (hb : b ∈ bucketsByTime ((m.cache.entries.filter fun e => e.1.group ≠ .global).map
      fun e => (e.1, e.2))) : b.1 ∈ m.cache.keys := by
  rw [← AList.mem_keys, ← AList.lookup_isSome, lookup_of_mem_bucketsByTime hb]
  rfl

/-- An eviction that does not panic leaves at most `maxEntries` entries, global or not. -/
theorem evict_length_le {m m' : Manager} {st st' : σ} (h : m.evict qm st = some (m', st')) :
    (m'.cache.entries.length : ℤ) ≤ m'.maxEntries := by
  unfold Manager.evict at h
  split at h
  · rename_i hle
    simp only [Option.some.injEq, Prod.mk.injEq] at h
    rw [← h.1]
    exact hle
  · obtain ⟨⟨cache, st''⟩, hloop, heq⟩ := Option.map_eq_some_iff.mp h
    simp only [Prod.mk.injEq] at heq
    rw [← heq.1]
    -- each pass of the loop removes one entry, and there are `len - maxEntries` passes
    have hlen := evictLoop_length qm (nodup_bucketsByTime m)
      (fun _ _ _ hb => mem_keys_of_mem_bucketsByTime (List.mem_of_getElem? hb)) hloop
    simp only [length_keys] at hlen
    dsimp only
    omega

/-- An eviction panics exactly when more than `maxEntries` of the entries are global: it counts
them among the entries to remove, but picks only from the others. -/
theorem evict_eq_none_iff {m : Manager} {st : σ} :
    m.evict qm st = none ↔
      m.maxEntries < ((m.cache.entries.filter fun e => e.1.group = .global).length : ℤ) := by
  have hsplit := List.length_eq_length_filter_add (l := m.cache.entries)
    fun e => decide (e.1.group = .global)
  simp only [← decide_not, ← ne_eq] at hsplit
  unfold Manager.evict
  split
  · simp only [reduceCtorEq, false_iff, not_lt]
    omega
  · rw [Option.map_eq_none_iff, evictLoop_eq_none_iff, bucketsByTime, List.length_insertionSort,
      List.length_map]
    omega

end Evict

-- Over a backing manager that grants each request once for each distinct spec it lists, the tokens
-- granted for a spec are those handed to callers, those cached and those an eviction gave back, and
-- no bucket goes negative, as long as each call lists distinct specs and asks for a non-negative
-- count. A call that lists a spec twice breaks the balance.

/-- `f`, with `n` added at each spec of `specs`. -/
def credit (specs : List Spec) (n : ℤ) (f : Spec → ℤ) (s : Spec) : ℤ :=
  if s ∈ specs then f s + n else f s

theorem credit_add_credit_neg (specs : List Spec) (n : ℤ) (f g : Spec → ℤ) (s : Spec) :
    credit specs n f s + credit specs (-n) g s = f s + g s := by
  unfold credit
  split_ifs <;> omega

/-- The tokens a backing manager has granted and had returned, per spec. -/
structure Ledger where
  granted : Spec → ℤ
  returned : Spec → ℤ

/-- A backing manager that grants every request, taking the tokens once from each distinct spec
listed, and takes every return. -/
def ledgerManager : Quota.Manager Ledger where
  getTokens n specs l := .ok { l with granted := credit specs n l.granted }
  putTokens n specs l := .ok { l with returned := credit specs n l.returned }

def cachedTokens (cache : AList fun _ : Spec => Bucket) (s : Spec) : ℤ :=
  ((cache.lookup s).map Bucket.tokens).getD 0

/-- The balance of a cache: what the backing manager granted for each spec is what the callers
were handed, what the cache holds and what went back, and no bucket is negative. -/
structure Conserved (l : Ledger) (handed : Spec → ℤ) (m : Manager) : Prop where
  batch_pos : 0 < m.minBatchSize
  balance : ∀ s, l.granted s = handed s + cachedTokens m.cache s + l.returned s
  nonneg : ∀ s b, m.cache.lookup s = some b → 0 ≤ b.tokens

theorem lookup_refillBuckets (tokens : ℤ) (s : Spec) :
    ∀ {specs : List Spec} {cache : AList fun _ : Spec => Bucket}, specs.Nodup →
      (refillBuckets tokens cache specs).lookup s =
        if s ∈ specs then
          some { (cache.lookup s).getD ⟨0, 0⟩ with
            tokens := ((cache.lookup s).getD ⟨0, 0⟩).tokens + tokens }
        else cache.lookup s := by
  intro specs
  induction specs with
  | nil =>
    intro cache _
    simp [refillBuckets]
  | cons x xs ih =>
    intro cache hnd
    rw [List.nodup_cons] at hnd
    rw [refillBuckets, ih hnd.2]
    by_cases hsx : s = x
    · subst hsx
      simp [hnd.1, AList.lookup_insert]
    · simp [hsx, AList.lookup_insert_ne hsx]

theorem lookup_subtractTokens {numTokens : ℤ} (hn : 0 ≤ numTokens) (now : ℕ) (s : Spec) :
    ∀ {specs : List Spec} {cache : AList fun _ : Spec => Bucket}, specs.Nodup →
      (∀ x ∈ specs, ∃ b, cache.lookup x = some b ∧ numTokens ≤ b.tokens) →
      (subtractTokens numTokens now cache specs).lookup s =
        if s ∈ specs then (cache.lookup s).map fun b => ⟨b.tokens - numTokens, now⟩
        else cache.lookup s := by
  intro specs
  induction specs with
  | nil =>
    intro cache _ _
    simp [subtractTokens]
  | cons x xs ih =>
    intro cache hnd henough
    rw [List.nodup_cons] at hnd
    obtain ⟨b, hb, hle⟩ := henough x List.mem_cons_self
    -- the bucket holds enough, so the loop debits it and goes on
    have hstep : subtractTokens numTokens now cache (x :: xs) =
        subtractTokens numTokens now (cache.insert x ⟨b.tokens - numTokens, now⟩) xs := by
      rw [subtractTokens, hb]
      exact if_neg (by omega)
    have henough' : ∀ y ∈ xs, ∃ b', (cache.insert x ⟨b.tokens - numTokens, now⟩).lookup y =
        some b' ∧ numTokens ≤ b'.tokens := by
      intro y hy
      have hyx : y ≠ x := fun h => hnd.1 (h ▸ hy)
      rw [AList.lookup_insert_ne hyx]
      exact henough y (List.mem_cons_of_mem x hy)
    rw [hstep, ih hnd.2 henough']
    by_cases hsx : s = x
    · subst hsx
      simp [hnd.1, hb]
    · simp [hsx, AList.lookup_insert_ne hsx]

theorem cachedTokens_refillBuckets (tokens : ℤ) {specs : List Spec} (hnd : specs.Nodup)
    (cache : AList fun _ : Spec => Bucket) (s : Spec) :
    cachedTokens (refillBuckets tokens cache specs) s = credit specs tokens (cachedTokens cache) s := by
  unfold cachedTokens credit
  rw [lookup_refillBuckets _ _ hnd]
  split_ifs <;> cases hs : cache.lookup s <;> simp [hs]

theorem cachedTokens_subtractTokens {numTokens : ℤ} (hn : 0 ≤ numTokens) (now : ℕ)
    {specs : List Spec} {cache : AList fun _ : Spec => Bucket} (hnd : specs.Nodup)
    (henough : ∀ x ∈ specs, ∃ b, cache.lookup x = some b ∧ numTokens ≤ b.tokens) (s : Spec) :
    cachedTokens (subtractTokens numTokens now cache specs) s =
      credit specs (-numTokens) (cachedTokens cache) s := by
  unfold cachedTokens credit
  rw [lookup_subtractTokens hn now s hnd henough]
  split_ifs with hs
  · obtain ⟨b, hb, -⟩ := henough s hs
    simp only [hb, Option.map_some, Option.getD_some]
    omega
  · rfl

theorem enough_of_not_refilled {cache : AList fun _ : Spec => Bucket} {numTokens : ℤ} {x : Spec}
    (h : (match cache.lookup x with
      | none => true
      | some bucket => decide (bucket.tokens < numTokens)) = false) :
    ∃ b, cache.lookup x = some b ∧ numTokens ≤ b.tokens := by
  split at h
  · contradiction
  · rename_i b hb
    exact ⟨b, hb, by simpa using h⟩

section Balance

variable {l : Ledger} {handed : Spec → ℤ} {m : Manager}

theorem Conserved.tokens_getD_nonneg (hc : Conserved l handed m) (s : Spec) :
    0 ≤ ((m.cache.lookup s).getD ⟨0, 0⟩).tokens := by
  cases hs : m.cache.lookup s with
  | none => exact le_rfl
  | some b => exact hc.nonneg s b hs

/-- Refilling distinct specs by a positive count keeps the balance: the backing manager grants
what the buckets gain. -/
theorem Conserved.refill (hc : Conserved l handed m) {tokens : ℤ} (ht : 0 < tokens)
    {specs : List Spec} (hnd : specs.Nodup) :
    Conserved { l with granted := credit specs tokens l.granted } handed
      { m with cache := refillBuckets tokens m.cache specs } := by
  constructor
  · exact hc.batch_pos
  · intro s
    have hbal := hc.balance s
    simp only [cachedTokens_refillBuckets tokens hnd, credit]
    split_ifs <;> omega
  · intro s b hb
    simp only [lookup_refillBuckets _ _ hnd] at hb
    split_ifs at hb with hs
    · have hold := hc.tokens_getD_nonneg s
      simp only [Option.some.injEq] at hb
      rw [← hb]
      dsimp only
      omega
    · exact hc.nonneg s b hb

/-- Debiting distinct specs that all hold enough keeps the balance: the callers are handed what
the buckets lose. -/
theorem Conserved.subtract (hc : Conserved l handed m) {numTokens : ℤ} (hn : 0 ≤ numTokens)
    (now : ℕ) {specs : List Spec} (hnd : specs.Nodup)
    (henough : ∀ x ∈ specs, ∃ b, m.cache.lookup x = some b ∧ numTokens ≤ b.tokens) :
    Conserved l (credit specs numTokens handed)
      { m with cache := subtractTokens numTokens now m.cache specs } := by
  constructor
  · exact hc.batch_pos
  · intro s
    have hsplit := credit_add_credit_neg specs numTokens handed (cachedTokens m.cache) s
    rw [hc.balance s, cachedTokens_subtractTokens hn now hnd henough]
    omega
  · intro s b hb
    simp only [lookup_subtractTokens hn now s hnd henough] at hb
    split_ifs at hb with hs
    · obtain ⟨b₀, hb₀, hle⟩ := henough s hs
      rw [hb₀] at hb
      simp only [Option.map_some, Option.some.injEq] at hb
      rw [← hb]
      dsimp only
      omega
    · exact hc.nonneg s b hb

/-- A call of `GetTokens` with distinct specs and a non-negative count succeeds and keeps the
balance, the callers handed the count for each spec. -/
theorem Conserved.getTokens (hc : Conserved l handed m) {now : ℕ} {numTokens : ℤ}
    {specs : List Spec} (hn : 0 ≤ numTokens) (hnd : specs.Nodup) {r : Except String Unit}
    {m' : Manager} {l' : Ledger} {started : Bool}
    (h : m.getTokens ledgerManager l now numTokens specs = (r, m', l', started)) :
    r = .ok () ∧ Conserved l' (credit specs numTokens handed) m' := by
  unfold Manager.getTokens at h
  dsimp only at h
  split_ifs at h with hrefill
  · simp only [ledgerManager, Prod.mk.injEq] at h
    obtain ⟨rfl, rfl, rfl, -⟩ := h
    refine ⟨rfl, ?_⟩
    -- the specs the call refills
    have hnd' := hnd.filter fun spec =>
      match m.cache.lookup spec with
      | none => true
      | some bucket => decide (bucket.tokens < numTokens)
    have ht : 0 < numTokens + m.minBatchSize := by
      have := hc.batch_pos
      omega
    have hrc := hc.refill ht hnd'
    apply hrc.subtract hn now hnd
    intro x hx
    simp only [lookup_refillBuckets _ _ hnd']
    split_ifs with hxr
    · exact ⟨_, rfl, by have := hc.tokens_getD_nonneg x; have := hc.batch_pos; dsimp only; omega⟩
    · simp only [List.mem_filter, hx, true_and, Bool.not_eq_true] at hxr
      exact enough_of_not_refilled hxr
  · simp only [Prod.mk.injEq] at h
    obtain ⟨rfl, rfl, rfl, -⟩ := h
    refine ⟨rfl, hc.subtract hn now hnd ?_⟩
    -- no spec needs a refill
    rw [not_not, List.length_eq_zero_iff, List.filter_eq_nil_iff] at hrefill
    intro x hx
    have hxr := hrefill x hx
    simp only [Bool.not_eq_true] at hxr
    exact enough_of_not_refilled hxr

/-- Each pass of an eviction moves a bucket's tokens from the cache to the ledger's returns,
the bucket being the one the cache holds, as the buckets name distinct specs. -/
theorem evictLoop_ledger {buckets : List (Spec × Bucket)} (hnodup : (buckets.map Prod.fst).Nodup) :
    ∀ {evicts i : ℕ} {cache cache' : AList fun _ : Spec => Bucket} {l l' : Ledger},
      (∀ j b, i ≤ j → buckets[j]? = some b → cache.lookup b.1 = some b.2) →
      evictLoop ledgerManager buckets evicts i cache l = some (cache', l') →
        l'.granted = l.granted ∧
        (∀ s, cachedTokens cache' s + l'.returned s = cachedTokens cache s + l.returned s) ∧
        ∀ s b, cache'.lookup s = some b → cache.lookup s = some b := by
  intro evicts
  induction evicts with
  | zero =>
    intro i cache cache' l l' _ h
    simp only [evictLoop, Option.some.injEq, Prod.mk.injEq] at h
    obtain ⟨rfl, rfl⟩ := h
    exact ⟨rfl, fun _ => rfl, fun _ _ h => h⟩
  | succ evicts ih =>
    intro i cache cache' l l' hlook h
    unfold evictLoop at h
    split at h
    · contradiction
    · rename_i spec b hb
      simp only [ledgerManager] at h
      have hsb : cache.lookup spec = some b := hlook i (spec, b) le_rfl hb
      have hlook' : ∀ j b', i + 1 ≤ j → buckets[j]? = some b' →
          (cache.erase spec).lookup b'.1 = some b'.2 := by
        intro j b' hj hb'
        rw [AList.lookup_erase_ne (fst_ne_of_getElem? hnodup (by omega) hb hb')]
        exact hlook j b' (by omega) hb'
      obtain ⟨hgranted, hbal, hsub⟩ := ih hlook' h
      refine ⟨hgranted, fun s => ?_, fun s b' hs => ?_⟩
      · rw [hbal s]
        by_cases hss : s = spec
        · subst hss
          simp [cachedTokens, credit, hsb, AList.lookup_erase]
          omega
        · simp [cachedTokens, credit, hss, AList.lookup_erase_ne hss]
      · have hs' := hsub s b' hs
        by_cases hss : s = spec
        · rw [hss, AList.lookup_erase] at hs'
          contradiction
        · rwa [AList.lookup_erase_ne hss] at hs'

/-- An eviction keeps the balance: what leaves the cache goes back to the backing manager. -/
theorem Conserved.evict (hc : Conserved l handed m) {m' : Manager} {l' : Ledger}
    (h : m.evict ledgerManager l = some (m', l')) : Conserved l' handed m' := by
  unfold Manager.evict at h
  split at h
  · simp only [Option.some.injEq, Prod.mk.injEq] at h
    obtain ⟨rfl, rfl⟩ := h
    exact hc
  · obtain ⟨⟨cache, l''⟩, hloop, heq⟩ := Option.map_eq_some_iff.mp h
    simp only [Prod.mk.injEq] at heq
    obtain ⟨rfl, rfl⟩ := heq
    obtain ⟨hgranted, hbal, hsub⟩ := evictLoop_ledger (nodup_bucketsByTime m)
      (fun _ _ _ hb => lookup_of_mem_bucketsByTime (List.mem_of_getElem? hb)) hloop
    constructor
    · exact hc.batch_pos
    · intro s
      have := hc.balance s
      have := hbal s
      dsimp only
      rw [hgranted]
      omega
    · intro s b hb
      exact hc.nonneg s b (hsub s b hb)

theorem Conserved.getTokensAndEvict (hc : Conserved l handed m) {now : ℕ} {numTokens : ℤ}
    {specs : List Spec} (hn : 0 ≤ numTokens) (hnd : specs.Nodup) {r : Except String Unit}
    {m' : Manager} {l' : Ledger}
    (h : m.getTokensAndEvict ledgerManager l now numTokens specs = some (r, m', l')) :
    r = .ok () ∧ Conserved l' (credit specs numTokens handed) m' := by
  unfold Manager.getTokensAndEvict at h
  split at h
  · rename_i r₁ m₁ l₁ hcall
    simp only [Option.some.injEq, Prod.mk.injEq] at h
    obtain ⟨rfl, rfl, rfl⟩ := h
    exact hc.getTokens hn hnd hcall
  · rename_i r₁ m₁ l₁ hcall
    obtain ⟨⟨m₂, l₂⟩, hev, heq⟩ := Option.map_eq_some_iff.mp h
    simp only [Prod.mk.injEq] at heq
    obtain ⟨rfl, rfl, rfl⟩ := heq
    obtain ⟨hr, hc₁⟩ := hc.getTokens hn hnd hcall
    exact ⟨hr, hc₁.evict hev⟩

end Balance

/-- A call of `GetTokens`: its time, its count and its specs. -/
structure Call where
  now : ℕ
  numTokens : ℤ
  specs : List Spec

/-- A run of calls of `GetTokens` over the ledger manager, each with the eviction it starts run to
completion, and the tokens handed to callers per spec; `none` once a call panics. -/
def runCalls (m : Manager) (l : Ledger) (handed : Spec → ℤ) :
    List Call → Option (Manager × Ledger × (Spec → ℤ))
  | [] => some (m, l, handed)
  | c :: calls =>
    match m.getTokensAndEvict ledgerManager l c.now c.numTokens c.specs with
    | none => none
    | some (.ok (), m, l) => runCalls m l (credit c.specs c.numTokens handed) calls
    | some (.error _, m, l) => runCalls m l handed calls

/-- The balance holds along every run whose calls list distinct specs and ask for non-negative
counts; the induction is on the calls, each step being `Conserved.getTokensAndEvict`. -/
theorem Conserved.runCalls {l : Ledger} {handed : Spec → ℤ} {m : Manager} :
    ∀ {calls : List Call}, (∀ c ∈ calls, 0 ≤ c.numTokens ∧ c.specs.Nodup) →
      Conserved l handed m → ∀ {m' : Manager} {l' : Ledger} {handed' : Spec → ℤ},
        CacheQM.runCalls m l handed calls = some (m', l', handed') → Conserved l' handed' m' := by
  intro calls
  induction calls generalizing l handed m with
  | nil =>
    intro _ hc m' l' handed' h
    simp only [CacheQM.runCalls, Option.some.injEq, Prod.mk.injEq] at h
    obtain ⟨rfl, rfl, rfl⟩ := h
    exact hc
  | cons c calls ih =>
    intro hcalls hc m' l' handed' h
    obtain ⟨hn, hnd⟩ := hcalls c List.mem_cons_self
    have hrest : ∀ c' ∈ calls, 0 ≤ c'.numTokens ∧ c'.specs.Nodup :=
      fun c' hc' => hcalls c' (List.mem_cons_of_mem c hc')
    unfold CacheQM.runCalls at h
    split at h
    · contradiction
    · rename_i m₁ l₁ hcall
      exact ih hrest (hc.getTokensAndEvict hn hnd hcall).2 h
    · rename_i m₁ l₁ e hcall
      -- the ledger manager never refuses, so no call ends in an error
      have hr := (hc.getTokensAndEvict hn hnd hcall).1
      contradiction

end CacheQM
end Trillian
