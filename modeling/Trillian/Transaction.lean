import Mathlib.Logic.Function.Basic
import Mathlib.Data.List.Basic

/-! Atomic transactions over a store, and a logic of their successful runs: `atomically` commits
the copy of a run that succeeds and drops that of one that fails, and `Triple P f Q` is partial
correctness of the successful runs, with rules along `bind`s, branches and loops. -/

namespace Transaction

universe u

variable {σ ε α β : Type u}

/-- A transaction over a store `σ` that fails with an `ε` or returns an `α`. -/
abbrev Txn (σ ε α : Type u) := StateT σ (Except ε) α

/-- Runs `f` against `s` atomically: a success commits the copy `f` ended with, an error writes
nothing. -/
def atomically (f : Txn σ ε α) (s : σ) : Except ε α × σ :=
  match f.run s with
  | .ok (a, s') => (.ok a, s')
  | .error e => (.error e, s)

section Except

@[simp] theorem except_pure (a : α) : (pure a : Except ε α) = .ok a := rfl

@[simp] theorem except_throw (e : ε) : (throw e : Except ε α) = .error e := rfl

@[simp] theorem except_error_bind (e : ε) (k : α → Except ε β) : (Except.error e >>= k) = .error e :=
  rfl

@[simp] theorem except_ok_bind (a : α) (k : α → Except ε β) : (Except.ok a >>= k) = k a := rfl

theorem except_bind_eq_ok {x : Except ε α} {k : α → Except ε β} {b : β} :
    (x >>= k) = .ok b ↔ ∃ a, x = .ok a ∧ k a = .ok b := by
  cases x with
  | error e => simp
  | ok a => simp

/-- A guard `if c then throw e` passes exactly when `c` fails (`do` notation copies what follows
the guard into its `else` branch). -/
@[simp] theorem except_ite_error_eq_ok {c : Prop} [Decidable c] {e : ε} {x : Except ε α} {a : α} :
    (if c then Except.error e else x) = .ok a ↔ ¬c ∧ x = .ok a := by
  by_cases hc : c
  · simp [hc]
  · simp [hc]

end Except

section Run

variable {f : Txn σ ε α} {g : α → Txn σ ε β} {s s' : σ}

@[simp] theorem run_pure (a : α) (s : σ) : (pure a : Txn σ ε α).run s = .ok (a, s) := rfl

@[simp] theorem run_throw (e : ε) (s : σ) : (throw e : Txn σ ε α).run s = .error e := rfl

@[simp] theorem run_get (s : σ) : (get : Txn σ ε σ).run s = .ok (s, s) := rfl

@[simp] theorem run_modify (h : σ → σ) (s : σ) :
    (modify h : Txn σ ε PUnit).run s = .ok (⟨⟩, h s) := rfl

/-- The inversion lemma of `bind`: a run of `f >>= g` that succeeds is a successful run of `f`
followed by one of `g`. -/
theorem run_bind_eq_ok {b : β} {s'' : σ} :
    (f >>= g).run s = .ok (b, s'') ↔ ∃ a s', f.run s = .ok (a, s') ∧ (g a).run s' = .ok (b, s'') := by
  rw [StateT.run_bind]
  cases hf : f.run s with
  | error e => simp only [reduceCtorEq, false_and, exists_false, iff_false]; exact nofun
  | ok p =>
    constructor
    · intro h
      exact ⟨p.1, p.2, rfl, h⟩
    · rintro ⟨a, s', hp, h⟩
      cases hp
      exact h

theorem run_bind_of_ok {a : α} (hf : f.run s = .ok (a, s')) : (f >>= g).run s = (g a).run s' := by
  rw [StateT.run_bind, hf]
  rfl

theorem atomically_of_ok {a : α} (h : f.run s = .ok (a, s')) : atomically f s = (.ok a, s') := by
  rw [atomically, h]

theorem atomically_of_error {e : ε} (h : f.run s = .error e) : atomically f s = (.error e, s) := by
  rw [atomically, h]

theorem atomically_cases (f : Txn σ ε α) (s : σ) :
    (atomically f s).2 = s ∨ ∃ a, f.run s = .ok (a, (atomically f s).2) := by
  cases h : f.run s with
  | error e => exact .inl (by rw [atomically_of_error h])
  | ok p => exact .inr ⟨p.1, by rw [atomically_of_ok h]⟩

end Run

/-- Every run of `f` from a store in `P` that succeeds with `a` ends in a store in `Q a`. -/
def Triple (P : σ → Prop) (f : Txn σ ε α) (Q : α → σ → Prop) : Prop :=
  ∀ s, P s → ∀ a s', f.run s = .ok (a, s') → Q a s'

namespace Triple

variable {P P' : σ → Prop} {Q Q' : α → σ → Prop} {R : β → σ → Prop}

theorem pure {a : α} (h : ∀ s, P s → Q a s) : Triple P (Pure.pure a : Txn σ ε α) Q := by
  intro s hs b s' hrun
  rw [run_pure, Except.ok.injEq, Prod.mk.injEq] at hrun
  obtain ⟨rfl, rfl⟩ := hrun
  exact h s hs

theorem throw (e : ε) : Triple P (MonadExcept.throw e : Txn σ ε α) Q := by
  intro s _ a s' h
  rw [run_throw] at h
  cases h

theorem get {Q : σ → σ → Prop} : Triple (fun s => Q s s) (MonadState.get : Txn σ ε σ) Q := by
  intro s hs a s' h
  rw [run_get, Except.ok.injEq, Prod.mk.injEq] at h
  obtain ⟨rfl, rfl⟩ := h
  exact hs

theorem modify {h : σ → σ} {Q : PUnit → σ → Prop} :
    Triple (fun s => Q ⟨⟩ (h s)) (modify h : Txn σ ε PUnit) Q := by
  intro s hs a s' hrun
  rw [run_modify, Except.ok.injEq, Prod.mk.injEq] at hrun
  obtain ⟨rfl, rfl⟩ := hrun
  exact hs

theorem bind {f : Txn σ ε α} {g : α → Txn σ ε β} (hf : Triple P f Q) (hg : ∀ a, Triple (Q a) (g a) R) :
    Triple P (f >>= g) R := by
  intro s hs b s'' h
  obtain ⟨a, s', h₁, h₂⟩ := run_bind_eq_ok.mp h
  exact hg a s' (hf s hs a s' h₁) b s'' h₂

theorem mono {f : Txn σ ε α} (hP : ∀ s, P' s → P s) (h : Triple P f Q) (hQ : ∀ a s, Q a s → Q' a s) :
    Triple P' f Q' :=
  fun s hs a s' hrun => hQ a s' (h s (hP s hs) a s' hrun)

theorem map {f : Txn σ ε α} {g : α → β} (h : Triple P f fun a => R (g a)) : Triple P (g <$> f) R := by
  rw [map_eq_pure_bind]
  exact Triple.bind h fun _ => Triple.pure fun _ hs => hs

theorem ite {c : Prop} [Decidable c] {t e : Txn σ ε α} (ht : c → Triple P t Q) (he : ¬c → Triple P e Q) :
    Triple P (if c then t else e) Q := by
  by_cases hc : c
  · rw [if_pos hc]
    exact ht hc
  · rw [if_neg hc]
    exact he hc

/-- The rule of a loop over a list: an invariant indexed by the items done so far, that each
item's step takes from the items before it to the items up to it. -/
theorem forM_prefix {f : α → Txn σ ε PUnit} {I : List α → σ → Prop} :
    ∀ {xs : List α}, (∀ pre x post, xs = pre ++ x :: post → Triple (I pre) (f x) fun _ => I (pre ++ [x])) →
      Triple (I []) (forM xs f) fun _ => I xs
  | [], _ => by
    rw [List.forM_nil]
    exact Triple.pure fun _ hs => hs
  | x :: xs, h => by
    rw [List.forM_cons]
    -- the rest of the loop, with the invariant shifted past `x`
    have hrest : Triple (I [x]) (forM xs f) fun _ => I (x :: xs) :=
      forM_prefix (I := fun pre => I (x :: pre))
        fun pre y post hxs => h (x :: pre) y post (by rw [hxs, List.cons_append])
    exact Triple.bind (h [] x xs rfl) fun _ => hrest

theorem forM {f : α → Txn σ ε PUnit} {I : σ → Prop} {xs : List α}
    (h : ∀ x ∈ xs, Triple I (f x) fun _ => I) : Triple I (forM xs f) fun _ => I :=
  forM_prefix (I := fun _ => I) fun pre x post hxs => h x (by rw [hxs]; simp)

end Triple

theorem atomically_preserves {I : σ → Prop} {f : Txn σ ε α} (h : Triple I f fun _ => I) {s : σ}
    (hs : I s) : I (atomically f s).2 := by
  rcases atomically_cases f s with heq | ⟨a, hrun⟩
  · rw [heq]
    exact hs
  · exact h s hs a _ hrun

/-- A computation that cannot touch the store, run as a transaction (`if err := f(); err != nil`):
its error, or its value with the store as it was. -/
theorem run_ofExcept_eq_ok {x : Except ε α} {s s' : σ} {a : α} :
    (MonadExcept.ofExcept x : Txn σ ε α).run s = .ok (a, s') ↔ x = .ok a ∧ s' = s := by
  cases x with
  | error e => simp [MonadExcept.ofExcept]
  | ok b =>
    simp only [MonadExcept.ofExcept, run_pure, Except.ok.injEq, Prod.mk.injEq]
    exact ⟨fun ⟨h₁, h₂⟩ => ⟨h₁, h₂.symm⟩, fun ⟨h₁, h₂⟩ => ⟨h₁, h₂.symm⟩⟩

section KeyValue

variable {κ ν : Type u}

/-- Reads key `k`. -/
def read (k : κ) : Txn (κ → Option ν) ε (Option ν) := fun s => .ok (s k, s)

@[simp] theorem run_read (k : κ) (s : κ → Option ν) : (read k : Txn _ ε _).run s = .ok (s k, s) := rfl

variable [DecidableEq κ]

/-- Writes `v` under key `k`. -/
def write (k : κ) (v : ν) : Txn (κ → Option ν) ε PUnit :=
  fun s => .ok (⟨⟩, Function.update s k (some v))

@[simp] theorem run_write (k : κ) (v : ν) (s : κ → Option ν) :
    (write k v : Txn _ ε _).run s = .ok (⟨⟩, Function.update s k (some v)) := rfl

theorem Triple.write {k : κ} {v : ν} {Q : PUnit → (κ → Option ν) → Prop} :
    Triple (fun s => Q ⟨⟩ (Function.update s k (some v))) (write k v : Txn _ ε _) Q := by
  intro s hs a s' h
  rw [run_write, Except.ok.injEq, Prod.mk.injEq] at h
  obtain ⟨rfl, rfl⟩ := h
  exact hs

-- A loop whose every step reads one key and writes back what the value there decides runs, on
-- pairwise distinct keys, as if each step saw the store the loop began with
-- (`run_forM_eq_updateEach`); `updateEach_eq_ok_iff` says what it then leaves, and
-- `exists_updateEach_eq_ok_iff` when it succeeds.

section Updates

variable {ι : Type u} (key : ι → κ) (step : ι → Option ν → Except ε (Option ν))

/-- Each item's step, applied to the value its key holds in `s`, and the store with every key
updated; or the first error, in the order of the items. -/
def updateEach (s : κ → Option ν) : List ι → Except ε (κ → Option ν)
  | [] => .ok s
  | x :: xs => do
    let v ← step x (s (key x))
    let s' ← updateEach s xs
    pure (Function.update s' (key x) v)

variable {key step}

theorem updateEach_update {k : κ} {v : Option ν} :
    ∀ {xs : List ι}, k ∉ xs.map key → ∀ s,
      updateEach key step (Function.update s k v) xs =
        (updateEach key step s xs).map (Function.update · k v)
  | [], _, s => rfl
  | x :: xs, hk, s => by
    rw [List.map_cons, List.mem_cons, not_or] at hk
    have hne : key x ≠ k := fun h => hk.1 h.symm
    simp only [updateEach, Function.update_of_ne hne, updateEach_update hk.2]
    cases step x (s (key x)) with
    | error e => rfl
    | ok w =>
      cases updateEach key step s xs with
      | error e => rfl
      | ok s' => exact congrArg Except.ok (Function.update_comm hne.symm _ _ _)

theorem run_forM_eq_updateEach {f : ι → Txn (κ → Option ν) ε PUnit}
    (hf : ∀ x s, (f x).run s = (step x (s (key x))).map fun v => (⟨⟩, Function.update s (key x) v)) :
    ∀ {xs : List ι}, (xs.map key).Nodup → ∀ s,
      (forM xs f).run s = (updateEach key step s xs).map ((⟨⟩, ·))
  | [], _, s => rfl
  | x :: xs, hnd, s => by
    rw [List.map_cons, List.nodup_cons] at hnd
    rw [List.forM_cons, StateT.run_bind, hf]
    cases hx : step x (s (key x)) with
    | error e => simp [updateEach, hx, Except.map]
    | ok v =>
      -- the later steps read keys other than the one the first step wrote
      have hrest := run_forM_eq_updateEach hf hnd.2 (Function.update s (key x) v)
      rw [updateEach_update hnd.1] at hrest
      simp only [Except.map, updateEach, hx, except_ok_bind] at hrest ⊢
      rw [hrest]
      cases updateEach key step s xs <;> rfl

/-- What the steps leave, on distinct keys: each key holds what its step computed from the value
it held before, and every other key is as it was. -/
theorem updateEach_eq_ok_iff {s s' : κ → Option ν} :
    ∀ {xs : List ι}, (xs.map key).Nodup →
      (updateEach key step s xs = .ok s' ↔
        (∀ x ∈ xs, step x (s (key x)) = .ok (s' (key x))) ∧ ∀ k ∉ xs.map key, s' k = s k)
  | [], _ => by
    simp only [updateEach, Except.ok.injEq, List.not_mem_nil, false_implies, implies_true,
      List.map_nil, not_false_eq_true, forall_const, true_and]
    exact ⟨fun h k => h ▸ rfl, fun h => (funext h).symm⟩
  | x :: xs, hnd => by
    rw [List.map_cons, List.nodup_cons] at hnd
    have hne : ∀ y ∈ xs, key y ≠ key x := fun y hy h => hnd.1 (h ▸ List.mem_map_of_mem hy)
    constructor
    · intro h
      obtain ⟨v, hv, h⟩ := except_bind_eq_ok.mp h
      obtain ⟨s'', hs'', h⟩ := except_bind_eq_ok.mp h
      cases h
      obtain ⟨hsteps, hothers⟩ := (updateEach_eq_ok_iff hnd.2).mp hs''
      refine ⟨fun y hy => ?_, fun k hk => ?_⟩
      · rcases List.mem_cons.mp hy with rfl | hy
        · rw [Function.update_self]
          exact hv
        · rw [Function.update_of_ne (hne y hy)]
          exact hsteps y hy
      · rw [List.map_cons, List.mem_cons, not_or] at hk
        rw [Function.update_of_ne hk.1]
        exact hothers k hk.2
    · rintro ⟨hsteps, hothers⟩
      -- the store the other steps leave: `s'`, with `x`'s key as it was in `s`
      have hrest : updateEach key step s xs = .ok (Function.update s' (key x) (s (key x))) := by
        refine (updateEach_eq_ok_iff hnd.2).mpr ⟨fun y hy => ?_, fun k hk => ?_⟩
        · rw [Function.update_of_ne (hne y hy)]
          exact hsteps y (List.mem_cons_of_mem x hy)
        · by_cases hkx : k = key x
          · rw [hkx, Function.update_self]
          · rw [Function.update_of_ne hkx]
            exact hothers k (by simp [hkx, hk])
      simp only [updateEach, hsteps x List.mem_cons_self, hrest, except_ok_bind,
        Function.update_idem, Function.update_eq_self]
      rfl

theorem exists_updateEach_eq_ok_iff {s : κ → Option ν} :
    ∀ {xs : List ι}, (∃ s', updateEach key step s xs = .ok s') ↔
      ∀ x ∈ xs, ∃ v, step x (s (key x)) = .ok v
  | [] => by simp [updateEach]
  | x :: xs => by
    rw [List.forall_mem_cons, ← exists_updateEach_eq_ok_iff]
    simp only [updateEach]
    cases step x (s (key x)) with
    | error e => simp
    | ok v =>
      cases updateEach key step s xs with
      | error e => simp
      | ok s' => simp

end Updates

end KeyValue

end Transaction
