import Mathlib

/-! A store in which a later write of a key overrides an earlier one and a read returns the
latest write: the state that a list of writes, applied in order, leaves from any initial
state. -/

namespace WriteLog

variable {κ ν : Type*} [DecidableEq κ]

/-- The store that the writes `ws`, applied in order, leave from `init`. -/
def writeAll (init : κ → Option ν) : List (κ × ν) → κ → Option ν
  | [] => init
  | (k, v) :: ws => writeAll (Function.update init k (some v)) ws

@[simp] theorem writeAll_nil (init : κ → Option ν) : writeAll init [] = init := rfl

theorem writeAll_append (init : κ → Option ν) (ws₁ ws₂ : List (κ × ν)) :
    writeAll init (ws₁ ++ ws₂) = writeAll (writeAll init ws₁) ws₂ := by
  induction ws₁ generalizing init with
  | nil => rfl
  | cons w ws₁ ih =>
    obtain ⟨k, v⟩ := w
    exact ih _

theorem writeAll_of_forall_ne {init : κ → Option ν} {ws : List (κ × ν)} {k : κ}
    (h : ∀ w ∈ ws, w.1 ≠ k) : writeAll init ws k = init k := by
  induction ws generalizing init with
  | nil => rfl
  | cons w ws ih =>
    obtain ⟨k', v⟩ := w
    have hk' : k ≠ k' := (h (k', v) List.mem_cons_self).symm
    rw [writeAll, ih fun w hw => h w (List.mem_cons_of_mem _ hw), Function.update_of_ne hk']

/-- When every write gives its key the value `F` assigns to it, a key that some write names
reads back that value, whatever the order and number of the writes. -/
theorem writeAll_of_exists {init : κ → Option ν} {ws : List (κ × ν)} (F : κ → ν)
    (hF : ∀ w ∈ ws, w.2 = F w.1) {k : κ} (hk : ∃ w ∈ ws, w.1 = k) :
    writeAll init ws k = some (F k) := by
  induction ws generalizing init with
  | nil => simp at hk
  | cons w ws ih =>
    obtain ⟨k', v⟩ := w
    rw [writeAll]
    by_cases hrest : ∃ w ∈ ws, w.1 = k
    · exact ih (fun w hw => hF w (List.mem_cons_of_mem _ hw)) hrest
    · -- the head is the last write of `k`
      have hkk : k' = k := by
        obtain ⟨w, hw, hwk⟩ := hk
        rcases List.mem_cons.mp hw with rfl | hw
        · exact hwk
        · exact absurd ⟨w, hw, hwk⟩ hrest
      subst hkk
      have hv : v = F k' := hF (k', v) List.mem_cons_self
      rw [writeAll_of_forall_ne fun w hw hwk => hrest ⟨w, hw, hwk⟩, Function.update_self, hv]

theorem writeAll_of_mem_of_nodup {init : κ → Option ν} {ws : List (κ × ν)} {w : κ × ν}
    (hnd : (ws.map Prod.fst).Nodup) (hw : w ∈ ws) : writeAll init ws w.1 = some w.2 := by
  induction ws generalizing init with
  | nil => simp at hw
  | cons w' ws ih =>
    obtain ⟨k', v⟩ := w'
    rw [List.map_cons, List.nodup_cons] at hnd
    rw [writeAll]
    rcases List.mem_cons.mp hw with rfl | hw
    · -- the only write of its key
      rw [writeAll_of_forall_ne fun w hw hwk =>
          hnd.1 (by simpa [hwk] using List.mem_map_of_mem (f := Prod.fst) hw),
        Function.update_self]
    · exact ih hnd.2 hw

/-- Renaming the keys by a map that keeps the key read apart from every other key written
leaves the value read unchanged. -/
theorem writeAll_map_key {κ' : Type*} [DecidableEq κ'] (g : κ → κ') {ws : List (κ × ν)} {k : κ}
    (hg : ∀ w ∈ ws, g w.1 = g k → w.1 = k) {init : κ → Option ν} {init' : κ' → Option ν}
    (hinit : init' (g k) = init k) :
    writeAll init' (ws.map fun w => (g w.1, w.2)) (g k) = writeAll init ws k := by
  induction ws generalizing init init' with
  | nil => exact hinit
  | cons w ws ih =>
    obtain ⟨k', v⟩ := w
    rw [List.map_cons, writeAll, writeAll]
    apply ih fun w hw => hg w (List.mem_cons_of_mem _ hw)
    by_cases hk : k' = k
    · subst hk
      rw [Function.update_self, Function.update_self]
    · have hgk : g k ≠ g k' := fun h => hk (hg (k', v) List.mem_cons_self h.symm)
      rw [Function.update_of_ne hgk, Function.update_of_ne (Ne.symm hk), hinit]

-- A batch collected apart from the store and then written into it: reads see the batch first and
-- the store below it.

/-- The store that reads `top` and, where `top` has nothing, `base`. -/
def overlay (top base : κ → Option ν) : κ → Option ν := fun k => (top k).or (base k)

omit [DecidableEq κ] in
@[simp] theorem overlay_empty (base : κ → Option ν) : overlay (fun _ => none) base = base := rfl

theorem overlay_update (top base : κ → Option ν) (k : κ) (v : ν) :
    overlay (Function.update top k (some v)) base = Function.update (overlay top base) k (some v) := by
  funext k'
  by_cases hk : k' = k
  · subst hk
    simp [overlay]
  · simp [overlay, Function.update_of_ne hk]

theorem overlay_writeAll (top base : κ → Option ν) (ws : List (κ × ν)) :
    overlay (writeAll top ws) base = writeAll (overlay top base) ws := by
  induction ws generalizing top with
  | nil => rfl
  | cons w ws ih =>
    obtain ⟨k, v⟩ := w
    rw [writeAll, writeAll, ih, overlay_update]

end WriteLog
