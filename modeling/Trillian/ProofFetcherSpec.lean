import Trillian.ProofFetcher

/-! What the proof builder makes of a list of fetches: each chain of nodes to rehash is folded
into one hash, and where storage holds every node asked for, `fetchNodesAndBuildProof` returns
the proof's hashes. -/

namespace Trillian

variable {α : Type*}

section Rehasher

variable (hc : α → α → α) [Inhabited α]

/-- The nodes the rehasher passes over `F` make of the fetched hashes. -/
def processFetches (store : NodeID → Option α) (r : Rehasher α) (F : List NodeFetch) :
    Rehasher α :=
  F.foldl (fun r f => r.process hc ((store f.nodeID).getD default) f) r

theorem processFetches_append (store : NodeID → Option α) (r : Rehasher α)
    (F G : List NodeFetch) :
    processFetches hc store r (F ++ G) = processFetches hc store (processFetches hc store r F) G :=
  List.foldl_append

/-- A list of fetches that, after a finished chain, adds the one hash `v` to the proof. -/
def Rebuilds (store : NodeID → Option α) (F : List NodeFetch) (v : α) : Prop :=
  ∀ r : Rehasher α, r.rehashing = false →
    ((processFetches hc store r F).endRehashing).proof = r.proof ++ [v]

theorem checkRecomputation_chain {G : List NodeFetch} (hlen : 2 ≤ G.length)
    (hall : ∀ f ∈ G, f.rehash = true) : checkRecomputation G = .ok () := by
  match G, hlen with
  | f :: g :: rest, _ =>
    have hany : (g :: rest).any (fun x => x.rehash != f.rehash) = false := by
      rw [List.any_eq_false]
      intro x hx
      rw [hall x (List.mem_cons_of_mem _ hx), hall f List.mem_cons_self]
      decide
    simp [checkRecomputation, hany]

theorem rebuilds_copy {store : NodeID → Option α} {id : NodeID} {v : α} (h : store id = some v) :
    Rebuilds hc store [⟨id, false⟩] v := by
  intro r hr
  have hstep := (@Rehasher.process_of_not_rehash _ hc r v ⟨id, false⟩ rfl).1
  simp only [processFetches, List.foldl_cons, List.foldl_nil, h, Option.getD_some]
  rw [hstep]
  simp [Rehasher.endRehashing, hr]

theorem rebuilds_chain {store : NodeID → Option α} {G : List NodeFetch} {v : α}
    (h : ∀ r : Rehasher α, r.rehashing = false →
      processFetches hc store r G = { r with rehashing := true, rehashNode := v }) :
    Rebuilds hc store G v := by
  intro r hr
  rw [h r hr]
  simp [Rehasher.endRehashing]

theorem processFetches_chain_snoc {store : NodeID → Option α} {r : Rehasher α}
    {F : List NodeFetch} {a v : α} {id : NodeID}
    (hF : processFetches hc store r F = { r with rehashing := true, rehashNode := a })
    (hid : store id = some v) :
    processFetches hc store r (F ++ [⟨id, true⟩]) =
      { r with rehashing := true, rehashNode := hc v a } := by
  rw [processFetches_append, hF]
  simp only [processFetches, List.foldl_cons, List.foldl_nil, hid, Option.getD_some]
  rw [Rehasher.process_continue hc _ _ rfl rfl]

theorem processFetches_chain_start {store : NodeID → Option α} {r : Rehasher α}
    (hr : r.rehashing = false) {saved id : NodeID} {a v : α} (hsaved : store saved = some a)
    (hid : store id = some v) :
    processFetches hc store r [⟨saved, true⟩, ⟨id, true⟩] =
      { r with rehashing := true, rehashNode := hc v a } := by
  simp only [processFetches, List.foldl_cons, List.foldl_nil, hsaved, hid, Option.getD_some]
  rw [Rehasher.process_start hc _ _ hr rfl, Rehasher.process_continue hc _ _ rfl rfl]

/-- A chain of at least two stored nodes to rehash, which leaves the rehasher rehashing `v`. -/
def ChainTo (store : NodeID → Option α) (F : List NodeFetch) (v : α) : Prop :=
  2 ≤ F.length ∧ (∀ f ∈ F, f.rehash = true ∧ (store f.nodeID).isSome) ∧
    ∀ r : Rehasher α, r.rehashing = false →
      processFetches hc store r F = { r with rehashing := true, rehashNode := v }

/-- What the path loop asks of a recomputation: it passes the check, storage holds its nodes,
and it adds `v` to the proof. -/
def Recomputes (store : NodeID → Option α) (F : List NodeFetch) (v : α) : Prop :=
  checkRecomputation F = .ok () ∧ (∀ f ∈ F, (store f.nodeID).isSome) ∧ Rebuilds hc store F v

theorem ChainTo.recomputes {store : NodeID → Option α} {F : List NodeFetch} {v : α}
    (h : ChainTo hc store F v) : Recomputes hc store F v :=
  ⟨checkRecomputation_chain h.1 fun f hf => (h.2.1 f hf).1, fun f hf => (h.2.1 f hf).2,
    rebuilds_chain hc h.2.2⟩

theorem recomputes_copy {store : NodeID → Option α} {id : NodeID} {v : α}
    (h : store id = some v) : Recomputes hc store [⟨id, false⟩] v :=
  ⟨rfl, by simp [h], rebuilds_copy hc h⟩

theorem chainTo_start {store : NodeID → Option α} {saved id : NodeID} {a v : α}
    (hsaved : store saved = some a) (hid : store id = some v) :
    ChainTo hc store [⟨saved, true⟩, ⟨id, true⟩] (hc v a) :=
  ⟨le_rfl, by simp [hsaved, hid], fun _ hr => processFetches_chain_start hc hr hsaved hid⟩

theorem ChainTo.snoc {store : NodeID → Option α} {F : List NodeFetch} {a v : α} {id : NodeID}
    (h : ChainTo hc store F a) (hid : store id = some v) :
    ChainTo hc store (F ++ [⟨id, true⟩]) (hc v a) := by
  obtain ⟨hlen, hall, hproc⟩ := h
  refine ⟨by simp; omega, ?_, fun r hr => processFetches_chain_snoc hc (hproc r hr) hid⟩
  intro f hf
  rcases List.mem_append.mp hf with hf | hf
  · exact hall f hf
  · simp at hf
    simp [hf, hid]

/-- Fetches that storage holds and that, from a rehasher outside a chain, add `P` to the
proof. -/
def Serves (store : NodeID → Option α) (F : List NodeFetch) (P : List α) : Prop :=
  (∀ f ∈ F, (store f.nodeID).isSome) ∧
    ∀ r : Rehasher α, r.rehashing = false →
      ((processFetches hc store r F).endRehashing).proof = r.proof ++ P

def Plain (F : List NodeFetch) : Prop := ∀ f ∈ F, f.rehash = false

omit [Inhabited α] in
theorem endRehashing_of_not_rehashing {r : Rehasher α} (hr : r.rehashing = false) :
    r.endRehashing = r := by
  simp [Rehasher.endRehashing, hr]

theorem processFetches_plain (store : NodeID → Option α) {F : List NodeFetch} (hF : Plain F) :
    ∀ r : Rehasher α, ((processFetches hc store r F).endRehashing).proof =
      (r.endRehashing).proof ++ F.map fun f => (store f.nodeID).getD default := by
  induction F with
  | nil => simp [processFetches]
  | cons f F ih =>
    intro r
    have hf := @Rehasher.process_of_not_rehash _ hc r ((store f.nodeID).getD default) f
      (hF f List.mem_cons_self)
    have ih' := ih (fun g hg => hF g (List.mem_cons_of_mem _ hg))
      (r.process hc ((store f.nodeID).getD default) f)
    simp only [processFetches, List.foldl_cons] at ih' ⊢
    rw [ih', hf.1, List.map_cons, List.append_assoc, List.singleton_append]

theorem serves_nil (store : NodeID → Option α) : Serves hc store [] [] :=
  ⟨by simp, fun r hr => by simp [processFetches, endRehashing_of_not_rehashing hr]⟩

theorem Serves.plain_cons {store : NodeID → Option α} {F : List NodeFetch} {P : List α}
    {id : NodeID} {v : α} (hid : store id = some v) (hF : Serves hc store F P) :
    Serves hc store (⟨id, false⟩ :: F) (v :: P) := by
  refine ⟨?_, fun r hr => ?_⟩
  · intro f hf
    rcases List.mem_cons.mp hf with rfl | hf
    · simp [hid]
    · exact hF.1 f hf
  · have hstep := @Rehasher.process_of_not_rehash _ hc r v ⟨id, false⟩ rfl
    rw [endRehashing_of_not_rehashing hstep.2, endRehashing_of_not_rehashing hr] at hstep
    have hcons : processFetches hc store r (⟨id, false⟩ :: F) =
        processFetches hc store (r.process hc v ⟨id, false⟩) F := by
      simp [processFetches, hid]
    rw [hcons, hF.2 _ hstep.2, hstep.1, List.append_assoc, List.singleton_append]

/-- A recomputation in front of a path of plain fetches: its chain is ended by the first of
them, or by the end of the proof. -/
theorem Serves.recompute_append {store : NodeID → Option α} {G F : List NodeFetch} {P : List α}
    {v : α} (hG : Recomputes hc store G v) (hplain : Plain F) (hF : Serves hc store F P) :
    Serves hc store (G ++ F) (v :: P) := by
  -- the plain fetches add the hashes they read, which are `P`
  have hvals : (F.map fun f => (store f.nodeID).getD default) = P := by
    have h := hF.2 ⟨false, default, []⟩ rfl
    rw [processFetches_plain hc store hplain] at h
    simpa [Rehasher.endRehashing] using h
  refine ⟨?_, fun r hr => ?_⟩
  · intro f hf
    rcases List.mem_append.mp hf with hf | hf
    · exact hG.2.1 f hf
    · exact hF.1 f hf
  · rw [processFetches_append, processFetches_plain hc store hplain, hG.2.2 r hr, hvals,
      List.append_assoc, List.singleton_append]

variable {store : NodeID → Option α}

theorem getMerkleNodes_of_isSome {ids : List NodeID} (h : ∀ id ∈ ids, (store id).isSome) :
    getMerkleNodes store ids = ids.map fun id => (id, (store id).getD default) := by
  induction ids with
  | nil => rfl
  | cons id ids ih =>
    obtain ⟨v, hv⟩ := Option.isSome_iff_exists.mp (h id List.mem_cons_self)
    rw [getMerkleNodes, List.filterMap_cons, hv, Option.map_some, ← getMerkleNodes,
      ih fun id' hid' => h id' (List.mem_cons_of_mem _ hid')]
    simp [hv]

theorem fetchNodes_of_isSome {F : List NodeFetch} (h : ∀ f ∈ F, (store f.nodeID).isSome) :
    fetchNodes store F = .ok (F.map fun f => (f.nodeID, (store f.nodeID).getD default)) := by
  have hnodes : getMerkleNodes store (F.map NodeFetch.nodeID) =
      F.map fun f => (f.nodeID, (store f.nodeID).getD default) := by
    rw [getMerkleNodes_of_isSome (by simpa using h), List.map_map]
    rfl
  -- each returned node carries the ID it was fetched for
  have hfind : ∀ G : List NodeFetch,
      ((G.map fun f => (f.nodeID, (store f.nodeID).getD default)).zip G).findIdx?
        (fun p => p.1.1 != p.2.nodeID) = none := by
    intro G
    induction G with
    | nil => rfl
    | cons f G ih => simp [List.findIdx?_cons, ih]
  rw [fetchNodes]
  simp only [hnodes, List.length_map, ne_eq, not_true_eq_false, if_false, hfind F]

theorem foldl_zip_process (F : List NodeFetch) (r : Rehasher α) :
    ((F.map fun f => (f.nodeID, (store f.nodeID).getD default)).zip F).foldl
        (fun (r : Rehasher α) p => r.process hc p.1.2 p.2) r = processFetches hc store r F := by
  induction F generalizing r with
  | nil => rfl
  | cons f F ih =>
    simp only [List.map_cons, List.zip_cons_cons, List.foldl_cons]
    exact ih _

theorem fetchNodesAndBuildProof_of_serves {F : List NodeFetch} {P : List α}
    (hS : Serves hc store F P) (leafIndex : ℤ) :
    fetchNodesAndBuildProof store hc leafIndex F = .ok ⟨leafIndex, P⟩ := by
  have hproof := hS.2 ⟨false, default, []⟩ rfl
  rw [List.nil_append] at hproof
  rw [fetchNodesAndBuildProof, fetchNodes_of_isSome hS.1]
  simp only [foldl_zip_process, Rehasher.rehashedProof, hproof]

end Rehasher

end Trillian
