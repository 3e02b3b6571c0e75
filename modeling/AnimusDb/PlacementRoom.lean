import AnimusDb.Placement
import Mathlib.Data.List.Dedup

/-! What a chosen replica set contains: nodes of the pool, and of those at their ceiling only ones that hold
a replica already. -/

open OrderedMaps List

namespace AnimusDb.Placement

variable {candidates : List Candidate}

variable {n : NodeId} {nodes : List NodeId}

@[simp] theorem mem_sortNodes : n ∈ sortNodes nodes ↔ n ∈ nodes := by
  unfold sortNodes
  exact mem_insertionSort _

@[simp] theorem mem_nodeSet : n ∈ nodeSet nodes ↔ n ∈ nodes := by
  unfold nodeSet
  rw [mem_sortNodes, mem_dedup]

theorem candidateFor_isSome {c : Candidate} (hc : c ∈ candidates) (hn : c.node = n) :
    ∃ c', candidateFor candidates n = some c' := by
  have hsome : (candidateFor candidates n).isSome := by
    unfold candidateFor
    rw [find?_isSome]
    exact ⟨c, hc, by simpa using hn⟩
  exact Option.isSome_iff_exists.mp hsome

theorem mem_of_candidateFor {c : Candidate} (h : candidateFor candidates n = some c) :
    c ∈ candidates ∧ c.node = n := by
  unfold candidateFor at h
  exact ⟨mem_of_find?_eq_some h, by simpa using find?_some h⟩

variable {entries : List (NodeId × Domain)} {e : NodeId × Domain}

variable {eligible : List (NodeId × Domain)} {policy : PlacementPolicy} {load : Load}
  {current keep : List NodeId}

/-- Filling up keeps what was chosen and adds eligible nodes. -/
theorem mem_fill (missing : Nat) (chosen : List NodeId) (h : n ∈ fill eligible missing chosen) :
    n ∈ chosen ∨ ∃ d, (n, d) ∈ eligible := by
  induction missing generalizing chosen with
  | zero => exact .inl h
  | succ missing ih =>
    rw [fill] at h
    split at h
    · rename_i node hnode
      rcases ih _ h with hmem | hmem
      · rw [mem_append, mem_singleton] at hmem
        rcases hmem with hmem | rfl
        · exact .inl hmem
        · obtain ⟨domain, -, hfind⟩ := Option.bind_eq_some_iff.mp hnode
          have hin := mem_of_find?_eq_some hfind
          simp only [domainNodes, mem_map, mem_filter] at hin
          obtain ⟨⟨node', d⟩, ⟨hin, -⟩, rfl⟩ := hin
          exact .inr ⟨d, hin⟩
      · exact .inr hmem
    · exact .inl h

/-- Only eligible nodes are chosen. -/
theorem mem_choose (h : choose eligible keep policy = .ok nodes) (hn : n ∈ nodes) :
    ∃ d, (n, d) ∈ eligible := by
  unfold choose at h
  dsimp only at h
  split_ifs at h
  cases h
  rw [mem_sortNodes] at hn
  rcases mem_fill _ _ hn with hkept | hin
  · have hany := (mem_filter.mp (mem_of_mem_take hkept)).2
    obtain ⟨⟨n', d⟩, hin, heq⟩ := any_eq_true.mp hany
    obtain rfl : n' = n := of_decide_eq_true heq
    exact ⟨d, hin⟩
  · exact hin

theorem mem_of_mem_dedupAfter {kept : NodeId × Domain} (h : e ∈ dedupAfter kept entries) : e ∈ entries := by
  induction entries generalizing kept with
  | nil => exact h
  | cons b rest ih =>
    rw [dedupAfter] at h
    split_ifs at h
    · exact mem_cons_of_mem b (ih h)
    · rcases mem_cons.mp h with rfl | h
      · exact mem_cons_self
      · exact mem_cons_of_mem b (ih h)

theorem mem_of_mem_dedupNodes (h : e ∈ dedupNodes entries) : e ∈ entries := by
  cases entries with
  | nil => exact h
  | cons a rest =>
    rcases mem_cons.mp h with rfl | h
    · exact mem_cons_self
    · exact mem_cons_of_mem a (mem_of_mem_dedupAfter h)

theorem mem_eligibleDomains {d : Domain} (h : (n, d) ∈ eligibleDomains candidates policy) :
    ∃ c ∈ candidates, c.node = n := by
  unfold eligibleDomains at h
  have hmem := mem_of_mem_dedupNodes h
  rw [mem_insertionSort, mem_filterMap] at hmem
  obtain ⟨c, hc, heq⟩ := hmem
  refine ⟨c, (mem_filter.mp hc).1, ?_⟩
  split at heq
  · obtain ⟨_, -, heq⟩ := Option.map_eq_some_iff.mp heq
    exact congrArg Prod.fst heq
  · exact congrArg Prod.fst (Option.some.inj heq)

/-- A node is one of the candidates and below its ceiling. -/
def HasRoom (candidates : List Candidate) (load : Load) (n : NodeId) : Prop :=
  ∃ c, candidateFor candidates n = some c ∧ c.capacity.isFull (load.of n) = false

/-- A full node stays eligible only where it holds a replica already. -/
theorem mem_dropFull {d : Domain}
    (h : (n, d) ∈ dropFull (eligibleDomains candidates policy) candidates load current) :
    n ∈ current ∨ HasRoom candidates load n := by
  unfold dropFull at h
  split_ifs at h with hall
  · obtain ⟨c, hc, hn⟩ := mem_eligibleDomains h
    obtain ⟨c', hc'⟩ := candidateFor_isSome hc hn
    have hnone := all_eq_true.mp hall c' (mem_of_candidateFor hc').1
    refine .inr ⟨c', hc', ?_⟩
    rw [Option.isNone_iff_eq_none] at hnone
    simp [Capacity.isFull, hnone]
  · obtain ⟨hin, hkeep⟩ := mem_filter.mp h
    rw [Bool.or_eq_true] at hkeep
    rcases hkeep with hcurrent | hroom
    · exact .inl (by simpa using hcurrent)
    · obtain ⟨c, hc, hn⟩ := mem_eligibleDomains hin
      obtain ⟨c', hc'⟩ := candidateFor_isSome hc hn
      rw [hc'] at hroom
      exact .inr ⟨c', hc', by simpa using hroom⟩

/-- A node that is new to the set has room. -/
theorem hasRoom_of_choose {policy' : PlacementPolicy}
    (h : choose (dropFull (eligibleDomains candidates policy) candidates load current) keep policy' =
    .ok nodes) (hn : n ∈ nodes) (hnew : n ∉ current) : HasRoom candidates load n := by
  obtain ⟨d, hin⟩ := mem_choose h hn
  exact (mem_dropFull hin).resolve_left hnew

variable {κ : Type} {s : RebalanceState κ}

theorem mem_moved {replicas : List NodeId} {src dst : NodeId} :
    n ∈ RebalanceState.moved replicas src dst ↔ (n ∈ replicas ∧ n ≠ src) ∨ n = dst := by
  simp [RebalanceState.moved]

/-- What a move does: a replica goes from one node to another that has room. -/
theorem nextMove_spec {move : κ × List NodeId} {s' : RebalanceState κ} (h : s.nextMove = some (move, s')) :
    ∃ (i : Nat) (e : Entry κ) (src dst : NodeId) (dstCount : Nat) (target : Candidate),
      s.eligible[i]? = some e ∧ src ∈ e.replicas ∧ dst ∉ e.replicas ∧ s.counts[dst]? = some dstCount ∧
        candidateFor s.candidates dst = some target ∧ target.capacity.isFull dstCount = false ∧
        move = (e.key, RebalanceState.moved e.replicas src dst) ∧ s' = s.apply i src dst := by
  unfold RebalanceState.nextMove at h
  obtain ⟨⟨src₀, dst₀⟩, hpair, hmove⟩ := exists_of_findSome?_eq_some h
  simp only [RebalanceState.pairs, mem_flatMap, mem_filterMap] at hpair
  obtain ⟨⟨src, srcCount⟩, -, ⟨dst, dstCount⟩, hdst, heq⟩ := hpair
  split_ifs at heq with hmovable
  cases heq
  obtain ⟨i, hfind, hmove⟩ := Option.bind_eq_some_iff.mp hmove
  obtain ⟨e, he, hmove⟩ := Option.bind_eq_some_iff.mp hmove
  cases hmove
  obtain ⟨target, htarget, hidx⟩ := Option.bind_eq_some_iff.mp hfind
  obtain ⟨hi, hlegal, -⟩ := findIdx?_eq_some_iff_getElem.mp hidx
  rw [getElem?_eq_getElem hi] at he
  cases he
  simp only [RebalanceState.legalMove, Bool.and_eq_true, Bool.not_eq_true', contains_eq_mem,
    decide_eq_true_eq, decide_eq_false_iff_not] at hlegal
  simp only [RebalanceState.pairMovable, Bool.and_eq_true, Bool.not_eq_true'] at hmovable
  rw [RebalanceState.byFill, mem_insertionSort] at hdst
  refine ⟨i, _, src, dst, dstCount, target, getElem?_eq_getElem hi, hlegal.1.1.1.1, hlegal.1.1.1.2,
    Std.ExtTreeMap.mem_toList_iff_getElem?_eq_some.mp hdst,
    htarget, ?_, rfl, rfl⟩
  have hroom := hmovable.1.2
  simpa [RebalanceState.capacity, htarget] using hroom

end AnimusDb.Placement
