import AnimusDb.LevelChoice
import AnimusDb.OrderedMaps
import AnimusDb.PlacementRoom

/-! A replica set is chosen whenever the usable candidates allow one, and then it spreads over the domains
as evenly as any set of them does. -/

open OrderedMaps List LevelChoice

namespace AnimusDb.Placement

variable {candidates : List Candidate} {policy : PlacementPolicy}

/-- The failure domain of a node, none where the policy has no spread. -/
def domainFor (candidates : List Candidate) (policy : PlacementPolicy) (n : NodeId) : Domain :=
  policy.spread.bind fun sp => (candidateFor candidates n).bind fun c => c.labels[sp.domain]?

/-- The node is a candidate that the policy admits and that has the label of its spread. -/
def Usable (candidates : List Candidate) (policy : PlacementPolicy) (n : NodeId) : Prop :=
  ∃ c, candidateFor candidates n = some c ∧ policy.admits c = true ∧ ∀ sp, policy.spread = some sp →
    sp.domain ∈ c.labels

/-- A set of distinct nodes with room that a policy allows. -/
structure Placeable (candidates : List Candidate) (policy : PlacementPolicy) (room : NodeId → Prop)
    (nodes : List NodeId) : Prop where
  nodup : nodes.Nodup
  usable : ∀ n ∈ nodes, Usable candidates policy n ∧ room n
  satisfies : setSatisfies nodes candidates policy = true

section Greedy

variable {eligible : List (NodeId × Domain)} {pool chosen : List NodeId} {dom : NodeId → Domain} {d : Domain}
  {n : NodeId} (heligible : eligible = pool.map fun n => (n, dom n))

include heligible

theorem mem_domainNodes : n ∈ domainNodes eligible d ↔ n ∈ pool ∧ dom n = d := by
  subst heligible
  simp [domainNodes]

theorem mem_domainsOf : d ∈ domainsOf eligible ↔ ∃ n ∈ pool, dom n = d := by
  subst heligible
  simp [domainsOf]

theorem countIn_eq_tally (hsub : chosen ⊆ pool) : countIn eligible chosen = tally dom chosen := by
  subst heligible
  funext d
  rw [countIn, tally, count, countP_map]
  refine countP_congr fun n hn => ?_
  obtain ⟨n', hfind⟩ := Option.isSome_iff_exists.mp
    (find?_isSome.mpr ⟨n, hsub hn, by simp⟩ : (pool.find? (· = n)).isSome)
  obtain rfl : n' = n := by simpa using find?_some hfind
  simp only [find?_map, Function.comp_def, hfind]
  simp

/-- The next node is a free one of a least loaded domain, and there is one unless all nodes are chosen. -/
theorem least_next (hsub : chosen ⊆ pool) : match (leastLoadedDomain eligible chosen).bind fun domain =>
        (domainNodes eligible domain).find? fun n => !chosen.contains n with
    | some node => node ∈ pool ∧ node ∉ chosen ∧ ∀ a ∈ pool, a ∉ chosen →
        tally dom chosen (dom node) ≤ tally dom chosen (dom a)
    | none => pool ⊆ chosen := by
  have hleast : Least _ _ _ (leastLoadedDomain eligible chosen) := least_foldl _ _ _
  rw [countIn_eq_tally heligible hsub] at hleast
  cases hbest : leastLoadedDomain eligible chosen with
  | none =>
    rw [hbest] at hleast
    intro n hn
    by_contra hfree
    have hnone := hleast (dom n) ((mem_domainsOf heligible).mpr ⟨n, hn, rfl⟩)
    simpa [hfree] using any_eq_false.mp hnone n ((mem_domainNodes heligible).mpr ⟨hn, rfl⟩)
  | some best =>
    rw [hbest] at hleast
    obtain ⟨node, hnode⟩ := Option.isSome_iff_exists.mp (find?_isSome.mpr (any_eq_true.mp hleast.1))
    simp only [Option.bind_some, hnode]
    obtain ⟨hin, rfl⟩ := (mem_domainNodes heligible).mp (mem_of_find?_eq_some hnode)
    refine ⟨hin, by simpa using find?_some hnode, fun a ha hfree => ?_⟩
    exact hleast.2 (dom a) ((mem_domainsOf heligible).mpr ⟨a, ha, rfl⟩)
      (any_eq_true.mpr ⟨a, (mem_domainNodes heligible).mpr ⟨ha, rfl⟩, by simpa using hfree⟩)

/-- Filling keeps the choice level, and stops early only when every node is chosen. -/
theorem levelled_fill (missing : Nat) (h : Levelled dom pool chosen) :
    Levelled dom pool (fill eligible missing chosen) ∧
    ((fill eligible missing chosen).length = missing + chosen.length ∨
      (fill eligible missing chosen).length < missing + chosen.length ∧
      pool ⊆ fill eligible missing chosen) := by
  induction missing generalizing chosen with
  | zero => exact ⟨h, .inl (Nat.zero_add _).symm⟩
  | succ missing ih =>
    have hnext := least_next heligible h.subset
    rw [fill]
    split <;> rename_i hnode <;> rw [hnode] at hnext
    · have hfill := ih (h.append_singleton hnext.1 hnext.2.1 hnext.2.2)
      rwa [length_append, length_singleton, ← Nat.add_assoc, Nat.add_right_comm] at hfill
    · exact ⟨h, .inr ⟨by omega, hnext⟩⟩

end Greedy

variable {room : NodeId → Prop} {nodes other : List NodeId} {sp : SpreadPolicy}

theorem setSatisfies_iff : setSatisfies nodes candidates policy = true ↔ nodes.length =
    policy.replicationFactor ∧ (∀ n ∈ nodes, (candidateFor candidates n).any policy.admits = true) ∧
    ∀ sp, policy.spread = some sp → sp.strict = true → (∀ n ∈ nodes, (domainFor candidates policy n).isSome) ∧
      (nodes.map (domainFor candidates policy)).Nodup := by
  unfold domainFor
  cases hsp : policy.spread with
  | none => simp [setSatisfies, hsp]
  | some sp => cases hstrict : sp.strict <;> simp [setSatisfies, distinctDomains, hsp, hstrict, and_assoc]

theorem maxPerDomain_le {dom : NodeId → Domain} (hdom : domainFor candidates policy = dom)
    (hsp : policy.spread = some sp)
    (h : ∀ b ∈ nodes, ∃ s ∈ other, tally dom nodes (dom b) ≤ tally dom other (dom s)) :
    maxPerDomain nodes candidates sp ≤ maxPerDomain other candidates sp := by
  subst hdom
  unfold domainFor at h
  simp only [hsp, Option.bind_some] at h
  refine OrderedList.foldl_max_le (fun count hcount => ?_) (Nat.zero_le _)
  obtain ⟨d, hd, rfl⟩ := mem_map.mp hcount
  obtain ⟨b, hb, rfl⟩ := mem_map.mp hd
  obtain ⟨s, hs, hle⟩ := h b hb
  exact hle.trans (OrderedList.le_foldl_max id 0 (mem_map.mpr ⟨_, mem_map_of_mem hs, rfl⟩))

/-- The outcome of a choice: a set that no other placeable set spreads better than, or a failure where there
is none. -/
def BestChoice (candidates : List Candidate) (policy : PlacementPolicy) (room : NodeId → Prop) :
    Except PlacementError (List NodeId) → Prop
  | .ok nodes => Placeable candidates policy room nodes ∧ ∀ sp, policy.spread = some sp →
      ∀ other, Placeable candidates policy room other →
      maxPerDomain nodes candidates sp ≤ maxPerDomain other candidates sp
  | .error _ => ∀ nodes, ¬ Placeable candidates policy room nodes

theorem bestChoice_choose {eligible : List (NodeId × Domain)}
    (hdom : ∀ e ∈ eligible, e.2 = domainFor candidates policy e.1)
    (hpool : ∀ n, n ∈ eligible.map Prod.fst ↔ Usable candidates policy n ∧ room n) :
    BestChoice candidates policy room (choose eligible [] policy) := by
  have heligible : eligible = (eligible.map Prod.fst).map fun n => (n, domainFor candidates policy n) := by
    rw [map_map]
    exact (map_id eligible).symm.trans (map_congr_left fun e he => Prod.ext rfl (hdom e he))
  generalize eligible.map Prod.fst = pool at heligible hpool
  have hsub {nodes : List NodeId} (h : Placeable candidates policy room nodes) : nodes ⊆ pool :=
    fun n hn => (hpool n).mpr (h.usable n hn)
  have hlength {nodes : List NodeId} (h : Placeable candidates policy room nodes) :
      nodes.length = policy.replicationFactor := (setSatisfies_iff.mp h.satisfies).1
  obtain ⟨hlevel, hfill⟩ := levelled_fill heligible policy.replicationFactor Levelled.nil
  unfold choose
  simp only [filter_nil, take_nil, length_nil, Nat.sub_zero]
  generalize fill eligible policy.replicationFactor [] = chosen at hlevel hfill ⊢
  split_ifs with hdomains hfew
  · -- a strict spread asks for more domains than there are
    intro nodes h
    simp only [Bool.and_eq_true, decide_eq_true_eq] at hdomains
    obtain ⟨sp, hsp, hstrict⟩ := (Option.any_eq_true _ _).mp hdomains.1
    have hnodup := ((setSatisfies_iff.mp h.satisfies).2.2 sp hsp hstrict).2
    have hdomain : nodes.map (domainFor candidates policy) ⊆ domainsOf eligible := by
      intro d hd
      obtain ⟨n, hn, rfl⟩ := mem_map.mp hd
      exact (mem_domainsOf heligible).mpr ⟨n, hsub h hn, rfl⟩
    have hle := (hnodup.subperm hdomain).length_le
    rw [length_map, hlength h] at hle
    omega
  · -- every node of the pool was chosen
    intro nodes h
    have hall := (hfill.resolve_left (by rw [length_nil]; omega)).2
    have hle := (h.nodup.subperm fun n hn => hall (hsub h hn)).length_le
    rw [hlength h] at hle
    omega
  · have hlen : chosen.length = policy.replicationFactor :=
      hfill.resolve_right fun hshort => hfew (by simpa using hshort.1)
    have hsort : chosen ~ sortNodes chosen := (perm_insertionSort _ _).symm
    rw [hsort.length_eq] at hlen
    generalize sortNodes chosen = nodes at hsort hlen
    replace hlevel := hlevel.of_perm hsort
    have husable (n : NodeId) (hn : n ∈ nodes) := (hpool n).mp (hlevel.subset hn)
    refine ⟨⟨hlevel.nodup, husable, setSatisfies_iff.mpr ⟨hlen, fun n hn => ?_, fun sp hsp hstrict =>
      ⟨fun n hn => ?_, ?_⟩⟩⟩, fun sp hsp other h => maxPerDomain_le rfl hsp fun b hb => ?_⟩
    · obtain ⟨c, hc, hadmits, -⟩ := (husable n hn).1
      simp [hc, hadmits]
    · obtain ⟨c, hc, -, hlabel⟩ := (husable n hn).1
      simp [domainFor, hsp, hc, hlabel sp hsp]
    · have hclasses : (domainsOf eligible).Nodup := (perm_insertionSort _ _).nodup_iff.mpr (nodup_dedup _)
      refine hlevel.nodup_map hclasses (fun d hd => (mem_domainsOf heligible).mp hd) ?_
      simp only [hsp, Option.any_some, hstrict, Bool.true_and, decide_eq_true_eq] at hdomains
      omega
    · exact hlevel.tally_le h.nodup (hsub h) ((hlength h).trans hlen.symm) hb

variable {n : NodeId} {d : Domain} {load : Load}

theorem mem_map_dedupAfter {kept : NodeId × Domain} {entries : List (NodeId × Domain)}
    (h : n ∈ entries.map Prod.fst) : n = kept.1 ∨ n ∈ (dedupAfter kept entries).map Prod.fst := by
  induction entries generalizing kept with
  | nil => cases h
  | cons b rest ih => grind [dedupAfter]

theorem mem_map_dedupNodes {entries : List (NodeId × Domain)} (h : n ∈ entries.map Prod.fst) :
    n ∈ (dedupNodes entries).map Prod.fst := by
  cases entries with
  | nil => exact h
  | cons a rest => grind [dedupNodes, mem_map_dedupAfter]

theorem eligibleEntry_iff {c : Candidate} {e : NodeId × Domain}
    (hfind : candidateFor candidates c.node = some c) : (match policy.spread with
      | some sp => c.labels[sp.domain]?.map fun d => (c.node, some d)
      | none => some (c.node, none)) = some e ↔
    (c.node, domainFor candidates policy c.node) = e ∧ ∀ sp, policy.spread = some sp →
      sp.domain ∈ c.labels := by
  cases hsp : policy.spread with
  | none => simp [domainFor, hsp]
  | some sp =>
    have hmem : sp.domain ∈ c.labels ↔ c.labels[sp.domain]?.isSome = true :=
      Std.ExtTreeMap.mem_iff_isSome_getElem?
    cases hd : c.labels[sp.domain]? <;>
      simp [domainFor, hsp, hfind, hd, hmem, -Std.ExtTreeMap.isSome_getElem?_eq_contains]

/-- Among candidates of distinct names, an admitted one that has the label of the spread is eligible in its
domain. -/
theorem eligibleDomains_spec (policy : PlacementPolicy) (hids : (candidates.map Candidate.node).Nodup) :
    (∀ e ∈ eligibleDomains candidates policy, e.2 = domainFor candidates policy e.1) ∧
      ∀ n, n ∈ (eligibleDomains candidates policy).map Prod.fst ↔ Usable candidates policy n := by
  have hentry (e : NodeId × Domain) (he : e ∈ eligibleDomains candidates policy) :
      e.2 = domainFor candidates policy e.1 ∧ Usable candidates policy e.1 := by
    have hmem := mem_of_mem_dedupNodes he
    rw [mem_insertionSort, mem_filterMap] at hmem
    obtain ⟨c, hc, heq⟩ := hmem
    obtain ⟨hc, hadmits⟩ := mem_filter.mp hc
    obtain ⟨c', hfind⟩ := candidateFor_isSome hc rfl
    obtain ⟨hin, hname⟩ := mem_of_candidateFor hfind
    obtain rfl := inj_on_of_nodup_map hids hin hc hname
    obtain ⟨rfl, hlabel⟩ := (eligibleEntry_iff hfind).mp heq
    exact ⟨rfl, c', hfind, hadmits, hlabel⟩
  refine ⟨fun e he => (hentry e he).1, fun n => ⟨fun hn => ?_, ?_⟩⟩
  · obtain ⟨e, he, rfl⟩ := mem_map.mp hn
    exact (hentry e he).2
  · rintro ⟨c, hfind, hadmits, hlabel⟩
    obtain ⟨hc, rfl⟩ := mem_of_candidateFor hfind
    refine mem_map_dedupNodes (mem_map.mpr ⟨(c.node, domainFor candidates policy c.node), ?_, rfl⟩)
    rw [mem_insertionSort, mem_filterMap]
    exact ⟨c, mem_filter.mpr ⟨hc, hadmits⟩, (eligibleEntry_iff hfind).mpr ⟨rfl, hlabel⟩⟩

theorem mem_of_mem_dropFull {eligible : List (NodeId × Domain)} {current : List NodeId} {e : NodeId × Domain}
    (h : e ∈ dropFull eligible candidates load current) : e ∈ eligible := by
  unfold dropFull at h
  split_ifs at h
  · exact h
  · exact (mem_filter.mp h).1

theorem mem_map_dropFull : n ∈ (dropFull (eligibleDomains candidates policy) candidates load []).map
    Prod.fst ↔ n ∈ (eligibleDomains candidates policy).map Prod.fst ∧ HasRoom candidates load n := by
  constructor
  · intro h
    obtain ⟨e, he, rfl⟩ := mem_map.mp h
    exact ⟨mem_map_of_mem (mem_of_mem_dropFull he), (mem_dropFull he).resolve_left not_mem_nil⟩
  · rintro ⟨hn, c, hc, hroom⟩
    unfold dropFull
    split_ifs
    · exact hn
    · obtain ⟨e, he, rfl⟩ := mem_map.mp hn
      exact mem_map_of_mem (mem_filter.mpr ⟨he, by simp [hc, hroom]⟩)

/-- Both ways to place a tablet find a best set of usable candidates, or there is none; the one that reads
the load leaves out the nodes at their ceiling. -/
theorem selected_replicas_best (candidates : List Candidate) (policy : PlacementPolicy) (load : Load)
    (hids : (candidates.map Candidate.node).Nodup) :
    BestChoice candidates policy (fun _ => True) (selectReplicas candidates policy) ∧
      BestChoice candidates policy (HasRoom candidates load) (selectReplicasBalanced candidates policy load) := by
  obtain ⟨hdom, hpool⟩ := eligibleDomains_spec policy hids
  refine ⟨bestChoice_choose hdom fun n => by rw [hpool, and_true], bestChoice_choose (fun e he => ?_) fun n => ?_⟩
  · rw [mem_insertionSort] at he
    exact hdom e (mem_of_mem_dropFull he)
  · rw [((perm_insertionSort _ _).map Prod.fst).mem_iff, mem_map_dropFull, hpool]

/-- Three nodes, two of them in one zone and the third in none; the first takes no replica. -/
def unevenNodes : List Candidate :=
  let zone : Labels := (∅ : Labels).insert zoneLabel "z"
  [⟨"a", zone, ⟨100, some 0⟩⟩, ⟨"b", zone, .default⟩, ⟨"c", ∅, .default⟩]

def zonePair : PlacementPolicy := (PlacementPolicy.simple "pair" 2).spreadAcross zoneLabel false

theorem selected_replicas_best_uneven :
    BestChoice unevenNodes zonePair (fun _ => True) (selectReplicas unevenNodes zonePair) ∧
      BestChoice unevenNodes zonePair (HasRoom unevenNodes ∅) (selectReplicasBalanced unevenNodes zonePair ∅) :=
  selected_replicas_best unevenNodes zonePair ∅ (by decide)

/-- A full node is chosen where the load is not read, and a node without the label of the spread is never
chosen, even where it would spread the replicas better or is needed to have enough of them. -/
theorem select_skips_unlabelled : selectReplicas unevenNodes zonePair = .ok ["a", "b"] ∧
      selectReplicasBalanced unevenNodes zonePair ∅ = .error (.insufficientCandidates 2 1) ∧
      unevenNodes.map (fun c => c.capacity.isFull 0) = [true, false, false] ∧
      setSatisfies ["b", "c"] unevenNodes zonePair = true ∧
        maxPerDomain ["b", "c"] unevenNodes ⟨zoneLabel, false⟩ = 1 ∧
      maxPerDomain ["a", "b"] unevenNodes ⟨zoneLabel, false⟩ = 2 := by
  refine ⟨rfl, rfl, ?_⟩
  decide +kernel

end AnimusDb.Placement
