import AnimusDb.CatalogPlan
import AnimusDb.PlacementRoom

/-! The ceiling on a node's replicas. Each planner reads one snapshot, so its commands keep a ceiling where
they do not count on the same free place twice: a repair may add a node with one command only, and a
rebalancing must have counted every tablet on the node. -/

open OrderedMaps AnimusDb.Placement List RebalanceState Std.ExtTreeMap

namespace AnimusDb.Catalog

variable {t : Tablet} {n : NodeId}

/-- Two tests that agree but at one element of a list without repetitions. -/
theorem countP_swap {α : Type} {f g : α → Bool} {a : α} {l : List α} (hnodup : l.Nodup) (ha : a ∈ l)
    (hagree : ∀ b ∈ l, b ≠ a → f b = g b) : l.countP g + (f a).toNat = l.countP f + (g a).toNat := by
  classical
  have hperm := perm_cons_erase ha
  have hrest : (l.erase a).countP g = (l.erase a).countP f := countP_congr fun b hb => by
    obtain ⟨hne, hmem⟩ := hnodup.mem_erase_iff.mp hb
    rw [hagree b hmem hne]
  rw [hperm.countP_eq, hperm.countP_eq, countP_cons, countP_cons, hrest]
  cases f a <;> cases g a <;> simp

variable {tablets : OrdMap TabletId Tablet}

def hostedOn (tablets : OrdMap TabletId Tablet) (n : NodeId) (id : TabletId) : Bool :=
  tablets[id]?.any fun t => t.replicas.contains n

theorem countP_values (p : Tablet → Bool) :
    tablets.values.countP p = tablets.keys.countP fun id => tablets[id]?.any p := by
  rw [values_eq, ← map_fst_toList_eq_keys, countP_map, countP_map]
  refine countP_congr fun entry hentry => ?_
  have hget : tablets[entry.1]? = some entry.2 := mem_toList_iff_getElem?_eq_some.mp hentry
  simp [hget]

theorem nodup_keys {α : Type} {map : OrdMap TabletId α} : map.keys.Nodup := by
  refine ordered_keys.imp ?_
  rintro a _ hlt rfl
  rw [Std.ReflOrd.compare_self] at hlt
  cases hlt

theorem keys_insert {id : TabletId} {old : Tablet} (hold : tablets[id]? = some old) :
    (tablets.insert id t).keys = tablets.keys := by
  have hirrefl : ∀ a : TabletId, compare a a ≠ .lt := by simp
  have hperm : (tablets.insert id t).keys.Perm tablets.keys := by
    refine (perm_ext_iff_of_nodup nodup_keys nodup_keys).mpr fun a => ?_
    have hmem : id ∈ tablets := by
      rw [mem_iff_isSome_getElem?, hold]
      rfl
    rw [Std.ExtTreeMap.mem_keys, Std.ExtTreeMap.mem_keys, mem_insert]
    constructor
    · rintro (heq | ha)
      · rwa [← Std.LawfulEqOrd.eq_of_compare heq]
      · exact ha
    · exact .inr
  refine hperm.eq_of_pairwise ?_ ordered_keys ordered_keys
  intro a b _ _ hab hba
  rw [Std.OrientedOrd.eq_swap, hba] at hab
  cases hab

variable {c : MetaCommand} {policy : PlacementPolicy}

namespace Metadata

variable {m : Metadata} {id : TabletId} {epoch : Epoch} {replicas : List NodeId}

theorem tabletsReferencing_eq (m : Metadata) (n : NodeId) :
    m.tabletsReferencing n = m.tablets.keys.countP (hostedOn m.tablets n) := countP_values _

theorem cas_tablets (replicas : List NodeId) (ht : m.tablets[id]? = some t) (hepoch : t.epoch = epoch) :
    (m.apply (.casTabletReplicas id epoch replicas)).2.tablets =
      m.tablets.insert id { t with replicas := nodeSet replicas, epoch := t.epoch + 1 } := by
  simp [apply, applyInner, prepared, casTabletReplicas, ht, orReject, bind, Except.bind, hepoch, setTablet]

theorem cas_cases (m : Metadata) (id : TabletId) (epoch : Epoch) (replicas : List NodeId) :
    (m.apply (.casTabletReplicas id epoch replicas)).2.tablets = m.tablets ∨ ∃ t, m.tablets[id]? = some t ∧
    t.epoch = epoch := by
  cases ht : m.tablets[id]? with
  | none => simp [apply, applyInner, prepared, casTabletReplicas, ht, orReject, bind, Except.bind, reject]
  | some t =>
    by_cases hepoch : t.epoch = epoch
    · exact .inr ⟨t, rfl, hepoch⟩
    · simp [apply, applyInner, prepared, casTabletReplicas, ht, orReject, bind, Except.bind, hepoch, reject]

theorem cas_get_of_ne {other : TabletId} (hne : id ≠ other) :
    (m.apply (.casTabletReplicas id epoch replicas)).2.tablets[other]? = m.tablets[other]? := by
  rcases m.cas_cases id epoch replicas with hsame | ⟨t, ht, hepoch⟩
  · rw [hsame]
  · rw [cas_tablets replicas ht hepoch, get_insert, if_neg hne]

/-- How an applied change of a replica set changes the count of a node. -/
theorem referencing_cas (n : NodeId) (replicas : List NodeId) (ht : m.tablets[id]? = some t)
    (hepoch : t.epoch = epoch) :
    (m.apply (.casTabletReplicas id epoch replicas)).2.tabletsReferencing n + (t.replicas.contains n).toNat =
      m.tabletsReferencing n + (replicas.contains n).toNat := by
  rw [tabletsReferencing_eq, tabletsReferencing_eq, cas_tablets replicas ht hepoch, keys_insert ht]
  have hmem : id ∈ m.tablets.keys := by
    rw [Std.ExtTreeMap.mem_keys, mem_iff_isSome_getElem?, ht]
    rfl
  have hswap := countP_swap nodup_keys hmem (f := hostedOn m.tablets n)
    (g := hostedOn (m.tablets.insert id { t with replicas := nodeSet replicas, epoch := t.epoch + 1 }) n)
    fun other _ hne => by rw [hostedOn, hostedOn, get_insert, if_neg (Ne.symm hne)]
  have hold : hostedOn m.tablets n id = t.replicas.contains n := by simp [hostedOn, ht]
  have hnew : hostedOn (m.tablets.insert id { t with replicas := nodeSet replicas, epoch := t.epoch + 1 }) n
      id = replicas.contains n := by
    rw [hostedOn, get_insert, if_pos rfl]
    simp [contains_eq_mem]
  rwa [hold, hnew] at hswap

/-- The command puts a replica of its tablet on a node that had none. -/
def recruits (tablets : OrdMap TabletId Tablet) (n : NodeId) : MetaCommand → Bool
  | .casTabletReplicas tablet _ replicas => replicas.contains n && !hostedOn tablets n tablet
  | _ => false

def movedTablet : MetaCommand → Option TabletId
  | .casTabletReplicas tablet .. => some tablet
  | _ => none

/-- A planner's command changes a replica set or the target of a placing. -/
def Planned : MetaCommand → Prop
  | .casTabletReplicas .. | .retargetSplitPlacing .. => True
  | _ => False

theorem retarget_tablets (tablet : TabletId) (target : Option (List NodeId)) :
    (m.apply (.retargetSplitPlacing tablet epoch target)).2.tablets = m.tablets := by
  have hsame : Fallible.Ensures (fun m' => m'.tablets = m.tablets)
    (m.retargetSplitPlacing tablet epoch target) := by
    simp only [retargetSplitPlacing, ensures_rules, and_self]
    exact Fallible.ensures_of_forall fun _ => trivial
  rcases m.apply_cases (.retargetSplitPlacing tablet epoch target) with ⟨post, hpost, happly⟩ | ⟨refusal, -,
    happly⟩ <;> rw [happly]
  · exact (hsame.of_eq hpost : post.tablets = m.tablets)
  · rfl

/-- A change of a replica set adds at most one replica to a node, and only if it recruits it. -/
theorem referencing_cas_le (m : Metadata) (n : NodeId) (id : TabletId) (epoch : Epoch)
    (replicas : List NodeId) : (m.apply (.casTabletReplicas id epoch replicas)).2.tabletsReferencing n ≤
      m.tabletsReferencing n + (recruits m.tablets n (.casTabletReplicas id epoch replicas)).toNat := by
  rcases m.cas_cases id epoch replicas with hsame | ⟨t, ht, hepoch⟩
  · rw [tabletsReferencing_eq, tabletsReferencing_eq, hsame]
    omega
  · have hcount := referencing_cas n replicas ht hepoch
    simp only [recruits, hostedOn, ht, Option.any_some]
    cases hold : t.replicas.contains n <;> cases hnew : replicas.contains n <;>
      simp only [hold, hnew, Bool.toNat_true, Bool.toNat_false, Bool.not_true, Bool.not_false, Bool.and_self,
        Bool.and_true, Bool.and_false] at hcount ⊢ <;> omega

/-- **The commands of one call** add to a node at most one replica for each that recruits it. -/
theorem referencing_run_le (commands : List MetaCommand) (hplanned : ∀ c ∈ commands, Planned c)
    (hdistinct : (commands.filterMap movedTablet).Nodup) :
    (m.run commands).tabletsReferencing n ≤ m.tabletsReferencing n + commands.countP (recruits m.tablets n) := by
  induction commands generalizing m with
  | nil => exact Nat.le_refl _
  | cons c rest ih =>
    have hrest := fun d hd => hplanned d (mem_cons_of_mem c hd)
    have hc := hplanned c mem_cons_self
    rw [countP_cons]
    cases c with
    | casTabletReplicas id epoch replicas =>
      rw [filterMap_cons, movedTablet] at hdistinct
      obtain ⟨hid, hdistinct⟩ := nodup_cons.mp hdistinct
      -- the other commands change other tablets, whose rows are still those of the snapshot
      have hsame : rest.countP (recruits (m.apply (.casTabletReplicas id epoch replicas)).2.tablets n) =
          rest.countP (recruits m.tablets n) := by
        refine countP_congr fun d hd => ?_
        cases d with
        | casTabletReplicas other epoch' replicas' =>
          have hne : id ≠ other := fun heq => hid (mem_filterMap.mpr ⟨_, hd, by rw [heq]; rfl⟩)
          simp only [recruits, hostedOn, cas_get_of_ne hne]
        | _ => rfl
      have hhead := m.referencing_cas_le n id epoch replicas
      have htail := ih (m := (m.apply (.casTabletReplicas id epoch replicas)).2) hrest hdistinct
      rw [hsame] at htail
      rw [run]
      cases hrec : recruits m.tablets n (.casTabletReplicas id epoch replicas) <;>
        simp only [hrec, Bool.toNat_true, Bool.toNat_false] at hhead ⊢ <;> simp <;> omega
    | retargetSplitPlacing tablet epoch target =>
      have htail := ih (m := (m.apply (.retargetSplitPlacing tablet epoch target)).2) hrest hdistinct
      rw [tabletsReferencing_eq (m.apply _).2, retarget_tablets, ← tabletsReferencing_eq] at htail
      simpa [run, recruits] using htail
    | _ => exact absurd hc id

variable {ceiling : Nat}

theorem load_foldl_replicas (replicas : List NodeId) (load : Load) :
    (replicas.foldl (fun load r => load.insert r (load.of r + 1)) load).of n =
    load.of n + replicas.count n := by
  induction replicas generalizing load with
  | nil => rfl
  | cons r rest ih =>
    rw [foldl_cons, ih, count_cons]
    by_cases hr : r = n
    · subst hr
      simp [Load.of]
      omega
    · simp [Load.of, get_insert, hr]

theorem load_foldl_tablets (tablets : List Tablet) (load : Load) :
    (tablets.foldl (fun load t => t.replicas.foldl (fun load r => load.insert r (load.of r + 1)) load)
      load).of n = load.of n + (tablets.map fun t => t.replicas.count n).sum := by
  induction tablets generalizing load with
  | nil => rfl
  | cons t rest ih => rw [foldl_cons, ih, load_foldl_replicas, map_cons, sum_cons, Nat.add_assoc]

theorem countP_le_sum {α : Type} (replicas : α → List NodeId) (l : List α) :
    l.countP (fun a => (replicas a).contains n) ≤ (l.map fun a => (replicas a).count n).sum := by
  induction l with
  | nil => exact Nat.le_refl _
  | cons a rest ih =>
    rw [countP_cons, map_cons, sum_cons]
    split_ifs with hmem
    · have hpos : 0 < (replicas a).count n := count_pos_iff.mpr (by simpa using hmem)
      omega
    · omega

/-- The node's declared ceiling counts for placement. -/
def Ceiling (m : Metadata) (n : NodeId) (ceiling : Nat) : Prop :=
  m.capacityGateOpen = true ∧ ∃ c, m.nodeCapacity[n]? = some c ∧ c.maxReplicas = some ceiling

variable {pool : List Candidate}

theorem Ceiling.capacity (h : m.Ceiling n ceiling) :
    ∃ c, m.placementView.capacity[n]? = some c ∧ c.maxReplicas = some ceiling := by
  obtain ⟨hgate, c, hc, hmax⟩ := h
  exact ⟨c, by simpa [placementView, effectiveCapacities, hgate] using hc, hmax⟩

variable (v : PlacementView)

/-- Every candidate carries the declared capacity of its node. -/
def Declared (pool : List Candidate) : Prop :=
  ∀ c ∈ pool, c.capacity = v.capacity[c.node]?.getD .default

theorem declared_candidates : Declared v v.candidates := by
  intro c hc
  simp only [PlacementView.candidates, activeCandidates, mem_map] at hc
  obtain ⟨entry, -, rfl⟩ := hc
  rfl

theorem declared_pool (recentlyDown : OrdSet NodeId) (t : Tablet) :
    Declared v (v.candidates ++ v.dwelling recentlyDown t) := by
  intro c hc
  rcases mem_append.mp hc with hc | hc
  · exact declared_candidates v c hc
  · simp only [PlacementView.dwelling, mem_filterMap] at hc
    obtain ⟨r, -, hr⟩ := hc
    obtain ⟨member, -, rfl⟩ := Option.map_eq_some_iff.mp hr
    rfl

section

variable (h : m.Ceiling n ceiling)

include h

/-- A candidate that is not full has fewer replicas than its ceiling. -/
theorem Ceiling.lt_of_not_full (hpool : Declared m.placementView pool) {c : Candidate} {count : Nat}
    (hc : candidateFor pool n = some c) (hroom : c.capacity.isFull count = false) : count < ceiling := by
  obtain ⟨hmem, hnode⟩ := mem_of_candidateFor hc
  obtain ⟨cap, hcap, hmax⟩ := h.capacity
  have hdeclared : c.capacity = cap := by rw [hpool c hmem, hnode, hcap, Option.getD_some]
  simpa [hdeclared, Capacity.isFull, hmax] using hroom

theorem Ceiling.lt_of_hasRoom (hpool : Declared m.placementView pool)
    (hroom : HasRoom pool (replicaLoad m.tablets) n) : m.tabletsReferencing n < ceiling := by
  obtain ⟨c, hc, hfull⟩ := hroom
  -- the load of the snapshot counts every replica
  have hload : m.tabletsReferencing n ≤ (replicaLoad m.tablets).of n := by
    refine (countP_le_sum Tablet.replicas m.tablets.values).trans_eq ?_
    rw [replicaLoad, load_foldl_tablets]
    simp [Load.of]
  exact hload.trans_lt (h.lt_of_not_full hpool hc hfull)

theorem Ceiling.load : m.placementView.load = some (replicaLoad m.tablets) := by
  obtain ⟨c, hc, -⟩ := h.capacity
  have hne : m.placementView.capacity.isEmpty = false := by
    rw [Bool.eq_false_iff]
    intro hempty
    rw [isEmpty_iff.mp hempty] at hc
    simp at hc
  simp only [PlacementView.load, hne]
  rfl

theorem hasRoom_of_repair {current desired : List NodeId}
    (hrepair : m.placementView.repair current policy pool = .ok desired) (hn : n ∈ desired)
    (hnew : n ∉ current) : HasRoom pool (replicaLoad m.tablets) n := by
  unfold PlacementView.repair at hrepair
  rw [h.load] at hrepair
  cases hpinned : policy.isPinned with
  | true =>
    rw [hpinned] at hrepair
    exact hasRoom_of_choose hrepair hn hnew
  | false =>
    simp only [hpinned, replanRepairWithLoad] at hrepair
    split_ifs at hrepair <;> exact hasRoom_of_choose hrepair hn hnew

end

variable (recentlyDone : OrdSet TabletId) (recentlyDown : OrdSet NodeId)

theorem repairOf_some {v : PlacementView} {tablet : TabletId}
    (h : v.repairOf recentlyDone recentlyDown tablet policy = some c) :
    ∃ t desired, v.tablets[tablet]? = some t ∧
      v.repair t.replicas policy (v.candidates ++ v.dwelling recentlyDown t) = .ok desired ∧
        c = .casTabletReplicas tablet t.epoch desired := by
  unfold PlacementView.repairOf at h
  obtain ⟨t, ht, h⟩ := Option.bind_eq_some_iff.mp h
  split_ifs at h
  split at h
  · cases h
  · rename_i desired hrepair
    split_ifs at h
    cases h
    exact ⟨t, desired, ht, hrepair, rfl⟩

/-- What is made one for each key of a map, and named after it, has distinct names. -/
theorem nodup_made {α β : Type} {entries : List (TabletId × α)} (hnodup : (entries.map Prod.fst).Nodup)
    {f : TabletId × α → Option β} {name : β → Option TabletId}
    (hf : ∀ entry c tablet, f entry = some c → name c = some tablet → tablet = entry.1) :
    ((entries.filterMap f).filterMap name).Nodup := by
  rw [filterMap_filterMap]
  refine pairwise_filterMap.mpr ((pairwise_map.mp hnodup).imp ?_)
  rintro entry other hne tablet hentry _ hother rfl
  obtain ⟨c, hc, hname⟩ := Option.bind_eq_some_iff.mp hentry
  obtain ⟨d, hd, hname'⟩ := Option.bind_eq_some_iff.mp hother
  exact hne ((hf entry c tablet hc hname).symm.trans (hf other d tablet hd hname'))

theorem nodup_keys_toList {α : Type} (map : OrdMap TabletId α) : (map.toList.map Prod.fst).Nodup := by
  rw [map_fst_toList_eq_keys]
  exact nodup_keys

theorem reconcile_ceiling (h : m.Ceiling n ceiling) (hbelow : m.tabletsReferencing n ≤ ceiling)
    (honce : (m.reconcile recentlyDone recentlyDown).countP (recruits m.tablets n) ≤ 1) :
    (m.run (m.reconcile recentlyDone recentlyDown)).tabletsReferencing n ≤ ceiling := by
  have hmade : ∀ c ∈ m.reconcile recentlyDone recentlyDown, ∃ (tablet : TabletId) (policy : PlacementPolicy),
      m.placementView.repairOf recentlyDone recentlyDown tablet policy = some c := by
    intro c hc
    obtain ⟨⟨tablet, policy⟩, -, hrepair⟩ := mem_filterMap.mp hc
    exact ⟨tablet, policy, hrepair⟩
  have hplanned : ∀ c ∈ m.reconcile recentlyDone recentlyDown, Planned c := by
    intro c hc
    obtain ⟨tablet, policy, hrepair⟩ := hmade c hc
    obtain ⟨t, desired, -, -, rfl⟩ := repairOf_some recentlyDone recentlyDown hrepair
    trivial
  have hle := referencing_run_le (m := m) (n := n) _ hplanned <| by
    refine nodup_made (nodup_keys_toList _) ?_
    rintro ⟨tablet, policy⟩ c moved hrepair hmoved
    obtain ⟨t, desired, -, -, rfl⟩ := repairOf_some recentlyDone recentlyDown hrepair
    cases hmoved
    rfl
  -- whoever is recruited had room, and no node is recruited twice
  by_cases hany : ∃ c ∈ m.reconcile recentlyDone recentlyDown, recruits m.tablets n c
  · obtain ⟨c, hc, hrec⟩ := hany
    obtain ⟨tablet, policy, hrepair⟩ := hmade c hc
    obtain ⟨t, desired, ht, hdesired, rfl⟩ := repairOf_some recentlyDone recentlyDown hrepair
    have ht' : m.tablets[tablet]? = some t := ht
    simp only [recruits, hostedOn, ht', Option.any_some, Bool.and_eq_true, Bool.not_eq_true', contains_eq_mem,
      decide_eq_true_eq, decide_eq_false_iff_not] at hrec
    have := h.lt_of_hasRoom (declared_pool _ recentlyDown t) (hasRoom_of_repair h hdesired hrec.1 hrec.2)
    omega
  · have hzero := countP_eq_zero.mpr fun c hc hrec => hany ⟨c, hc, hrec⟩
    omega

/-- The count of a node is changed where the node is counted at all. -/
theorem adjust_get (counts : Load) (k : NodeId) (f : Nat → Nat) : (match counts[k]? with
      | some c => counts.insert k (f c)
      | none => counts)[n]? = counts[n]?.map fun c => if n = k then f c else c := by
  by_cases hn : n = k
  · subst hn
    cases hc : counts[n]? <;> simp [hc]
  · cases counts[k]? <;> simp [get_insert, hn, Ne.symm hn]

theorem countReplicas_get (replicas : List NodeId) (counts : Load) :
    (countReplicas counts replicas)[n]? = counts[n]?.map (· + replicas.count n) := by
  unfold countReplicas
  induction replicas generalizing counts with
  | nil => simp
  | cons r rest ih =>
    rw [foldl_cons, ih, count_cons]
    refine (congrArg _ (adjust_get counts r (· + 1))).trans ?_
    rw [Option.map_map]
    refine congrArg (fun f => counts[n]?.map f) (funext fun c => ?_)
    by_cases hr : n = r
    · simp [hr]
      omega
    · simp [hr, Ne.symm hr]

theorem foldl_countReplicas_get (entries : List (Entry TabletId)) (counts : Load) :
    (entries.foldl (fun counts e => countReplicas counts e.replicas) counts)[n]? =
      counts[n]?.map (· + (entries.map fun e => e.replicas.count n).sum) := by
  induction entries generalizing counts with
  | nil => simp
  | cons e rest ih =>
    rw [foldl_cons, ih, countReplicas_get, map_cons, sum_cons]
    cases counts[n]? with
    | none => rfl
    | some c =>
      simp only [Option.map_some]
      congr 1
      omega

/-- A tablet counts for the rebalancing: it may be moved, and its replica set satisfies its policy. -/
def Movable (m : Metadata) (id : TabletId) : Prop :=
  ∃ e ∈ m.placementView.rebalanceEntries recentlyDone, e.key = id ∧
    setSatisfies e.replicas m.placementView.candidates e.policy = true

/-- Every tablet with a replica on the node counts for the rebalancing. -/
def Counted (m : Metadata) (n : NodeId) : Prop :=
  ∀ (id : TabletId) (t : Tablet), m.tablets[id]? = some t → n ∈ t.replicas → m.Movable recentlyDone id

theorem counted_of_none (h : m.tabletsReferencing n = 0) : m.Counted recentlyDone n := by
  intro id t ht hmem
  rw [tabletsReferencing_eq, countP_eq_zero] at h
  have hid : id ∈ m.tablets.keys := by
    rw [Std.ExtTreeMap.mem_keys, mem_iff_isSome_getElem?, ht]
    rfl
  exact absurd (by simpa [hostedOn, ht] using hmem) (h id hid)

/-- What ties the planner's state, after some moves, to the state with those moves applied. -/
structure Follows (base : OrdMap TabletId Tablet) (n : NodeId) (s : RebalanceState TabletId)
    (epochs : OrdMap TabletId Epoch) (m : Metadata) : Prop where
  rows : ∀ e ∈ s.eligible, ∃ t, m.tablets[e.key]? = some t ∧ (∀ x, x ∈ t.replicas ↔ x ∈ e.replicas) ∧
    ∀ b, base[e.key]? = some b → t.epoch = epochs[e.key]?.getD b.epoch
  keys : (s.eligible.map Entry.key).Nodup
  counted : ∀ count, s.counts[n]? = some count → m.tabletsReferencing n ≤ count

theorem mem_rebalanceEntries {v : PlacementView} {e : Entry TabletId} (h : e ∈ v.rebalanceEntries recentlyDone) :
    ∃ t, v.tablets[e.key]? = some t ∧ e.replicas = t.replicas := by
  obtain ⟨⟨tablet, policy⟩, -, hentry⟩ := mem_filterMap.mp h
  obtain ⟨t, ht, hentry⟩ := Option.bind_eq_some_iff.mp hentry
  split_ifs at hentry
  cases hentry
  exact ⟨t, ht, rfl⟩

theorem nodup_rebalanceEntries (v : PlacementView) :
    ((v.rebalanceEntries recentlyDone).map Entry.key).Nodup := by
  rw [← filterMap_eq_map]
  refine nodup_made (nodup_keys_toList v.policies) ?_
  rintro ⟨tablet, policy⟩ e key he ⟨⟩
  obtain ⟨t, -, he⟩ := Option.bind_eq_some_iff.mp he
  split_ifs at he
  cases he
  rfl

theorem follows_new (hcounted : m.Counted recentlyDone n) : Follows m.tablets n
      (new (m.placementView.rebalanceEntries recentlyDone) m.placementView.candidates) ∅ m := by
  set entries := m.placementView.rebalanceEntries recentlyDone with hentries
  set cands := m.placementView.candidates
  have hperm : (new entries cands).eligible.Perm
      (entries.filter fun e => setSatisfies e.replicas cands e.policy) := perm_insertionSort _ _
  have hkeys : ((new entries cands).eligible.map Entry.key).Nodup := by
    refine ((hperm.map Entry.key).nodup_iff).mpr ?_
    exact (nodup_rebalanceEntries recentlyDone m.placementView).sublist (filter_sublist.map Entry.key)
  refine ⟨?_, hkeys, ?_⟩
  · intro e he
    obtain ⟨t, ht, hreplicas⟩ := mem_rebalanceEntries recentlyDone (mem_filter.mp (hperm.mem_iff.mp he)).1
    have ht' : m.tablets[e.key]? = some t := ht
    refine ⟨t, ht', fun x => by rw [hreplicas], fun b hb => ?_⟩
    rw [ht'] at hb
    cases hb
    simp
  · intro count hcount
    -- each tablet on the node is an eligible entry, so the sum over the entries is at least the number of
    -- tablets
    have hhosted : m.tabletsReferencing n ≤ (new entries cands).eligible.countP fun e =>
      e.replicas.contains n := by
      rw [tabletsReferencing_eq, countP_eq_length_filter, countP_eq_length_filter, ← length_map Entry.key]
      refine List.Subperm.length_le (subperm_of_subset (nodup_keys.filter _) ?_)
      intro id hid
      obtain ⟨-, hhosts⟩ := mem_filter.mp hid
      obtain ⟨t, ht, hmem⟩ := (Option.any_eq_true _ _).mp hhosts
      obtain ⟨e, he, hkey, hsat⟩ := hcounted id t ht (by simpa using hmem)
      obtain ⟨t', ht', hreplicas⟩ := mem_rebalanceEntries recentlyDone he
      have heq : t' = t := by
        have : m.tablets[e.key]? = some t' := ht'
        rw [hkey, ht] at this
        exact (Option.some.inj this).symm
      refine mem_map.mpr ⟨e, mem_filter.mpr ⟨hperm.mem_iff.mpr (mem_filter.mpr ⟨he, hsat⟩), ?_⟩, hkey⟩
      rw [hreplicas, heq]
      exact hmem
    have hget : (new entries cands).counts[n]? =
      (cands.foldl (fun counts c => counts.insert c.node 0) (∅ : Load))[n]?.map
          (· + ((new entries cands).eligible.map fun e => e.replicas.count n).sum) :=
      foldl_countReplicas_get _ _
    rw [hget] at hcount
    obtain ⟨start, -, rfl⟩ := Option.map_eq_some_iff.mp hcount
    have hsum := countP_le_sum (n := n) Entry.replicas (new entries cands).eligible
    omega

variable {base : OrdMap TabletId Tablet} {s s' : RebalanceState TabletId} {epochs : OrdMap TabletId Epoch}
  {move : TabletId × List NodeId}

/-- The entries after a move: the moved one has its new replicas, the others are as before. -/
theorem mem_apply_eligible {i : Nat} {e x : Entry TabletId} {src dst : NodeId}
    (hkeys : (s.eligible.map Entry.key).Nodup)
    (he : s.eligible[i]? = some e) (hx : x ∈ (s.apply i src dst).eligible) :
    x = { e with replicas := RebalanceState.moved e.replicas src dst } ∨ x ∈ s.eligible ∧ x.key ≠ e.key := by
  obtain ⟨j, hj⟩ := List.mem_iff_getElem?.mp hx
  simp only [RebalanceState.apply, List.getElem?_modify] at hj
  by_cases hij : i = j
  · subst hij
    left
    simpa [he, eq_comm] using hj
  · right
    have hxj : s.eligible[j]? = some x := by simpa [hij] using hj
    refine ⟨List.mem_iff_getElem?.mpr ⟨j, hxj⟩, fun hkey => hij ?_⟩
    have hlt : i < (s.eligible.map Entry.key).length := by
      rw [List.length_map]
      exact (List.getElem?_eq_some_iff.mp he).1
    refine (List.getElem?_inj hlt hkeys).mp ?_
    simp [he, hxj, hkey]

theorem apply_keys {i : Nat} {src dst : NodeId} :
    (s.apply i src dst).eligible.map Entry.key = s.eligible.map Entry.key := by
  refine ext_getElem? fun j => ?_
  simp only [RebalanceState.apply, getElem?_map, getElem?_modify]
  cases s.eligible[j]? with
  | none => rfl
  | some e => by_cases hij : i = j <;> simp [hij]

/-- **One planned move**, applied with the epoch it was stamped with, keeps the state and the plan together. -/
theorem Follows.step (h : Follows base n s epochs m) (hmove : s.nextMove = some (move, s')) {b : Tablet}
    (hbase : base[move.1]? = some b) :
    Follows base n s' (epochs.insert move.1 (epochs[move.1]?.getD b.epoch + 1))
      (m.apply (.casTabletReplicas move.1 (epochs[move.1]?.getD b.epoch) move.2)).2 := by
  obtain ⟨i, e, src, dst, dstCount, target, he, hsrc, hdst, -, -, -, rfl, rfl⟩ := nextMove_spec hmove
  obtain ⟨t, ht, hreplicas, hepoch⟩ := h.rows e (mem_iff_getElem?.mpr ⟨i, he⟩)
  have hstamp := hepoch b hbase
  have htablets := cas_tablets (moved e.replicas src dst) ht hstamp
  have hne : src ≠ dst := fun heq => hdst (heq ▸ hsrc)
  refine ⟨?_, ?_, ?_⟩
  · intro x hx
    rw [htablets]
    rcases mem_apply_eligible h.keys he hx with rfl | ⟨hx, hkey⟩
    · refine ⟨_, by rw [get_insert, if_pos rfl], fun y => by simp, fun b' hb' => ?_⟩
      rw [get_insert, if_pos rfl, Option.getD_some, hstamp]
    · obtain ⟨t', ht', hreplicas', hepoch'⟩ := h.rows x hx
      refine ⟨t', by rw [get_insert, if_neg (Ne.symm hkey), ht'], hreplicas', fun b' hb' => ?_⟩
      rw [get_insert, if_neg (Ne.symm hkey)]
      exact hepoch' b' hb'
  · rw [apply_keys]
    exact h.keys
  · intro count hcount
    have hcounts : (s.apply i src dst).counts[n]? = _ :=
      (adjust_get _ dst (· + 1)).trans (congrArg (Option.map _) (adjust_get s.counts src (· - 1)))
    rw [hcounts, Option.map_map] at hcount
    obtain ⟨before, hbefore, rfl⟩ := Option.map_eq_some_iff.mp hcount
    have hle := h.counted before hbefore
    have hexact := referencing_cas n (moved e.replicas src dst) ht hstamp
    have hold : t.replicas.contains n = decide (n ∈ e.replicas) := by simp [contains_eq_mem, hreplicas]
    have hnew : (moved e.replicas src dst).contains n = decide ((n ∈ e.replicas ∧ n ≠ src) ∨ n = dst) := by
      simp [contains_eq_mem, mem_moved]
    rw [hold, hnew] at hexact
    dsimp only [Function.comp] at hexact ⊢
    by_cases hs : n = src
    · subst hs
      simp only [hsrc, hne, if_true, if_false, decide_true, ne_eq, not_true_eq_false, and_false, or_self,
        decide_false, Bool.toNat_true, Bool.toNat_false] at hexact ⊢
      omega
    · by_cases hd : n = dst
      · subst hd
        simp only [hdst, hs, if_true, if_false, or_true, decide_true, decide_false, Bool.toNat_true,
          Bool.toNat_false] at hexact ⊢
        omega
      · simp only [hs, hd, if_false, ne_eq, not_false_eq_true, and_true, or_false] at hexact ⊢
        omega

variable {m₀ : Metadata}

theorem nextMove_candidates (hmove : s.nextMove = some (move, s')) : s'.candidates = s.candidates := by
  obtain ⟨i, e, src, dst, dstCount, target, -, -, -, -, -, -, -, rfl⟩ := nextMove_spec hmove
  rfl

/-- A planned move respects the ceiling that was declared when the plan was made. -/
theorem Follows.step_ceiling (h : Follows base n s epochs m) (hceiling : m₀.Ceiling n ceiling)
    (hcands : s.candidates = m₀.placementView.candidates) (hbelow : m.tabletsReferencing n ≤ ceiling)
    (hmove : s.nextMove = some (move, s')) (epoch : Epoch) :
    (m.apply (.casTabletReplicas move.1 epoch move.2)).2.tabletsReferencing n ≤ ceiling := by
  obtain ⟨i, e, src, dst, dstCount, target, he, hsrc, hdst, hcount, htarget, hroom, rfl, -⟩ := nextMove_spec hmove
  obtain ⟨t, ht, hreplicas, -⟩ := h.rows e (mem_iff_getElem?.mpr ⟨i, he⟩)
  refine (m.referencing_cas_le n e.key epoch _).trans ?_
  cases hrec : recruits m.tablets n (.casTabletReplicas e.key epoch (moved e.replicas src dst)) with
  | false => exact hbelow
  | true =>
    simp only [recruits, hostedOn, ht, Option.any_some, contains_eq_mem, Bool.and_eq_true, Bool.not_eq_true',
      decide_eq_true_eq, decide_eq_false_iff_not, mem_moved, hreplicas] at hrec
    -- the only node that the move brings to the tablet is its target, which had room
    have hn : n = dst := hrec.1.resolve_left fun hmem => hrec.2 hmem.1
    subst hn
    rw [hcands] at htarget
    have hlt := hceiling.lt_of_not_full (declared_candidates _) htarget hroom
    have hle := h.counted dstCount hcount
    simp only [Bool.toNat_true]
    omega

theorem Follows.plan_ceiling (hceiling : m₀.Ceiling n ceiling) (moves : Nat) (h : Follows base n s epochs m)
    (hcands : s.candidates = m₀.placementView.candidates) (hbelow : m.tabletsReferencing n ≤ ceiling) :
    (m.run (PlacementView.stampMoves base epochs (plan moves s))).tabletsReferencing n ≤ ceiling := by
  induction moves generalizing s epochs m with
  | zero => exact hbelow
  | succ moves ih =>
    unfold plan
    cases hmove : s.nextMove with
    | none => exact hbelow
    | some next =>
      obtain ⟨move, s'⟩ := next
      simp only [PlacementView.stampMoves]
      cases hbase : base[move.1]? with
      | none => exact hbelow
      | some b =>
        exact ih (h.step hmove hbase) ((nextMove_candidates hmove).trans hcands)
          (h.step_ceiling hceiling hcands hbelow hmove _)

theorem rebalanceBatch_ceiling (h : m.Ceiling n ceiling) (hbelow : m.tabletsReferencing n ≤ ceiling)
    (hcounted : m.Counted recentlyDone n) (maxMoves : Nat) :
    (m.run (m.rebalanceBatch recentlyDone maxMoves)).tabletsReferencing n ≤ ceiling :=
  Follows.plan_ceiling h maxMoves (follows_new recentlyDone hcounted) rfl hbelow

theorem rebalance_eq_batch (m : Metadata) :
    (m.rebalance recentlyDone).toList = m.rebalanceBatch recentlyDone 1 := by
  unfold rebalance rebalanceBatch PlacementView.rebalancePlacement PlacementView.rebalancePlacementBatch
    rebalanceStep rebalancePlan plan
  cases (new (m.placementView.rebalanceEntries recentlyDone) m.placementView.candidates).nextMove with
  | none => rfl
  | some next =>
    obtain ⟨⟨tablet, replicas⟩, s'⟩ := next
    simp only [Option.map_some, Option.bind_some, PlacementView.stampMoves, plan]
    cases m.placementView.tablets[tablet]? with
    | none => rfl
    | some t => simp

variable (retargetReady : OrdSet TabletId)

/-- What the placing of a child asks for: its stored target, or a new target for it. -/
theorem placeChild_cases {v : PlacementView} {child : TabletId} {entry : SplitPlacing}
    (h : v.placeChild retargetReady child entry = some c) :
    ∃ t policy, v.tablets[child]? = some t ∧ v.policies[child]? = some policy ∧
      ((∃ target, entry.target = some target ∧ c = .casTabletReplicas child t.epoch target) ∨
        ∃ fresh, c = .retargetSplitPlacing child t.epoch (some fresh) ∧
          ((∃ target, entry.target = some target ∧ (match v.load with
              | none => replan target v.candidates policy
              | some l => replanWithLoad target v.candidates policy l) = .ok fresh) ∨
            entry.target = none ∧ (match v.load with
              | none => selectReplicas v.candidates policy
              | some l => selectReplicasBalanced v.candidates policy l) = .ok fresh)) := by
  unfold PlacementView.placeChild at h
  obtain ⟨t, ht, h⟩ := Option.bind_eq_some_iff.mp h
  obtain ⟨policy, hpolicy, h⟩ := Option.bind_eq_some_iff.mp h
  refine ⟨t, policy, ht, hpolicy, ?_⟩
  cases htarget : entry.target with
  | some target =>
    simp only [htarget] at h
    split_ifs at h with hall hsame hready
    · cases h
      exact .inl ⟨target, rfl, rfl⟩
    · split at h
      · cases h
      · rename_i fresh hfresh
        split_ifs at h
        cases h
        exact .inr ⟨fresh, rfl, .inl ⟨target, rfl, hfresh⟩⟩
  | none =>
    simp only [htarget] at h
    split at h
    · cases h
    · rename_i fresh hfresh
      cases h
      exact .inr ⟨fresh, rfl, .inr ⟨rfl, hfresh⟩⟩

theorem mem_splitPlacingReconcile (h : c ∈ m.splitPlacingReconcile retargetReady) :
    ∃ (child : TabletId) (entry : SplitPlacing), m.splitPlacing[child]? = some entry ∧
      m.placementView.placeChild retargetReady child entry = some c := by
  obtain ⟨⟨child, entry⟩, hentry, hplace⟩ := mem_filterMap.mp h
  exact ⟨child, entry, mem_toList_iff_getElem?_eq_some.mp (mem_filter.mp hentry).1, hplace⟩

/-- Driving children to their targets adds to a node one replica at most for each command that recruits it. -/
theorem splitPlacing_le : (m.run (m.splitPlacingReconcile retargetReady)).tabletsReferencing n ≤
    m.tabletsReferencing n + (m.splitPlacingReconcile retargetReady).countP (recruits m.tablets n) := by
  refine referencing_run_le _ ?_ ?_
  · intro c hc
    obtain ⟨child, entry, -, hplace⟩ := mem_splitPlacingReconcile retargetReady hc
    obtain ⟨t, policy, -, -, ⟨target, -, rfl⟩ | ⟨fresh, rfl, -⟩⟩ := placeChild_cases retargetReady hplace
    · trivial
    · trivial
  · refine nodup_made ((nodup_keys_toList m.splitPlacing).sublist (filter_sublist.map Prod.fst)) ?_
    rintro ⟨child, entry⟩ c tablet hplace hmoved
    obtain ⟨t, policy, -, -, ⟨target, -, rfl⟩ | ⟨fresh, rfl, -⟩⟩ := placeChild_cases retargetReady hplace
    · cases hmoved
      rfl
    · cases hmoved

/-- A target names a node that its predecessor did not name only where the node has room. -/
theorem retarget_room (h : m.Ceiling n ceiling) {child : TabletId} {epoch : Epoch} {fresh : List NodeId}
    (hc : .retargetSplitPlacing child epoch (some fresh) ∈ m.splitPlacingReconcile retargetReady) (hn : n ∈ fresh)
    (hnew : ∀ entry target, m.splitPlacing[child]? = some entry → entry.target = some target → n ∉ target) :
    m.tabletsReferencing n < ceiling := by
  obtain ⟨child', entry, hentry, hplace⟩ := mem_splitPlacingReconcile retargetReady hc
  obtain ⟨t, policy, -, -, ⟨target, -, heq⟩ | ⟨fresh', heq, hfresh⟩⟩ := placeChild_cases retargetReady hplace
  · cases heq
  · cases heq
    refine h.lt_of_hasRoom (declared_candidates _) ?_
    rw [h.load] at hfresh
    rcases hfresh with ⟨target, htarget, hreplan⟩ | ⟨-, hselect⟩
    · exact hasRoom_of_choose hreplan hn (hnew entry target hentry htarget)
    · obtain ⟨d, hin⟩ := mem_choose hselect hn
      rw [mem_insertionSort] at hin
      exact (mem_dropFull hin).resolve_left not_mem_nil

/-- **The planners and the ceiling of a node** that is at or below it. A repair keeps the ceiling if one
command at most brings the node a replica, and a rebalancing of any length keeps it if it counts every
tablet on the node. The placing of split children follows the targets it has stored: the node gains no more
replicas than children are driven to it, and only a node with room is named in a new target. -/
theorem planners_keep_ceiling {ceiling : Nat} (h : m.Ceiling n ceiling)
    (hbelow : m.tabletsReferencing n ≤ ceiling) :
    (∀ recentlyDone recentlyDown, (m.reconcile recentlyDone recentlyDown).countP (recruits m.tablets n) ≤ 1 →
      (m.run (m.reconcile recentlyDone recentlyDown)).tabletsReferencing n ≤ ceiling) ∧
    (∀ recentlyDone, m.Counted recentlyDone n →
      (m.run (m.rebalance recentlyDone).toList).tabletsReferencing n ≤ ceiling ∧
        ∀ maxMoves, (m.run (m.rebalanceBatch recentlyDone maxMoves)).tabletsReferencing n ≤ ceiling) ∧
        ∀ retargetReady, (m.run (m.splitPlacingReconcile retargetReady)).tabletsReferencing n ≤
          m.tabletsReferencing n + (m.splitPlacingReconcile retargetReady).countP (recruits m.tablets n) ∧
        ∀ child epoch fresh, .retargetSplitPlacing child epoch
          (some fresh) ∈ m.splitPlacingReconcile retargetReady → n ∈ fresh →
          (∀ entry target, m.splitPlacing[child]? = some entry → entry.target = some target → n ∉ target) →
          m.tabletsReferencing n < ceiling := by
  refine ⟨fun recentlyDone recentlyDown => reconcile_ceiling recentlyDone recentlyDown h hbelow, ?_, ?_⟩
  · intro recentlyDone hcounted
    refine ⟨?_, rebalanceBatch_ceiling recentlyDone h hbelow hcounted⟩
    rw [rebalance_eq_batch]
    exact rebalanceBatch_ceiling recentlyDone h hbelow hcounted 1
  · intro retargetReady
    exact ⟨splitPlacing_le retargetReady, fun child epoch fresh hc hn hnew =>
      retarget_room retargetReady h hc hn hnew⟩

/-- Two active nodes, the second with room for so many replicas. -/
def twoNodes (ceiling : Nat) : List MetaCommand :=
  [.registerNode "a" ⟨"", "", "", "", "data"⟩ ∅ none, .registerNode "b" ⟨"", "", "", "", "data"⟩ ∅ none,
    .upsertMember "a" ∅ .active, .upsertMember "b" ∅ .active, .setNodeCapacity "b" ⟨100, some ceiling⟩]

/-- Both nodes report the newest version, and the cluster goes there. -/
def newestVersion : List MetaCommand :=
  [.reportNodeVersion "a" ⟨1, 5⟩ "", .reportNodeVersion "b" ⟨1, 5⟩ "",
    .finalizeClusterVersion 1 2, .finalizeClusterVersion 2 3, .finalizeClusterVersion 3 4,
    .finalizeClusterVersion 4 5]

/-- Two tablets on the first node, each with the policy to have so many replicas. -/
def twoTablets (replicas : Nat) : List MetaCommand :=
  [.createTablet 1 (some "t") .whole ["a"], .createTablet 2 (some "u") .whole ["a"],
    .setTabletPolicy 1 (some (.simple "p" replicas)), .setTabletPolicy 2 (some (.simple "p" replicas))]

/-- Both tablets lack a replica. -/
def underRepair (ceiling : Nat) (gate : List MetaCommand) : Metadata :=
  ({} : Metadata).run (twoNodes ceiling ++ gate ++ twoTablets 2)

/-- Both tablets are on the first node; the second has what the further commands put there. -/
def unbalanced (further : List MetaCommand) : Metadata :=
  ({} : Metadata).run (twoNodes 1 ++ newestVersion ++ twoTablets 1 ++ further)

/-- A tablet without a policy on the second node. -/
def loose : List MetaCommand := [.createTablet 3 (some "w") .whole ["b"]]

/-- A tablet that lacks a replica was split where it is. -/
def cutOver : Metadata :=
  ({} : Metadata).run (twoNodes 1 ++ newestVersion ++ [.createTablet 1 (some "t") .whole ["a"],
    .setTabletPolicy 1 (some (.simple "p" 2)),
    .beginSplitInPlace 1 1 [5] ⟨2, ["a"]⟩ ⟨3, ["a"]⟩, .cutoverSplit 1 2 0])

/-- A full node gets nothing from a repair, and one with room for one replica gets one from a rebalancing. -/
theorem planners_keep_ceiling_two_nodes : (underRepair 0 newestVersion).tabletsReferencing "b" ≤ 0 ∧
      ((underRepair 0 newestVersion).run ((underRepair 0 newestVersion).reconcile ∅ ∅)).tabletsReferencing "b" ≤ 0 ∧
      (unbalanced []).tabletsReferencing "b" = 0 ∧ ((unbalanced []).rebalanceBatch ∅ 5).length = 1 ∧
      ((unbalanced []).run ((unbalanced []).rebalanceBatch ∅ 5)).tabletsReferencing "b" ≤ 1 := by
  refine ⟨by decide +kernel, ?_, by decide +kernel, by decide +kernel, ?_⟩
  · have hceiling : (underRepair 0 newestVersion).Ceiling "b" 0 :=
      ⟨by decide +kernel, ⟨100, some 0⟩, by decide +kernel, rfl⟩
    exact (planners_keep_ceiling hceiling (by decide +kernel)).1 ∅ ∅ (by decide +kernel)
  · have hceiling : (unbalanced []).Ceiling "b" 1 :=
      ⟨by decide +kernel, ⟨100, some 1⟩, by decide +kernel, rfl⟩
    have hcounted : (unbalanced []).Counted ∅ "b" := counted_of_none ∅ (by decide +kernel)
    exact ((planners_keep_ceiling hceiling (by decide +kernel)).2.1 ∅ hcounted).2 5

/-- Before the gate is open a declared ceiling does not count. With the gate open all four planners pass a
ceiling of one: a repair fills the one place twice, a rebalancing does not count a tablet without a policy,
and both children of a split are driven to the target of their parent. -/
theorem planners_pass_ceiling :
    ((underRepair 0 []).nodeCapacity["b"]? = some ⟨100, some 0⟩ ∧ (underRepair 0 []).tabletsReferencing "b" =
      0 ∧ ((underRepair 0 []).run ((underRepair 0 []).reconcile ∅ ∅)).tabletsReferencing "b" = 2) ∧
    ((underRepair 1 newestVersion).Ceiling "b" 1 ∧ (underRepair 1 newestVersion).tabletsReferencing "b" = 0 ∧
      ((underRepair 1 newestVersion).run ((underRepair 1 newestVersion).reconcile ∅ ∅)).tabletsReferencing
      "b" = 2) ∧ ((unbalanced loose).Ceiling "b" 1 ∧ (unbalanced loose).tabletsReferencing "b" = 1 ∧
      ((unbalanced loose).run ((unbalanced loose).rebalance ∅).toList).tabletsReferencing "b" = 2 ∧
      ((unbalanced loose).run ((unbalanced loose).rebalanceBatch ∅ 1)).tabletsReferencing "b" = 2) ∧
    (cutOver.Ceiling "b" 1 ∧ cutOver.tabletsReferencing "b" = 0 ∧
      (cutOver.run (cutOver.splitPlacingReconcile ∅)).tabletsReferencing "b" = 2) := by
  refine ⟨⟨?_, ?_, ?_⟩, ⟨⟨?_, ⟨100, some 1⟩, ?_, rfl⟩, ?_, ?_⟩, ⟨⟨?_, ⟨100, some 1⟩, ?_, rfl⟩, ?_, ?_, ?_⟩,
    ⟨?_, ⟨100, some 1⟩, ?_, rfl⟩, ?_, ?_⟩
  all_goals decide +kernel

end Metadata

end AnimusDb.Catalog
