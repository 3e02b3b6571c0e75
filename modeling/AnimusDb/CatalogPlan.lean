import AnimusDb.CatalogTiles

/-! The planners of placement: repair of replica sets, rebalancing, and the placing of the children of a
split. Each reads one view of the state and returns commands for it. -/

open OrderedMaps AnimusDb.Placement

namespace AnimusDb.Catalog

/-- What the planners read. -/
structure PlacementView where
  members : OrdMap NodeId Member
  capacity : OrdMap NodeId Capacity
  tablets : OrdMap TabletId Tablet
  policies : OrdMap TabletId PlacementPolicy
  splitPlacing : OrdMap TabletId SplitPlacing

namespace PlacementView

variable (v : PlacementView)

def candidates : List Candidate := activeCandidates v.members v.capacity

/-- The replicas on each node, where capacities are declared. -/
def load : Option Load := if v.capacity.isEmpty then none else some (replicaLoad v.tablets)

variable (recentlyDone : OrdSet TabletId)

/-- The tablet is left to the placing of its split, or was until just now. -/
def beingPlaced (tablet : TabletId) : Bool :=
  v.splitPlacing[tablet]?.any (fun entry => !entry.done) || recentlyDone.contains tablet

/-- The wanted replica set of a tablet, from a pool of candidates. -/
def repair (replicas : List NodeId) (policy : PlacementPolicy) (pool : List Candidate) :
    Except PlacementError (List NodeId) :=
  match v.load, policy.isPinned with
  | none, true => replanPinned replicas pool policy
  | none, false => replanRepair replicas pool policy
  | some l, true => replanPinnedWithLoad replicas pool policy l
  | some l, false => replanRepairWithLoad replicas pool policy l

/-- The tablet's own replicas that went down only recently count as candidates for it. -/
def dwelling (recentlyDown : OrdSet NodeId) (t : Tablet) : List Candidate :=
  (t.replicas.filter recentlyDown.contains).filterMap fun r => v.members[r]?.map fun m =>
    candidateOf r m v.capacity

def repairOf (recentlyDown : OrdSet NodeId) (tablet : TabletId) (policy : PlacementPolicy) : Option MetaCommand :=
  v.tablets[tablet]?.bind fun t =>
    if t.state ≠ .active then none
    else if v.beingPlaced recentlyDone tablet then none
    else match v.repair t.replicas policy (v.candidates ++ v.dwelling recentlyDown t) with
      | .error _ => none
      | .ok desired => if desired = t.replicas then none else some (.casTabletReplicas tablet t.epoch desired)

def reconcilePlacement (recentlyDown : OrdSet NodeId) : List MetaCommand :=
  v.policies.toList.filterMap fun (tablet, policy) => v.repairOf recentlyDone recentlyDown tablet policy

def rebalanceEntries : List (Entry TabletId) :=
  v.policies.toList.filterMap fun (tablet, policy) =>
    v.tablets[tablet]?.bind fun t =>
      if t.state ≠ .active then none
      else if v.beingPlaced recentlyDone tablet then none
      else some ⟨tablet, t.replicas, policy⟩

def rebalancePlacement : Option MetaCommand :=
  (rebalanceStep (v.rebalanceEntries recentlyDone) v.candidates).bind fun (tablet, replicas) =>
    v.tablets[tablet]?.map fun t => .casTabletReplicas tablet t.epoch replicas

/-- Stamp each move with the epoch its tablet has when the command is applied. -/
def stampMoves (tablets : OrdMap TabletId Tablet) : OrdMap TabletId Epoch → List (TabletId × List NodeId) →
    List MetaCommand
  | _, [] => []
  | epochs, (tablet, replicas) :: rest =>
    match tablets[tablet]? with
    | none => []
    | some t =>
      let epoch := epochs[tablet]?.getD t.epoch
      .casTabletReplicas tablet epoch replicas :: stampMoves tablets (epochs.insert tablet (epoch + 1)) rest

def rebalancePlacementBatch (maxMoves : Nat) : List MetaCommand :=
  stampMoves v.tablets ∅ (rebalancePlan (v.rebalanceEntries recentlyDone) v.candidates maxMoves)

/-- The next command for a child of a split that is not placed yet. -/
def placeChild (retargetReady : OrdSet TabletId) (child : TabletId) (entry : SplitPlacing) : Option MetaCommand :=
  v.tablets[child]?.bind fun t => v.policies[child]?.bind fun policy =>
    match entry.target with
    | some target =>
      if target.all fun n => v.candidates.any (·.node = n) then
        if target = t.replicas then none else some (.casTabletReplicas child t.epoch target)
      else if retargetReady.contains child then
        match (match v.load with
          | none => replan target v.candidates policy
          | some l => replanWithLoad target v.candidates policy l) with
        | .error _ => none
        | .ok fresh =>
          if fresh = target then none else some (.retargetSplitPlacing child t.epoch (some fresh))
      else none
    | none =>
      match (match v.load with
        | none => selectReplicas v.candidates policy
        | some l => selectReplicasBalanced v.candidates policy l) with
      | .error _ => none
      | .ok fresh => some (.retargetSplitPlacing child t.epoch (some fresh))

def splitPlacingReconcile (retargetReady : OrdSet TabletId) : List MetaCommand :=
  (v.splitPlacing.toList.filter fun entry => !entry.2.done).filterMap fun (child, entry) =>
    v.placeChild retargetReady child entry

end PlacementView

namespace Metadata

variable (m : Metadata)

/-- The view the planners get: capacities count once their gate is open. -/
def placementView : PlacementView := ⟨m.members, m.effectiveCapacities, m.tablets, m.policies, m.splitPlacing⟩

def reconcile (recentlyDone : OrdSet TabletId) (recentlyDown : OrdSet NodeId) : List MetaCommand :=
  m.placementView.reconcilePlacement recentlyDone recentlyDown

def rebalance (recentlyDone : OrdSet TabletId) :
    Option MetaCommand := m.placementView.rebalancePlacement recentlyDone

def rebalanceBatch (recentlyDone : OrdSet TabletId) (maxMoves : Nat) : List MetaCommand :=
  m.placementView.rebalancePlacementBatch recentlyDone maxMoves

def splitPlacingReconcile (retargetReady : OrdSet TabletId) : List MetaCommand :=
  m.placementView.splitPlacingReconcile retargetReady

end Metadata

end AnimusDb.Catalog
