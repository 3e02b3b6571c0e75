import AnimusDb.OrderedMaps

/-! Placing replicas: which nodes a policy admits, how a replica set is chosen among them, how a set is
replanned after a change of membership, and how replicas are moved from fuller nodes to emptier ones. -/

open OrderedMaps

namespace AnimusDb.Placement

abbrev NodeId := String

abbrev Labels := OrdMap String String

def defaultWeight : Nat := 100

structure Capacity where
  weight : Nat
  maxReplicas : Option Nat
deriving DecidableEq

namespace Capacity

def default : Capacity := ⟨defaultWeight, none⟩

def effectiveWeight (c : Capacity) : Nat := max c.weight 1

/-- At its ceiling: no further replica may be placed. -/
def isFull (c : Capacity) (replicas : Nat) : Bool := c.maxReplicas.any (· ≤ replicas)

def isOver (c : Capacity) (replicas : Nat) : Bool := c.maxReplicas.any (· < replicas)

end Capacity

structure Candidate where
  node : NodeId
  labels : Labels
  capacity : Capacity

structure SpreadPolicy where
  domain : String
  strict : Bool
deriving DecidableEq

structure PlacementPolicy where
  name : String
  replicationFactor : Nat
  requiredLabels : Labels
  allowedValues : OrdMap String (OrdSet String)
  spread : Option SpreadPolicy
deriving DecidableEq

def regionLabel : String := "topology.kubernetes.io/region"

def zoneLabel : String := "topology.kubernetes.io/zone"

namespace PlacementPolicy

def simple (name : String) (replicationFactor : Nat) :
    PlacementPolicy := ⟨name, replicationFactor, ∅, ∅, none⟩

variable (policy : PlacementPolicy)

def allowValues (key : String) (values : List String) : PlacementPolicy :=
  { policy with allowedValues := policy.allowedValues.insert key (Std.ExtTreeSet.ofList values compare) }

def spreadAcross (domain : String) (strict : Bool) :
    PlacementPolicy := { policy with spread := some ⟨domain, strict⟩ }

/-- One replica in each of the regions. -/
def mrsc (name : String) (regions : List String) : PlacementPolicy :=
  ((simple name 3).allowValues regionLabel regions).spreadAcross regionLabel true

def isPinned : Bool := !policy.allowedValues.isEmpty && policy.spread.any SpreadPolicy.strict

def admits (candidate : Candidate) : Bool :=
  policy.requiredLabels.toList.all (fun (k, v) => candidate.labels[k]? = some v) &&
    policy.allowedValues.toList.all fun (k, vs) => candidate.labels[k]?.any vs.contains

end PlacementPolicy

/-- Spread over zones if every member has one and there are enough of them. -/
def zoneSpreadPolicy (name : String) (replicationFactor : Nat) (members : List Labels) : PlacementPolicy :=
  let zones := members.filterMap fun labels => labels[zoneLabel]?.filter (· ≠ "")
  let policy := PlacementPolicy.simple name replicationFactor
  if members ≠ [] ∧ zones.length = members.length ∧ replicationFactor ≤ zones.dedup.length ∧
    1 < replicationFactor then
    policy.spreadAcross zoneLabel false
  else policy

inductive PlacementError where
  | insufficientCandidates (needed eligible : Nat)
  | insufficientDomains (needed available : Nat)
deriving DecidableEq

/-- A failure domain, or none where the policy has no spread. -/
abbrev Domain := Option String

abbrev Load := OrdMap NodeId Nat

def Load.of (load : Load) (node : NodeId) : Nat := load[node]?.getD 0

/-- Compare `ca / wa` with `cb / wb`. -/
def fillCmp (ca wa cb wb : Nat) : Ordering := compare (ca * wb) (cb * wa)

variable (eligible : List (NodeId × Domain)) (candidates : List Candidate) (current : List NodeId)

def candidateFor (node : NodeId) : Option Candidate := candidates.find? (·.node = node)

/-- The entries after one that is kept, without those that repeat its node. -/
def dedupAfter (kept : NodeId × Domain) : List (NodeId × Domain) → List (NodeId × Domain)
  | [] => []
  | b :: rest => if kept.1 = b.1 then dedupAfter kept rest else b :: dedupAfter b rest

/-- Keep the first of neighbours with the same node. -/
def dedupNodes : List (NodeId × Domain) → List (NodeId × Domain)
  | [] => []
  | a :: rest => a :: dedupAfter a rest

/-- The admitted candidates with their domain, by node; a node without the label of the spread is left out. -/
def eligibleDomains (policy : PlacementPolicy) : List (NodeId × Domain) :=
  let out := (candidates.filter policy.admits).filterMap fun c =>
    match policy.spread with
    | some sp => c.labels[sp.domain]?.map fun d => (c.node, some d)
    | none => some (c.node, none)
  dedupNodes (out.insertionSort fun a b => (compare a.1 b.1).isLE)

/-- Leave out the nodes at their ceiling, but for those that hold a replica already. -/
def dropFull (load : Load) (current : List NodeId) : List (NodeId × Domain) :=
  if candidates.all (fun c => c.capacity.maxReplicas.isNone) then eligible
  else eligible.filter fun (n, _) =>
    current.contains n || (candidateFor candidates n).all fun c => !c.capacity.isFull (load.of n)

/-- The nodes of each domain, in the order given. -/
def domainNodes (domain : Domain) : List NodeId :=
  (eligible.filter (·.2 = domain)).map Prod.fst

/-- Domains in their order, the missing one first. -/
def domainLE : Domain → Domain → Bool
  | none, _ => true
  | some _, none => false
  | some a, some b => (compare a b).isLE

def domainsOf : List Domain :=
  ((eligible.map Prod.snd).dedup).insertionSort fun a b => domainLE a b

/-- How many of the chosen nodes lie in a domain. -/
def countIn (chosen : List NodeId) (domain : Domain) : Nat :=
  chosen.countP fun n => (eligible.find? (·.1 = n)).any (·.2 = domain)

/-- The domain with a free node and the fewest chosen ones; the first of them in the order of domains. -/
def leastLoadedDomain (chosen : List NodeId) : Option Domain :=
  (domainsOf eligible).foldl (fun best domain =>
    if (domainNodes eligible domain).any (fun n => !chosen.contains n) &&
        best.all (fun b => countIn eligible chosen domain < countIn eligible chosen b) then some domain
    else best) none

/-- Take a free node from the least loaded domain, as often as replicas are missing. -/
def fill (eligible : List (NodeId × Domain)) : Nat → List NodeId → List NodeId
  | 0, chosen => chosen
  | missing + 1, chosen =>
    match (leastLoadedDomain eligible chosen).bind fun domain =>
        (domainNodes eligible domain).find? fun n => !chosen.contains n with
    | some node => fill eligible missing (chosen ++ [node])
    | none => chosen

def sortNodes (nodes : List NodeId) : List NodeId := nodes.insertionSort fun a b => (compare a b).isLE

/-- Choose a replica set: first those to keep, in their order, then from the least loaded domains. -/
def choose (mustKeep : List NodeId) (policy : PlacementPolicy) : Except PlacementError (List NodeId) :=
  let rf := policy.replicationFactor
  let available := (domainsOf eligible).length
  if policy.spread.any SpreadPolicy.strict && available < rf then .error (.insufficientDomains rf available)
  else
    let kept := (mustKeep.filter fun n => eligible.any (·.1 = n)).take rf
    let chosen := fill eligible (rf - kept.length) kept
    if chosen.length < rf then .error (.insufficientCandidates rf eligible.length) else .ok (sortNodes chosen)

def nodeSet (nodes : List NodeId) : List NodeId := sortNodes nodes.dedup

def selectReplicas (policy : PlacementPolicy) : Except PlacementError (List NodeId) :=
  choose (eligibleDomains candidates policy) [] policy

def weightOf (node : NodeId) : Nat :=
  (candidateFor candidates node).elim defaultWeight fun c => c.capacity.effectiveWeight

/-- The nodes with room, least full after one more replica first. -/
def selectReplicasBalanced (policy : PlacementPolicy) (load : Load) : Except PlacementError (List NodeId) :=
  let eligible := dropFull (eligibleDomains candidates policy) candidates load []
  let ordered := eligible.insertionSort fun a b =>
    ((fillCmp (load.of a.1 + 1) (weightOf candidates a.1) (load.of b.1 + 1) (weightOf candidates b.1)).then
      (compare a.1 b.1)).isLE
  choose ordered [] policy

/-- The current replicas that are still eligible. -/
def survivors : List NodeId :=
  nodeSet (current.filter fun n => eligible.any (·.1 = n))

def replanWithLoad (candidates : List Candidate) (policy : PlacementPolicy) (load : Load) :
    Except PlacementError (List NodeId) :=
  let eligible := dropFull (eligibleDomains candidates policy) candidates load current
  choose eligible (survivors eligible current) policy

def replan (candidates : List Candidate) (policy : PlacementPolicy) : Except PlacementError (List NodeId) :=
  replanWithLoad current candidates policy ∅

/-- Like `replanWithLoad`, but grow as far as the candidates allow when they are fewer than the policy asks for. -/
def replanRepairWithLoad (candidates : List Candidate) (policy : PlacementPolicy) (load : Load) :
    Except PlacementError (List NodeId) :=
  let eligible := dropFull (eligibleDomains candidates policy) candidates load current
  let keep := survivors eligible current
  if keep.length < eligible.length ∧ eligible.length < policy.replicationFactor then
    choose eligible keep { policy with replicationFactor := eligible.length }
  else choose eligible keep policy

def replanRepair (candidates : List Candidate) (policy : PlacementPolicy) :
    Except PlacementError (List NodeId) :=
  replanRepairWithLoad current candidates policy ∅

/-- The survivors of a pinned policy: one for each domain of a strict spread, the lowest. -/
def pinnedSurvivors (eligible : List (NodeId × Domain)) (strict : Bool) :
    List NodeId → List Domain → List NodeId
  | [], _ => []
  | n :: rest, taken =>
    match eligible.find? (·.1 = n) with
    | none => pinnedSurvivors eligible strict rest taken
    | some (_, d) =>
      if strict && taken.contains d then pinnedSurvivors eligible strict rest taken
      else n :: pinnedSurvivors eligible strict rest (d :: taken)

def replanPinnedWithLoad (candidates : List Candidate) (policy : PlacementPolicy) (load : Load) :
    Except PlacementError (List NodeId) :=
  let eligible := dropFull (eligibleDomains candidates policy) candidates load current
  choose eligible (pinnedSurvivors eligible (policy.spread.any SpreadPolicy.strict) (nodeSet current) []) policy

def replanPinned (candidates : List Candidate) (policy : PlacementPolicy) :
    Except PlacementError (List NodeId) :=
  replanPinnedWithLoad current candidates policy ∅

/-- The domains of the replicas are present and distinct. -/
def distinctDomains (candidates : List Candidate) (domain : String) (replicas : List NodeId) : Bool :=
  let domains := replicas.map fun r => (candidateFor candidates r).bind fun c => c.labels[domain]?
  domains.all Option.isSome && domains.Nodup

/-- The hard constraints of a policy hold of a replica set. -/
def setSatisfies (replicas : List NodeId) (candidates : List Candidate) (policy : PlacementPolicy) : Bool :=
  replicas.length = policy.replicationFactor &&
    replicas.all (fun r => (candidateFor candidates r).any policy.admits) &&
    policy.spread.all fun sp => !sp.strict || distinctDomains candidates sp.domain replicas

/-- The most replicas that share a domain. -/
def maxPerDomain (replicas : List NodeId) (candidates : List Candidate) (sp : SpreadPolicy) : Nat :=
  let domains := replicas.map fun r => (candidateFor candidates r).bind fun c => c.labels[sp.domain]?
  (domains.map fun d => domains.count d).foldl max 0

/-- A tablet that may be moved, with its replicas and its policy. -/
structure Entry (κ : Type) where
  key : κ
  replicas : List NodeId
  policy : PlacementPolicy

structure RebalanceState (κ : Type) where
  candidates : List Candidate
  /-- The entries whose replica set satisfies its policy, in the order of their keys. -/
  eligible : List (Entry κ)
  counts : Load

namespace RebalanceState

variable {κ : Type} [Ord κ]

/-- Count the replicas on candidates; nodes that are none are not counted. -/
def countReplicas (counts : Load) (replicas : List NodeId) : Load :=
  replicas.foldl (fun counts r => match counts[r]? with
    | some c => counts.insert r (c + 1)
    | none => counts) counts

def new (tablets : List (Entry κ)) (candidates : List Candidate) : RebalanceState κ :=
  let eligible := (tablets.filter fun e => setSatisfies e.replicas candidates e.policy).insertionSort
    fun a b => (compare a.key b.key).isLE
  let zero : Load := candidates.foldl (fun counts c => counts.insert c.node 0) ∅
  ⟨candidates, eligible, eligible.foldl (fun counts e => countReplicas counts e.replicas) zero⟩

variable (s : RebalanceState κ)

/-- The capacity of a node; of several candidates of one name the first counts. -/
def capacity (node : NodeId) : Capacity := (candidateFor s.candidates node).elim .default Candidate.capacity

/-- The nodes with their counts, fullest first or emptiest first. -/
def byFill (descending : Bool) : List (NodeId × Nat) :=
  s.counts.toList.insertionSort fun a b =>
    let o := fillCmp a.2 (s.capacity a.1).effectiveWeight b.2 (s.capacity b.1).effectiveWeight
    ((if descending then o.swap else o).then (compare a.1 b.1)).isLE

/-- A move from one node to another is worth considering: the target has room, and the move lowers the
larger fill of the two or the source is above its ceiling. -/
def pairMovable (src : NodeId) (srcCount : Nat) (dst : NodeId) (dstCount : Nat) : Bool :=
  src ≠ dst && !(s.capacity dst).isFull dstCount && ((s.capacity src).isOver srcCount ||
      fillCmp (dstCount + 1) (s.capacity dst).effectiveWeight srcCount (s.capacity src).effectiveWeight = .lt)

def moved (replicas : List NodeId) (src dst : NodeId) :
    List NodeId := sortNodes (replicas.filter (· ≠ src) ++ [dst])

/-- An entry can be moved from one node to another. -/
def legalMove (e : Entry κ) (src dst : NodeId) (target : Candidate) : Bool :=
  e.replicas.contains src && !e.replicas.contains dst && e.policy.admits target &&
    setSatisfies (moved e.replicas src dst) s.candidates e.policy &&
    e.policy.spread.all fun sp =>
      sp.strict || maxPerDomain (moved e.replicas src dst) s.candidates sp ≤
        maxPerDomain e.replicas s.candidates sp

/-- The first entry that can be moved between two nodes, by position. -/
def findMove (src dst : NodeId) : Option Nat :=
  (candidateFor s.candidates dst).bind fun target => s.eligible.findIdx? fun e => s.legalMove e src dst target

def apply (i : Nat) (src dst : NodeId) : RebalanceState κ :=
  { s with
    eligible := s.eligible.modify i fun e => { e with replicas := moved e.replicas src dst }
    counts :=
      let less := match s.counts[src]? with
        | some c => s.counts.insert src (c - 1)
        | none => s.counts
      match less[dst]? with
      | some c => less.insert dst (c + 1)
      | none => less }

/-- The pairs of nodes to consider, in order. -/
def pairs : List (NodeId × NodeId) :=
  (s.byFill true).flatMap fun src => (s.byFill false).filterMap fun dst =>
    if s.pairMovable src.1 src.2 dst.1 dst.2 then some (src.1, dst.1) else none

/-- The next move: the tablet with its new replicas, and the state after it. -/
def nextMove : Option ((κ × List NodeId) × RebalanceState κ) :=
  s.pairs.findSome? fun (src, dst) => do
    let i ← s.findMove src dst
    let e ← s.eligible[i]?
    some ((e.key, moved e.replicas src dst), s.apply i src dst)

/-- At most so many moves in a row. -/
def plan : Nat → RebalanceState κ → List (κ × List NodeId)
  | 0, _ => []
  | moves + 1, s =>
    match s.nextMove with
    | some (move, s') => move :: plan moves s'
    | none => []

end RebalanceState

variable {κ : Type} [Ord κ]

def rebalanceStep (tablets : List (Entry κ)) (candidates : List Candidate) : Option (κ × List NodeId) :=
  (RebalanceState.new tablets candidates).nextMove.map Prod.fst

def rebalancePlan (tablets : List (Entry κ)) (candidates : List Candidate) (maxMoves : Nat) :
    List (κ × List NodeId) :=
  RebalanceState.plan maxMoves (RebalanceState.new tablets candidates)

end AnimusDb.Placement
