import AnimusDb.CatalogReplay
import AnimusDb.PlacementRoom

/-! The cluster's version over all commands: versions that nodes have reported include it. -/

open OrderedMaps AnimusDb.Placement Fallible List Option

namespace AnimusDb.Catalog

namespace Metadata

variable {m m' : Metadata} {c : MetaCommand}

def Registered (m : Metadata) (node : NodeId) : Prop := m.members[node]?.isSome ∨ m.nodeAddrs[node]?.isSome

/-- Reported versions are of registered nodes and include the cluster's, which is set. -/
def VersionsHold (m : Metadata) : Prop := ∀ (node : NodeId) (v : NodeVersion), m.nodeVersions[node]? = some v →
  m.Registered node ∧ v.range.contains m.clusterVersion ∧ m.clusterVersion ≠ 0

/-- What applying a command keeps. -/
structure VersionStep (m m' : Metadata) : Prop where
  versions : m.VersionsHold → m'.VersionsHold
  rises : m'.clusterVersion = m.clusterVersion ∨ m'.clusterVersion.toNat = m.clusterVersion.toNat + 1

/-- A row that forgets no node and leaves versions alone. -/
def KeepsNodes : RowWrite → Prop
  | .member _ row => row.isSome
  | .nodeAddrs _ row => row.isSome
  | .nodeVersion .. | .clusterVersion .. => False
  | _ => True

theorem versionStep_of_rows {derived : Option (List RowWrite)} (h : Mirrored m m' derived)
    (hrows : AllRows KeepsNodes derived) : VersionStep m m' := by
  have hrow := h.rowAt hrows
  have hcluster : m'.clusterVersion = m.clusterVersion :=
    (hrow .clusterVersion).elim RowWrite.clusterVersion.inj False.elim
  refine ⟨fun hversions node v hv => ?_, .inl hcluster⟩
  have hsame : m'.nodeVersions[node]? = m.nodeVersions[node]? :=
    (hrow (.nodeVersion node)).elim (fun heq => (RowWrite.nodeVersion.inj heq).2) False.elim
  obtain ⟨hnode, hrange⟩ := hversions node v (hsame ▸ hv)
  refine ⟨hnode.imp (fun hmember => ?_) fun haddrs => ?_, by rwa [hcluster]⟩
  · exact (hrow (.member node)).elim (fun heq => (RowWrite.member.inj heq).2 ▸ hmember) fun h => h
  · exact (hrow (.nodeAddrs node)).elim (fun heq => (RowWrite.nodeAddrs.inj heq).2 ▸ haddrs) fun h => h

theorem max_one_of_ne_zero {version : ClusterVersion} (h : version ≠ 0) : max version 1 = version := by
  have hne : version.toNat ≠ 0 := fun hzero => h (UInt32.toNat_inj.mp hzero)
  apply UInt32.toNat_inj.mp
  rw [UInt32.toNat_max]
  exact max_eq_left (Nat.pos_of_ne_zero hne)

theorem mem_requiredVersionSet {node : NodeId} : node ∈ m.requiredVersionSet ↔ m.Registered node := by
  simp [requiredVersionSet, Registered]

theorem ensures_checkVersions (target : ClusterVersion) (nodes : List NodeId) :
    Ensures (fun _ => ∀ node ∈ nodes, ∃ v : NodeVersion, m.nodeVersions[node]? = some v ∧
      v.range.contains target) (m.checkVersions target nodes) := by
  induction nodes with
  | nil => exact fun _ h => absurd h not_mem_nil
  | cons node rest ih =>
    unfold checkVersions
    split
    · trivial
    · rename_i v hv
      simp only [ensures_rules]
      intro hrange
      refine ih.mono fun _ hrest => ?_
      rw [forall_mem_cons]
      exact ⟨⟨v, hv, by simpa using hrange⟩, hrest⟩

/-- What a finalisation has checked. -/
theorem ensures_finalizeClusterVersion (expected target : ClusterVersion) :
    Ensures (fun m' => m' = { m with clusterVersion := target } ∧ m.versioningActive ∧
        target.toNat = m.clusterVersionOrFirst.toNat + 1 ∧
        ∀ node, m.Registered node → ∃ v : NodeVersion, m.nodeVersions[node]? = some v ∧
          v.range.contains target)
      (m.finalizeClusterVersion expected target) := by
  simp only [finalizeClusterVersion, ensures_rules]
  intro hactive hexpected htarget _
  refine (ensures_checkVersions target m.requiredVersionSet).mono fun _ hnodes => ?_
  rw [not_not] at hexpected htarget
  refine ⟨by simpa using hactive, by rw [← hexpected, htarget], fun node hnode => ?_⟩
  exact hnodes node (mem_requiredVersionSet.mpr hnode)

/-- **Every applied command** keeps these facts. -/
theorem applyInner_versionStep (c : MetaCommand) : Ensures (VersionStep m) (m.applyInner c) := by
  cases c with
  | removeMember node =>
    have hforget : VersionStep m (m.forgetNode node) := by
      refine ⟨fun h n v hv => ?_, .inl rfl⟩
      rw [forgetNode, get_erase] at hv
      split_ifs at hv with hn
      refine (h n v hv).imp_left fun hnode => ?_
      simpa [Registered, forgetNode, hn] using hnode
    simp only [applyInner, removeMember]
    split
    · simp only [ensures_rules]
      exact ⟨fun _ => hforget, trivial⟩
    · simp only [ensures_rules]
      exact fun _ _ => hforget
  | reportNodeVersion node range build =>
    simp only [applyInner, reportNodeVersion, ensures_rules]
    intro hnode _ hrange _
    -- the era starts at the version that counts before it
    have hera : (if m.clusterVersion = 0 then 1 else m.clusterVersion) = m.clusterVersionOrFirst := by
      split_ifs with hzero
      · rw [clusterVersionOrFirst, hzero]
        rfl
      · exact (max_one_of_ne_zero hzero).symm
    refine ⟨fun h n v hv => ?_, ?_⟩
    · rw [get_insert] at hv
      split_ifs at hv with hn
      · cases hv
        subst hn
        refine ⟨?_, by simpa [hera] using hrange, by split_ifs <;> simp [*]⟩
        rw [Registered, ← contains_eq, ← contains_eq]
        grind
      · obtain ⟨hreg, hcontains, hne⟩ := h n v hv
        exact ⟨hreg, by rwa [if_neg hne], by rwa [if_neg hne]⟩
    · dsimp only
      split_ifs with hzero
      · exact .inr (by rw [hzero]; rfl)
      · exact .inl rfl
  | finalizeClusterVersion expected target =>
    refine (ensures_finalizeClusterVersion expected target).mono fun m' h => ?_
    obtain ⟨hpost, hactive, htarget, hnodes⟩ := h
    have hcluster : m.clusterVersionOrFirst = m.clusterVersion :=
      max_one_of_ne_zero (by simpa [versioningActive] using hactive)
    have hne : target ≠ 0 := by
      rintro rfl
      cases htarget
    subst hpost
    refine ⟨fun h n v hv => ⟨(h n v hv).1, ?_, hne⟩, .inr (by rw [htarget, hcluster])⟩
    obtain ⟨v', hv', hrange⟩ := hnodes n (h n v hv).1
    cases hv.symm.trans hv'
    exact hrange
  | cutoverSplit =>
    simp only [applyInner, cutoverSplit, ensures_rules]
    intros
    exact ⟨fun h => h, .inl rfl⟩
  | _ =>
    refine (applyInner_mirrored _ (by rintro _ _ _ ⟨⟩)).mono fun m' h => versionStep_of_rows h ?_
    simp only [deriveRows, policyRows, indexed, Option.bind_eq_bind, allRows_bind, allRows_some,
      forall_mem_cons, forall_mem_append, List.forall_mem_map, forall_mem_flatMap, forall_mem_ite,
      forall_mem_ifPresent, forall_mem_pruned]
    simp [KeepsNodes]

theorem apply_versionStep (m : Metadata) (c : MetaCommand) : VersionStep m (m.apply c).2 := by
  have hstep := applyInner_versionStep (m := m.prepared c) c
  have hsame := m.prepared_replicated c
  rcases m.apply_cases c with ⟨post, hpost, happly⟩ | ⟨refusal, -, happly⟩ <;>
    rw [happly] <;>
    generalize m.prepared c = m₀ at * <;>
    obtain ⟨r, index, rev⟩ := m₀ <;>
    cases hsame
  · obtain ⟨hversions, hrises⟩ := hstep.of_eq hpost
    exact ⟨hversions, hrises⟩
  · exact ⟨fun h => h, .inl rfl⟩

theorem VersionsHold.run (commands : List MetaCommand) (h : m.VersionsHold) :
    (m.run commands).VersionsHold := by
  induction commands generalizing m with
  | nil => exact h
  | cons c rest ih => exact ih ((apply_versionStep m c).versions h)

/-- **The version gate** in every reachable state: versions on record include the cluster's, which rises by
one at a time and only to a version that every registered node supports; the report of a version range that
excludes it changes nothing. -/
theorem version_gate_holds (commands : List MetaCommand) :
    let m := run {} commands
    m.VersionsHold ∧
    (∀ c, (m.apply c).2.clusterVersion = m.clusterVersion ∨
      (m.apply c).2.clusterVersion.toNat = m.clusterVersion.toNat + 1) ∧
    (∀ expected target, (m.apply (.finalizeClusterVersion expected target)).1 = .applied →
      (m.apply (.finalizeClusterVersion expected target)).2.clusterVersion = target ∧
      ∀ node, m.Registered node → ∃ v : NodeVersion, m.nodeVersions[node]? = some v ∧
        v.range.contains target) ∧
    ∀ node range build, range.contains m.clusterVersionOrFirst = false →
      (m.apply (.reportNodeVersion node range build)).2 = m := by
  intro m
  have hdefault : VersionsHold {} := by
    intro node v hv
    simp at hv
  refine ⟨hdefault.run commands, fun c => (apply_versionStep m c).rises, fun expected target happlied => ?_,
    fun node range build hrange => ?_⟩
  · rcases m.apply_cases (.finalizeClusterVersion expected target) with ⟨post, hpost, happly⟩ | ⟨refusal, -, happly⟩
    · obtain ⟨rfl, -, -, hnodes⟩ := (ensures_finalizeClusterVersion expected target).of_eq hpost
      exact ⟨by rw [happly], hnodes⟩
    · rw [happly] at happlied
      cases refusal <;> cases happlied
  · have hgate : Ensures (fun _ => range.contains m.clusterVersionOrFirst)
      (m.reportNodeVersion node range build) := by
      simp only [reportNodeVersion, ensures_rules]
      intro _ _ hcontains _
      simpa using hcontains
    rcases m.apply_cases (.reportNodeVersion node range build) with ⟨post, hpost, -⟩ | ⟨refusal, -, happly⟩
    · exact absurd (hgate.of_eq hpost) (by simp [hrange])
    · rw [happly]
      rfl

/-- A node that supports the first version only joins after the second was finalised, and stays a member. -/
theorem incompatible_node_joins :
    let m := run {} [.registerNode "a" ⟨"", "", "", "", "control"⟩ ∅ none, .reportNodeVersion "a" ⟨1, 2⟩ "",
      .finalizeClusterVersion 1 2, .registerNode "b" ⟨"", "", "", "", "data"⟩ ∅ none,
      .reportNodeVersion "b" ⟨1, 1⟩ ""]
    m.members.contains "b" ∧ m.clusterVersion = 2 ∧ VersionRange.contains ⟨1, 1⟩ m.clusterVersion = false := by
  decide +kernel

end Metadata

end AnimusDb.Catalog
