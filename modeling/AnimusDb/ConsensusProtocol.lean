import AnimusDb.ConsensusLog
import Mathlib.Data.Set.Insert

/-! A replicated-log protocol with leaders, terms and members in the log. A node's state changes by
local steps that read only the node and a growing set of facts: the messages of the protocol
together with what a proof needs to remember of them (the log a voter had, the log a leader had).
A step that depends on facts stays possible when more facts are known. -/

open QuorumSets

namespace LogConsensus

open Entry

/-- What a node is in its term; a candidate holds the votes it has collected. -/
inductive Role (N : Type) where
  | follower
  | candidate (votes : Finset N)
  | leader

structure Node (N E : Type) where
  term : Nat
  vote : Option N
  role : Role N
  log : List E
  commit : Nat

/-- What has happened in a run. -/
inductive Fact (N E : Type) where
  /-- `c` asked for votes in term `t` with log `B`. -/
  | request (t : Nat) (c : N) (B : List E)
  /-- `v` gave `c` its vote of term `t` while its log was `L`. -/
  | vote (t : Nat) (v c : N) (L : List E)
  /-- `c` won term `t` with log `B` by the votes of `V`. -/
  | elected (t : Nat) (c : N) (B : List E) (V : Finset N)
  /-- The leader `c` of term `t` had log `L`. -/
  | lead (t : Nat) (c : N) (L : List E)
  /-- `v` told the leader `c` of term `t` that its log starts with `A`. -/
  | ack (t : Nat) (v c : N) (A : List E)
  /-- The leader `c` of term `t`, whose log was `L`, saw its part `K` committed. -/
  | committed (t : Nat) (c : N) (K L : List E)

structure State (N E : Type) where
  node : N → Node N E
  facts : Set (Fact N E)

variable {N E : Type} [DecidableEq N] [Entry N E]

/-- The local steps of node `n` that the facts `F` allow, with the facts that they add. -/
inductive Local (m0 : Finset N) (F : Set (Fact N E)) (n : N) :
    Node N E → Node N E → Set (Fact N E) → Prop
  /-- A later term was seen. -/
  | bump {nd} (t : Nat) (hterm : nd.term < t) :
      Local m0 F n nd { nd with term := t, vote := none, role := .follower } ∅
  /-- A candidacy or leadership is given up. -/
  | demote {nd} : Local m0 F n nd { nd with role := .follower } ∅
  /-- A member stands for the next term and votes for itself. -/
  | campaign {nd} (hmem : n ∈ memberSet m0 nd.log) :
      Local m0 F n nd { nd with term := nd.term + 1, vote := some n, role := .candidate {n} }
        {.request (nd.term + 1) n nd.log, .vote (nd.term + 1) n n nd.log}
  /-- The vote of this term goes to a candidate whose log is up to date. -/
  | grant {nd} (c : N) (B : List E) (hreq : .request nd.term c B ∈ F) (hfree : nd.vote = none)
      (hup : UpToDate B nd.log) :
      Local m0 F n nd { nd with vote := some c } {.vote nd.term n c nd.log}
  /-- A candidate counts a member's vote. -/
  | collect {nd} (v : N) (L : List E) (vs : Finset N) (hrole : nd.role = .candidate vs)
      (hvote : .vote nd.term v n L ∈ F) (hmem : v ∈ memberSet m0 nd.log) :
      Local m0 F n nd { nd with role := .candidate (insert v vs) } ∅
  /-- A candidate with a majority leads, and appends an entry of its term. -/
  | lead {nd} (vs : Finset N) (e : E) (hrole : nd.role = .candidate vs)
      (hmaj : majority (memberSet m0 nd.log).card ≤ vs.card) (hterm : Entry.term e = nd.term)
      (hmem : members e = none) :
      Local m0 F n nd { nd with role := .leader, log := nd.log ++ [e] }
        {.elected nd.term n nd.log vs, .lead nd.term n (nd.log ++ [e]), .ack nd.term n n (nd.log ++ [e])}
  /-- A leader appends an ordinary entry. -/
  | propose {nd} (e : E) (hrole : nd.role = .leader) (hterm : Entry.term e = nd.term)
      (hmem : members e = none) :
      Local m0 F n nd { nd with log := nd.log ++ [e] }
        {.lead nd.term n (nd.log ++ [e]), .ack nd.term n n (nd.log ++ [e])}
  /-- A leader that has committed an entry of its term, and every earlier change of the members,
  changes them by at most one. -/
  | reconfigure {nd} (e : E) (C : Finset N) (K L : List E) (hrole : nd.role = .leader)
      (hterm : Entry.term e = nd.term) (hmem : members e = some C)
      (hcommitted : .committed nd.term n K L ∈ F) (hlog : L <+: nd.log)
      (hsettled : ∀ P x, P ++ [x] <+: nd.log → (members x).isSome → P ++ [x] <+: K) (hself : n ∈ C)
      (hadj : Adjacent (memberSet m0 nd.log) C) :
      Local m0 F n nd { nd with log := nd.log ++ [e] }
        {.lead nd.term n (nd.log ++ [e]), .ack nd.term n n (nd.log ++ [e])}
  /-- A leader commits an entry of its term that a majority has acknowledged. -/
  | commit {nd} (k : Nat) (Q : Finset N) (hrole : nd.role = .leader) (hnew : nd.commit < k)
      (hlen : k ≤ nd.log.length) (hterm : lastTerm (nd.log.take k) = nd.term)
      (hmaj : IsMajority (memberSet m0 nd.log) Q)
      (hack : ∀ v ∈ Q, ∃ A, .ack nd.term v n A ∈ F ∧ k ≤ A.length) :
      Local m0 F n nd { nd with commit := k } {.committed nd.term n (nd.log.take k) nd.log}
  /-- A part of the leader's log that this node has is acknowledged. -/
  | acceptHeld {nd} (c : N) (L M : List E) (hlead : .lead nd.term c L ∈ F) (hM : M <+: L)
      (hheld : M <+: nd.log) :
      Local m0 F n nd { nd with role := .follower } {.ack nd.term n c M}
  /-- A part of the leader's log that this node does not have replaces its log. -/
  | acceptNew {nd} (c : N) (L M : List E) (hlead : .lead nd.term c L ∈ F) (hM : M <+: L)
      (hnew : ¬ M <+: nd.log) :
      Local m0 F n nd { nd with role := .follower, log := M } {.ack nd.term n c M}
  /-- The commit index follows what some leader saw committed. -/
  | learn {nd} (t : Nat) (c : N) (K L : List E) (k : Nat) (hcommitted : .committed t c K L ∈ F)
      (hterm : t ≤ nd.term) (hnew : nd.commit < k) (hlen : k ≤ nd.log.length)
      (hk : nd.log.take k <+: K) :
      Local m0 F n nd { nd with commit := k } ∅
  /-- What is known to be committed is acknowledged to the leader of the term. -/
  | ackCommitted {nd} (c : N) (L : List E) (k : Nat) (hlead : .lead nd.term c L ∈ F)
      (hk : k ≤ nd.commit) :
      Local m0 F n nd nd {.ack nd.term n c (nd.log.take k)}
  /-- A restart keeps term, vote and log, and forgets part of what it knew to be committed. -/
  | restart {nd} (k : Nat) (hk : k ≤ nd.commit) :
      Local m0 F n nd { nd with role := .follower, commit := k } ∅

theorem Local.mono {m0 : Finset N} {F G : Set (Fact N E)} {n : N} {nd nd' : Node N E}
    {new : Set (Fact N E)} (hFG : F ⊆ G) (h : Local m0 F n nd nd' new) : Local m0 G n nd nd' new := by
  cases h with
  | bump t hterm => exact .bump t hterm
  | demote => exact .demote
  | campaign hmem => exact .campaign hmem
  | grant c B hreq hfree hup => exact .grant c B (hFG hreq) hfree hup
  | collect v L vs hrole hvote hmem => exact .collect v L vs hrole (hFG hvote) hmem
  | lead vs e hrole hmaj hterm hmem => exact .lead vs e hrole hmaj hterm hmem
  | propose e hrole hterm hmem => exact .propose e hrole hterm hmem
  | reconfigure e C K L hrole hterm hmem hc hlog hs hself hadj =>
    exact .reconfigure e C K L hrole hterm hmem (hFG hc) hlog hs hself hadj
  | commit k Q hrole hnew hlen hterm hmaj hack =>
    refine .commit k Q hrole hnew hlen hterm hmaj fun v hv => ?_
    obtain ⟨A, hA, hk⟩ := hack v hv
    exact ⟨A, hFG hA, hk⟩
  | acceptHeld c L M hlead hM hheld => exact .acceptHeld c L M (hFG hlead) hM hheld
  | acceptNew c L M hlead hM hnew => exact .acceptNew c L M (hFG hlead) hM hnew
  | learn t c K L k hc hterm hnew hlen hk => exact .learn t c K L k (hFG hc) hterm hnew hlen hk
  | ackCommitted c L k hlead hk => exact .ackCommitted c L k (hFG hlead) hk
  | restart k hk => exact .restart k hk

variable (s : State N E)

/-- The state after node `n` became `nd` and `new` became known. -/
def State.update (n : N) (nd : Node N E) (new : Set (Fact N E)) : State N E where
  node := Function.update s.node n nd
  facts := s.facts ∪ new

omit [Entry N E] in
@[simp]
theorem State.update_node_self (n : N) (nd : Node N E) (new : Set (Fact N E)) :
    (s.update n nd new).node n = nd := by
  simp [State.update]

omit [Entry N E] in
theorem State.update_node_of_ne {n v : N} (nd : Node N E) (new : Set (Fact N E))
    (hv : v ≠ n) : (s.update n nd new).node v = s.node v := by
  simp [State.update, Function.update_of_ne hv]

omit [Entry N E] in
@[simp]
theorem State.update_facts (n : N) (nd : Node N E) (new : Set (Fact N E)) :
    (s.update n nd new).facts = s.facts ∪ new := rfl

def State.initial : State N E where
  node _ := { term := 0, vote := none, role := .follower, log := [], commit := 0 }
  facts := ∅

inductive Reachable (m0 : Finset N) : State N E → Prop
  | initial : Reachable m0 State.initial
  | step {s : State N E} {n : N} {nd : Node N E} {new : Set (Fact N E)} (hs : Reachable m0 s)
      (hstep : Local m0 s.facts n (s.node n) nd new) : Reachable m0 (s.update n nd new)

variable {t : Nat}

variable {N E : Type} [Entry N E]

/-- Every entry of the log comes from a leader of its term, together with what precedes it. -/
def Good (F : Set (Fact N E)) (L : List E) : Prop :=
  ∀ P e, P ++ [e] <+: L → ∃ c L', .lead (term e) c L' ∈ F ∧ P ++ [e] <+: L'

variable {F : Set (Fact N E)} {L : List E}

theorem Good.restrict {P : List E} (h : Good F L) (hP : P <+: L) : Good F P :=
  fun Q e hQ => h Q e (hQ.trans hP)

variable {G : Set (Fact N E)}

theorem Good.mono (hFG : F ⊆ G) (h : Good F L) : Good G L := by
  intro P e hP
  obtain ⟨c, L', hlead, hpre⟩ := h P e hP
  exact ⟨c, L', hFG hlead, hpre⟩

/-- The part `K` of the log `L` of a leader `c` of term `t` is acknowledged by a majority of the
members of `L`, and ends in an entry of that term. -/
structure Backed (m0 : Finset N) (F : Set (Fact N E)) (t : Nat) (c : N) (K L : List E) : Prop where
  base : ∃ B V, .elected t c B V ∈ F ∧ Extends t B L ∧ B.length < K.length
  inLog : K <+: L
  led : ∃ L', .lead t c L' ∈ F ∧ K <+: L'
  quorum : ∃ Q, IsMajority (memberSet m0 L) Q ∧ ∀ v ∈ Q, ∃ A, .ack t v c A ∈ F ∧ K <+: A

variable {m0 : Finset N} {c : N} {K : List E}

theorem Backed.mono (hFG : F ⊆ G) (h : Backed m0 F t c K L) : Backed m0 G t c K L := by
  obtain ⟨⟨B, V, hB, hext, hlen⟩, hin, ⟨L', hL', hK⟩, Q, hQ, hack⟩ := h
  refine ⟨⟨B, V, hFG hB, hext, hlen⟩, hin, ⟨L', hFG hL', hK⟩, Q, hQ, fun v hv => ?_⟩
  obtain ⟨A, hA, hKA⟩ := hack v hv
  exact ⟨A, hFG hA, hKA⟩

theorem Backed.ne_nil (h : Backed m0 F t c K L) : K ≠ [] := by
  obtain ⟨B, V, -, -, hlen⟩ := h.base
  rintro rfl
  simp at hlen

theorem Backed.lastTerm_eq (h : Backed m0 F t c K L) : lastTerm K = t := by
  obtain ⟨B, V, -, hext, hlen⟩ := h.base
  exact hext.lastTerm_eq h.inLog hlen

variable [DecidableEq N]

/-- Every change of the members was made by a leader of its term that had committed an entry of
that term and every earlier change, and it changed at most one member. -/
def Ruled (m0 : Finset N) (F : Set (Fact N E)) (L : List E) : Prop :=
  ∀ P e C, P ++ [e] <+: L → members e = some C → ∃ c K, Backed m0 F (term e) c K P ∧
      (∀ Q x, Q ++ [x] <+: P → (members x).isSome → Q ++ [x] <+: K) ∧
      Adjacent (memberSet m0 P) C ∧ c ∈ C

theorem Ruled.restrict {P : List E} (h : Ruled m0 F L) (hP : P <+: L) : Ruled m0 F P :=
  fun Q e C hQ he => h Q e C (hQ.trans hP) he

theorem Ruled.mono (hFG : F ⊆ G) (h : Ruled m0 F L) : Ruled m0 G L := by
  intro P e C hP he
  obtain ⟨c, K, hb, hs, hadj, hc⟩ := h P e C hP he
  exact ⟨c, K, hb.mono hFG, hs, hadj, hc⟩

/-- What the voters of a candidate's majority guarantee. The last clause is their promise: what
such a voter acknowledged in an earlier term, and every other leader up to the term of the vote had
at the start, was in the voter's log when it voted. -/
structure Ballot (m0 : Finset N) (F : Set (Fact N E)) (t : Nat) (c : N) (B : List E)
    (V : Finset N) : Prop where
  good : Good F B
  ruled : Ruled m0 F B
  ordered : Ordered B
  below : ∀ e ∈ B, term e < t
  quorum : IsMajority (memberSet m0 B) V
  self : c ∈ V
  voters : ∀ v ∈ V, ∃ L, .vote t v c L ∈ F ∧ UpToDate B L ∧ Good F L ∧ Ordered L ∧
    ∀ u d A K, .ack u v d A ∈ F → u < t → K <+: A →
      (∀ t' c' B' V', .elected t' c' B' V' ∈ F → u < t' → t' ≤ t → ¬ (t' = t ∧ c' = c) → K <+: B') → K <+: L

/-- What each fact rests on. -/
def Justified (m0 : Finset N) (F : Set (Fact N E)) : Fact N E → Prop
  | .request _ _ _ => True
  | .vote t _ c L => (∃ B, .request t c B ∈ F ∧ UpToDate B L) ∧ Good F L ∧ Ordered L
  | .elected t c B V => Ballot m0 F t c B V
  | .lead t c L => (∃ B V, .elected t c B V ∈ F ∧ Extends t B L ∧ B.length < L.length) ∧
      Ruled m0 F L ∧ .ack t c c L ∈ F
  | .ack t _ c A => ∃ L, .lead t c L ∈ F ∧ A <+: L
  | .committed t c K L => Backed m0 F t c K L ∧ .lead t c L ∈ F

/-- The relations between facts that runs keep. -/
structure Sound (m0 : Finset N) (F : Set (Fact N E)) : Prop where
  justified : ∀ f ∈ F, Justified m0 F f
  requestUnique : ∀ {t c B B'}, .request t c B ∈ F → .request t c B' ∈ F → B = B'
  voteUnique : ∀ {t v c c' L L'}, .vote t v c L ∈ F → .vote t v c' L' ∈ F → c = c' ∧ L = L'
  electedUnique : ∀ {t c c' B B' V V'}, .elected t c B V ∈ F → .elected t c' B' V' ∈ F → c = c' ∧ B = B' ∧ V = V'
  leadChain : ∀ {t c L L'}, .lead t c L ∈ F → .lead t c L' ∈ F → L <+: L' ∨ L' <+: L

namespace Sound

section

variable (hs : Sound m0 F)

include hs

theorem ballot {B : List E} {V : Finset N} (h : .elected t c B V ∈ F) : Ballot m0 F t c B V :=
  hs.justified _ h

theorem leadBase (h : .lead t c L ∈ F) : ∃ B V, .elected t c B V ∈ F ∧ Extends t B L ∧ B.length < L.length :=
  (hs.justified _ h).1

theorem leadRuled (h : .lead t c L ∈ F) : Ruled m0 F L :=
  (hs.justified _ h).2.1

theorem ackSelf (h : .lead t c L ∈ F) : .ack t c c L ∈ F :=
  (hs.justified _ h).2.2

theorem ackLed {v : N} {A : List E} (h : .ack t v c A ∈ F) : ∃ L, .lead t c L ∈ F ∧ A <+: L :=
  hs.justified _ h

theorem committedBacked (h : .committed t c K L ∈ F) : Backed m0 F t c K L :=
  (hs.justified _ h).1

theorem committedLed (h : .committed t c K L ∈ F) : .lead t c L ∈ F :=
  (hs.justified _ h).2

theorem committedRuled (h : .committed t c K L ∈ F) : Ruled m0 F L :=
  hs.leadRuled (hs.committedLed h)

end

end Sound

end LogConsensus
