import AnimusDb.ItemWire
import AnimusDb.TabletEffects

/-! The retry loop of a single-item write. An attempt is evaluated by the leader against the item as it then
is, and its answer may be lost or turned into an error after it took effect. The loop repeats the attempts
of a write that it takes for repeatable. -/

open AnimusDb.Items Option List

namespace AnimusDb.Tablet

/-- Whether a text contains another. -/
def containsText (text part : String) : Bool := decide (part.toList <:+: text.toList)

def isStorageFullRefusal (e : String) : Bool := containsText e "StorageFull:"

def isBusyRefusal (e : String) : Bool := containsText e "Busy: "

def isNoLeaderRefusal (e : String) : Bool := containsText e "NoLeader: "

def isOverloadRefusal (e : String) : Bool := isBusyRefusal e || isNoLeaderRefusal e

def readShouldRetry (e : String) : Bool := decide ("; retry".toList <:+ e.toList) && !isOverloadRefusal e

def forwardedGateRefusal : String :=
  "Busy: this node is at its forwarded-request limit (max_forwarded_inflight); retry"

def serviceUnavailable (message : String) : WireError := ⟨"ServiceUnavailable", message⟩

/-- The code of an overload refusal at the final return. -/
def mapOverload (err : WireError) : WireError :=
  if err.code ≠ "InternalServerError" ∧ err.code ≠ "ServiceUnavailable" then err
  else if isNoLeaderRefusal err.message ||
    containsText err.message forwardedGateRefusal then serviceUnavailable err.message
  else if isBusyRefusal err.message then ⟨"ThrottlingException", err.message⟩
  else err

def rejectedWireError (code message : String) : WireError :=
  if code = "ValidationException" then .validation message else ⟨"InternalServerError",
    code ++ ": " ++ message⟩

variable {Cond : Type}

/-- Whether the loop takes a write for repeatable. -/
def kindWriteIsIdempotent : KindEvalOp → Bool
  | .put _ | .delete => true
  | .replicate .. => false
  | .update _ actions => !actions.any fun
      | .add _ (.N _) => true
      | _ => false

/-- A hop of a forwarded attempt that brings no answer. It met no leader, or its answer came too late. -/
inductive Hop where
  | unserved
  | unheard (stamp : Option MrecStamp)

/-- How an attempt ends. A leader may have evaluated the write although the report is an error: the
confirmation timed out or was superseded, or the chase for the leader used up its budget. -/
inductive Ending where
  | served (stamp : Option MrecStamp)
  | misreported (stamp : Option MrecStamp) (err : WireError)
  | refused (err : WireError)

/-- One attempt, and whether the deadline had passed after it and after the pause that follows. -/
structure Attempt where
  hops : List Hop
  ending : Ending
  late : Bool
  lateAfterSleep : Bool

inductive KindWriteOutcome where
  | ok (old new : Option Item)
  | conditionFailed

variable (items : ItemLayer Cond) (e : KindEvalEntry Cond)

/-- The stored item and its stamp. -/
abbrev Stored := Option Item × Option MrecVersion

/-- The leader evaluates the write in commit order. There is no result where the evaluation panics. -/
def serve (stamp : Option MrecStamp) (s : Stored) : Option (KindEvalDecision × Stored) := do
  let decision ← evaluateKindEval items { e with schema := { e.schema with mrec := stamp } } s.1 s.2
  match decision with
  | .applied _ _ _ new newVer => some (decision, new, newVer)
  | _ => some (decision, s)

def kindWriteItemAtLeader : KindEvalDecision → Except WireError KindWriteOutcome
  | .applied _ _ old new _ => .ok (.ok old new)
  | .conditionFailed => .ok .conditionFailed
  | .rejected code message => .error (rejectedWireError code message)
  | .superseded _ => .error ⟨"InternalServerError",
      "a client write came back superseded (MREC replicate result on a client path)"⟩

def Hop.run (s : Stored) : Hop → Option Stored
  | .unserved => some s
  | .unheard stamp => (serve items e stamp s).map Prod.snd

def Ending.run (s : Stored) : Ending → Option (Except WireError KindWriteOutcome × Stored)
  | .served stamp => (serve items e stamp s).map fun served => (kindWriteItemAtLeader served.1, served.2)
  | .misreported stamp err => (serve items e stamp s).map fun served => (.error err, served.2)
  | .refused err => some (.error err, s)

/-- Whether the loop goes on after an error, time permitting. -/
def retried (err : WireError) : Bool :=
  kindWriteIsIdempotent e.op && readShouldRetry err.message && !isStorageFullRefusal err.message

/-- The loop of `cp_kind_write_item`, and the item it leaves. While it still runs there is no result. -/
def retryLoop : Stored → List Attempt → Option (Option (Except WireError KindWriteOutcome) × Stored)
  | s, [] => some (none, s)
  | s, a :: rest => do
    let reached ← a.hops.foldlM (Hop.run items e) s
    match ← a.ending.run items e reached with
    | (.ok outcome, s') => some (some (.ok outcome), s')
    | (.error err, s') =>
      if !retried e err || a.late then
        some (some (.error
          (if readShouldRetry err.message then serviceUnavailable err.message else mapOverload err)), s')
      else if a.lateAfterSleep then some (some (.error (serviceUnavailable err.message)), s')
      else retryLoop s' rest

/-- A single-item write. Provisioning the table's first tablet and the tablet's permit come before the loop. -/
def cpKindWriteItem (before : Except WireError Unit) (s : Stored) (attempts : List Attempt) :
    Option (Option (Except WireError KindWriteOutcome) × Stored) :=
  match before with
  | .error err => some (some (.error err), s)
  | .ok _ => retryLoop items e s attempts

/-- What one application of a write makes of an item whose condition holds. -/
def appliedTo (old : Option Item) : Option (Option Item) :=
  match checkCondition items e.condition old, localResult e.op old with
  | some none, some (.ok new) => some new
  | _, _ => none

/-- Evaluated again, the write leaves the item, and does not report that the condition failed. -/
def Settles (item : Option Item) : Prop :=
  appliedTo items e item = some item ∨
    (appliedTo items e item = none ∧ checkCondition items e.condition item ≠ some (some .conditionFailed))

/-- The write settles on its own result. -/
def Repeatable (old : Option Item) : Prop := ∀ new, appliedTo items e old = some new → Settles items e new

def Hop.evaluations : Hop → Nat
  | .unserved => 0
  | .unheard _ => 1

def Ending.evaluations : Ending → Nat
  | .refused _ => 0
  | .served _ | .misreported .. => 1

/-- How often the write is evaluated in the attempts that the loop makes. -/
def evaluations : Stored → List Attempt → Nat
  | _, [] => 0
  | s, a :: rest => (a.hops.map Hop.evaluations).sum + (a.ending.evaluations +
    match a.hops.foldlM (Hop.run items e) s >>= a.ending.run items e with
    | some (.error err, s') => if !retried e err || a.late || a.lateAfterSleep then 0 else evaluations s' rest
    | _ => 0)

/-- The item was written at most once, and the report is true. -/
def Truthful (old : Option Item) (s : Stored) : Except WireError KindWriteOutcome → Prop
  | .ok (.ok _ new) => s.1 = new ∧ appliedTo items e old = some new
  | .ok .conditionFailed => s.1 = old
  | .error _ => s.1 = old ∨ appliedTo items e old = some s.1

variable {items e} {old : Option Item} {s s' : Stored} {stamp : Option MrecStamp} {decision : KindEvalDecision}

theorem serve_local (hop : e.op.isReplicate = false) : serve items e stamp s =
    (evaluateLocal items { e with schema := { e.schema with mrec := stamp } } s.1 s.2).bind fun decision =>
      match decision with
      | .applied _ _ _ new newVer => some (decision, new, newVer)
      | _ => some (decision, s) := by
  unfold serve evaluateKindEval
  split
  · rename_i item ver heq
    rw [show e.op = .replicate item ver from heq] at hop
    cases hop
  · rfl

theorem serve_applied (stamp : Option MrecStamp) (hop : e.op.isReplicate = false) {new : Option Item}
    (h : appliedTo items e s.1 = some new) :
    ∃ decision ver, serve items e stamp s = some (decision, new, ver) ∧
      kindWriteItemAtLeader decision = .ok (.ok s.1 new) := by
  rw [serve_local hop]
  unfold appliedTo at h
  split at h
  · rename_i folded hcondition hresult
    cases h
    simp only [evaluateLocal, hcondition, hresult]
    exact ⟨_, _, rfl, rfl⟩
  · cases h

theorem serve_conditionFailed (hop : e.op.isReplicate = false)
    (h : checkCondition items e.condition s.1 = some (some .conditionFailed)) :
    serve items e stamp s = some (.conditionFailed, s) := by
  rw [serve_local hop]
  simp only [evaluateLocal, h]
  rfl

/-- An evaluation either applies the operation once or leaves the item. -/
theorem serve_cases (hop : e.op.isReplicate = false) (h : serve items e stamp s = some (decision, s')) :
    (appliedTo items e s.1 = some s'.1 ∧ kindWriteItemAtLeader decision = .ok (.ok s.1 s'.1)) ∨
      (appliedTo items e s.1 = none ∧ s' = s ∧
      ((checkCondition items e.condition s.1 = some (some .conditionFailed) ∧
        kindWriteItemAtLeader decision = .ok .conditionFailed) ∨
        ∃ err, kindWriteItemAtLeader decision = .error err)) := by
  rw [serve_local hop] at h
  obtain ⟨verdict, hlocal, h⟩ := bind_eq_some_iff.mp h
  obtain ⟨refusal, hcondition, hlocal⟩ := bind_eq_some_iff.mp hlocal
  cases refusal with
  | some refused =>
    cases hlocal
    have hnone : appliedTo items e s.1 = none := by
      simp only [appliedTo, show checkCondition items e.condition s.1 = _ from hcondition]
    rcases checkCondition_refuses hcondition with rfl | ⟨code, message, rfl⟩ <;> cases h
    · exact .inr ⟨hnone, rfl, .inl ⟨hcondition, rfl⟩⟩
    · exact .inr ⟨hnone, rfl, .inr ⟨_, rfl⟩⟩
  | none =>
    obtain ⟨folded, hresult, hlocal⟩ := bind_eq_some_iff.mp hlocal
    have happlied : appliedTo items e s.1 = folded.toOption := by
      simp only [appliedTo, show checkCondition items e.condition s.1 = _ from hcondition,
        show localResult e.op s.1 = _ from hresult]
      cases folded <;> rfl
    cases folded with
    | error refused =>
      cases hlocal
      obtain ⟨code, message, rfl⟩ := localResult_refuses hresult
      cases h
      exact .inr ⟨happlied, rfl, .inr ⟨_, rfl⟩⟩
    | ok new =>
      cases hlocal
      cases h
      exact .inl ⟨happlied, rfl⟩

/-- The item is as the call found it, or one application further; where `n` evaluations follow, they do no harm. -/
def Once (items : ItemLayer Cond) (e : KindEvalEntry Cond) (old : Option Item) (n : Nat) (s : Stored) : Prop :=
  (s.1 = old ∧ (n ≤ 1 ∨ Repeatable items e old)) ∨
    (appliedTo items e old = some s.1 ∧ (n = 0 ∨ Settles items e s.1))

variable {n : Nat}

theorem Once.error (h : Once items e old n s) (err : WireError) : Truthful items e old s (.error err) :=
  h.imp And.left And.left

/-- An evaluation is reported truly, and so is an error in its place. -/
theorem Once.serve (hop : e.op.isReplicate = false) (h : Once items e old (1 + n) s)
    (hserve : serve items e stamp s = some (decision, s')) :
    Once items e old n s' ∧ Truthful items e old s' (kindWriteItemAtLeader decision) := by
  rcases serve_cases hop hserve with ⟨hnew, hreport⟩ | ⟨hnone, rfl, hreport⟩
  · have honce : appliedTo items e old = some s'.1 ∧ (n = 0 ∨ Settles items e s'.1) := by
      rcases h with ⟨rfl, hone | hrep⟩ | ⟨hold, hzero | hsettled⟩
      · exact ⟨hnew, .inl (by omega)⟩
      · exact ⟨hnew, .inr (hrep _ hnew)⟩
      · omega
      · have hsame : s.1 = s'.1 := by
          rcases hsettled with hself | ⟨hnone, -⟩
          · exact some.inj (hself.symm.trans hnew)
          · exact absurd (hnone.symm.trans hnew) (by simp)
        exact hsame ▸ ⟨hold, .inr hsettled⟩
    rw [hreport]
    exact ⟨.inr honce, rfl, honce.1⟩
  · have hnext : Once items e old n s' := by
      rcases h with ⟨hold, hone | hrep⟩ | ⟨hold, hzero | hsettled⟩
      · exact .inl ⟨hold, .inl (by omega)⟩
      · exact .inl ⟨hold, .inr hrep⟩
      · omega
      · exact .inr ⟨hold, .inr hsettled⟩
    refine ⟨hnext, ?_⟩
    rcases hreport with ⟨hfailed, hreport⟩ | ⟨err, hreport⟩ <;> rw [hreport]
    · rcases h with ⟨hold, -⟩ | ⟨-, hzero | hself | ⟨-, hsettled⟩⟩
      · exact hold
      · omega
      · exact absurd (hself.symm.trans hnone) (by simp)
      · exact absurd hfailed hsettled
    · exact hnext.error err

theorem Once.hops (hop : e.op.isReplicate = false) {hops : List Hop}
    (h : Once items e old ((hops.map Hop.evaluations).sum + n) s)
    (hrun : hops.foldlM (Hop.run items e) s = some s') : Once items e old n s' := by
  induction hops generalizing s with
  | nil =>
    cases hrun
    rwa [map_nil, sum_nil, Nat.zero_add] at h
  | cons hop' rest ih =>
    obtain ⟨mid, hmid, hrun⟩ := bind_eq_some_iff.mp hrun
    rw [map_cons, sum_cons, Nat.add_assoc] at h
    refine ih ?_ hrun
    cases hop' with
    | unserved =>
      cases hmid
      rwa [Hop.evaluations, Nat.zero_add] at h
    | unheard stamp =>
      obtain ⟨⟨decision, mid'⟩, hserve, rfl⟩ := map_eq_some_iff.mp hmid
      exact (h.serve hop hserve).1

/-- What an attempt reports is true of the item it leaves. -/
theorem Once.ending (hop : e.op.isReplicate = false) {ending : Ending} {reply : Except WireError KindWriteOutcome}
    (h : Once items e old (ending.evaluations + n) s) (hending : ending.run items e s = some (reply, s')) :
    Once items e old n s' ∧ Truthful items e old s' reply := by
  cases ending with
  | refused err =>
    cases hending
    rw [Ending.evaluations, Nat.zero_add] at h
    exact ⟨h, h.error err⟩
  | served stamp =>
    obtain ⟨⟨decision, left⟩, hserve, heq⟩ := map_eq_some_iff.mp hending
    cases heq
    exact h.serve hop hserve
  | misreported stamp err =>
    obtain ⟨⟨decision, left⟩, hserve, heq⟩ := map_eq_some_iff.mp hending
    cases heq
    have hnext := (h.serve hop hserve).1
    exact ⟨hnext, hnext.error err⟩

theorem retryLoop_truthful (hop : e.op.isReplicate = false) {attempts : List Attempt}
    {result : Except WireError KindWriteOutcome} (hs : Once items e old (evaluations items e s attempts) s)
    (hrun : retryLoop items e s attempts = some (some result, s')) : Truthful items e old s' result := by
  induction attempts generalizing s with
  | nil => cases hrun
  | cons a rest ih =>
    obtain ⟨reached, hhops, hrun⟩ := bind_eq_some_iff.mp hrun
    obtain ⟨⟨reply, s₁⟩, hending, hrun⟩ := bind_eq_some_iff.mp hrun
    obtain ⟨hnext, htrue⟩ := (hs.hops hop hhops).ending hop hending
    cases reply with
    | ok outcome =>
      cases hrun
      exact htrue
    | error err =>
      simp only [hhops, bind_some, bind_eq_bind, hending] at hnext
      dsimp only at hrun
      by_cases hstop : (!retried e err || a.late) = true
      · rw [if_pos hstop] at hrun
        cases hrun
        exact htrue
      · rw [if_neg hstop] at hrun
        by_cases hlate : a.lateAfterSleep = true
        · rw [if_pos hlate] at hrun
          cases hrun
          exact htrue
        · rw [if_neg hlate] at hrun
          rw [if_neg (by simp [hlate, hstop])] at hnext
          exact ih hnext hrun

/-- One attempt whose first hop times out after the leader applied the write, and whose second hop is answered. -/
def chasedAttempts : List Attempt := [⟨[.unheard none], .served none, false, false⟩]

/-- A write that does not settle on its own result is reported falsely if it is evaluated twice. -/
theorem chased_untruthful (hop : e.op.isReplicate = false) (hrep : ¬ Repeatable items e s.1) :
    ∃ result s', retryLoop items e s chasedAttempts = some (some result, s') ∧
    ¬ Truthful items e s.1 s' result := by
  simp only [Repeatable, Settles, not_forall, not_or, not_and, not_not] at hrep
  obtain ⟨new, hnew, hself, hnone⟩ := hrep
  obtain ⟨first, ver, hfirst, -⟩ := serve_applied none hop hnew
  have hloop {decision : KindEvalDecision} {outcome : KindWriteOutcome} {s' : Stored}
      (hserve : serve items e none (new, ver) = some (decision, s'))
      (hreport : kindWriteItemAtLeader decision = .ok outcome) :
      retryLoop items e s chasedAttempts = some (some (.ok outcome), s') := by
    simp [chasedAttempts, retryLoop, Hop.run, Ending.run, hfirst, hserve, hreport]
  cases hagain : appliedTo items e new with
  | some again =>
    obtain ⟨second, ver', hsecond, hreport⟩ := serve_applied (s := (new, ver)) none hop hagain
    refine ⟨_, _, hloop hsecond hreport, fun htrue => hself ?_⟩
    rw [hagain, ← hnew, htrue.2]
  | none =>
    refine ⟨_, _, hloop (serve_conditionFailed hop (hnone hagain)) rfl, fun htrue => ?_⟩
    rw [show new = s.1 from htrue, hnew] at hagain
    cases hagain

/-- **A single-item write is applied at most once and reported truthfully**, whatever its attempts do, just
where it settles on its own result; and in any case if it is evaluated at most once. -/
theorem write_applied_at_most_once (hop : e.op.isReplicate = false) :
    ((∀ before attempts result s', cpKindWriteItem items e before s attempts = some (some result, s') →
      Truthful items e s.1 s' result) ↔ Repeatable items e s.1) ∧
    ∀ before attempts result s', cpKindWriteItem items e before s attempts = some (some result, s') →
      evaluations items e s attempts ≤ 1 → Truthful items e s.1 s' result := by
  have htrue (before : Except WireError Unit) (attempts : List Attempt)
    (result : Except WireError KindWriteOutcome)
      (s' : Stored) (hrun : cpKindWriteItem items e before s attempts = some (some result, s'))
      (hfine : evaluations items e s attempts ≤ 1 ∨ Repeatable items e s.1) :
        Truthful items e s.1 s' result := by
    cases before with
    | error err =>
      cases hrun
      exact .inl rfl
    | ok _ => exact retryLoop_truthful hop (.inl ⟨rfl, hfine⟩) hrun
  refine ⟨⟨fun h => ?_, fun hrep before attempts result s' hrun => htrue _ _ _ _ hrun (.inr hrep)⟩,
    fun before attempts result s' hrun hone => htrue _ _ _ _ hrun (.inl hone)⟩
  by_contra hrep
  obtain ⟨result, s', hrun, hfalse⟩ := chased_untruthful hop hrep
  exact hfalse (h (.ok ()) chasedAttempts result s' hrun)

theorem repeatable_put {item : Item} (hput : e.op = .put item) (hfree : e.condition = none) :
    Repeatable items e old := by
  intro new hnew
  refine .inl ?_
  simp only [appliedTo, checkCondition, hfree, localResult, hput] at hnew ⊢
  exact hnew

/-- An item layer whose one condition asks that there is no item. -/
def newItemLayer : ItemLayer Unit := { plainItems with evaluate := fun _ old => .ok old.isNone }

def counterItem (n : Char) : Item := [(['n'], .N [n])]

/-- A write of the item with the counter, on a table without indexes. -/
def counterWrite (op : KindEvalOp) (condition : Option Unit) : KindEvalEntry Unit where
  schema := { key := ⟨['p'], none⟩, lsis := [], changeRecordsCarryImages := false, mrec := none }
  pk := .S ['k']
  sk := none
  op := op
  condition := condition
  ttlExpired := false

/-- `SET n = n + :one`. -/
def setIncremented : KindEvalOp :=
  .update (counterItem '0') [.set [.field ['n']] (.add (.path [.field ['n']]) (.value (.N ['1'])))]

/-- `ADD n :one`. -/
def addOne : KindEvalOp := .update (counterItem '0') [.add [.field ['n']] (.N ['1'])]

/-- What an attempt reports whose outcome was displaced before it was read. -/
def superseded : WireError :=
  ⟨"InternalServerError", "index-maintaining write failed: CP kind write superseded before its effect appeared " ++
    "(leadership churn or an apply-time no-op); retry"⟩

/-- An attempt that takes effect and reports a retryable error, then one that is answered. -/
def repeatedAttempts : List Attempt :=
    [⟨[], .misreported none superseded, false, false⟩, ⟨[], .served none, false, false⟩]

/-- A write that is taken for repeatable is evaluated again. -/
theorem retryLoop_repeated {items : ItemLayer Unit} {e : KindEvalEntry Unit} {s s' : Stored}
    {decision : KindEvalDecision}
    (hretried : retried e superseded = true) (hserve : serve items e none s = some (decision, s')) :
    retryLoop items e s repeatedAttempts = retryLoop items e s' [⟨[], .served none, false, false⟩] := by
  simp [repeatedAttempts, retryLoop, Ending.run, hserve, hretried]

/-- One attempt, whose answer comes after the deadline. -/
def lateAttempt : List Attempt := [⟨[], .misreported none superseded, true, true⟩]

theorem write_applied_at_most_once_put :
    Truthful plainItems (counterWrite (.put (counterItem '7')) none) (some (counterItem '1'))
      (some (counterItem '7'), none) (.ok (.ok (some (counterItem '7')) (some (counterItem '7')))) ∧
    ∃ err, Truthful plainItems (counterWrite setIncremented none) (some (counterItem '1'))
      (some (counterItem '2'), none) (.error err) := by
  have hput : cpKindWriteItem plainItems (counterWrite (.put (counterItem '7')) none) (.ok ())
    (some (counterItem '1'), none)
      repeatedAttempts = some (some (.ok (.ok (some (counterItem '7')) (some (counterItem '7')))),
        some (counterItem '7'), none) :=
    (retryLoop_repeated (by decide +kernel) rfl).trans rfl
  have hserve : ∃ decision, serve plainItems (counterWrite setIncremented none) none
      (some (counterItem '1'), none) = some (decision, some (counterItem '2'), none) := ⟨_, rfl⟩
  obtain ⟨decision, hserve⟩ := hserve
  have hlate : ∃ err, cpKindWriteItem plainItems (counterWrite setIncremented none) (.ok ())
    (some (counterItem '1'), none)
      lateAttempt = some (some (.error err), some (counterItem '2'), none) := by
    simp [cpKindWriteItem, lateAttempt, retryLoop, Ending.run, hserve]
  obtain ⟨err, hlate⟩ := hlate
  exact ⟨(write_applied_at_most_once rfl).1.mpr (repeatable_put rfl rfl) _ _ _ _ hput,
    err, (write_applied_at_most_once rfl).2 _ _ _ _ hlate (by decide +kernel)⟩

/-- A counter is set twice, a forwarded increment is added twice, and a put reports that its condition
failed although it wrote the item. -/
theorem write_applied_twice :
    (∃ old, cpKindWriteItem newItemLayer (counterWrite setIncremented none) (.ok ())
    (some (counterItem '1'), none) repeatedAttempts =
      some (some (.ok (.ok old (some (counterItem '3')))), some (counterItem '3'), none)) ∧
    appliedTo newItemLayer (counterWrite setIncremented none) (some (counterItem '1')) =
      some (some (counterItem '2')) ∧
    (∃ old, cpKindWriteItem newItemLayer (counterWrite addOne none) (.ok ()) (some (counterItem '1'), none)
      chasedAttempts = some (some (.ok (.ok old (some (counterItem '3')))), some (counterItem '3'), none)) ∧
    appliedTo newItemLayer (counterWrite addOne none) (some (counterItem '1')) =
      some (some (counterItem '2')) ∧
    cpKindWriteItem newItemLayer (counterWrite (.put (counterItem '7')) (some ())) (.ok ())
      (none, none) repeatedAttempts = some (some (.ok .conditionFailed), some (counterItem '7'), none) :=
  ⟨⟨_, (retryLoop_repeated (by decide +kernel) rfl).trans rfl⟩, rfl, ⟨_, rfl⟩, rfl,
    (retryLoop_repeated (by decide +kernel) rfl).trans rfl⟩

end AnimusDb.Tablet
