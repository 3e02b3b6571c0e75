import AnimusDb.ItemUpdate

/-! What an update changes, and what it leaves alone. A write or a removal is an edit at one document
path; a path that does not overlap it keeps its value, unless it passes through a list whose elements move. -/

open RustText List

namespace AnimusDb.Items

deriving instance DecidableEq for PathSegment

variable {m : Fields} {name other : Text}

theorem Fields.get_insert (m : Fields) (name other : Text) (v : AttributeValue) :
    Fields.get (Fields.insert m name v) other = if other = name then some v else Fields.get m other := by
  induction m with
  | nil => simp [Fields.insert, Fields.get, eq_comm]
  | cons field rest ih =>
    unfold Fields.insert
    split
    · simp [Fields.get, eq_comm]
    · rename_i heq
      simp only [Fields.get, Std.LawfulEqOrd.eq_of_compare heq, eq_comm]
      split_ifs <;> rfl
    · rename_i hgt
      have hne : field.1 ≠ name := by
        rintro rfl
        simp at hgt
      simp only [Fields.get, ih]
      grind

theorem Fields.get_remove (m : Fields) (name other : Text) :
    Fields.get (Fields.remove m name) other = if other = name then none else Fields.get m other := by
  induction m with
  | nil => simp [Fields.remove, Fields.get]
  | cons field rest ih =>
    unfold Fields.remove at ih ⊢
    by_cases hname : field.1 = name <;> by_cases hother : field.1 = other <;>
      simp_all [Fields.get]

theorem Fields.get_modify (f : AttributeValue → AttributeValue) :
    Fields.get (Fields.modify m name f) other = if other =
    name then (Fields.get m other).map f else Fields.get m other := by
  induction m with
  | nil => simp [Fields.modify, Fields.get]
  | cons field rest ih =>
    unfold Fields.modify at ih ⊢
    by_cases hname : field.1 = name <;> by_cases hother : field.1 = other <;> simp_all [Fields.get]

/-- Neither path leads through the other. -/
def Apart (p q : List PathSegment) : Prop := ¬ p <+: q ∧ ¬ q <+: p

instance (p q : List PathSegment) : Decidable (Apart p q) := inferInstanceAs (Decidable (_ ∧ _))

/-- No list on the way down `q` has another length in `c'` than in `c`. -/
def SameLengths (c c' : AttributeValue) (q : List PathSegment) : Prop :=
  ∀ r l l', r <+: q → r ≠ q → descend c r = some (.L l) → descend c' r = some (.L l') → l.length = l'.length

/-- A change of a container at one path. -/
inductive Edits : List PathSegment → AttributeValue → AttributeValue → Prop
  | nothing {path c} : Edits path c c
  | atField {name m m'} (h : ∀ other, other ≠ name → Fields.get m' other = Fields.get m other) :
      Edits [.field name] (.M m) (.M m')
  | atIndex {i l l'} (h : l.length = l'.length → ∀ j, j ≠ i → l'[j]? = l[j]?) :
      Edits [.index i] (.L l) (.L l')
  | inField {name rest m f} (h : ∀ c, Edits rest c (f c)) :
      Edits (.field name :: rest) (.M m) (.M (Fields.modify m name f))
  | inIndex {i rest l f} (h : ∀ c, Edits rest c (f c)) : Edits (.index i :: rest) (.L l) (.L (l.modify i f))

theorem setIntoContainer_edits (value : AttributeValue) (path : List PathSegment) (c : AttributeValue) :
    Edits path c (setIntoContainer value path c) := by
  induction path generalizing c with
  | nil =>
    unfold setIntoContainer
    exact .nothing
  | cons seg rest ih =>
    unfold setIntoContainer
    split
    · rename_i heq
      cases heq
      exact .atField fun other hother => (Fields.get_insert ..).trans (if_neg hother)
    · rename_i heq
      cases heq
      exact .inField ih
    · rename_i heq
      cases heq
      refine .atIndex fun hlength j hj => ?_
      rw [apply_ite length, length_set, length_append] at hlength
      split
      · exact getElem?_set_ne (Ne.symm hj)
      · rename_i hi
        rw [if_neg hi] at hlength
        exact absurd hlength (by simp)
    · rename_i heq
      cases heq
      exact .inIndex ih
    · exact .nothing

theorem removeFromContainer_edits (path : List PathSegment) (c : AttributeValue) :
    Edits path c (removeFromContainer path c) := by
  induction path generalizing c with
  | nil =>
    unfold removeFromContainer
    exact .nothing
  | cons seg rest ih =>
    unfold removeFromContainer
    split
    · rename_i heq
      cases heq
      exact .atField fun other hother => by rw [Fields.get_remove, if_neg hother]
    · rename_i heq
      cases heq
      exact .inField ih
    · rename_i l i heq
      cases heq
      refine .atIndex fun hlength j hj => ?_
      rw [length_eraseIdx] at hlength
      split at hlength
      · omega
      · rw [eraseIdx_of_length_le (by omega)]
    · rename_i heq
      cases heq
      exact .inIndex ih
    · exact .nothing

theorem Apart.tail {seg : PathSegment} {p q : List PathSegment} (h : Apart (seg :: p) (seg :: q)) : Apart p q :=
  ⟨fun hp => h.1 (cons_prefix_cons.mpr ⟨rfl, hp⟩), fun hq => h.2 (cons_prefix_cons.mpr ⟨rfl, hq⟩)⟩

/-- A path apart from an edit keeps its value, where no list on its way changes its length. -/
theorem Edits.frame {p : List PathSegment} {c c' : AttributeValue} (h : Edits p c c') {q : List PathSegment}
    (hapart : Apart p q) (hlengths : SameLengths c c' q) : descend c' q = descend c q := by
  induction h generalizing q with
  | nothing => rfl
  | @atField name m m' h =>
    rcases q with _ | ⟨⟨other⟩ | j, q⟩
    · exact absurd nil_prefix hapart.2
    · have hother : other ≠ name := by
        rintro rfl
        exact hapart.1 (by simp)
      rw [descend, descend, h other hother]
    · rfl
  | @atIndex i l l' h =>
    rcases q with _ | ⟨other | j, q⟩
    · exact absurd nil_prefix hapart.2
    · rfl
    · have hj : j ≠ i := by
        rintro rfl
        exact hapart.1 (by simp)
      have hlength := hlengths [] l l' nil_prefix (by simp) (by rw [descend]) (by rw [descend])
      rw [descend, descend, h hlength j hj]
  | @inField name rest m f h ih =>
    rcases q with _ | ⟨other | j, q⟩
    · exact absurd nil_prefix hapart.2
    · by_cases hother : other = name
      · subst hother
        rw [descend, descend, Fields.get_modify, if_pos rfl]
        cases hget : Fields.get m other with
        | none => rfl
        | some next =>
          refine ih next hapart.tail fun r l l' hr hne hl hl' => ?_
          refine hlengths (.field other :: r) l l' (cons_prefix_cons.mpr ⟨rfl, hr⟩) (by simpa using hne) ?_ ?_
          · rw [descend, hget]
            exact hl
          · rw [descend, Fields.get_modify, if_pos rfl, hget]
            exact hl'
      · rw [descend, descend, Fields.get_modify, if_neg hother]
    · rfl
  | @inIndex i rest l f h ih =>
    rcases q with _ | ⟨other | j, q⟩
    · exact absurd nil_prefix hapart.2
    · rfl
    · by_cases hj : j = i
      · subst hj
        rw [descend, descend, getElem?_modify_eq]
        cases hget : l[j]? with
        | none => rfl
        | some next =>
          refine ih next hapart.tail fun r k k' hr hne hk hk' => ?_
          refine hlengths (.index j :: r) k k' (cons_prefix_cons.mpr ⟨rfl, hr⟩) (by simpa using hne) ?_ ?_
          · rw [descend, hget]
            exact hk
          · rw [descend, getElem?_modify_eq, hget]
            exact hk'
      · rw [descend, descend, getElem?_modify_ne _ _ (Ne.symm hj)]

variable {parent : List PathSegment}

/-- An edit goes down every segment but the last. -/
structure Descends (edit : List PathSegment → AttributeValue → AttributeValue) : Prop where
  field : ∀ name seg rest m, edit (.field name :: seg :: rest) (.M m) =
    .M (Fields.modify m name (edit (seg :: rest)))
  index : ∀ i seg rest l, edit (.index i :: seg :: rest) (.L l) = .L (l.modify i (edit (seg :: rest)))

theorem descends_setIntoContainer (value : AttributeValue) : Descends (setIntoContainer value) :=
  ⟨fun _ _ _ _ => rfl, fun _ _ _ _ => rfl⟩

theorem descends_removeFromContainer :
    Descends removeFromContainer := ⟨fun _ _ _ _ => rfl, fun _ _ _ _ => rfl⟩

theorem descend_cons {c x : AttributeValue} {seg : PathSegment} {rest : List PathSegment}
    (h : descend c (seg :: rest) = some x) :
    (∃ name m next, seg = .field name ∧ c = .M m ∧ Fields.get m name = some next ∧ descend next rest =
      some x) ∨ ∃ i l next, seg = .index i ∧ c = .L l ∧ l[i]? = some next ∧ descend next rest = some x := by
  unfold descend at h
  split at h
  · rename_i heq
    cases heq
  · rename_i m name rest' heq
    cases heq
    obtain ⟨next, hget, h⟩ := Option.bind_eq_some_iff.mp h
    exact .inl ⟨name, m, next, rfl, rfl, hget, h⟩
  · rename_i l i rest' heq
    cases heq
    obtain ⟨next, hget, h⟩ := Option.bind_eq_some_iff.mp h
    exact .inr ⟨i, l, next, rfl, rfl, hget, h⟩
  · cases h

/-- An edit below a container is an edit of that container. -/
theorem Descends.descend {edit : List PathSegment → AttributeValue → AttributeValue} (hedit : Descends edit)
    {last : PathSegment} {c x : AttributeValue} (h : descend c parent = some x) :
    Items.descend (edit (parent ++ [last]) c) parent = some (edit [last] x) := by
  induction parent generalizing c with
  | nil =>
    rw [Items.descend] at h ⊢
    rw [Option.some.inj h, nil_append]
  | cons seg parent ih =>
    obtain ⟨first, path, hpath⟩ :=
      exists_cons_of_ne_nil (append_ne_nil_of_right_ne_nil parent (cons_ne_nil last []))
    rw [cons_append, hpath]
    rcases descend_cons h with ⟨name, m, next, rfl, rfl, hget, h⟩ | ⟨i, l, next, rfl, rfl, hget, h⟩
    · rw [hedit.field, Items.descend, Fields.get_modify, if_pos rfl, hget, ← hpath]
      exact ih h
    · rw [hedit.index, Items.descend, getElem?_modify_eq, hget, ← hpath]
      exact ih h

theorem descend_append {c x : AttributeValue} (h : descend c parent = some x)
    (rest : List PathSegment) : descend c (parent ++ rest) = descend x rest := by
  induction parent generalizing c with
  | nil =>
    rw [descend] at h
    rw [Option.some.inj h, nil_append]
  | cons seg parent ih =>
    rcases descend_cons h with ⟨name, m, next, rfl, rfl, hget, h⟩ | ⟨i, l, next, rfl, rfl, hget, h⟩
    all_goals
      rw [cons_append, descend, hget]
      exact ih h

theorem descend_removeFromContainer (parent : List PathSegment) (name : Text) (c : AttributeValue) :
    descend (removeFromContainer (parent ++ [.field name]) c) (parent ++ [.field name]) = none := by
  induction parent generalizing c with
  | nil =>
    cases c with
    | M m => simp [removeFromContainer, descend, Fields.get_remove]
    | _ => rfl
  | cons seg parent ih =>
    obtain ⟨first, path, hpath⟩ :=
      exists_cons_of_ne_nil (append_ne_nil_of_right_ne_nil parent (cons_ne_nil (PathSegment.field name) []))
    rw [cons_append, hpath]
    rw [hpath] at ih
    cases seg with
    | field other =>
      cases c with
      | M m =>
        rw [descends_removeFromContainer.field, descend, Fields.get_modify, if_pos rfl]
        cases Fields.get m other with
        | none => rfl
        | some next => exact ih next
      | _ => rfl
    | index i =>
      cases c with
      | L l =>
        rw [descends_removeFromContainer.index, descend, getElem?_modify_eq]
        cases l[i]? with
        | none => rfl
        | some next => exact ih next
      | _ => rfl

variable (item : Item)

theorem M_setDocumentPath (value : AttributeValue) (path : List PathSegment) :
    AttributeValue.M (setDocumentPath item value path) = setIntoContainer value path (.M item) := by
  unfold setDocumentPath
  split
  · rfl
  · rename_i name rest hrest
    rw [setIntoContainer]
    exact hrest
  · unfold setIntoContainer
    split <;> simp_all

theorem M_removeDocumentPath (path : List PathSegment) :
    AttributeValue.M (removeDocumentPath item path) = removeFromContainer path (.M item) := by
  unfold removeDocumentPath
  split
  · rfl
  · rename_i name rest hrest
    rw [removeFromContainer]
    exact hrest
  · unfold removeFromContainer
    split <;> simp_all

theorem getDocumentPath_eq {path : List PathSegment} (h : path ≠ []) :
    getDocumentPath item path = descend (.M item) path := by
  unfold getDocumentPath
  split
  · rw [descend]
  · unfold descend
    split <;> simp_all

variable {before after result : Item} {item} {action : UpdateAction} {actions rest : List UpdateAction}
  {q : List PathSegment}

def UpdateAction.target : UpdateAction → List PathSegment
  | .set path _ | .remove path | .add path _ | .delete path _ => path

theorem applyAction_edits (h : applyAction before action = .ok after) :
    Edits action.target (.M before) (.M after) := by
  cases action with
  | set path expr | add path operand =>
    dsimp only [applyAction] at h
    split at h
    · obtain ⟨value, -, h⟩ := bind_eq_ok.mp h
      cases h
      rw [M_setDocumentPath]
      exact setIntoContainer_edits _ _ _
    · cases h
  | remove path =>
    cases h
    rw [M_removeDocumentPath]
    exact removeFromContainer_edits _ _
  | delete path operand =>
    dsimp only [applyAction] at h
    split at h
    · cases h
      exact .nothing
    · obtain ⟨remaining, -, h⟩ := bind_eq_ok.mp h
      cases h
      split
      · rw [M_removeDocumentPath]
        exact removeFromContainer_edits _ _
      · rw [M_setDocumentPath]
        exact setIntoContainer_edits _ _ _

/-- No action shortens or extends a list that `q` passes through. -/
def Steady (q : List PathSegment) : Item → List UpdateAction → Prop
  | _, [] => True
  | item, action :: rest => ∀ next, applyAction item action = .ok next →
      SameLengths (.M item) (.M next) q ∧ Steady q next rest

/-- An attribute of the item is in no list. -/
theorem steady_field (name : Text) (item : Item) (actions : List UpdateAction) :
    Steady [.field name] item actions := by
  induction actions generalizing item with
  | nil => trivial
  | cons action rest ih =>
    refine fun next _ => ⟨fun r l l' hr hne hl _ => ?_, ih next⟩
    rcases prefix_cons_iff.mp hr with rfl | ⟨r', rfl, hr'⟩
    · cases hl
    · rw [prefix_nil.mp hr'] at hne
      exact absurd rfl hne

theorem applyActions_frame (h : actions.foldlM applyAction item = .ok result)
    (hapart : ∀ a ∈ actions, Apart a.target q) (hsteady : Steady q item actions) :
    getDocumentPath result q = getDocumentPath item q := by
  cases q with
  | nil => rfl
  | cons seg q =>
    rw [getDocumentPath_eq _ (cons_ne_nil _ _), getDocumentPath_eq _ (cons_ne_nil _ _)]
    induction actions generalizing item with
    | nil =>
      cases h
      rfl
    | cons action rest ih =>
      rw [foldlM_cons] at h
      obtain ⟨next, hnext, h⟩ := bind_eq_ok.mp h
      obtain ⟨hlengths, hsteady⟩ := hsteady next hnext
      rw [ih h (fun a ha => hapart a (mem_cons_of_mem _ ha)) hsteady]
      exact (applyAction_edits hnext).frame (hapart action mem_cons_self) hlengths

/-- What an assignment or a removal, applied to `before` and followed by the actions `rest`, leaves in the
result. An element past the end of its list is appended to it. -/
def UpdateAction.Leaves (before after : Item) (rest : List UpdateAction) (result : Item) : UpdateAction → Prop
  | .set path expr => ∃ value, evalUpdateExpr before expr = .ok value ∧
      (∀ parent name m, path = parent ++ [.field name] → descend (.M before) parent = some (.M m) →
        Steady path after rest → getDocumentPath result path = some value) ∧
      ∀ parent i l place, path = parent ++ [.index i] → descend (.M before) parent = some (.L l) →
        place = parent ++ [.index (min i l.length)] → (∀ a ∈ rest, Apart a.target place) →
        Steady place after rest → getDocumentPath result place = some value
  | .remove path =>
      (∀ parent name, path = parent ++ [.field name] → Steady path after rest →
        getDocumentPath result path = none) ∧
      ∀ parent i l, path = parent ++ [.index i] → descend (.M before) parent = some (.L l) →
        (∀ a ∈ rest, Apart a.target parent) → Steady parent after rest →
        getDocumentPath result parent = some (.L (l.eraseIdx i))
  | .add _ _ | .delete _ _ => True

theorem applyAction_leaves (h : applyAction before action = .ok after)
    (hrest : rest.foldlM applyAction after = .ok result) (hapart : ∀ a ∈ rest, Apart a.target action.target) :
    action.Leaves before after rest result := by
  cases action with
  | set path expr =>
    dsimp only [applyAction] at h
    split at h
    · obtain ⟨value, hvalue, h⟩ := bind_eq_ok.mp h
      cases h
      refine ⟨value, hvalue, fun parent name m hpath hparent hsteady => ?_,
        fun parent i l place hpath hparent hplace hclear hsteady => ?_⟩
      · rw [applyActions_frame (q := path) hrest hapart hsteady, getDocumentPath_eq _ (by simp [hpath]),
          M_setDocumentPath, hpath, descend_append ((descends_setIntoContainer value).descend hparent)]
        simp [setIntoContainer, descend, Fields.get_insert]
      · subst hplace
        rw [applyActions_frame hrest hclear hsteady, getDocumentPath_eq _ (by simp), M_setDocumentPath, hpath,
          descend_append ((descends_setIntoContainer value).descend hparent), setIntoContainer, descend]
        split
        · rename_i hi
          simp [descend, min_eq_left hi.le, hi]
        · rename_i hi
          simp [descend, min_eq_right (not_lt.mp hi)]
    · cases h
  | remove path =>
    cases h
    refine ⟨fun parent name hpath hsteady => ?_, fun parent i l hpath hparent hclear hsteady => ?_⟩
    · rw [applyActions_frame (q := path) hrest hapart hsteady, getDocumentPath_eq _ (by simp [hpath]),
        M_removeDocumentPath, hpath]
      exact descend_removeFromContainer parent name _
    · have hne : parent ≠ [] := by
        rintro rfl
        cases hparent
      rw [applyActions_frame hrest hclear hsteady, getDocumentPath_eq _ hne, M_removeDocumentPath, hpath,
        descends_removeFromContainer.descend hparent]
      rfl
  | add path operand => trivial
  | delete path operand => trivial

theorem checkLimits_ok {item result : Item} (h : checkLimits item = .ok result) : result = item := by
  unfold checkLimits at h
  split at h
  · cases h
  · split at h
    · cases h
    · cases h
      rfl

/-- `SET b = a` and `REMOVE c`. -/
def copyAndRemove : List UpdateAction :=
  [.set [.field ['b']] (.operand (.path [.field ['a']])), .remove [.field ['c']]]

end AnimusDb.Items
