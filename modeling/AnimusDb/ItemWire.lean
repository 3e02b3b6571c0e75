import AnimusDb.ItemShape

/-! Decoding attribute values from the wire. A value comes as a JSON object with one key, its type. -/

open RustText

namespace AnimusDb.Items

/-- A JSON value; of numbers nothing is read here. -/
inductive Json where
  | null
  | bool (b : Bool)
  | number
  | string (s : Text)
  | array (items : List Json)
  | object (fields : List (Text × Json))

structure WireError where
  code : String
  message : String
deriving DecidableEq

def WireError.validation (message : String) : WireError := ⟨"ValidationException", message⟩

/-- Refuse a request with a validation error. -/
def refuse {α : Type} (message : String) : Except WireError α := .error (.validation message)

/-- The value of an option, or a validation error. -/
def orRefuse {α : Type} (message : String) : Option α → Except WireError α
  | some a => .ok a
  | none => refuse message

/-- The six bits of a character of the alphabet. -/
def base64Value (c : UInt8) : Option Nat :=
  let c := c.toNat
  if 65 ≤ c ∧ c ≤ 90 then some (c - 65)
  else if 97 ≤ c ∧ c ≤ 122 then some (c - 97 + 26)
  else if 48 ≤ c ∧ c ≤ 57 then some (c - 48 + 52)
  else if c = 43 then some 62
  else if c = 47 then some 63
  else none

/-- `=`. -/
def base64Pad : UInt8 := 61

/-- The bytes of four characters; padding is legal only at the end of the last four. -/
def base64Chunk (chunk : List UInt8) (isLast : Bool) : Option (List UInt8) := do
  let pad := chunk.count base64Pad
  if 2 < pad then none
  else if 0 < pad && (!isLast || (chunk.take (4 - pad)).contains base64Pad) then none
  else
    let q ← chunk.mapM fun c => if c = base64Pad then some 0 else base64Value c
    let n := q.foldl (fun n bits => n * 64 + bits) 0
    some ([UInt8.ofNat (n / 65536), UInt8.ofNat (n / 256), UInt8.ofNat n].take (3 - pad))

def base64Chunks : List UInt8 → Option (List UInt8)
  | a :: b :: c :: d :: rest => do
      let out ← base64Chunk [a, b, c, d] rest.isEmpty
      let more ← base64Chunks rest
      some (out ++ more)
  | [] => some []
  | _ => none

def base64Decode (s : Text) : Option (List UInt8) :=
  let bytes := utf8 s
  if bytes.length % 4 = 0 then base64Chunks bytes else none

def Json.asStr : Json → Option Text
  | .string s => some s
  | _ => none

def Json.asArray : Json → Option (List Json)
  | .array items => some items
  | _ => none

def maxAttributeNameBytes : Nat := 65536

variable (name : Text)

def checkAttributeName : Except WireError Unit :=
  let len := (utf8 name).length
  if len = 0 ∨ maxAttributeNameBytes < len then
    refuse ("attribute name must be between 1 and " ++ toString maxAttributeNameBytes ++ " bytes, got " ++
      toString len)
  else .ok ()

def emptyMessage (kind : String) : String :=
  "One or more parameter values were invalid: An " ++ kind ++ " set  may not be empty"

/-- A name in backticks, followed by a type. -/
def typed (rest : String) : String := "`" ++ String.ofList name ++ "`." ++ rest

/-- An array of strings as a sorted set. The members of a number set are not looked at. -/
def decodeStringSet (numbers : Bool) (inner : Json) : Except WireError (List Text) := do
  let ty := if numbers then "NS" else "SS"
  let arr ← orRefuse (typed name (ty ++ " must be an array of strings")) inner.asArray
  if arr.isEmpty then refuse (emptyMessage (if numbers then "number" else "string"))
  else
    let out ← arr.mapM fun v => orRefuse (typed name (ty ++ " elements must be strings")) v.asStr
    .ok (dedupSorted out)

def decodeBinarySet (inner : Json) : Except WireError (List (List UInt8)) := do
  let arr ← orRefuse (typed name "BS must be an array of base64 strings") inner.asArray
  if arr.isEmpty then refuse (emptyMessage "binary")
  else
    let out ← arr.mapM fun v => do
      let s ← orRefuse (typed name "BS elements must be base64 strings") v.asStr
      orRefuse (typed name "BS element is not valid base64") (base64Decode s)
    .ok (dedupSorted out)

def decodeNumber (inner : Json) : Except WireError AttributeValue := do
  let s ← orRefuse (typed name "N must be a string") inner.asStr
  if (encodeChecked s).isSome then .ok (.N s) else refuse (typed name "N is not a valid DynamoDB number")

def decodeBinary (inner : Json) : Except WireError AttributeValue := do
  let s ← orRefuse (typed name "B must be a base64 string") inner.asStr
  let b ← orRefuse (typed name "B is not valid base64") (base64Decode s)
  .ok (.B b)

/-- The types whose values hold no further values. -/
def decodeScalar (ty : String) (inner : Json) : Except WireError AttributeValue :=
  match ty with
  | "S" => do
      let s ← orRefuse (typed name "S must be a string") inner.asStr
      .ok (.S s)
  | "N" => decodeNumber name inner
  | "B" => decodeBinary name inner
  | "BOOL" =>
    match inner with
    | .bool b => .ok (.bool b)
    | _ => refuse (typed name "BOOL must be a bool")
  | "NULL" => .ok .null
  | "SS" => do .ok (.SS (← decodeStringSet name false inner))
  | "NS" => do .ok (.NS (← decodeStringSet name true inner))
  | "BS" => do .ok (.BS (← decodeBinarySet name inner))
  | other => refuse ("attribute `" ++ String.ofList name ++ "` uses unsupported type `" ++ other ++
      "` (only S, N, B, BOOL, NULL, M, L, SS, NS, BS are supported)")

mutual

def decodeAttributeValue (name : Text) (depth : Nat) (value : Json) : Except WireError AttributeValue :=
  if maxNestingDepth < depth then
    refuse ("attribute `" ++ String.ofList name ++ "` nesting depth exceeds the maximum of " ++
      toString maxNestingDepth ++ " levels")
  else
    match value with
    | .object [(ty, inner)] => decodeTyped name depth (String.ofList ty) inner
    | .object _ => refuse ("attribute `" ++ String.ofList name ++
        "` must be a single-key typed object like \x7b\"S\":..\x7d")
    | _ => refuse ("attribute `" ++ String.ofList name ++ "` must be a typed object")

def decodeTyped (name : Text) (depth : Nat) (ty : String) (inner : Json) : Except WireError AttributeValue :=
  if ty = "M" then
    match inner with
    | .object map => do .ok (.M (← decodeFields name depth [] map))
    | _ => refuse (typed name "M must be an attribute-map object")
  else if ty = "L" then
    match inner with
    | .array list => do .ok (.L (← decodeList name depth 0 list))
    | _ => refuse (typed name "L must be a list of typed values")
  else decodeScalar name ty inner

/-- The loop over the entries of a map. -/
def decodeFields (name : Text) (depth : Nat) (nested : Fields) : List (Text × Json) → Except WireError Fields
  | [] => .ok nested
  | (k, v) :: rest => do
      checkAttributeName k
      let value ← decodeAttributeValue (name ++ '.' :: k) (depth + 1) v
      decodeFields name depth (Fields.insert nested k value) rest

/-- The loop over the elements of a list, from the given index on. -/
def decodeList (name : Text) (depth i : Nat) : List Json → Except WireError (List AttributeValue)
  | [] => .ok []
  | v :: rest => do
      let value ← decodeAttributeValue (name ++ '[' :: ((toString i).toList ++ [']'])) (depth + 1) v
      let more ← decodeList name depth (i + 1) rest
      .ok (value :: more)

end

variable {v : AttributeValue} {inner : Json}

/-- Every number set within the value has accepted members, no two of the same value. -/
inductive AttributeValue.NumericSets : AttributeValue → Prop
  | NS {s : List Text} (hnumbers : ∀ n ∈ s, Accepted n) (hdistinct : ValueDistinct s) :
      NumericSets (.NS s)
  | M {m : Fields} (h : ∀ f ∈ m, NumericSets f.2) : NumericSets (.M m)
  | L {l : List AttributeValue} (h : ∀ v ∈ l, NumericSets v) : NumericSets (.L l)
  | S (s : Text) : NumericSets (.S s)
  | N (n : Text) : NumericSets (.N n)
  | B (b : List UInt8) : NumericSets (.B b)
  | bool (b : Bool) : NumericSets (.bool b)
  | null : NumericSets .null
  | SS (s : List Text) : NumericSets (.SS s)
  | BS (s : List (List UInt8)) : NumericSets (.BS s)

/-- Well formed but for what the wire does not check of number sets. -/
def AttributeValue.Decoded (v : AttributeValue) : Prop := v.NumericSets → v.WellFormed

theorem mapM_ne_nil {α β ε : Type} {f : α → Except ε β} {l : List α} {out : List β}
    (h : l.mapM f = .ok out) (hne : l ≠ []) : out ≠ [] := by
  cases l with
  | nil => exact absurd rfl hne
  | cons a l =>
    rw [List.mapM_cons] at h
    obtain ⟨b, -, h⟩ := bind_eq_ok.mp h
    obtain ⟨bs, -, h⟩ := bind_eq_ok.mp h
    cases h
    simp

theorem decodedSet_ok {α ε : Type} [Ord α] [DecidableEq α] [Std.TransOrd α] [Std.LawfulEqOrd α]
    {f : Json → Except ε α} {arr : List Json} {s : List α} (hne : ¬ arr.isEmpty = true)
    (h : (arr.mapM f >>= fun out => .ok (dedupSorted out)) = .ok s) : s ≠ [] ∧ Ascending s := by
  obtain ⟨out, hout, h⟩ := bind_eq_ok.mp h
  cases h
  have hne' : arr ≠ [] := fun hnil => hne (by rw [hnil]; rfl)
  exact ⟨dedupSorted_ne_nil (mapM_ne_nil hout hne'), ascending_dedupSorted out⟩

variable {name}

theorem decodeStringSet_ok {numbers : Bool} {s : List Text}
    (h : decodeStringSet name numbers inner = .ok s) : s ≠ [] ∧ Ascending s := by
  obtain ⟨arr, -, h⟩ := bind_eq_ok.mp h
  split at h
  · cases h
  · rename_i hne
    exact decodedSet_ok hne h

theorem decodeScalar_decoded {ty : String} (h : decodeScalar name ty inner = .ok v) : v.Decoded := by
  intro hsets
  unfold decodeScalar at h
  split at h
  · obtain ⟨s, -, h⟩ := bind_eq_ok.mp h
    cases h
    exact .S s
  · obtain ⟨s, -, h⟩ := bind_eq_ok.mp h
    split at h
    · rename_i haccepted
      cases h
      exact .N haccepted
    · cases h
  · obtain ⟨s, -, h⟩ := bind_eq_ok.mp h
    obtain ⟨b, -, h⟩ := bind_eq_ok.mp h
    cases h
    exact .B b
  · split at h
    · cases h
      exact .bool _
    · cases h
  · cases h
    exact .null
  · obtain ⟨s, hs, h⟩ := bind_eq_ok.mp h
    cases h
    obtain ⟨hne, hascending⟩ := decodeStringSet_ok hs
    exact .SS hne hascending
  · obtain ⟨s, hs, h⟩ := bind_eq_ok.mp h
    cases h
    obtain ⟨hne, hascending⟩ := decodeStringSet_ok hs
    cases hsets with
    | NS hnumbers hdistinct => exact .NS hne hascending hnumbers hdistinct
  · obtain ⟨s, hs, h⟩ := bind_eq_ok.mp h
    cases h
    obtain ⟨arr, -, hs⟩ := bind_eq_ok.mp hs
    split at hs
    · cases hs
    · obtain ⟨hne, hascending⟩ := decodedSet_ok ‹_› hs
      exact .BS hne hascending
  · cases h

/-- A name that the wire takes. -/
def NameAccepted (name : Text) : Prop := 0 < (utf8 name).length ∧ (utf8 name).length ≤ maxAttributeNameBytes

instance (name : Text) : Decidable (NameAccepted name) := inferInstanceAs (Decidable (_ ∧ _))

theorem checkAttributeName_ok : checkAttributeName name = .ok () ↔ NameAccepted name := by
  unfold checkAttributeName NameAccepted
  simp only
  split
  · rename_i hlen
    constructor
    · intro h
      cases h
    · omega
  · rename_i hlen
    constructor
    · omega
    · intro _
      rfl

/-- What to show of a property of values at a depth, for every value the decoder returns to have it. -/
structure DecodeRule (P : Nat → AttributeValue → Prop) : Prop where
  scalar : ∀ {name : Text} {depth : Nat} {ty : String} {inner : Json} {v : AttributeValue},
    depth ≤ maxNestingDepth → decodeScalar name ty inner = .ok v → P depth v
  map : ∀ {depth : Nat} {m : Fields}, depth ≤ maxNestingDepth → Ascending (m.map Prod.fst) →
    (∀ name ∈ m.map Prod.fst, NameAccepted name) → (∀ f ∈ m, P (depth + 1) f.2) → P depth (.M m)
  list : ∀ {depth : Nat} {l : List AttributeValue}, depth ≤ maxNestingDepth → (∀ v ∈ l, P (depth + 1) v) →
    P depth (.L l)

/-- The map under construction: in the order of its names, each of them accepted, its values with the property. -/
structure Collected (P : AttributeValue → Prop) (fields : Fields) : Prop where
  ascending : Ascending (fields.map Prod.fst)
  names : ∀ name ∈ fields.map Prod.fst, NameAccepted name
  values : ∀ f ∈ fields, P f.2

theorem Collected.nil {P : AttributeValue → Prop} : Collected P [] where
  ascending := List.Pairwise.nil
  names _ hn := by cases hn
  values _ hf := by cases hf

theorem Collected.insert {P : AttributeValue → Prop} {fields : Fields} (h : Collected P fields) {name : Text}
    (hname : NameAccepted name) (hv : P v) : Collected P (Fields.insert fields name v) where
  ascending := h.ascending.insert name v
  names n hn := by
    rcases names_insert fields name v n hn with rfl | hn
    · exact hname
    · exact h.names n hn
  values f hf := by
    rcases mem_insert hf with heq | hf
    · rw [heq]
      exact hv
    · exact h.values f hf

variable {P : Nat → AttributeValue → Prop}

mutual

theorem DecodeRule.value (rule : DecodeRule P) (name : Text) (depth : Nat) :
    (json : Json) → {v : AttributeValue} → decodeAttributeValue name depth json = .ok v → P depth v
  | .object [(ty, inner)], v, h => by
      unfold decodeAttributeValue at h
      split at h
      · cases h
      · rename_i hdepth
        exact rule.typed name depth (String.ofList ty) (Nat.not_lt.mp hdepth) inner h
  | .object [], v, h | .object (_ :: _ :: _), v, h | .null, v, h | .bool _, v, h | .number, v, h
  | .string _, v, h | .array _, v, h => by
      unfold decodeAttributeValue at h
      split at h <;> cases h

theorem DecodeRule.typed (rule : DecodeRule P) (name : Text) (depth : Nat) (ty : String)
    (hdepth : depth ≤ maxNestingDepth) :
    (inner : Json) → {v : AttributeValue} → decodeTyped name depth ty inner = .ok v → P depth v
  | .object map, v, h => by
      unfold decodeTyped at h
      split at h
      · obtain ⟨fields, hfields, h⟩ := bind_eq_ok.mp h
        cases h
        have hcollected := rule.fields name depth map Collected.nil hfields
        exact rule.map hdepth hcollected.ascending hcollected.names hcollected.values
      · split at h
        · cases h
        · exact rule.scalar hdepth h
  | .array list, v, h => by
      unfold decodeTyped at h
      split at h
      · cases h
      · split at h
        · obtain ⟨items, hitems, h⟩ := bind_eq_ok.mp h
          cases h
          exact rule.list hdepth (rule.items name depth 0 list hitems)
        · exact rule.scalar hdepth h
  | .null, v, h | .bool _, v, h | .number, v, h | .string _, v, h => by
      unfold decodeTyped at h
      split at h
      · cases h
      · split at h
        · cases h
        · exact rule.scalar hdepth h

theorem DecodeRule.fields (rule : DecodeRule P) (name : Text) (depth : Nat) :
    (map : List (Text × Json)) → {nested fields : Fields} → Collected (P (depth + 1)) nested →
      decodeFields name depth nested map = .ok fields → Collected (P (depth + 1)) fields
  | [], _, _, hnested, h => by
      unfold decodeFields at h
      cases h
      exact hnested
  | (k, v) :: rest, _, _, hnested, h => by
      unfold decodeFields at h
      obtain ⟨_, hname, h⟩ := bind_eq_ok.mp h
      obtain ⟨value, hvalue, h⟩ := bind_eq_ok.mp h
      exact rule.fields name depth rest
        (hnested.insert (checkAttributeName_ok.mp hname) (rule.value _ _ v hvalue)) h

theorem DecodeRule.items (rule : DecodeRule P) (name : Text) (depth i : Nat) :
    (list : List Json) → {items : List AttributeValue} → decodeList name depth i list = .ok items →
    ∀ v ∈ items, P (depth + 1) v
  | [], _, h => by
      unfold decodeList at h
      cases h
      exact fun _ hv => by cases hv
  | v :: rest, _, h => by
      unfold decodeList at h
      obtain ⟨value, hvalue, h⟩ := bind_eq_ok.mp h
      obtain ⟨more, hmore, h⟩ := bind_eq_ok.mp h
      cases h
      intro w hw
      rcases List.mem_cons.mp hw with rfl | hw
      · exact rule.value _ _ v hvalue
      · exact rule.items name depth (i + 1) rest hmore w hw

end

theorem decodeRule_decoded : DecodeRule fun _ v => v.Decoded where
  scalar _ h := decodeScalar_decoded h
  map _ hascending _ hvalues hsets := by
    cases hsets with
    | M hsets => exact .M hascending fun f hf => hvalues f hf (hsets f hf)
  list _ hvalues hsets := by
    cases hsets with
    | L hsets => exact .L fun v hv => hvalues v hv (hsets v hv)

end AnimusDb.Items
