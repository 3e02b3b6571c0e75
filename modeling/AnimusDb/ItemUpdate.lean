import AnimusDb.ItemDecimal
import AnimusDb.ItemShape

/-! Update expressions. The actions of an expression are applied to an item one after the other, each
to the result of the one before; size and depth are checked once, at the end. -/

open RustText

namespace AnimusDb.Items

inductive PathSegment where
  | field (name : Text)
  | index (n : Nat)

/-- The right-hand side of an assignment: a value, a path, or a function call. -/
inductive UpdateOperand where
  | value (v : AttributeValue)
  | path (path : List PathSegment)
  | ifNotExists (path : List PathSegment) (default : UpdateOperand)
  | listAppend (a b : UpdateOperand)

inductive UpdateExpr where
  | operand (op : UpdateOperand)
  | add (a b : UpdateOperand)
  | sub (a b : UpdateOperand)

inductive UpdateAction where
  | set (path : List PathSegment) (expr : UpdateExpr)
  | remove (path : List PathSegment)
  | add (path : List PathSegment) (operand : AttributeValue)
  | delete (path : List PathSegment) (operand : AttributeValue)

/-- A validation error, with the code of the protocol's exception. -/
structure UpdateError where
  code : String
  message : String
deriving DecidableEq

/-- Why an update has no result: an error, or a panic of the decimal code. -/
inductive UpdateFailure where
  | error (e : UpdateError)
  | panic
deriving DecidableEq

def UpdateError.validation (message : String) : UpdateError := ⟨"ValidationException", message⟩

def invalid {α : Type} (message : String) : Except UpdateFailure α :=
  .error (.error (.validation message))

/-- The value of an option, or a validation error. -/
def orInvalid {α : Type} (message : String) : Option α → Except UpdateFailure α
  | some a => .ok a
  | none => invalid message

/-- The outcome of the decimal code, whose panic is the update's. -/
def ofDecimal {α : Type} : Except FormatPanic α → Except UpdateFailure α
  | .ok a => .ok a
  | .error _ => .error .panic

variable (item : Item) (path : List PathSegment)

/-- The text of a document path, for error messages. -/
def formatUpdatePath : String :=
  String.join (path.zipIdx.map fun (seg, i) =>
    match seg with
    | .field name => (if 0 < i then "." else "") ++ String.ofList name
    | .index n => "[" ++ toString n ++ "]")

/-- Change the value of a name, if the map has it. -/
def Fields.modify (fields : Fields) (name : Text) (f : AttributeValue → AttributeValue) : Fields :=
  fields.map fun field => if field.1 = name then (field.1, f field.2) else field

/-- The loop of `get_document_path`. -/
def descend : AttributeValue → List PathSegment → Option AttributeValue
  | cur, [] => some cur
  | .M m, .field name :: rest => (Fields.get m name).bind (descend · rest)
  | .L l, .index i :: rest => l[i]?.bind (descend · rest)
  | _, _ => none

def getDocumentPath : List PathSegment → Option AttributeValue
  | .field first :: segments => (Fields.get item first).bind (descend · segments)
  | _ => none

def setIntoContainer (value : AttributeValue) : List PathSegment → AttributeValue → AttributeValue
  | [.field name], .M m => .M (Fields.insert m name value)
  | .field name :: rest, .M m => .M (Fields.modify m name (setIntoContainer value rest))
  | [.index i], .L l => .L (if i < l.length then l.set i value else l ++ [value])
  | .index i :: rest, .L l => .L (l.modify i (setIntoContainer value rest))
  | _, container => container

def setDocumentPath (value : AttributeValue) : List PathSegment → Item
  | [.field name] => Fields.insert item name value
  | .field name :: rest => Fields.modify item name (setIntoContainer value rest)
  | _ => item

/-- Whether every segment but the last exists. -/
def documentPathParentExists : Bool :=
  if path.length ≤ 1 then true else (getDocumentPath item path.dropLast).isSome

def removeFromContainer : List PathSegment → AttributeValue → AttributeValue
  | [.field name], .M m => .M (Fields.remove m name)
  | .field name :: rest, .M m => .M (Fields.modify m name (removeFromContainer rest))
  | [.index i], .L l => .L (l.eraseIdx i)
  | .index i :: rest, .L l => .L (l.modify i (removeFromContainer rest))
  | _, container => container

def removeDocumentPath : List PathSegment → Item
  | [.field name] => Fields.remove item name
  | .field name :: rest => Fields.modify item name (removeFromContainer rest)
  | _ => item

def evalUpdateOperand (item : Item) : UpdateOperand → Except UpdateFailure (Option AttributeValue)
  | .value v => .ok (some v)
  | .path path => .ok (getDocumentPath item path)
  | .ifNotExists path default =>
    match getDocumentPath item path with
    | some v => .ok (some v)
    | none => evalUpdateOperand item default
  | .listAppend a b => do
      let missing := "list_append operand does not exist in the item"
      let av ← orInvalid missing (← evalUpdateOperand item a)
      let bv ← orInvalid missing (← evalUpdateOperand item b)
      match av, bv with
      | .L av, .L bv => .ok (some (.L (av ++ bv)))
      | _, _ => invalid "list_append operands must both be lists (L)"

/-- The right side of `+`, or the negated right side of `-`. -/
def rightSide (operandError : String) (minus : Bool) (bn : Text) : Except UpdateFailure Text := do
  if minus then orInvalid operandError (← ofDecimal (negateNumeric bn)) else .ok bn

/-- The shared core of `+` and `-`; `-` first negates the right side. -/
def evalUpdateArithmetic (a b : UpdateOperand) (minus : Bool) :
    Except UpdateFailure AttributeValue := do
  let operandError := "SET arithmetic (`" ++ (if minus then "-" else "+") ++ "`) requires two number (N) operands"
  let av ← orInvalid operandError (← evalUpdateOperand item a)
  let bv ← orInvalid operandError (← evalUpdateOperand item b)
  match av, bv with
  | .N an, .N bn =>
    let rhs ← rightSide operandError minus bn
    let sum ← orInvalid operandError (← ofDecimal (addNumeric an rhs))
    .ok (.N sum)
  | _, _ => invalid operandError

def evalUpdateExpr : UpdateExpr → Except UpdateFailure AttributeValue
  | .operand op => do
      orInvalid "The provided expression refers to an attribute that does not exist in the item"
        (← evalUpdateOperand item op)
  | .add a b => evalUpdateArithmetic item a b false
  | .sub a b => evalUpdateArithmetic item a b true

def setIsEmpty : AttributeValue → Bool
  | .SS s | .NS s => s.isEmpty
  | .BS s => s.isEmpty
  | _ => false

def emptySetMessage (v : AttributeValue) : String :=
  let kind := match v with
    | .NS _ => "number"
    | .BS _ => "binary"
    | _ => "string"
  "One or more parameter values were invalid: An " ++ kind ++ " set  may not be empty"

def typeName : AttributeValue → String
  | .S _ => "S"
  | .N _ => "N"
  | .B _ => "B"
  | .bool _ => "BOOL"
  | .null => "NULL"
  | .M _ => "M"
  | .L _ => "L"
  | .SS _ => "SS"
  | .NS _ => "NS"
  | .BS _ => "BS"

/-- The value that `ADD` leaves at a path. -/
def addedValue (current : Option AttributeValue) (operand : AttributeValue) :
    Except UpdateFailure AttributeValue :=
  match current, operand with
  | none, v => if setIsEmpty v then invalid (emptySetMessage v) else .ok v
  | some (.N cur), .N delta => do
      let sum ← orInvalid ("ADD on `" ++ formatUpdatePath path ++ "`: `" ++ String.ofList cur ++
        "` and `" ++ String.ofList delta ++ "` are not both numbers") (← ofDecimal (addNumeric cur delta))
      .ok (.N sum)
  | some (.SS cur), .SS add => .ok (.SS (unionSorted cur add))
  | some (.NS cur), .NS add => .ok (.NS (unionSorted cur add))
  | some (.BS cur), .BS add => .ok (.BS (unionSorted cur add))
  | some existing, operand =>
    invalid ("ADD on `" ++ formatUpdatePath path ++ "` needs a number or a matching set type, got " ++
      typeName existing ++ " += " ++ typeName operand)

/-- The set that `DELETE` leaves at a path. -/
def remainingValue (existing operand : AttributeValue) : Except UpdateFailure AttributeValue :=
  match existing, operand with
  | .SS cur, .SS rm => .ok (.SS (differenceSorted cur rm))
  | .NS cur, .NS rm => .ok (.NS (differenceSorted cur rm))
  | .BS cur, .BS rm => .ok (.BS (differenceSorted cur rm))
  | existing, operand =>
    invalid ("DELETE on `" ++ formatUpdatePath path ++ "` needs matching set types, got " ++
      typeName existing ++ " -= " ++ typeName operand)

def invalidPath : String :=
  "The document path provided in the update expression is invalid for update"

def applyAction : UpdateAction → Except UpdateFailure Item
  | .set path expr =>
    if documentPathParentExists item path then do
      let value ← evalUpdateExpr item expr
      .ok (setDocumentPath item value path)
    else invalid invalidPath
  | .remove path => .ok (removeDocumentPath item path)
  | .add path operand =>
    if documentPathParentExists item path then do
      let updated ← addedValue path (getDocumentPath item path) operand
      .ok (setDocumentPath item updated path)
    else invalid invalidPath
  | .delete path operand =>
    match getDocumentPath item path with
    | none => .ok item
    | some existing => do
        let remaining ← remainingValue path existing operand
        .ok (if setIsEmpty remaining then removeDocumentPath item path
          else setDocumentPath item remaining path)

/-- The checks on the result of the fold. -/
def checkLimits : Except UpdateFailure Item :=
  if maxItemSizeBytes < itemSize item then invalid "Item size has exceeded the maximum allowed size"
  else if maxNestingDepth < itemDepth item then
    invalid "Nesting depth of the document path exceeds the maximum allowed depth"
  else .ok item

def applyUpdate (actions : List UpdateAction) : Except UpdateFailure Item := do
  checkLimits (← actions.foldlM applyAction item)

end AnimusDb.Items
