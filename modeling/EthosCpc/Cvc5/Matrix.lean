import Mathlib.Data.List.Basic

/-!
# The sparse matrix of the linear arithmetic solver of cvc5

`Matrix` of `theory/arith/linear/matrix.h`.  The entries are kept in one vector
with a queue of free ones; every entry stands in the doubly linked list of its
row and in that of its column.  The indices of removed rows are kept in a pool.
Assignment copies all tables but the pool.

An access out of bounds and a loop over a list that has more nodes than there
are entries give no result.
-/

namespace EthosCpc.Cvc5.Tableau

/-- `MatrixEntry`; a sentinel is `none`. -/
structure Entry (T : Type) where
  rowIndex : Option Nat
  colVar : Option Nat
  nextRow : Option Nat
  nextCol : Option Nat
  prevRow : Option Nat
  prevCol : Option Nat
  coefficient : T

/-- `MatrixVector`: the head of a list and its length. -/
structure MatrixVector where
  head : Option Nat
  size : Nat
  deriving DecidableEq

/-- The list without nodes. -/
def MatrixVector.nil : MatrixVector := ⟨none, 0⟩

variable {T : Type}

namespace Entry

def next (isRow : Bool) (e : Entry T) : Option Nat := if isRow then e.nextRow else e.nextCol

def prev (isRow : Bool) (e : Entry T) : Option Nat := if isRow then e.prevRow else e.prevCol

def setNext (isRow : Bool) (e : Entry T) (id : Option Nat) : Entry T :=
  if isRow then { e with nextRow := id } else { e with nextCol := id }

def setPrev (isRow : Bool) (e : Entry T) (id : Option Nat) : Entry T :=
  if isRow then { e with prevRow := id } else { e with prevCol := id }

def markBlank (e : Entry T) : Entry T := { e with rowIndex := none, colVar := none }

end Entry

/-- An entry is changed, if there is one. -/
def modify (es : Nat → Entry T) (id? : Option Nat) (f : Entry T → Entry T) : Nat → Entry T :=
  match id? with
  | some id => Function.update es id (f (es id))
  | none => es

namespace MatrixVector

def insert (isRow : Bool) (v : MatrixVector) (es : Nat → Entry T) (newId : Nat) :
    MatrixVector × (Nat → Entry T) :=
  let es := modify es (some newId) fun e => e.setNext isRow v.head
  let es := modify es v.head fun e => e.setPrev isRow (some newId)
  (⟨some newId, v.size + 1⟩, es)

def remove (isRow : Bool) (v : MatrixVector) (es : Nat → Entry T) (id : Nat) :
    MatrixVector × (Nat → Entry T) :=
  let prev := (es id).prev isRow
  let next := (es id).next isRow
  let head := if v.head = some id then next else v.head
  let es := modify es prev fun e => e.setNext isRow next
  let es := modify es next fun e => e.setPrev isRow prev
  (⟨head, v.size - 1⟩, es)

end MatrixVector

/-- `Matrix`.  The first index of the pool is the one that was released last. -/
@[ext]
structure Matrix (T : Type) where
  numRows : Nat
  rows : Nat → MatrixVector
  numColumns : Nat
  columns : Nat → MatrixVector
  mergeBuffer : Nat → Option (Nat × Bool)
  rowInMergeBuffer : Option Nat
  entriesInUse : Nat
  entries : Nat → Entry T
  numEntries : Nat
  freedEntries : List Nat
  pool : List Nat

namespace Matrix

/-- The constructor. -/
def empty (zero : T) : Matrix T where
  numRows := 0
  rows _ := .nil
  numColumns := 0
  columns _ := .nil
  mergeBuffer _ := none
  rowInMergeBuffer := none
  entriesInUse := 0
  entries _ := ⟨none, none, none, none, none, none, zero⟩
  numEntries := 0
  freedEntries := []
  pool := []

/-- `operator=`. -/
def assign (a m : Matrix T) : Matrix T where
  numRows := m.numRows
  rows := m.rows
  numColumns := m.numColumns
  columns := m.columns
  mergeBuffer := m.mergeBuffer
  rowInMergeBuffer := m.rowInMergeBuffer
  entriesInUse := m.entriesInUse
  entries := m.entries
  numEntries := m.numEntries
  freedEntries := m.freedEntries
  pool := a.pool

/-- The copy constructor. -/
def copy (m : Matrix T) : Matrix T where
  numRows := m.numRows
  rows := m.rows
  numColumns := m.numColumns
  columns := m.columns
  mergeBuffer := m.mergeBuffer
  rowInMergeBuffer := m.rowInMergeBuffer
  entriesInUse := m.entriesInUse
  entries := m.entries
  numEntries := m.numEntries
  freedEntries := m.freedEntries
  pool := []

/-! ## Entries -/

/-- `newEntry`, with what the new entry holds. -/
def newEntry (m : Matrix T) (e : Entry T) : Nat × Matrix T :=
  match m.freedEntries with
  | [] => (m.numEntries, { m with
      numEntries := m.numEntries + 1, entries := Function.update m.entries m.numEntries e })
  | id :: freed => (id, { m with
      freedEntries := freed, entries := Function.update m.entries id e })

/-- The entry is put into its row. -/
def insertRow (m : Matrix T) (row id : Nat) : Matrix T :=
  let res := (m.rows row).insert true m.entries id
  { m with rows := Function.update m.rows row res.1, entries := res.2 }

/-- The entry is put into its column. -/
def insertColumn (m : Matrix T) (col id : Nat) : Matrix T :=
  let res := (m.columns col).insert false m.entries id
  { m with columns := Function.update m.columns col res.1, entries := res.2 }

def addEntry (m : Matrix T) (row col : Nat) (coeff : T) : Option (Matrix T) :=
  if row < m.numRows ∧ col < m.numColumns then
    let new := m.newEntry ⟨some row, some col, none, none, none, none, coeff⟩
    let m := { new.2 with entriesInUse := new.2.entriesInUse + 1 }
    some ((m.insertRow row new.1).insertColumn col new.1)
  else none

/-- The entry is taken out of its row. -/
def dropRow (m : Matrix T) (row id : Nat) : Matrix T :=
  let res := (m.rows row).remove true m.entries id
  { m with rows := Function.update m.rows row res.1, entries := res.2 }

/-- The entry is taken out of its column. -/
def dropColumn (m : Matrix T) (col id : Nat) : Matrix T :=
  let res := (m.columns col).remove false m.entries id
  { m with columns := Function.update m.columns col res.1, entries := res.2 }

def freeEntry (m : Matrix T) (id : Nat) : Matrix T :=
  { m with
    entries := Function.update m.entries id (m.entries id).markBlank
    freedEntries := m.freedEntries ++ [id] }

def removeEntry (m : Matrix T) (id : Nat) : Option (Matrix T) := do
  let ridx ← (m.entries id).rowIndex
  let col ← (m.entries id).colVar
  let m := { m with entriesInUse := m.entriesInUse - 1 }
  pure (((m.dropRow ridx id).dropColumn col id).freeEntry id)

/-! ## Rows -/

def requestRowIndex (m : Matrix T) : Nat × Matrix T :=
  match m.pool with
  | [] => (m.numRows, { m with
      numRows := m.numRows + 1, rows := Function.update m.rows m.numRows .nil })
  | rid :: pool => (rid, { m with pool := pool })

def releaseRowIndex (m : Matrix T) (rid : Nat) : Matrix T := { m with pool := rid :: m.pool }

def increaseSize (m : Matrix T) : Matrix T :=
  { m with
    numColumns := m.numColumns + 1
    columns := Function.update m.columns m.numColumns .nil }

/-- The loop of `addRow`. -/
def addEntries (ridx : Nat) : List T → List Nat → Matrix T → Option (Matrix T)
  | coeff :: coeffs, var :: vars, m => do
      let m ← m.addEntry ridx var coeff
      addEntries ridx coeffs vars m
  | _, [], m => some m
  | [], _ :: _, _ => none

def addRow (m : Matrix T) (coeffs : List T) (vars : List Nat) : Option (Nat × Matrix T) :=
  let new := m.requestRowIndex
  (addEntries new.1 coeffs vars new.2).map fun m => (new.1, m)

/-- The first entry of a row. -/
def rowBegin (m : Matrix T) (r : Nat) : Option (Option Nat) :=
  if r < m.numRows then some (m.rows r).head else none

/-- A loop over the entries of a row, with a bound on the number of rounds.  The next entry is read
before or after the body, which does not change where this entry leads. -/
def forEntries (body : Nat → Matrix T → Option (Matrix T)) :
    Nat → Option Nat → Matrix T → Option (Matrix T)
  | _, none, m => some m
  | 0, some _, _ => none
  | k + 1, some id, m => do
      let next := (m.entries id).nextRow
      let m ← body id m
      forEntries body k next m

/-- A loop over the row `r`. -/
def forRow (m : Matrix T) (r : Nat) (body : Nat → Matrix T → Option (Matrix T)) :
    Option (Matrix T) := do
  let i ← m.rowBegin r
  forEntries body m.numEntries i m

def removeRow (m : Matrix T) (rid : Nat) : Option (Matrix T) := do
  let m ← m.forRow rid fun id m => m.removeEntry id
  pure (m.releaseRowIndex rid)

def setCoefficient (m : Matrix T) (id : Nat) (c : T) : Matrix T :=
  { m with entries := Function.update m.entries id { m.entries id with coefficient := c } }

/-- An entry of the merge buffer is overwritten. -/
def setBuffer (m : Matrix T) (col : Nat) (b : Nat × Bool) : Matrix T :=
  { m with mergeBuffer := Function.update m.mergeBuffer col (some b) }

def loadRowIntoBuffer (m : Matrix T) (rid : Nat) : Option (Matrix T) := do
  let m ← m.forRow rid fun id m => (m.entries id).colVar.map fun col => m.setBuffer col (id, false)
  pure { m with rowInMergeBuffer := some rid }

def clearBuffer (m : Matrix T) : Matrix T :=
  { m with rowInMergeBuffer := none, mergeBuffer := fun _ => none }

section Arithmetic

variable [Add T] [Mul T] [Zero T] [DecidableEq T]

def multiplyRowByConstant (m : Matrix T) (dst : Nat) (mult : T) : Option (Matrix T) :=
  m.forRow dst fun id m => some (m.setCoefficient id ((m.entries id).coefficient * mult))

/-- The first loop of `rowPlusBufferTimesConstant`, for one entry: what the buffer has in the same
column is added. -/
def plusBuffer (mult : T) (id : Nat) (m : Matrix T) : Option (Matrix T) := do
  let col ← (m.entries id).colVar
  match m.mergeBuffer col with
  | none => pure m
  | some buffer =>
    let m := m.setBuffer col (buffer.1, true)
    let coeff := (m.entries id).coefficient + mult * (m.entries buffer.1).coefficient
    let m := m.setCoefficient id coeff
    if coeff = 0 then m.removeEntry id else pure m

/-- The second loop, for one entry of the row in the buffer. -/
def plusNew (dst : Nat) (mult : T) (id : Nat) (m : Matrix T) : Option (Matrix T) := do
  let col ← (m.entries id).colVar
  let buffer ← m.mergeBuffer col
  if buffer.2 then pure (m.setBuffer col (buffer.1, false))
  else m.addEntry dst col (mult * (m.entries id).coefficient)

def rowPlusBufferTimesConstant (m : Matrix T) (dst : Nat) (mult : T) : Option (Matrix T) := do
  let m ← m.forRow dst (plusBuffer mult)
  let rid ← m.rowInMergeBuffer
  m.forRow rid (plusNew dst mult)

def rowPlusRowTimesConstant (m : Matrix T) (dst src : Nat) (mult : T) : Option (Matrix T) :=
  if dst = src then none
  else do
    let m ← m.loadRowIntoBuffer src
    let m ← m.rowPlusBufferTimesConstant dst mult
    pure m.clearBuffer

end Arithmetic

/-! ## Finding entries -/

/-- The loops of `findOnRow` and `findOnCol`. -/
def findFrom (m : Matrix T) (isRow : Bool) (found : Entry T → Bool) :
    Nat → Option Nat → Option Nat
  | 0, _ => none
  | _ + 1, none => none
  | k + 1, some id =>
    if found (m.entries id) then some id
    else findFrom m isRow found k ((m.entries id).next isRow)

/-- `findEntryID`, for a row and a column that exist. -/
def findEntryID (m : Matrix T) (rid col : Nat) : Option Nat :=
  if (m.columns col).size < (m.rows rid).size then
    findFrom m false (fun e => e.rowIndex = some rid) m.numEntries (m.columns col).head
  else findFrom m true (fun e => e.colVar = some col) m.numEntries (m.rows rid).head

/-- `manipulateRowEntry`.  Adding zero where there is no entry makes the code remove an entry that
does not exist. -/
def manipulateRowEntry [Add T] [Zero T] [DecidableEq T] (m : Matrix T) (row col : Nat) (c : T) :
    Option (Matrix T) :=
  if row < m.numRows ∧ col < m.numColumns then
    match m.findEntryID row col with
    | none => do
        let m ← m.addEntry row col c
        if c = 0 then none else pure m
    | some id =>
      let t := (m.entries id).coefficient + c
      let m := m.setCoefficient id t
      if t = 0 then m.removeEntry id else pure m
  else none

/-- The coefficient of a row and a column: that of `findEntry`, or zero. -/
def coefficient [Zero T] (m : Matrix T) (rid col : Nat) : Option T :=
  if rid < m.numRows ∧ col < m.numColumns then
    match m.findEntryID rid col with
    | some id => some (m.entries id).coefficient
    | none => some 0
  else none

end Matrix

/-! ## Runs -/

/-- The operations.  A row is given by its position among the rows in use. -/
inductive Op (T : Type)
  | increaseSize
  | addRow (coeffs : List T) (vars : List Nat)
  | multiplyRowByConstant (dst : Nat) (mult : T)
  | rowPlusRowTimesConstant (dst src : Nat) (mult : T)
  | manipulateRowEntry (row col : Nat) (c : T)
  | removeRow (rid : Nat)

variable [Add T] [Mul T] [Zero T] [DecidableEq T]

/-- One operation on a matrix with the rows `used`. -/
def Op.apply : Op T → Matrix T × List Nat → Option (Matrix T × List Nat)
  | .increaseSize, (m, used) => some (m.increaseSize, used)
  | .addRow coeffs vars, (m, used) => do
      let (ridx, m) ← m.addRow coeffs vars
      pure (m, used ++ [ridx])
  | .multiplyRowByConstant dst mult, (m, used) => do
      let dst ← used[dst]?
      let m ← m.multiplyRowByConstant dst mult
      pure (m, used)
  | .rowPlusRowTimesConstant dst src mult, (m, used) => do
      let dst ← used[dst]?
      let src ← used[src]?
      let m ← m.rowPlusRowTimesConstant dst src mult
      pure (m, used)
  | .manipulateRowEntry row col c, (m, used) => do
      let row ← used[row]?
      let m ← m.manipulateRowEntry row col c
      pure (m, used)
  | .removeRow i, (m, used) => do
      let rid ← used[i]?
      let m ← m.removeRow rid
      pure (m, used.eraseIdx i)

/-- A sequence of operations. -/
def run : List (Op T) → Matrix T × List Nat → Option (Matrix T × List Nat)
  | [], st => some st
  | op :: ops, st => do
      let st ← op.apply st
      run ops st

def Reachable (m : Matrix T) (used : List Nat) : Prop :=
  ∃ ops, run ops (Matrix.empty 0, []) = some (m, used)

/-- Whatever is done next, `a` and `b` stay the same up to the names of rows, from `used` on, and no
row in use is handed out again. -/
def Copies (a b : Matrix T) (used : List Nat) : Prop :=
  ∀ ops b' usedB, run ops (b, used) = some (b', usedB) →
    ∃ a' usedA, run ops (a, used) = some (a', usedA) ∧ usedA.Nodup ∧
      List.Forall₂ (fun r r' => ∀ col, a'.coefficient r col = b'.coefficient r' col) usedA usedB

end EthosCpc.Cvc5.Tableau
