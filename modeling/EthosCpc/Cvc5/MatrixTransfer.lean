import EthosCpc.Cvc5.MatrixSpec

/-!
# Renaming the rows of a sparse matrix

Two matrices that are the same up to the names of their rows in use stay so
under every operation: `transfer` writes the rows of one matrix into another
one, under other names, and every operation on the entries commutes with it.
-/

namespace EthosCpc.Cvc5.Tableau

open Option (some.inj)
open Function (update update_of_ne update_self)

variable {T : Type} {m m' a : Matrix T} {used : List Nat} {ρ : Nat → Nat} {es : Nat → Entry T}
  {r id : Nat}

def Entry.rename (ρ : Nat → Nat) (e : Entry T) : Entry T :=
  { e with rowIndex := e.rowIndex.map ρ }

/-- The rows `used` of `m` are written into `a` under new names; `a` keeps its other rows and its
pool. -/
def transfer (ρ : Nat → Nat) (used : List Nat) (a m : Matrix T) : Matrix T where
  numRows := a.numRows
  rows q :=
    match used.find? fun r => ρ r = q with
    | some r => m.rows r
    | none => a.rows q
  numColumns := m.numColumns
  columns := m.columns
  mergeBuffer := m.mergeBuffer
  rowInMergeBuffer := m.rowInMergeBuffer.map ρ
  entriesInUse := m.entriesInUse
  entries id := (m.entries id).rename ρ
  numEntries := m.numEntries
  freedEntries := m.freedEntries
  pool := a.pool

/-- Different rows in use have different names. -/
def Injective (ρ : Nat → Nat) (used : List Nat) : Prop :=
  ∀ r ∈ used, ∀ r' ∈ used, ρ r = ρ r' → r = r'

lemma find_of_mem (hinj : Injective ρ used) (hr : r ∈ used) :
    (used.find? fun r' => ρ r' = ρ r) = some r := by
  cases hfind : used.find? fun r' => ρ r' = ρ r with
  | none =>
    have hno := List.find?_eq_none.1 hfind r hr
    exact absurd (decide_eq_true rfl) hno
  | some r' =>
    have hmem := List.mem_of_find?_eq_some hfind
    have heq := of_decide_eq_true (List.find?_some (p := fun r' => decide (ρ r' = ρ r)) hfind)
    rw [hinj r' hmem r hr heq]

lemma find_of_not_mem {q : Nat} (hq : q ∉ used.map ρ) : (used.find? fun r => ρ r = q) = none := by
  rw [List.find?_eq_none]
  intro r hr heq
  exact hq (List.mem_map.2 ⟨r, hr, of_decide_eq_true heq⟩)

lemma rows_transfer (hinj : Injective ρ used) (hr : r ∈ used) :
    (transfer ρ used a m).rows (ρ r) = m.rows r := by
  change (match used.find? fun r' => ρ r' = ρ r with
    | some r => m.rows r
    | none => a.rows (ρ r)) = _
  rw [find_of_mem hinj hr]

lemma rows_transfer_of_not_mem {q : Nat} (hq : q ∉ used.map ρ) :
    (transfer ρ used a m).rows q = a.rows q := by
  change (match used.find? fun r' => ρ r' = q with
    | some r => m.rows r
    | none => a.rows q) = _
  rw [find_of_not_mem hq]

lemma update_rows_transfer (hinj : Injective ρ used) (hr : r ∈ used) (v : MatrixVector) :
    update (transfer ρ used a m).rows (ρ r) v =
      (transfer ρ used a { m with rows := update m.rows r v }).rows := by
  funext q
  by_cases hq : q ∈ used.map ρ
  swap
  · have hne : q ≠ ρ r := fun h => hq (h ▸ List.mem_map_of_mem hr)
    rw [update_of_ne hne, rows_transfer_of_not_mem hq, rows_transfer_of_not_mem hq]
  obtain ⟨r', hr', rfl⟩ := List.mem_map.1 hq
  rw [rows_transfer hinj hr']
  by_cases heq : r' = r
  · subst heq
    rw [update_self]
    change v = update m.rows r' v r'
    rw [update_self]
  have hne : ρ r' ≠ ρ r := fun h => heq (hinj r' hr' r hr h)
  rw [update_of_ne hne, rows_transfer hinj hr']
  change m.rows r' = update m.rows r v r'
  rw [update_of_ne heq]

lemma rows_transfer_congr {m m' : Matrix T} (h : m.rows = m'.rows) :
    (transfer ρ used a m).rows = (transfer ρ used a m').rows := by
  funext q
  change (match used.find? fun r' => ρ r' = q with
    | some r => m.rows r
    | none => a.rows q) = _
  rw [h]
  rfl

/-! ## Operations on the entries -/

lemma modify_rename {x? : Option Nat} {f : Entry T → Entry T}
    (hf : ∀ e, f (e.rename ρ) = (f e).rename ρ) :
    modify (fun i => (es i).rename ρ) x? f = fun i => (modify es x? f i).rename ρ := by
  funext i
  rw [modify_apply, modify_apply]
  split
  · exact hf _
  · rfl

lemma setNext_rename (isRow : Bool) (e : Entry T) (v : Option Nat) :
    (e.rename ρ).setNext isRow v = (e.setNext isRow v).rename ρ := by
  cases isRow <;> rfl

lemma setPrev_rename (isRow : Bool) (e : Entry T) (v : Option Nat) :
    (e.rename ρ).setPrev isRow v = (e.setPrev isRow v).rename ρ := by
  cases isRow <;> rfl

lemma insert_rename (es : Nat → Entry T) (isRow : Bool) (v : MatrixVector) (newId : Nat) :
    v.insert isRow (fun i => (es i).rename ρ) newId =
      ((v.insert isRow es newId).1, fun i => ((v.insert isRow es newId).2 i).rename ρ) := by
  unfold MatrixVector.insert
  dsimp only
  rw [modify_rename fun e => setNext_rename isRow e _,
    modify_rename fun e => setPrev_rename isRow e _]

lemma next_rename (isRow : Bool) (e : Entry T) : (e.rename ρ).next isRow = e.next isRow := rfl

lemma prev_rename (isRow : Bool) (e : Entry T) : (e.rename ρ).prev isRow = e.prev isRow := rfl

lemma remove_rename (es : Nat → Entry T) (isRow : Bool) (v : MatrixVector) (id : Nat) :
    v.remove isRow (fun i => (es i).rename ρ) id =
      ((v.remove isRow es id).1, fun i => ((v.remove isRow es id).2 i).rename ρ) := by
  unfold MatrixVector.remove
  dsimp only
  rw [next_rename, prev_rename, modify_rename fun e => setNext_rename isRow e _,
    modify_rename fun e => setPrev_rename isRow e _]

lemma update_rename (e : Entry T) (id : Nat) : update (fun i => (es i).rename ρ) id (e.rename ρ) =
      fun i => (update es id e i).rename ρ := by
  funext i
  by_cases h : i = id
  · subst h
    rw [update_self, update_self]
  · rw [update_of_ne h, update_of_ne h]

/-- The pair of a changed row or column and the entries. -/
def renamed (ρ : Nat → Nat) (v : MatrixVector × (Nat → Entry T)) : MatrixVector × (Nat → Entry T) :=
  (v.1, fun i => (v.2 i).rename ρ)

lemma transfer_setRow (hinj : Injective ρ used) (hr : r ∈ used)
    (v : MatrixVector × (Nat → Entry T)) :
    { transfer ρ used a m with
      rows := update (transfer ρ used a m).rows (ρ r) (renamed ρ v).1
      entries := (renamed ρ v).2 } =
    transfer ρ used a { m with rows := update m.rows r v.1, entries := v.2 } :=
  Matrix.ext rfl ((update_rows_transfer hinj hr v.1).trans (rows_transfer_congr rfl))
    rfl rfl rfl rfl rfl rfl rfl rfl rfl

lemma transfer_setColumn (col : Nat) (v : MatrixVector × (Nat → Entry T)) :
    { transfer ρ used a m with
      columns := update m.columns col (renamed ρ v).1
      entries := (renamed ρ v).2 } =
    transfer ρ used a { m with columns := update m.columns col v.1, entries := v.2 } :=
  Matrix.ext rfl (rows_transfer_congr rfl) rfl rfl rfl rfl rfl rfl rfl rfl rfl

lemma transfer_insertRow (hinj : Injective ρ used) (hr : r ∈ used) :
    (transfer ρ used a m).insertRow (ρ r) id = transfer ρ used a (m.insertRow r id) := by
  have hins := insert_rename m.entries (ρ := ρ) true (m.rows r) id
  refine Eq.trans ?_ (transfer_setRow hinj hr _)
  rw [renamed, ← hins, Matrix.insertRow, rows_transfer hinj hr]
  rfl

lemma transfer_dropRow (hinj : Injective ρ used) (hr : r ∈ used) :
    (transfer ρ used a m).dropRow (ρ r) id = transfer ρ used a (m.dropRow r id) := by
  have hrem := remove_rename m.entries (ρ := ρ) true (m.rows r) id
  refine Eq.trans ?_ (transfer_setRow hinj hr _)
  rw [renamed, ← hrem, Matrix.dropRow, rows_transfer hinj hr]
  rfl

lemma transfer_insertColumn (col : Nat) :
    (transfer ρ used a m).insertColumn col id = transfer ρ used a (m.insertColumn col id) := by
  refine Eq.trans ?_ (transfer_setColumn col _)
  rw [renamed, ← insert_rename]
  rfl

lemma transfer_dropColumn (col : Nat) :
    (transfer ρ used a m).dropColumn col id = transfer ρ used a (m.dropColumn col id) := by
  refine Eq.trans ?_ (transfer_setColumn col _)
  rw [renamed, ← remove_rename]
  rfl

lemma newEntry_of_nil (e : Entry T) (h : m.freedEntries = []) :
    m.newEntry e = (m.numEntries, { m with
      numEntries := m.numEntries + 1, entries := update m.entries m.numEntries e }) := by
  unfold Matrix.newEntry
  rw [h]

lemma newEntry_of_cons (e : Entry T) {freed : List Nat} (h : m.freedEntries = id :: freed) :
    m.newEntry e = (id, { m with
      freedEntries := freed, entries := update m.entries id e }) := by
  unfold Matrix.newEntry
  rw [h]

lemma transfer_newEntry (e : Entry T) : (transfer ρ used a m).newEntry (e.rename ρ) =
      ((m.newEntry e).1, transfer ρ used a (m.newEntry e).2) := by
  cases hfreed : m.freedEntries with
  | nil =>
    rw [newEntry_of_nil e hfreed, newEntry_of_nil (m := transfer ρ used a m) _ hfreed]
    exact Prod.ext rfl (Matrix.ext rfl (rows_transfer_congr rfl) rfl rfl rfl rfl rfl
      (update_rename e _) rfl rfl rfl)
  | cons x freed =>
    rw [newEntry_of_cons e hfreed, newEntry_of_cons (m := transfer ρ used a m) _ hfreed]
    exact Prod.ext rfl (Matrix.ext rfl (rows_transfer_congr rfl) rfl rfl rfl rfl rfl
      (update_rename e _) rfl rfl rfl)

lemma transfer_setCoefficient (c : T) :
    (transfer ρ used a m).setCoefficient id c = transfer ρ used a (m.setCoefficient id c) :=
  Matrix.ext rfl (rows_transfer_congr rfl) rfl rfl rfl rfl rfl
    (update_rename { m.entries id with coefficient := c } id) rfl rfl rfl

lemma transfer_setBuffer (col : Nat) (b : Nat × Bool) :
    (transfer ρ used a m).setBuffer col b = transfer ρ used a (m.setBuffer col b) :=
  Matrix.ext rfl (rows_transfer_congr rfl) rfl rfl rfl rfl rfl rfl rfl rfl rfl

lemma transfer_freeEntry :
    (transfer ρ used a m).freeEntry id = transfer ρ used a (m.freeEntry id) :=
  Matrix.ext rfl (rows_transfer_congr rfl) rfl rfl rfl rfl rfl
    (update_rename (m.entries id).markBlank id) rfl rfl rfl

lemma transfer_clearBuffer : (transfer ρ used a m).clearBuffer = transfer ρ used a m.clearBuffer :=
  Matrix.ext rfl (rows_transfer_congr rfl) rfl rfl rfl rfl rfl rfl rfl rfl rfl

lemma transfer_increaseSize :
    (transfer ρ used a m).increaseSize = transfer ρ used a m.increaseSize :=
  Matrix.ext rfl (rows_transfer_congr rfl) rfl rfl rfl rfl rfl rfl rfl rfl rfl

def Ok (used : List Nat) (m : Matrix T) : Prop := ∃ L, Lists m used L

lemma Ok.row_used (h : Ok used m) (hr : (m.entries id).rowIndex = some r) : r ∈ used := by
  obtain ⟨L, hL⟩ := h
  exact hL.row_used id r hr

lemma Ok.lt (h : Ok used m) (hr : r ∈ used) : r < m.numRows := by
  obtain ⟨L, hL⟩ := h
  exact hL.lt r hr

lemma Ok.addEntry (h : Ok used m) {col : Nat} {c : T} (hr : r ∈ used)
    (hres : m.addEntry r col c = some m') : Ok used m' := by
  obtain ⟨L, hL⟩ := h
  exact hL.addEntry hr hres

lemma Ok.removeEntry (h : Ok used m) (hres : m.removeEntry id = some m') : Ok used m' := by
  obtain ⟨L, hL⟩ := h
  obtain ⟨row, hrow, _⟩ := bind_inv hres
  have hmem := (hL.mem_iff row (hL.row_used id row hrow) id).2 hrow
  obtain ⟨xs, ys, hxs⟩ := List.append_of_mem hmem
  exact ⟨_, hL.removeEntry hrow hxs hres⟩

lemma Ok.setCoefficient (h : Ok used m) (c : T) : Ok used (m.setCoefficient id c) := by
  obtain ⟨L, hL⟩ := h
  refine ⟨L, hL.congr rfl rfl (fun i => ?_) rfl rfl⟩
  change (update m.entries id _ i).rowView = _
  by_cases hi : i = id
  · subst hi
    rw [update_self]
    rfl
  · rw [update_of_ne hi]

lemma Ok.setBuffer (h : Ok used m) (col : Nat) (b : Nat × Bool) : Ok used (m.setBuffer col b) := by
  obtain ⟨L, hL⟩ := h
  exact ⟨L, hL.congr rfl rfl (fun _ => rfl) rfl rfl⟩

section Transfer

variable (hinj : Injective ρ used)

include hinj

lemma transfer_addEntry (hlt : ∀ r ∈ used, ρ r < a.numRows) (h : Ok used m) (hr : r ∈ used)
    (col : Nat) (c : T) :
    (transfer ρ used a m).addEntry (ρ r) col c = (m.addEntry r col c).map (transfer ρ used a) := by
  unfold Matrix.addEntry
  by_cases hcol : col < m.numColumns
  swap
  · rw [if_neg (fun hb => hcol hb.2), if_neg (fun hb => hcol hb.2)]
    rfl
  rw [if_pos ⟨hlt r hr, hcol⟩, if_pos ⟨h.lt hr, hcol⟩]
  have hnew : (transfer ρ used a m).newEntry ⟨some (ρ r), some col, none, none, none, none, c⟩ =
      ((m.newEntry ⟨some r, some col, none, none, none, none, c⟩).1,
        transfer ρ used a (m.newEntry ⟨some r, some col, none, none, none, none, c⟩).2) :=
    transfer_newEntry ⟨some r, some col, none, none, none, none, c⟩
  rw [hnew]
  dsimp only
  rw [Option.map_some, ← transfer_insertColumn, ← transfer_insertRow hinj hr]
  rfl

lemma transfer_removeEntry (h : Ok used m) :
    (transfer ρ used a m).removeEntry id = (m.removeEntry id).map (transfer ρ used a) := by
  unfold Matrix.removeEntry
  change (((m.entries id).rowIndex.map ρ) >>= _) = _
  cases hrow : (m.entries id).rowIndex with
  | none => rfl
  | some r =>
    have hr := h.row_used hrow
    change ((m.entries id).colVar >>= _) = _
    cases hcol : (m.entries id).colVar with
    | none => rfl
    | some col =>
      refine congrArg some ?_
      rw [← transfer_freeEntry, ← transfer_dropColumn, ← transfer_dropRow hinj hr]
      rfl

/-! ## Loops over a row -/

variable {P : Matrix T → Prop}

variable {body bodyA bodyB : Nat → Matrix T → Option (Matrix T)} {cur : Option Nat} {k : Nat}

omit hinj in
lemma forEntries_keeps (hP : ∀ id m m', P m → body id m = some m' → P m') (hm : P m)
    (hres : Matrix.forEntries body k cur m = some m') : P m' := by
  induction k generalizing cur m with
  | zero =>
    cases cur with
    | none =>
      cases hres
      exact hm
    | some id => cases hres
  | succ k ih =>
    cases cur with
    | none =>
      cases hres
      exact hm
    | some id =>
      obtain ⟨m1, hbody, hres⟩ := bind_inv hres
      exact ih (hP id m m1 hm hbody) hres

omit hinj in
lemma forRow_keeps (hP : ∀ id m m', P m → body id m = some m' → P m') (hm : P m)
    (hres : m.forRow r body = some m') : P m' := by
  obtain ⟨i, _, hres⟩ := bind_inv hres
  exact forEntries_keeps hP hm hres

omit hinj in
lemma transfer_forEntries (hP : ∀ id m m', P m → bodyB id m = some m' → P m')
    (hbody : ∀ id m, P m → bodyA id (transfer ρ used a m) = (bodyB id m).map (transfer ρ used a))
     (hm : P m) :
    Matrix.forEntries bodyA k cur (transfer ρ used a m) =
      (Matrix.forEntries bodyB k cur m).map (transfer ρ used a) := by
  induction k generalizing cur m with
  | zero => cases cur <;> rfl
  | succ k ih =>
    cases cur with
    | none => rfl
    | some id =>
      change (bodyA id (transfer ρ used a m) >>= fun m' =>
        Matrix.forEntries bodyA k (m.entries id).nextRow m') =
        (bodyB id m >>= fun m' =>
          Matrix.forEntries bodyB k (m.entries id).nextRow m').map (transfer ρ used a)
      rw [hbody id m hm]
      cases hres : bodyB id m with
      | none => rfl
      | some m1 => exact ih (hP id m m1 hm hres)

lemma transfer_forRow (hlt : ∀ r ∈ used, ρ r < a.numRows) {P : Matrix T → Prop}
    (hP : ∀ id m m', P m → bodyB id m = some m' → P m')
    (hbody : ∀ id m, P m → bodyA id (transfer ρ used a m) = (bodyB id m).map (transfer ρ used a))
    (hm : P m) (h : Ok used m) (hr : r ∈ used) :
    (transfer ρ used a m).forRow (ρ r) bodyA = (m.forRow r bodyB).map (transfer ρ used a) := by
  have hbegin : (transfer ρ used a m).rowBegin (ρ r) = some (m.rows r).head := by
    unfold Matrix.rowBegin
    rw [rows_transfer hinj hr]
    exact if_pos (hlt r hr)
  have hbegin' : m.rowBegin r = some (m.rows r).head := if_pos (h.lt hr)
  unfold Matrix.forRow
  rw [hbegin, hbegin']
  exact transfer_forEntries hP hbody hm

lemma transfer_removeLoop (hlt : ∀ r ∈ used, ρ r < a.numRows) (h : Ok used m) (hr : r ∈ used) :
    ((transfer ρ used a m).forRow (ρ r) fun id m => m.removeEntry id) =
      (m.forRow r fun id m => m.removeEntry id).map (transfer ρ used a) :=
  transfer_forRow hinj hlt (fun _ _ _ hm hres => Ok.removeEntry hm hres)
    (fun _ _ hm => transfer_removeEntry hinj hm) h h hr

/-! ## Finding entries -/

omit hinj in
lemma transfer_findFrom {isRow : Bool} {foundA foundB : Entry T → Bool}
    (hfound : ∀ id, foundA ((m.entries id).rename ρ) = foundB (m.entries id))
    :
    Matrix.findFrom (transfer ρ used a m) isRow foundA k cur =
      Matrix.findFrom m isRow foundB k cur := by
  induction k generalizing cur with
  | zero => rfl
  | succ k ih =>
    cases cur with
    | none => rfl
    | some id =>
      rw [Matrix.findFrom, Matrix.findFrom]
      change (if foundA ((m.entries id).rename ρ) then _ else _) = _
      rw [hfound id]
      split
      · rfl
      · exact ih

lemma transfer_findEntryID (h : Ok used m) (hr : r ∈ used) (col : Nat) :
    (transfer ρ used a m).findEntryID (ρ r) col = m.findEntryID r col := by
  unfold Matrix.findEntryID
  rw [rows_transfer hinj hr]
  change (if (m.columns col).size < (m.rows r).size then _ else _) = _
  split
  swap
  · exact transfer_findFrom fun id => rfl
  refine transfer_findFrom fun id => decide_eq_decide.2 ?_
  change (m.entries id).rowIndex.map ρ = some (ρ r) ↔ _
  cases hrow : (m.entries id).rowIndex with
  | none => exact iff_of_false (by rintro ⟨⟩) (by rintro ⟨⟩)
  | some r' =>
    constructor
    · intro heq
      rw [hinj r' (h.row_used hrow) r hr (some.inj heq)]
    intro heq
    rw [some.inj heq]
    rfl

section Arithmetic

variable [Add T] [Mul T] [Zero T] [DecidableEq T] (hlt : ∀ r ∈ used, ρ r < a.numRows)

include hlt

omit [Add T] [Mul T] [DecidableEq T] in
lemma transfer_coefficient (h : Ok used m) (hr : r ∈ used) (col : Nat) :
    (transfer ρ used a m).coefficient (ρ r) col = m.coefficient r col := by
  unfold Matrix.coefficient
  rw [transfer_findEntryID hinj h hr]
  by_cases hcol : col < m.numColumns
  · rw [if_pos ⟨hlt r hr, hcol⟩, if_pos ⟨h.lt hr, hcol⟩]
    rfl
  · rw [if_neg (fun hb => hcol hb.2), if_neg (fun hb => hcol hb.2)]

omit [Add T] [Zero T] [DecidableEq T] in
lemma transfer_multiplyRow (h : Ok used m) (hr : r ∈ used) (mult : T) :
    (transfer ρ used a m).multiplyRowByConstant (ρ r) mult =
      (m.multiplyRowByConstant r mult).map (transfer ρ used a) := by
  refine transfer_forRow hinj hlt (P := Ok used) ?_ ?_ h h hr
  · intro id m m' hm hres
    cases hres
    exact hm.setCoefficient _
  · exact fun id m _ => congrArg some (transfer_setCoefficient _)

variable {col : Nat}

omit hinj hlt in
lemma plusBuffer_eq {mult coeff : T} {buffer : Nat × Bool}
    (hcol : (m.entries id).colVar = some col) (hbuffer : m.mergeBuffer col = some buffer)
    (hcoeff : (m.entries id).coefficient + mult * (m.entries buffer.1).coefficient = coeff) :
    Matrix.plusBuffer mult id m =
      if coeff = 0 then ((m.setBuffer col (buffer.1, true)).setCoefficient id coeff).removeEntry id
      else some ((m.setBuffer col (buffer.1, true)).setCoefficient id coeff) := by
  subst hcoeff
  simp only [Matrix.plusBuffer, hcol, Option.bind_eq_bind, Option.bind_some, hbuffer]
  rfl

variable {mult : T}

omit hinj hlt in
lemma plusBuffer_of_none (hcol : (m.entries id).colVar = some col)
    (hbuffer : m.mergeBuffer col = none) : Matrix.plusBuffer mult id m = some m := by
  simp only [Matrix.plusBuffer, hcol, Option.bind_eq_bind, Option.bind_some, hbuffer]
  rfl

omit hinj hlt in
lemma plusBuffer_keeps {src : Option Nat}
    (hm : Ok used m ∧ m.rowInMergeBuffer = src) (hres : Matrix.plusBuffer mult id m = some m') :
    Ok used m' ∧ m'.rowInMergeBuffer = src := by
  obtain ⟨col, hcol, _⟩ := bind_inv hres
  cases hbuffer : m.mergeBuffer col with
  | none =>
    rw [plusBuffer_of_none hcol hbuffer] at hres
    cases hres
    exact hm
  | some buffer =>
    rw [plusBuffer_eq hcol hbuffer rfl] at hres
    have hok : Ok used ((m.setBuffer col (buffer.1, true)).setCoefficient id
        ((m.entries id).coefficient + mult * (m.entries buffer.1).coefficient)) :=
      (hm.1.setBuffer col (buffer.1, true)).setCoefficient _
    split at hres
    swap
    · cases hres
      exact ⟨hok, hm.2⟩
    refine ⟨hok.removeEntry hres, ?_⟩
    obtain ⟨_, _, hres⟩ := bind_inv hres
    obtain ⟨_, _, hres⟩ := bind_inv hres
    cases hres
    exact hm.2

omit hlt in
lemma transfer_plusBuffer (h : Ok used m) (mult : T) :
    Matrix.plusBuffer mult id (transfer ρ used a m) =
      (Matrix.plusBuffer mult id m).map (transfer ρ used a) := by
  cases hcol : (m.entries id).colVar with
  | none =>
    unfold Matrix.plusBuffer
    change ((m.entries id).colVar >>= _) = ((m.entries id).colVar >>= _).map _
    rw [hcol]
    rfl
  | some col =>
    have hcol' : ((transfer ρ used a m).entries id).colVar = some col := hcol
    cases hbuffer : m.mergeBuffer col with
    | none =>
      have hbuffer' : (transfer ρ used a m).mergeBuffer col = none := hbuffer
      rw [plusBuffer_of_none hcol hbuffer, plusBuffer_of_none hcol' hbuffer']
      rfl
    | some buffer =>
      have hbuffer' : (transfer ρ used a m).mergeBuffer col = some buffer := hbuffer
      rw [plusBuffer_eq hcol hbuffer rfl, plusBuffer_eq hcol' hbuffer' rfl,
        transfer_setBuffer, transfer_setCoefficient]
      change (if (m.entries id).coefficient + mult * (m.entries buffer.1).coefficient = 0 then _
        else _) = _
      split
      · exact transfer_removeEntry hinj ((h.setBuffer _ _).setCoefficient _)
      · rfl

omit hinj hlt [Add T] [Zero T] [DecidableEq T] in
lemma plusNew_eq {dst : Nat} {buffer : Nat × Bool}
    (hcol : (m.entries id).colVar = some col) (hbuffer : m.mergeBuffer col = some buffer) :
    Matrix.plusNew dst mult id m =
      if buffer.2 then some (m.setBuffer col (buffer.1, false))
      else m.addEntry dst col (mult * (m.entries id).coefficient) := by
  unfold Matrix.plusNew
  rw [hcol]
  change (m.mergeBuffer col >>= _) = _
  rw [hbuffer]
  rfl

omit hinj hlt [Add T] [Zero T] [DecidableEq T] in
lemma plusNew_keeps (hr : r ∈ used) (h : Ok used m)
    (hres : Matrix.plusNew r mult id m = some m') : Ok used m' := by
  obtain ⟨col, hcol, hrest⟩ := bind_inv hres
  obtain ⟨buffer, hbuffer, _⟩ := bind_inv hrest
  rw [plusNew_eq hcol hbuffer] at hres
  split at hres
  · cases hres
    exact h.setBuffer _ _
  · exact h.addEntry hr hres

omit [Add T] [Zero T] [DecidableEq T] in
lemma transfer_plusNew (h : Ok used m) (hr : r ∈ used) (mult : T) :
    Matrix.plusNew (ρ r) mult id (transfer ρ used a m) =
      (Matrix.plusNew r mult id m).map (transfer ρ used a) := by
  cases hcol : (m.entries id).colVar with
  | none =>
    unfold Matrix.plusNew
    change ((m.entries id).colVar >>= _) = ((m.entries id).colVar >>= _).map _
    rw [hcol]
    rfl
  | some col =>
    cases hbuffer : m.mergeBuffer col with
    | none =>
      unfold Matrix.plusNew
      change ((m.entries id).colVar >>= fun col => m.mergeBuffer col >>= _) =
        ((m.entries id).colVar >>= fun col => m.mergeBuffer col >>= _).map _
      rw [hcol]
      change (m.mergeBuffer col >>= _) = (m.mergeBuffer col >>= _).map _
      rw [hbuffer]
      rfl
    | some buffer =>
      have hcol' : ((transfer ρ used a m).entries id).colVar = some col := hcol
      have hbuffer' : (transfer ρ used a m).mergeBuffer col = some buffer := hbuffer
      rw [plusNew_eq hcol hbuffer, plusNew_eq hcol' hbuffer']
      split
      · exact congrArg some (transfer_setBuffer _ _)
      · exact transfer_addEntry hinj hlt h hr col _

omit [Add T] [Mul T] [Zero T] [DecidableEq T] in
lemma transfer_loadRow (h : Ok used m) (hr : r ∈ used) :
    (transfer ρ used a m).loadRowIntoBuffer (ρ r) =
      (m.loadRowIntoBuffer r).map (transfer ρ used a) := by
  obtain ⟨body, hbody⟩ : ∃ body : Nat → Matrix T → Option (Matrix T), body = fun id m =>
    (m.entries id).colVar.map fun col => m.setBuffer col (id, false) := ⟨_, rfl⟩
  have hloop : (transfer ρ used a m).forRow (ρ r) body =
      (m.forRow r body).map (transfer ρ used a) := by
    refine transfer_forRow hinj hlt (P := Ok used) ?_ ?_ h h hr
    · intro id m m' hm hres
      rw [hbody] at hres
      obtain ⟨col, _, hres⟩ := map_inv hres
      cases hres
      exact hm.setBuffer _ _
    intro id m _
    rw [hbody]
    change (m.entries id).colVar.map _ = ((m.entries id).colVar.map _).map _
    cases (m.entries id).colVar with
    | none => rfl
    | some col => exact congrArg some (transfer_setBuffer _ _)
  unfold Matrix.loadRowIntoBuffer
  rw [← hbody, hloop]
  cases m.forRow r body with
  | none => rfl
  | some m1 =>
    exact congrArg some
      (Matrix.ext rfl (rows_transfer_congr rfl) rfl rfl rfl rfl rfl rfl rfl rfl rfl)

omit hinj hlt [Add T] [Mul T] [Zero T] [DecidableEq T] in
lemma loadRow_keeps (h : Ok used m) (hres : m.loadRowIntoBuffer r = some m') :
    Ok used m' ∧ m'.rowInMergeBuffer = some r := by
  obtain ⟨m1, hloop, hres⟩ := bind_inv hres
  cases hres
  have hok : Ok used m1 := by
    refine forRow_keeps (fun id m m' hm hres => ?_) h hloop
    obtain ⟨col, _, hres⟩ := map_inv hres
    cases hres
    exact Ok.setBuffer hm _ _
  obtain ⟨L, hL⟩ := hok
  exact ⟨⟨L, hL.congr rfl rfl (fun _ => rfl) rfl rfl⟩, rfl⟩

lemma transfer_rowPlusBuffer {src : Nat} (h : Ok used m) (hr : r ∈ used) (hsrc : src ∈ used)
    (hload : m.rowInMergeBuffer = some src) (mult : T) :
    (transfer ρ used a m).rowPlusBufferTimesConstant (ρ r) mult =
      (m.rowPlusBufferTimesConstant r mult).map (transfer ρ used a) := by
  unfold Matrix.rowPlusBufferTimesConstant
  have hloop : (transfer ρ used a m).forRow (ρ r) (Matrix.plusBuffer mult) =
      (m.forRow r (Matrix.plusBuffer mult)).map (transfer ρ used a) :=
    transfer_forRow hinj hlt (P := fun m => Ok used m ∧ m.rowInMergeBuffer = some src)
      (fun id m m' hm hres => plusBuffer_keeps hm hres)
      (fun id m hm => transfer_plusBuffer hinj hm.1 mult) ⟨h, hload⟩ h hr
  rw [hloop]
  cases hres : m.forRow r (Matrix.plusBuffer mult) with
  | none => rfl
  | some m1 =>
    obtain ⟨hok, hload1⟩ := forRow_keeps (P := fun m => Ok used m ∧ m.rowInMergeBuffer = some src)
      (fun id m m' hm hres => plusBuffer_keeps hm hres) ⟨h, hload⟩ hres
    change ((m1.rowInMergeBuffer.map ρ) >>= fun rid => (transfer ρ used a m1).forRow rid
      (Matrix.plusNew (ρ r) mult)) = (m1.rowInMergeBuffer >>= fun rid => m1.forRow rid
      (Matrix.plusNew r mult)).map _
    rw [hload1]
    exact transfer_forRow hinj hlt (P := Ok used) (fun id m m' hm hres => plusNew_keeps hr hm hres)
      (fun id m hm => transfer_plusNew hinj hlt hm hr mult) hok hok hsrc

omit hinj hlt in
lemma rowPlusBuffer_keeps (h : Ok used m) (hr : r ∈ used)
    (hres : m.rowPlusBufferTimesConstant r mult = some m') : Ok used m' := by
  obtain ⟨m1, hloop, hres⟩ := bind_inv hres
  obtain ⟨rid, _, hres⟩ := bind_inv hres
  have hok := forRow_keeps (P := fun m' => Ok used m' ∧ m'.rowInMergeBuffer = m.rowInMergeBuffer)
    (fun id m m' hm hres => plusBuffer_keeps hm hres) ⟨h, rfl⟩ hloop
  exact forRow_keeps (P := Ok used) (fun id m m' hm hres => plusNew_keeps hr hm hres) hok.1 hres

lemma transfer_rowPlusRow {src : Nat} (h : Ok used m) (hr : r ∈ used) (hsrc : src ∈ used)
    (mult : T) :
    (transfer ρ used a m).rowPlusRowTimesConstant (ρ r) (ρ src) mult =
      (m.rowPlusRowTimesConstant r src mult).map (transfer ρ used a) := by
  unfold Matrix.rowPlusRowTimesConstant
  by_cases heq : r = src
  · rw [if_pos (congrArg ρ heq), if_pos heq]
    rfl
  rw [if_neg fun h => heq (hinj r hr src hsrc h), if_neg heq, transfer_loadRow hinj hlt h hsrc]
  cases hload : m.loadRowIntoBuffer src with
  | none => rfl
  | some m1 =>
    obtain ⟨hok, hbuffer⟩ := loadRow_keeps h hload
    change ((transfer ρ used a m1).rowPlusBufferTimesConstant (ρ r) mult >>= _) =
      (m1.rowPlusBufferTimesConstant r mult >>= _).map _
    rw [transfer_rowPlusBuffer hinj hlt hok hr hsrc hbuffer]
    cases m1.rowPlusBufferTimesConstant r mult with
    | none => rfl
    | some m2 => exact congrArg some transfer_clearBuffer

omit [Mul T] in
lemma transfer_manipulate (h : Ok used m) (hr : r ∈ used) (col : Nat) (c : T) :
    (transfer ρ used a m).manipulateRowEntry (ρ r) col c =
      (m.manipulateRowEntry r col c).map (transfer ρ used a) := by
  unfold Matrix.manipulateRowEntry
  by_cases hcol : col < m.numColumns
  swap
  · rw [if_neg (fun hb => hcol hb.2), if_neg (fun hb => hcol hb.2)]
    rfl
  rw [if_pos ⟨hlt r hr, hcol⟩, if_pos ⟨h.lt hr, hcol⟩, transfer_findEntryID hinj h hr]
  cases m.findEntryID r col with
  | none =>
    dsimp only
    rw [transfer_addEntry hinj hlt h hr]
    cases m.addEntry r col c with
    | none => rfl
    | some m1 =>
      change (if c = 0 then none else _) = (if c = 0 then none else _ : Option _).map _
      split <;> rfl
  | some id =>
    dsimp only
    rw [transfer_setCoefficient]
    change (if (m.entries id).coefficient + c = 0 then _ else _) = _
    split
    · exact transfer_removeEntry hinj (h.setCoefficient _)
    · rfl

omit hinj hlt [Mul T] in
lemma manipulate_keeps {c : T} (h : Ok used m) (hr : r ∈ used)
    (hres : m.manipulateRowEntry r col c = some m') : Ok used m' := by
  unfold Matrix.manipulateRowEntry at hres
  split at hres
  swap
  · cases hres
  cases hfind : m.findEntryID r col with
  | none =>
    rw [hfind] at hres
    obtain ⟨m1, hadd, hres⟩ := bind_inv hres
    split at hres
    · cases hres
    · cases hres
      exact h.addEntry hr hadd
  | some id =>
    rw [hfind] at hres
    dsimp only at hres
    split at hres
    · exact (h.setCoefficient _).removeEntry hres
    · cases hres
      exact h.setCoefficient _

end Arithmetic

end Transfer

end EthosCpc.Cvc5.Tableau
