import EthosCpc.Cvc5.Matrix
import EthosCpc.Library.LinkedList
import Mathlib.Data.List.Nodup
import EthosCpc.Library.Inversion

/-!
# The rows of a sparse matrix

The entries of every row in use form a doubly linked list, and the rows in the
pool are empty.  This is what makes a row from the pool as good as a new one.
-/

namespace EthosCpc.Cvc5.Tableau

open Library.LinkedList
open Option (some.inj)
open List (mem_append mem_cons_self nodup_cons)
open Function (update update_of_ne update_self)

variable {T : Type} {m m' : Matrix T} {used : List Nat} {es : Nat → Entry T}

/-! ## Links -/

lemma modify_apply (es : Nat → Entry T) (x? : Option Nat) (f : Entry T → Entry T) (i : Nat) :
    modify es x? f i = if x? = some i then f (es i) else es i := by
  cases x? with
  | none => rfl
  | some x =>
    change update es x (f (es x)) i = _
    by_cases h : i = x
    · subst h
      rw [update_self, if_pos rfl]
    · rw [update_of_ne h, if_neg fun heq => h (some.inj heq).symm]

/-- What the lists of rows depend on. -/
def Entry.rowView (e : Entry T) : Option Nat × Option Nat × Option Nat :=
  (e.rowIndex, e.nextRow, e.prevRow)

variable {f : Entry T → Entry T}

lemma rowView_modify {x? : Option Nat} (hf : ∀ e, (f e).rowView = e.rowView) (i : Nat) :
    (modify es x? f i).rowView = (es i).rowView := by
  rw [modify_apply]
  split
  · exact hf _
  · rfl

variable {x? v : Option Nat}

lemma nextRow_modify_setNext (i : Nat) : (modify es x? (fun e => e.setNext true v) i).nextRow =
      updateAt (fun i => (es i).nextRow) x? v i := by
  rw [modify_apply]
  by_cases h : x? = some i
  · subst h
    rw [if_pos rfl, updateAt_self]
    rfl
  · rw [if_neg h, updateAt_of_ne h]

lemma prevRow_modify_setPrev (i : Nat) : (modify es x? (fun e => e.setPrev true v) i).prevRow =
      updateAt (fun i => (es i).prevRow) x? v i := by
  rw [modify_apply]
  by_cases h : x? = some i
  · subst h
    rw [if_pos rfl, updateAt_self]
    rfl
  · rw [if_neg h, updateAt_of_ne h]

lemma prevRow_modify_setNext (i : Nat) :
    (modify es x? (fun e => e.setNext true v) i).prevRow = (es i).prevRow := by
  rw [modify_apply]
  split
  · rfl
  · rfl

lemma nextRow_modify_setPrev (i : Nat) :
    (modify es x? (fun e => e.setPrev true v) i).nextRow = (es i).nextRow := by
  rw [modify_apply]
  split
  · rfl
  · rfl

lemma rowIndex_modify {x? : Option Nat} (hf : ∀ e, (f e).rowIndex = e.rowIndex) (i : Nat) :
    (modify es x? f i).rowIndex = (es i).rowIndex := by
  rw [modify_apply]
  split
  · exact hf _
  · rfl

lemma rowIndex_setNext (isRow : Bool) (e : Entry T) (v : Option Nat) :
    (e.setNext isRow v).rowIndex = e.rowIndex := by
  cases isRow <;> rfl

lemma rowIndex_setPrev (isRow : Bool) (e : Entry T) (v : Option Nat) :
    (e.setPrev isRow v).rowIndex = e.rowIndex := by
  cases isRow <;> rfl

/-! ## The lists of the rows -/

/-- The entries `L r` of each row in use are linked, and no other entry is in use. -/
structure Lists (m : Matrix T) (used : List Nat) (L : Nat → List Nat) : Prop where
  lt : ∀ r ∈ used, r < m.numRows
  rows : ∀ r ∈ used, m.rows r = ⟨(L r).head?, (L r).length⟩
  chain : ∀ r ∈ used, Chain (fun id => (m.entries id).nextRow) (fun id => (m.entries id).prevRow)
    none (L r)
  nodup : ∀ r ∈ used, (L r).Nodup
  mem_iff : ∀ r ∈ used, ∀ id, id ∈ L r ↔ (m.entries id).rowIndex = some r
  row_used : ∀ id r, (m.entries id).rowIndex = some r → r ∈ used
  free : ∀ id, (m.numEntries ≤ id ∨ id ∈ m.freedEntries) → (m.entries id).rowIndex = none
  freed_nodup : m.freedEntries.Nodup
  freed_lt : ∀ id ∈ m.freedEntries, id < m.numEntries

variable {L : Nat → List Nat}

lemma Lists.congr (h : Lists m used L) (hrows : m'.rows = m.rows) (hnum : m'.numRows = m.numRows)
    (hentries : ∀ id, (m'.entries id).rowView = (m.entries id).rowView)
    (hnumEntries : m'.numEntries = m.numEntries) (hfreed : m'.freedEntries = m.freedEntries) :
    Lists m' used L := by
  have hindex : ∀ id, (m'.entries id).rowIndex = (m.entries id).rowIndex :=
    fun id => congrArg Prod.fst (hentries id)
  have hnext : ∀ id, (m'.entries id).nextRow = (m.entries id).nextRow :=
    fun id => congrArg (fun v => v.2.1) (hentries id)
  have hprev : ∀ id, (m'.entries id).prevRow = (m.entries id).prevRow :=
    fun id => congrArg (fun v => v.2.2) (hentries id)
  refine ⟨?_, ?_, fun r hr => (h.chain r hr).congr fun id _ => ⟨hnext id, hprev id⟩, h.nodup,
    ?_, ?_, ?_, ?_, ?_⟩
  · rw [hnum]
    exact h.lt
  · rw [hrows]
    exact h.rows
  · intro r hr id
    rw [hindex]
    exact h.mem_iff r hr id
  · intro id r hr
    rw [hindex] at hr
    exact h.row_used id r hr
  · intro id hid
    rw [hnumEntries, hfreed] at hid
    rw [hindex]
    exact h.free id hid
  · rw [hfreed]
    exact h.freed_nodup
  · rw [hfreed, hnumEntries]
    exact h.freed_lt

lemma Lists.newEntry (h : Lists m used L) (e : Entry T) :
    (m.entries (m.newEntry e).1).rowIndex = none ∧
      (m.newEntry e).2.entries = update m.entries (m.newEntry e).1 e ∧
      (m.newEntry e).2.rows = m.rows ∧ (m.newEntry e).2.numRows = m.numRows ∧
      (∀ id, ((m.newEntry e).2.numEntries ≤ id ∨ id ∈ (m.newEntry e).2.freedEntries) →
        id ≠ (m.newEntry e).1 ∧ (m.entries id).rowIndex = none) ∧
      (m.newEntry e).2.freedEntries.Nodup ∧
      ∀ id ∈ (m.newEntry e).2.freedEntries, id < (m.newEntry e).2.numEntries := by
  unfold Matrix.newEntry
  have hnodup := h.freed_nodup
  have hlt := h.freed_lt
  cases hfreed : m.freedEntries with
  | nil =>
    refine ⟨h.free _ (.inl .refl), rfl, rfl, rfl, ?_, ?_, ?_⟩
    · intro id hid
      dsimp only at hid ⊢
      have hle : m.numEntries + 1 ≤ id := hid.resolve_right List.not_mem_nil
      exact ⟨by omega, h.free id (.inl (by omega))⟩
    · exact List.nodup_nil
    intro id hid
    dsimp only at hid
    cases hid
  | cons x freed =>
    rw [hfreed] at hnodup hlt
    have hmem : x ∈ m.freedEntries := hfreed ▸ (.head _)
    refine ⟨h.free x (.inr hmem), rfl, rfl, rfl, ?_, (nodup_cons.1 hnodup).2,
      fun id hid => hlt id (List.mem_cons_of_mem x hid)⟩
    intro id hid
    dsimp only at hid ⊢
    cases hid with
    | inl hle =>
      have hx := hlt x (.head _)
      exact ⟨by omega, h.free id (.inl hle)⟩
    | inr hid =>
      refine ⟨fun heq => (nodup_cons.1 hnodup).1 (heq ▸ hid), h.free id (.inr ?_)⟩
      rw [hfreed]
      exact List.mem_cons_of_mem x hid

/-- Two rows have no entry in common. -/
lemma Lists.disjoint (h : Lists m used L) {r r' id : Nat} (hr : r ∈ used) (hr' : r' ∈ used)
    (hne : r ≠ r') (hid : id ∈ L r) : id ∉ L r' := by
  intro hid'
  have heq := ((h.mem_iff r hr id).1 hid).symm.trans ((h.mem_iff r' hr' id).1 hid')
  exact hne (some.inj heq)

lemma rowView_setNext_column (e : Entry T) (v : Option Nat) :
    (e.setNext false v).rowView = e.rowView := rfl

lemma rowView_setPrev_column (e : Entry T) (v : Option Nat) :
    (e.setPrev false v).rowView = e.rowView := rfl

lemma Lists.insertColumn (h : Lists m used L) (col id : Nat) :
    Lists (m.insertColumn col id) used L := by
  refine h.congr rfl rfl (fun i => ?_) rfl rfl
  refine (rowView_modify (fun e => rowView_setPrev_column e _) i).trans ?_
  exact rowView_modify (fun e => rowView_setNext_column e _) i

lemma Lists.addEntry (h : Lists m used L) {row col : Nat} {c : T} (hrow : row ∈ used)
    (hres : m.addEntry row col c = some m') : ∃ L', Lists m' used L' := by
  unfold Matrix.addEntry at hres
  by_cases hbounds : row < m.numRows ∧ col < m.numColumns
  swap
  · rw [if_neg hbounds] at hres
    cases hres
  rw [if_pos hbounds] at hres
  dsimp only at hres
  obtain ⟨e, he⟩ : ∃ e : Entry T, e = ⟨some row, some col, none, none, none, none, c⟩ := ⟨_, rfl⟩
  rw [← he] at hres
  obtain ⟨hfree, hentries, hrows, hnum, hfreeAll, hnodup, hlt⟩ := h.newEntry e
  obtain ⟨id, hid⟩ : ∃ id, id = (m.newEntry e).1 := ⟨_, rfl⟩
  obtain ⟨m1, hm1⟩ : ∃ m1 : Matrix T, m1 = { (m.newEntry e).2 with
    entriesInUse := (m.newEntry e).2.entriesInUse + 1 } := ⟨_, rfl⟩
  rw [← hid] at hres hfree hentries hfreeAll
  rw [← hm1] at hres
  cases hres
  have hrows1 : m1.rows = m.rows := by rw [hm1]; exact hrows
  have hentries1 : m1.entries = update m.entries id e := by rw [hm1]; exact hentries
  have hother : ∀ i, i ≠ id → m1.entries i = m.entries i := by
    intro i hi
    rw [hentries1, update_of_ne hi]
  have hself : m1.entries id = e := by rw [hentries1, update_self]
  have hnotin : ∀ r ∈ used, id ∉ L r := by
    intro r hr hmem
    have hindex := (h.mem_iff r hr id).1 hmem
    rw [hfree] at hindex
    cases hindex
  have hhead : (m1.rows row).head = (L row).head? := by rw [hrows1, h.rows row hrow]
  have hne : ∀ r ∈ used, ∀ i ∈ L r, i ≠ id := fun r hr i hi heq => hnotin r hr (heq ▸ hi)
  -- The links after the insertion.
  obtain ⟨m2, hm2⟩ : ∃ m2, m2 = m1.insertRow row id := ⟨_, rfl⟩
  have hentries2 : m2.entries = modify (modify m1.entries (some id)
      fun e => e.setNext true (L row).head?) (L row).head? fun e => e.setPrev true (some id) := by
    rw [hm2, ← hhead]
    rfl
  have hnext : ∀ i, (m2.entries i).nextRow =
      updateAt (fun i => (m1.entries i).nextRow) (some id) (L row).head? i := by
    intro i
    rw [hentries2, nextRow_modify_setPrev, nextRow_modify_setNext]
  have hprev : ∀ i, (m2.entries i).prevRow =
      updateAt (fun i => (m1.entries i).prevRow) (L row).head? (some id) i := by
    intro i
    rw [hentries2, prevRow_modify_setPrev]
    congr 1
    funext j
    exact prevRow_modify_setNext j
  have hindex : ∀ i, (m2.entries i).rowIndex = (m1.entries i).rowIndex := by
    intro i
    rw [hentries2]
    exact (rowIndex_modify (fun e => rowIndex_setPrev true e _) i).trans
      (rowIndex_modify (fun e => rowIndex_setNext true e _) i)
  have hchain1 : ∀ r ∈ used, Chain (fun i => (m1.entries i).nextRow)
      (fun i => (m1.entries i).prevRow) none (L r) := by
    intro r hr
    refine (h.chain r hr).congr fun i hi => ?_
    rw [hother i (hne r hr i hi)]
    exact ⟨rfl, rfl⟩
  rw [← hm2]
  refine ⟨update L row (id :: L row), Lists.insertColumn ?_ col id⟩
  refine ⟨?_, ?_, ?_, ?_, ?_, ?_, ?_, ?_, ?_⟩
  · intro r hr
    rw [hm2]
    change r < m1.numRows
    rw [hm1]
    change r < (m.newEntry e).2.numRows
    rw [hnum]
    exact h.lt r hr
  · intro r hr
    rw [hm2]
    change update m1.rows row _ r = _
    by_cases hrr : r = row
    · subst hrr
      rw [update_self, update_self, hrows1, h.rows r hr]
      rfl
    · rw [update_of_ne hrr, update_of_ne hrr, hrows1, h.rows r hr]
  · intro r hr
    by_cases hrr : r = row
    · subst hrr
      rw [update_self]
      refine ((hchain1 r hr).push (hnotin r hr) (h.nodup r hr) ?_).congr fun i _ =>
        ⟨hnext i, hprev i⟩
      rw [hself, he]
    rw [update_of_ne hrr]
    refine (hchain1 r hr).congr fun i hi => ⟨(hnext i).trans (updateAt_of_ne ?_),
      (hprev i).trans (updateAt_of_ne ?_)⟩
    · intro heq
      exact hne r hr i hi (some.inj heq).symm
    · exact ne_head_of_not_mem (h.disjoint hr hrow hrr hi)
  · intro r hr
    by_cases hrr : r = row
    · subst hrr
      rw [update_self]
      exact nodup_cons.2 ⟨hnotin r hr, h.nodup r hr⟩
    · rw [update_of_ne hrr]
      exact h.nodup r hr
  · intro r hr i
    rw [hindex]
    by_cases hi : i = id
    · subst hi
      rw [hself, he]
      by_cases hrr : r = row
      · subst hrr
        rw [update_self]
        exact iff_of_true (.head _) rfl
      · rw [update_of_ne hrr]
        exact iff_of_false (hnotin r hr) fun heq => hrr (some.inj heq).symm
    rw [hother i hi, ← h.mem_iff r hr i]
    by_cases hrr : r = row
    · subst hrr
      rw [update_self, List.mem_cons]
      exact or_iff_right hi
    · rw [update_of_ne hrr]
  · intro i r hr
    rw [hindex] at hr
    by_cases hi : i = id
    · subst hi
      rw [hself, he] at hr
      cases hr
      exact hrow
    · rw [hother i hi] at hr
      exact h.row_used i r hr
  · intro i hi
    have hi' : (m.newEntry e).2.numEntries ≤ i ∨ i ∈ (m.newEntry e).2.freedEntries := by
      rw [hm2, hm1] at hi
      exact hi
    rw [hindex, hother i (hfreeAll i hi').1]
    exact (hfreeAll i hi').2
  · rw [hm2, hm1]
    exact hnodup
  · rw [hm2, hm1]
    exact hlt

lemma Lists.removeEntry (h : Lists m used L) {id row : Nat} {xs ys : List Nat}
    (hindex : (m.entries id).rowIndex = some row) (hL : L row = xs ++ id :: ys)
    (hres : m.removeEntry id = some m') :
    Lists m' used (update L row (xs ++ ys)) := by
  have hrow := h.row_used id row hindex
  have hchain := h.chain row hrow
  have hnodup := h.nodup row hrow
  rw [hL] at hchain hnodup
  obtain ⟨ridx, hridx, hres⟩ := bind_inv hres
  obtain ⟨col, hcol, hres⟩ := bind_inv hres
  rw [hindex] at hridx
  cases hridx
  cases hres
  have hprev_eq : (m.entries id).prevRow = xs.getLast?.or none := hchain.prev_eq
  have hnext_eq : (m.entries id).nextRow = ys.head? := hchain.next_eq
  -- The neighbours stand in the same row.
  have hprev_mem : ∀ q, (m.entries id).prevRow = some q → q ∈ xs := by
    intro q hq
    rw [hprev_eq, Option.or_none] at hq
    exact List.mem_of_getLast? hq
  have hnext_mem : ∀ q, (m.entries id).nextRow = some q → q ∈ ys := by
    intro q hq
    rw [hnext_eq] at hq
    exact List.mem_of_mem_head? hq
  obtain ⟨m2, hm2⟩ : ∃ m2 : Matrix T,
      m2 = Matrix.dropRow { m with entriesInUse := m.entriesInUse - 1 } row id := ⟨_, rfl⟩
  rw [← hm2]
  have hentries2 : m2.entries = modify (modify m.entries (m.entries id).prevRow
      fun e => e.setNext true (m.entries id).nextRow) (m.entries id).nextRow
      fun e => e.setPrev true (m.entries id).prevRow := by
    rw [hm2]
    rfl
  have hnext : ∀ i, (m2.entries i).nextRow = updateAt (fun i => (m.entries i).nextRow)
      (m.entries id).prevRow (m.entries id).nextRow i := by
    intro i
    rw [hentries2, nextRow_modify_setPrev, nextRow_modify_setNext]
  have hprev : ∀ i, (m2.entries i).prevRow = updateAt (fun i => (m.entries i).prevRow)
      (m.entries id).nextRow (m.entries id).prevRow i := by
    intro i
    rw [hentries2, prevRow_modify_setPrev]
    congr 1
    funext j
    exact prevRow_modify_setNext j
  have hindex2 : ∀ i, (m2.entries i).rowIndex = (m.entries i).rowIndex := by
    intro i
    rw [hentries2]
    exact (rowIndex_modify (fun e => rowIndex_setPrev true e _) i).trans
      (rowIndex_modify (fun e => rowIndex_setNext true e _) i)
  -- The entry is blank in the end, with the links of the others as they are now.
  obtain ⟨m3, hm3⟩ : ∃ m3 : Matrix T, m3 = m2.dropColumn col id := ⟨_, rfl⟩
  rw [← hm3]
  have hview : ∀ i, (m3.entries i).rowView = (m2.entries i).rowView := by
    intro i
    rw [hm3]
    refine (rowView_modify (fun e => rowView_setPrev_column e _) i).trans ?_
    exact rowView_modify (fun e => rowView_setNext_column e _) i
  have hview4 : ∀ i, i ≠ id → ((m3.freeEntry id).entries i).rowView = (m2.entries i).rowView := by
    intro i hi
    change (update m3.entries id _ i).rowView = _
    rw [update_of_ne hi, hview i]
  have hblank : ((m3.freeEntry id).entries id).rowIndex = none := by
    change (update m3.entries id _ id).rowIndex = _
    rw [update_self]
    rfl
  have hindex4 : ∀ i, i ≠ id → ((m3.freeEntry id).entries i).rowIndex = (m.entries i).rowIndex := by
    intro i hi
    exact (congrArg Prod.fst (hview4 i hi)).trans (hindex2 i)
  have hidx : id ∉ xs ++ ys := by
    have hmid := List.nodup_middle.1 hnodup
    exact (nodup_cons.1 hmid).1
  have hlow : id < m.numEntries := by
    by_contra hge
    rw [h.free id (.inl (Nat.le_of_not_lt hge))] at hindex
    cases hindex
  have hnotfreed : id ∉ m.freedEntries := by
    intro hmem
    rw [h.free id (.inr hmem)] at hindex
    cases hindex
  have hfreed : (m3.freeEntry id).freedEntries = m.freedEntries ++ [id] := by
    rw [hm3, hm2]
    rfl
  have hnum : (m3.freeEntry id).numEntries = m.numEntries := by
    rw [hm3, hm2]
    rfl
  refine ⟨?_, ?_, ?_, ?_, ?_, ?_, ?_, ?_, ?_⟩
  · intro r hr
    rw [hm3, hm2]
    exact h.lt r hr
  · intro r hr
    have hrows : (m3.freeEntry id).rows r = update m.rows row
        ((m.rows row).remove true m.entries id).1 r := by
      rw [hm3, hm2]
      rfl
    rw [hrows]
    by_cases hrr : r = row
    swap
    · rw [update_of_ne hrr, update_of_ne hrr, h.rows r hr]
    subst hrr
    rw [update_self, update_self]
    unfold MatrixVector.remove
    dsimp only
    rw [h.rows r hr, hL]
    dsimp only
    have hlen : (xs ++ id :: ys).length - 1 = (xs ++ ys).length := by
      simp only [List.length_append, List.length_cons]
      omega
    rw [hlen]
    exact congrArg (MatrixVector.mk · _) (hchain.head_erase hnodup)
  · intro r hr
    have hnext4 : ∀ i, i ≠ id → ((m3.freeEntry id).entries i).nextRow = (m2.entries i).nextRow :=
      fun i hi => congrArg (fun v => v.2.1) (hview4 i hi)
    have hprev4 : ∀ i, i ≠ id → ((m3.freeEntry id).entries i).prevRow = (m2.entries i).prevRow :=
      fun i hi => congrArg (fun v => v.2.2) (hview4 i hi)
    by_cases hrr : r = row
    · subst hrr
      rw [update_self]
      refine (hchain.erase hnodup fun q hq => by cases hq).congr fun i hi => ?_
      have hne : i ≠ id := fun heq => hidx (heq ▸ hi)
      exact ⟨(hnext4 i hne).trans (hnext i), (hprev4 i hne).trans (hprev i)⟩
    rw [update_of_ne hrr]
    refine (h.chain r hr).congr fun i hi => ?_
    have hout : i ∉ xs ++ id :: ys := by
      rw [← hL]
      exact h.disjoint hr hrow hrr hi
    have hne : i ≠ id := fun heq =>
      hout (heq ▸ List.mem_append_right xs (.head _))
    refine ⟨(hnext4 i hne).trans ((hnext i).trans (updateAt_of_ne ?_)),
      (hprev4 i hne).trans ((hprev i).trans (updateAt_of_ne ?_))⟩
    · exact fun heq => hout (List.mem_append_left _ (hprev_mem i heq))
    · exact fun heq =>
        hout (List.mem_append_right xs (List.mem_cons_of_mem id (hnext_mem i heq)))
  · intro r hr
    by_cases hrr : r = row
    · subst hrr
      rw [update_self]
      exact (nodup_cons.1 (List.nodup_middle.1 hnodup)).2
    · rw [update_of_ne hrr]
      exact h.nodup r hr
  · intro r hr i
    by_cases hi : i = id
    · subst hi
      rw [hblank]
      refine iff_of_false ?_ fun heq => by cases heq
      by_cases hrr : r = row
      · subst hrr
        rw [update_self]
        exact hidx
      rw [update_of_ne hrr]
      intro hmem
      have heq := (h.mem_iff r hr i).1 hmem
      rw [hindex] at heq
      exact hrr (some.inj heq).symm
    · rw [hindex4 i hi, ← h.mem_iff r hr i]
      by_cases hrr : r = row
      · subst hrr
        rw [update_self, hL, mem_append, mem_append, List.mem_cons]
        rw [or_iff_right hi]
      · rw [update_of_ne hrr]
  · intro i r hr
    by_cases hi : i = id
    · subst hi
      rw [hblank] at hr
      cases hr
    · rw [hindex4 i hi] at hr
      exact h.row_used i r hr
  · intro i hi
    rw [hnum, hfreed, mem_append, List.mem_singleton] at hi
    by_cases hii : i = id
    · subst hii
      exact hblank
    rw [hindex4 i hii]
    rcases hi with hi | hi | hi
    · exact h.free i (.inl hi)
    · exact h.free i (.inr hi)
    · exact absurd hi hii
  · rw [hfreed, List.nodup_append_comm]
    exact nodup_cons.2 ⟨hnotfreed, h.freed_nodup⟩
  · intro i hi
    rw [hfreed, mem_append, List.mem_singleton] at hi
    rw [hnum]
    cases hi with
    | inl hi => exact h.freed_lt i hi
    | inr hi => exact hi ▸ hlow

end EthosCpc.Cvc5.Tableau
