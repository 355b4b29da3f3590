import EthosCpc.Cvc5.MatrixTransfer
import Mathlib.Data.List.InsertIdx
import Mathlib.Algebra.Ring.Int.Defs

/-!
# Assignment of sparse matrices

Two matrices match if their rows in use are the same up to names and the rows in
either pool are empty and not in use.  Every operation keeps this, so that it
does not matter which of the free rows is handed out.  After an assignment the
pool of the left side is the old one: the two match if and only if all its rows
are free on the right side as well.
-/

namespace EthosCpc.Cvc5.Tableau

open Option (bind_eq_bind bind_some map_some some.inj)
open List (mem_append mem_cons mem_cons_self mem_of_getElem? mem_singleton nodup_cons nodup_nil
  not_mem_nil)
open Function (update update_of_ne update_self)

variable {T : Type} {m m' a a' b b' : Matrix T} {used : List Nat} {ρ ρ' : Nat → Nat} {r : Nat}
  {L : Nat → List Nat}

/-! ## Removing a row -/

lemma Lists.removeEntries (h : Lists m used L) (hr : r ∈ used) {k : Nat} {xs : List Nat}
    (hxs : L r = xs)
    (hres : Matrix.forEntries (fun id m => m.removeEntry id) k xs.head? m = some m') :
    Lists m' used (update L r []) := by
  induction xs generalizing k m L with
  | nil =>
    have hsame : update L r [] = L := by rw [← hxs, Function.update_eq_self]
    cases k with
    | zero =>
      cases hres
      rw [hsame]
      exact h
    | succ k =>
      cases hres
      rw [hsame]
      exact h
  | cons x xs ih =>
    cases k with
    | zero => cases hres
    | succ k =>
      obtain ⟨m1, hremove, hres⟩ := bind_inv hres
      have hchain := h.chain r hr
      rw [hxs] at hchain
      have hnext : (m.entries x).nextRow = xs.head? := hchain.2.1
      have hindex : (m.entries x).rowIndex = some r :=
        (h.mem_iff r hr x).1 (hxs ▸ (.head _))
      have h1 : Lists m1 used (update L r ([] ++ xs)) :=
        h.removeEntry hindex hxs hremove
      rw [hnext] at hres
      have h2 := ih h1 (update_self r _ L) hres
      rw [Function.update_idem] at h2
      exact h2

lemma Ok.removeLoop (h : Ok used m) (hr : r ∈ used)
    (hres : (m.forRow r fun id m => m.removeEntry id) = some m') :
    ∃ L, Lists m' used L ∧ L r = [] := by
  obtain ⟨L, hL⟩ := h
  obtain ⟨i, hbegin, hres⟩ := bind_inv hres
  unfold Matrix.rowBegin at hbegin
  rw [if_pos (hL.lt r hr), hL.rows r hr] at hbegin
  cases hbegin
  exact ⟨_, hL.removeEntries hr rfl hres, update_self r _ L⟩

lemma Lists.erase (h : Lists m used L) (hempty : L r = []) {used' : List Nat}
    (hmem : ∀ r', r' ∈ used' ↔ r' ∈ used ∧ r' ≠ r) : Lists m used' L := by
  have hsub : ∀ r' ∈ used', r' ∈ used := fun r' hr' => ((hmem r').1 hr').1
  refine ⟨fun r' hr' => h.lt r' (hsub r' hr'), fun r' hr' => h.rows r' (hsub r' hr'),
    fun r' hr' => h.chain r' (hsub r' hr'), fun r' hr' => h.nodup r' (hsub r' hr'),
    fun r' hr' => h.mem_iff r' (hsub r' hr'), ?_, h.free, h.freed_nodup, h.freed_lt⟩
  intro id r' hr'
  have hused := h.row_used id r' hr'
  refine (hmem r').2 ⟨hused, ?_⟩
  rintro rfl
  have hid := (h.mem_iff r' hused id).2 hr'
  rw [hempty] at hid
  cases hid

lemma Lists.append (h : Lists m used L) (hr : r ∉ used) (hrow : m.rows r = .nil)
    (hlt : r < m.numRows) : Lists m (used ++ [r]) (update L r []) := by
  have hsplit : ∀ r' ∈ used ++ [r], r' = r ∨ r' ∈ used ∧ r' ≠ r := by
    intro r' hr'
    cases mem_append.1 hr' with
    | inl hr' => exact .inr ⟨hr', fun heq => hr (heq ▸ hr')⟩
    | inr hr' => exact .inl (mem_singleton.1 hr')
  have hlist : ∀ r', r' ≠ r → update L r [] r' = L r' :=
    fun r' hne => update_of_ne hne _ _
  refine ⟨?_, ?_, ?_, ?_, ?_, ?_, h.free, h.freed_nodup, h.freed_lt⟩
  · intro r' hr'
    rcases hsplit r' hr' with rfl | ⟨hr', -⟩
    · exact hlt
    · exact h.lt r' hr'
  · intro r' hr'
    rcases hsplit r' hr' with rfl | ⟨hr', hne⟩
    · rw [update_self]
      exact hrow
    · rw [hlist r' hne]
      exact h.rows r' hr'
  · intro r' hr'
    rcases hsplit r' hr' with rfl | ⟨hr', hne⟩
    · rw [update_self]
      trivial
    · rw [hlist r' hne]
      exact h.chain r' hr'
  · intro r' hr'
    rcases hsplit r' hr' with rfl | ⟨hr', hne⟩
    · rw [update_self]
      exact nodup_nil
    · rw [hlist r' hne]
      exact h.nodup r' hr'
  · intro r' hr' id
    rcases hsplit r' hr' with rfl | ⟨hr', hne⟩
    · rw [update_self]
      exact iff_of_false not_mem_nil fun heq => hr (h.row_used id r' heq)
    · rw [hlist r' hne]
      exact h.mem_iff r' hr' id
  · exact fun id r' hr' => List.mem_append_left [r] (h.row_used id r' hr')

/-! ## Matching matrices -/

/-- The rows in the pool are empty and not in use. -/
structure Pool (used : List Nat) (m : Matrix T) : Prop where
  used_nodup : used.Nodup
  nodup : m.pool.Nodup
  not_used : ∀ p ∈ m.pool, p ∉ used
  rows : ∀ p ∈ m.pool, m.rows p = .nil
  lt : ∀ p ∈ m.pool, p < m.numRows
  used_lt : ∀ r ∈ used, r < m.numRows

/-- The matrices are the same but for the rows that are not in use and the pools. -/
structure Matches (ρ : Nat → Nat) (used : List Nat) (a b : Matrix T) : Prop where
  eq : a = transfer ρ used a b
  ok : Ok used b
  buffer : b.rowInMergeBuffer = none
  poolA : Pool (used.map ρ) a
  poolB : Pool used b
  cover : ∀ r < b.numRows, r ∈ used ∨ r ∈ b.pool

lemma Matches.injective (h : Matches ρ used a b) : Injective ρ used := by
  intro r hr r' hr' heq
  by_contra hne
  exact hne (List.inj_on_of_nodup_map h.poolA.used_nodup hr hr' heq)

lemma Matches.lt (h : Matches ρ used a b) : ∀ r ∈ used, ρ r < a.numRows :=
  fun _ hr => h.poolA.used_lt _ (List.mem_map_of_mem hr)

lemma Entry.rename_id (e : Entry T) : e.rename id = e := by
  unfold Entry.rename
  rw [Option.map_id]
  rfl

lemma transfer_id (used : List Nat) (m : Matrix T) : transfer id used m m = m := by
  refine Matrix.ext rfl ?_ rfl rfl rfl ?_ rfl (funext fun i => Entry.rename_id _) rfl rfl rfl
  · funext q
    by_cases hq : q ∈ used
    · have hinj : Injective id used := fun _ _ _ _ heq => heq
      exact rows_transfer hinj hq
    · exact rows_transfer_of_not_mem (by rwa [List.map_id])
  · exact congrFun Option.map_id _

/-- What is written into a matrix twice has been written once. -/
lemma transfer_idem (hinj : Injective ρ used) :
    transfer ρ used (transfer ρ used a b) m = transfer ρ used a m := by
  refine Matrix.ext rfl ?_ rfl rfl rfl rfl rfl rfl rfl rfl rfl
  funext q
  by_cases hq : q ∈ used.map ρ
  · obtain ⟨r, hr, rfl⟩ := List.mem_map.1 hq
    rw [rows_transfer hinj hr, rows_transfer hinj hr]
  · rw [rows_transfer_of_not_mem hq, rows_transfer_of_not_mem hq, rows_transfer_of_not_mem hq]

lemma Pool.transfer (h : Pool (used.map ρ) a) : Pool (used.map ρ) (transfer ρ used a m) := by
  refine ⟨h.used_nodup, h.nodup, h.not_used, fun p hp => ?_, h.lt, h.used_lt⟩
  rw [rows_transfer_of_not_mem (h.not_used p hp)]
  exact h.rows p hp

/-- An operation on the entries of rows in use does the same to both. -/
lemma Matches.step {f g : Matrix T → Option (Matrix T)} (h : Matches ρ used a b)
    (hrename : f (transfer ρ used a b) = (g b).map (transfer ρ used a))
    (hframe : g (transfer id used b b) = (g b).map (transfer id used b))
    (hok : ∀ m, g b = some m → Ok used m)
    (hbuffer : ∀ m, g b = some m → m.rowInMergeBuffer = none) (hres : g b = some b') :
    ∃ a', f a = some a' ∧ Matches ρ used a' b' ∧ a'.numRows = a.numRows ∧ a'.pool = a.pool ∧
      b'.pool = b.pool := by
  rw [← h.eq, hres] at hrename
  rw [transfer_id, hres] at hframe
  have hb : b' = transfer id used b b' := some.inj hframe
  have hpoolB : Pool (used.map id) (transfer id used b b') := by
    refine Pool.transfer ?_
    rw [List.map_id]
    exact h.poolB
  rw [← hb, List.map_id] at hpoolB
  refine ⟨_, hrename, ⟨?_, hok b' hres, hbuffer b' hres, h.poolA.transfer, hpoolB, ?_⟩, rfl, rfl, ?_⟩
  · exact (transfer_idem h.injective).symm
  · rw [hb]
    exact h.cover
  · rw [hb]
    rfl

lemma eq_transfer {used' : List Nat} {nA n : Nat} {rowsA rows : Nat → MatrixVector}
    {poolA pool : List Nat} (h : a = transfer ρ used a b) (hinj : Injective ρ' used')
    (hrows : ∀ r ∈ used', rowsA (ρ' r) = rows r)
    (hentries : ∀ i, (b.entries i).rename ρ = (b.entries i).rename ρ')
    (hbuffer : b.rowInMergeBuffer = none) :
    ({ a with numRows := nA, rows := rowsA, pool := poolA } : Matrix T) =
      transfer ρ' used' { a with numRows := nA, rows := rowsA, pool := poolA }
        { b with numRows := n, rows := rows, pool := pool } := by
  have hfields := congrArg (fun m : Matrix T => (m.numColumns, m.columns, m.mergeBuffer,
    m.entriesInUse, m.numEntries, m.freedEntries)) h
  simp only [Prod.mk.injEq] at hfields
  obtain ⟨hnum, hcolumns, hmerge, hinUse, hentriesNum, hfreed⟩ := hfields
  refine Matrix.ext rfl ?_ hnum hcolumns hmerge ?_ hinUse ?_ hentriesNum hfreed rfl
  · funext q
    by_cases hq : q ∈ used'.map ρ'
    · obtain ⟨r, hr, rfl⟩ := List.mem_map.1 hq
      rw [rows_transfer hinj hr]
      exact hrows r hr
    · exact (rows_transfer_of_not_mem hq).symm
  · have hnone := congrArg Matrix.rowInMergeBuffer h
    change a.rowInMergeBuffer = b.rowInMergeBuffer.map ρ at hnone
    change a.rowInMergeBuffer = b.rowInMergeBuffer.map ρ'
    rw [hnone, hbuffer]
    rfl
  · funext i
    exact (congrFun (congrArg Matrix.entries h) i).trans (hentries i)

lemma Matches.rows_eq (h : Matches ρ used a b) (hr : r ∈ used) : a.rows (ρ r) = b.rows r := by
  rw [h.eq]
  exact rows_transfer h.injective hr

/-! ## Handing out a row -/

/-- The row `q` is handed out, which leaves `n` rows, `rows` and `pool`. -/
structure Request (m : Matrix T) (used : List Nat) (n : Nat) (rows : Nat → MatrixVector)
    (pool : List Nat) (q : Nat) : Prop where
  not_used : q ∉ used
  row : rows q = .nil
  other : ∀ p, p ≠ q → rows p = m.rows p
  lt : q < n
  le : m.numRows ≤ n
  cover : ∀ r < n, r < m.numRows ∨ r = q
  mem_pool : ∀ p, p ∈ pool ↔ p ∈ m.pool ∧ p ≠ q
  nodup : pool.Nodup

lemma Pool.request (h : Pool used m) : ∃ n rows pool q,
    m.requestRowIndex = (q, { m with numRows := n, rows := rows, pool := pool }) ∧
      Request m used n rows pool q := by
  unfold Matrix.requestRowIndex
  have hnodup := h.nodup
  have hnot := h.not_used
  have hrows := h.rows
  have hlt := h.lt
  cases hpool : m.pool with
  | nil =>
    refine ⟨m.numRows + 1, update m.rows m.numRows .nil, [], m.numRows, ?_, ?_⟩
    · rfl
    refine ⟨fun hmem => Nat.lt_irrefl _ (h.used_lt _ hmem), update_self _ _ _,
      fun p hp => update_of_ne hp _ _, Nat.lt_succ_self _, Nat.le_succ _, ?_, ?_,
      nodup_nil⟩
    · intro r hr
      omega
    intro p
    rw [hpool]
    exact iff_of_false not_mem_nil fun hp => not_mem_nil hp.1
  | cons q pool =>
    rw [hpool] at hnodup hnot hrows hlt
    refine ⟨m.numRows, m.rows, pool, q, rfl, hnot q mem_cons_self, hrows q mem_cons_self,
      fun _ _ => rfl, hlt q mem_cons_self, Nat.le_refl _, fun r hr => .inl hr, ?_,
      (nodup_cons.1 hnodup).2⟩
    intro p
    rw [hpool, mem_cons]
    constructor
    · intro hp
      exact ⟨.inr hp, fun heq => (nodup_cons.1 hnodup).1 (heq ▸ hp)⟩
    · exact fun hp => hp.1.resolve_left hp.2

variable {n : Nat} {rows : Nat → MatrixVector} {pool : List Nat} {q : Nat}

lemma Request.rows_used (hq : Request m used n rows pool q) (hr : r ∈ used) : rows r = m.rows r :=
  hq.other r fun heq => hq.not_used (heq ▸ hr)

lemma Request.keeps_pool (hq : Request m used n rows pool q) (h : Pool used m) :
    Pool (used ++ [q]) { m with numRows := n, rows := rows, pool := pool } := by
  refine ⟨?_, hq.nodup, ?_, ?_, ?_, ?_⟩
  · rw [List.nodup_append_comm]
    exact nodup_cons.2 ⟨hq.not_used, h.used_nodup⟩
  · intro p hp hmem
    obtain ⟨hp, hne⟩ := (hq.mem_pool p).1 hp
    cases mem_append.1 hmem with
    | inl hmem => exact h.not_used p hp hmem
    | inr hmem => exact hne (mem_singleton.1 hmem)
  · intro p hp
    obtain ⟨hp, hne⟩ := (hq.mem_pool p).1 hp
    exact (hq.other p hne).trans (h.rows p hp)
  · intro p hp
    exact Nat.lt_of_lt_of_le (h.lt p ((hq.mem_pool p).1 hp).1) hq.le
  intro r hr
  cases mem_append.1 hr with
  | inl hr => exact Nat.lt_of_lt_of_le (h.used_lt r hr) hq.le
  | inr hr =>
    rw [mem_singleton.1 hr]
    exact hq.lt

lemma Request.keeps_ok (hq : Request m used n rows pool q) (h : Ok used m) :
    Ok (used ++ [q]) { m with numRows := n, rows := rows, pool := pool } := by
  obtain ⟨L, hL⟩ := h
  have hlists : Lists { m with numRows := n, rows := rows, pool := pool } used L := by
    refine ⟨fun r hr => Nat.lt_of_lt_of_le (hL.lt r hr) hq.le, fun r hr => ?_, hL.chain, hL.nodup,
      hL.mem_iff, hL.row_used, hL.free, hL.freed_nodup, hL.freed_lt⟩
    exact (hq.rows_used hr).trans (hL.rows r hr)
  exact ⟨_, hlists.append hq.not_used hq.row hq.lt⟩

lemma Matches.request (h : Matches ρ used a b) {nA : Nat} {rowsA : Nat → MatrixVector}
    {poolA : List Nat} {qA : Nat} (hA : Request a (used.map ρ) nA rowsA poolA qA)
    (hB : Request b used n rows pool q) :
    Matches (update ρ q qA) (used ++ [q]) { a with numRows := nA, rows := rowsA, pool := poolA }
      { b with numRows := n, rows := rows, pool := pool } := by
  have hname : ∀ r ∈ used, update ρ q qA r = ρ r := by
    intro r hr
    rw [update_of_ne]
    rintro rfl
    exact hB.not_used hr
  have hmap : (used ++ [q]).map (update ρ q qA) = used.map ρ ++ [qA] := by
    rw [List.map_append, List.map_congr_left hname, List.map_singleton, update_self]
  have hpoolA := hA.keeps_pool h.poolA
  rw [← hmap] at hpoolA
  have hinj : Injective (update ρ q qA) (used ++ [q]) := by
    intro r hr r' hr' heq
    exact List.inj_on_of_nodup_map hpoolA.used_nodup hr hr' heq
  refine ⟨eq_transfer h.eq hinj ?_ ?_ h.buffer, hB.keeps_ok h.ok, h.buffer, hpoolA,
    hB.keeps_pool h.poolB, ?_⟩
  · intro r hr
    cases mem_append.1 hr with
    | inl hr =>
      rw [hname r hr, hA.rows_used (List.mem_map_of_mem hr), hB.rows_used hr]
      exact h.rows_eq hr
    | inr hr =>
      rw [mem_singleton.1 hr, update_self]
      exact hA.row.trans hB.row.symm
  · intro i
    unfold Entry.rename
    change ({ b.entries i with rowIndex := (b.entries i).rowIndex.map ρ } : Entry T) =
      { b.entries i with rowIndex := (b.entries i).rowIndex.map (update ρ q qA) }
    cases hrow : (b.entries i).rowIndex with
    | none => rfl
    | some r => rw [map_some, map_some, hname r (h.ok.row_used hrow)]
  intro r hr
  rcases hB.cover r hr with hr | rfl
  · by_cases hrq : r = q
    · exact .inl (hrq ▸ List.mem_append_right used (.head _))
    · cases h.cover r hr with
      | inl hr => exact .inl (List.mem_append_left [q] hr)
      | inr hr => exact .inr ((hB.mem_pool r).2 ⟨hr, hrq⟩)
  · exact .inl (List.mem_append_right used (.head _))

/-! ## Releasing a row -/

variable {i : Nat}

lemma eraseIdx_split (h : used[i]? = some r) :
    ∃ xs ys, used = xs ++ r :: ys ∧ used.eraseIdx i = xs ++ ys := by
  obtain ⟨hlt, hget⟩ := List.getElem?_eq_some_iff.1 h
  refine ⟨used.take i, used.drop (i + 1), ?_, List.eraseIdx_eq_take_drop_succ used i⟩
  rw [← hget, List.getElem_cons_drop, List.take_append_drop]

lemma mem_eraseIdx {i r' : Nat} (hnodup : used.Nodup) (h : used[i]? = some r) :
    r' ∈ used.eraseIdx i ↔ r' ∈ used ∧ r' ≠ r := by
  obtain ⟨xs, ys, hused, herase⟩ := eraseIdx_split h
  rw [hused] at hnodup
  have hnot := (nodup_cons.1 (List.nodup_middle.1 hnodup)).1
  rw [herase, hused, mem_append, mem_append, mem_cons]
  constructor
  · intro hmem
    refine ⟨hmem.imp_right .inr, ?_⟩
    rintro rfl
    exact hnot (mem_append.2 hmem)
  · rintro ⟨hmem, hne⟩
    exact hmem.imp_right fun h => h.resolve_left hne

lemma Pool.release (h : Pool used m) (hi : used[i]? = some r) (hrow : m.rows r = .nil) :
    Pool (used.eraseIdx i) (m.releaseRowIndex r) := by
  have hr := mem_of_getElem? hi
  refine ⟨h.used_nodup.eraseIdx i, ?_, ?_, ?_, ?_, ?_⟩
  · exact nodup_cons.2 ⟨fun hp => h.not_used r hp hr, h.nodup⟩
  · intro p hp hmem
    obtain ⟨hmem, hne⟩ := (mem_eraseIdx h.used_nodup hi).1 hmem
    cases mem_cons.1 hp with
    | inl heq => exact hne heq
    | inr hp => exact h.not_used p hp hmem
  · intro p hp
    cases mem_cons.1 hp with
    | inl heq =>
      rw [heq]
      exact hrow
    | inr hp => exact h.rows p hp
  · intro p hp
    cases mem_cons.1 hp with
    | inl heq =>
      rw [heq]
      exact h.used_lt r hr
    | inr hp => exact h.lt p hp
  · exact fun r' hr' => h.used_lt r' ((mem_eraseIdx h.used_nodup hi).1 hr').1

lemma Matches.release (h : Matches ρ used a b) (hi : used[i]? = some r)
    (hL : Lists b used L) (hempty : L r = []) :
    Matches ρ (used.eraseIdx i) (a.releaseRowIndex (ρ r)) (b.releaseRowIndex r) := by
  have hr := mem_of_getElem? hi
  have hrowB : b.rows r = .nil := by
    rw [hL.rows r hr, hempty]
    rfl
  have hrowA : a.rows (ρ r) = .nil := (h.rows_eq hr).trans hrowB
  have hmem : ∀ r', r' ∈ used.eraseIdx i ↔ r' ∈ used ∧ r' ≠ r :=
    fun r' => mem_eraseIdx h.poolB.used_nodup hi
  have hpoolA := h.poolA.release (i := i) (by rw [List.getElem?_map, hi]; rfl) hrowA
  rw [List.eraseIdx_map] at hpoolA
  have herase := hL.erase hempty hmem
  refine ⟨eq_transfer h.eq ?_ ?_ (fun _ => rfl) h.buffer, ⟨L, ?_⟩, h.buffer, hpoolA,
    h.poolB.release hi hrowB, ?_⟩
  · exact fun r hr r' hr' => h.injective r ((hmem r).1 hr).1 r' ((hmem r').1 hr').1
  · exact fun r' hr' => h.rows_eq ((hmem r').1 hr').1
  · exact herase.congr rfl rfl (fun _ => rfl) rfl rfl
  intro r' hr'
  cases h.cover r' hr' with
  | inl hused =>
    by_cases heq : r' = r
    · exact .inr (heq ▸ (.head _))
    · exact .inl ((hmem r').2 ⟨hused, heq⟩)
  | inr hp => exact .inr (List.mem_cons_of_mem r hp)

/-! ## Operations -/

lemma addEntry_buffer {col : Nat} {c : T} (hres : m.addEntry r col c = some m') :
    m'.rowInMergeBuffer = m.rowInMergeBuffer := by
  unfold Matrix.addEntry at hres
  split at hres
  swap
  · cases hres
  cases hres
  change (m.newEntry _).2.rowInMergeBuffer = _
  unfold Matrix.newEntry
  split
  · rfl
  · rfl

lemma removeEntry_buffer {id : Nat} (hres : m.removeEntry id = some m') :
    m'.rowInMergeBuffer = m.rowInMergeBuffer := by
  obtain ⟨_, _, hres⟩ := bind_inv hres
  obtain ⟨_, _, hres⟩ := bind_inv hres
  cases hres
  rfl

lemma Matches.increaseSize (h : Matches ρ used a b) :
    Matches ρ used a.increaseSize b.increaseSize := by
  have hok : ∀ m, some b.increaseSize = some m → Ok used m := by
    intro m hm
    cases hm
    obtain ⟨L, hL⟩ := h.ok
    exact ⟨L, hL.congr rfl rfl (fun _ => rfl) rfl rfl⟩
  have hbuffer : ∀ m, some b.increaseSize = some m → m.rowInMergeBuffer = none := by
    intro m hm
    cases hm
    exact h.buffer
  obtain ⟨a', ha, hmatch, _⟩ := h.step (f := fun m => some m.increaseSize)
    (g := fun m => some m.increaseSize) (congrArg some transfer_increaseSize)
    (congrArg some transfer_increaseSize) hok hbuffer rfl
  cases ha
  exact hmatch

/-- The identity renames the rows of a matrix that is written over itself. -/
lemma injective_id : Injective id used := fun _ _ _ _ heq => heq

lemma Matches.addEntry (h : Matches ρ used a b) (hr : r ∈ used) {col : Nat} {c : T}
    (hres : b.addEntry r col c = some b') :
    ∃ a', a.addEntry (ρ r) col c = some a' ∧ Matches ρ used a' b' := by
  obtain ⟨a', ha, hmatch, _⟩ := h.step (f := fun m => m.addEntry (ρ r) col c)
    (g := fun m => m.addEntry r col c) (transfer_addEntry h.injective h.lt h.ok hr col c)
    (transfer_addEntry injective_id h.poolB.used_lt h.ok hr col c)
    (fun m hm => h.ok.addEntry hr hm) (fun m hm => (addEntry_buffer hm).trans h.buffer) hres
  exact ⟨a', ha, hmatch⟩

lemma Matches.addEntries (h : Matches ρ used a b) (hr : r ∈ used) {coeffs : List T}
    {vars : List Nat} (hres : Matrix.addEntries r coeffs vars b = some b') :
    ∃ a', Matrix.addEntries (ρ r) coeffs vars a = some a' ∧ Matches ρ used a' b' := by
  induction coeffs generalizing vars a b with
  | nil =>
    cases vars with
    | nil =>
      cases hres
      exact ⟨a, rfl, h⟩
    | cons var vars => cases hres
  | cons c coeffs ih =>
    cases vars with
    | nil =>
      cases hres
      exact ⟨a, rfl, h⟩
    | cons var vars =>
      obtain ⟨b1, hadd, hres⟩ := bind_inv hres
      obtain ⟨a1, ha1, h1⟩ := h.addEntry hr hadd
      obtain ⟨a', ha', h'⟩ := ih h1 hres
      refine ⟨a', ?_, h'⟩
      rw [Matrix.addEntries, ha1]
      exact ha'

lemma Matches.addRow (h : Matches ρ used a b) {coeffs : List T} {vars : List Nat}
    (hres : b.addRow coeffs vars = some (r, b')) :
    ∃ a' r' ρ', a.addRow coeffs vars = some (r', a') ∧
      (used ++ [r]).map ρ' = used.map ρ ++ [r'] ∧ Matches ρ' (used ++ [r]) a' b' := by
  obtain ⟨nA, rowsA, poolA, qA, hreqA, hA⟩ := h.poolA.request
  obtain ⟨n, rows, pool, q, hreqB, hB⟩ := h.poolB.request
  unfold Matrix.addRow at hres
  rw [hreqB] at hres
  obtain ⟨b1, hloop, heq⟩ := map_inv hres
  cases heq
  have hmatch := h.request hA hB
  have hmem : q ∈ used ++ [q] := List.mem_append_right used (.head _)
  obtain ⟨a', ha', h'⟩ := hmatch.addEntries hmem hloop
  rw [update_self] at ha'
  refine ⟨a', qA, _, ?_, ?_, h'⟩
  · unfold Matrix.addRow
    rw [hreqA]
    exact congrArg (Option.map fun m => (qA, m)) ha'
  rw [List.map_append, List.map_singleton, update_self]
  refine congrArg (· ++ [qA]) (List.map_congr_left fun r' hr' => ?_)
  rw [update_of_ne]
  rintro rfl
  exact hB.not_used hr'

lemma Matches.removeRow (h : Matches ρ used a b) (hi : used[i]? = some r)
    (hres : b.removeRow r = some b') :
    ∃ a', a.removeRow (ρ r) = some a' ∧ Matches ρ (used.eraseIdx i) a' b' := by
  have hr := mem_of_getElem? hi
  obtain ⟨b1, hloop, hres⟩ := bind_inv hres
  cases hres
  have hok : ∀ m, (b.forRow r fun id m => m.removeEntry id) = some m → Ok used m :=
    fun m hm => forRow_keeps (P := Ok used) (fun _ _ _ hm hres => hm.removeEntry hres) h.ok hm
  have hbuffer : ∀ m, (b.forRow r fun id m => m.removeEntry id) = some m →
      m.rowInMergeBuffer = none := by
    intro m hm
    exact forRow_keeps (P := fun m => m.rowInMergeBuffer = none)
      (fun _ _ _ hm hres => (removeEntry_buffer hres).trans hm) h.buffer hm
  obtain ⟨a1, ha1, h1, _⟩ := h.step (f := fun m => m.forRow (ρ r) fun id m => m.removeEntry id)
    (g := fun m => m.forRow r fun id m => m.removeEntry id)
    (transfer_removeLoop h.injective h.lt h.ok hr)
    (transfer_removeLoop injective_id h.poolB.used_lt h.ok hr) hok hbuffer hloop
  obtain ⟨L, hL, hempty⟩ := h.ok.removeLoop hr hloop
  refine ⟨_, ?_, h1.release hi hL hempty⟩
  unfold Matrix.removeRow
  rw [ha1]
  rfl

section Arithmetic

variable [Add T] [Mul T] [Zero T] [DecidableEq T]

omit [Add T] [Zero T] [DecidableEq T] in
lemma Matches.multiplyRow (h : Matches ρ used a b) (hr : r ∈ used) {mult : T}
    (hres : b.multiplyRowByConstant r mult = some b') :
    ∃ a', a.multiplyRowByConstant (ρ r) mult = some a' ∧ Matches ρ used a' b' := by
  have hok : ∀ m, b.multiplyRowByConstant r mult = some m → Ok used m := by
    intro m hm
    refine forRow_keeps (P := Ok used) (fun _ _ _ hm hres => ?_) h.ok hm
    cases hres
    exact hm.setCoefficient _
  have hbuffer : ∀ m, b.multiplyRowByConstant r mult = some m → m.rowInMergeBuffer = none := by
    intro m hm
    refine forRow_keeps (P := fun m => m.rowInMergeBuffer = none) (fun _ _ _ hm hres => ?_)
      h.buffer hm
    cases hres
    exact hm
  obtain ⟨a', ha, hmatch, _⟩ := h.step (f := fun m => m.multiplyRowByConstant (ρ r) mult)
    (g := fun m => m.multiplyRowByConstant r mult)
    (transfer_multiplyRow h.injective h.lt h.ok hr mult)
    (transfer_multiplyRow injective_id h.poolB.used_lt h.ok hr mult) hok hbuffer hres
  exact ⟨a', ha, hmatch⟩

lemma Matches.rowPlusRow (h : Matches ρ used a b) {src : Nat} (hr : r ∈ used)
    (hsrc : src ∈ used) {mult : T} (hres : b.rowPlusRowTimesConstant r src mult = some b') :
    ∃ a', a.rowPlusRowTimesConstant (ρ r) (ρ src) mult = some a' ∧ Matches ρ used a' b' := by
  have hspec : ∀ m, b.rowPlusRowTimesConstant r src mult = some m →
      Ok used m ∧ m.rowInMergeBuffer = none := by
    intro m hm
    unfold Matrix.rowPlusRowTimesConstant at hm
    split at hm
    · cases hm
    obtain ⟨m1, hload, hm⟩ := bind_inv hm
    obtain ⟨m2, hplus, hm⟩ := bind_inv hm
    cases hm
    obtain ⟨L, hL⟩ := rowPlusBuffer_keeps (loadRow_keeps h.ok hload).1 hr hplus
    exact ⟨⟨L, hL.congr rfl rfl (fun _ => rfl) rfl rfl⟩, rfl⟩
  obtain ⟨a', ha, hmatch, _⟩ := h.step (f := fun m => m.rowPlusRowTimesConstant (ρ r) (ρ src) mult)
    (g := fun m => m.rowPlusRowTimesConstant r src mult)
    (transfer_rowPlusRow h.injective h.lt h.ok hr hsrc mult)
    (transfer_rowPlusRow injective_id h.poolB.used_lt h.ok hr hsrc mult)
    (fun m hm => (hspec m hm).1) (fun m hm => (hspec m hm).2) hres
  exact ⟨a', ha, hmatch⟩

omit [Mul T] in
lemma manipulate_buffer {col : Nat} {c : T} (hres : m.manipulateRowEntry r col c = some m') :
    m'.rowInMergeBuffer = m.rowInMergeBuffer := by
  unfold Matrix.manipulateRowEntry at hres
  split at hres
  swap
  · cases hres
  cases hfind : m.findEntryID r col with
  | none =>
    rw [hfind] at hres
    obtain ⟨m1, hadd, hres⟩ := bind_inv hres
    split at hres
    · cases hres
    · cases hres
      exact addEntry_buffer hadd
  | some id =>
    rw [hfind] at hres
    dsimp only at hres
    split at hres
    · exact (removeEntry_buffer hres).trans rfl
    · cases hres
      rfl

omit [Mul T] in
lemma Matches.manipulate (h : Matches ρ used a b) (hr : r ∈ used) {col : Nat} {c : T}
    (hres : b.manipulateRowEntry r col c = some b') :
    ∃ a', a.manipulateRowEntry (ρ r) col c = some a' ∧ Matches ρ used a' b' := by
  obtain ⟨a', ha, hmatch, _⟩ := h.step (f := fun m => m.manipulateRowEntry (ρ r) col c)
    (g := fun m => m.manipulateRowEntry r col c)
    (transfer_manipulate h.injective h.lt h.ok hr col c)
    (transfer_manipulate injective_id h.poolB.used_lt h.ok hr col c)
    (fun m hm => manipulate_keeps h.ok hr hm) (fun m hm => (manipulate_buffer hm).trans h.buffer)
    hres
  exact ⟨a', ha, hmatch⟩

variable {used' : List Nat}

lemma Matches.apply (h : Matches ρ used a b) {op : Op T}
    (hres : op.apply (b, used) = some (b', used')) :
    ∃ a' ρ', op.apply (a, used.map ρ) = some (a', used'.map ρ') ∧ Matches ρ' used' a' b' := by
  have hname : ∀ {i : Nat} {r : Nat}, used[i]? = some r → (used.map ρ)[i]? = some (ρ r) := by
    intro i r hi
    rw [List.getElem?_map, hi]
    rfl
  cases op with
  | increaseSize =>
    cases hres
    exact ⟨_, ρ, rfl, h.increaseSize⟩
  | addRow coeffs vars =>
    obtain ⟨⟨r, b1⟩, hrow, hres⟩ := bind_inv hres
    cases hres
    obtain ⟨a', r', ρ', ha', hmap, h'⟩ := h.addRow hrow
    refine ⟨a', ρ', ?_, h'⟩
    change (a.addRow coeffs vars >>= _) = _
    rw [ha', hmap]
    rfl
  | multiplyRowByConstant i mult =>
    obtain ⟨r, hi, hres⟩ := bind_inv hres
    obtain ⟨b1, hop, hres⟩ := bind_inv hres
    cases hres
    obtain ⟨a', ha', h'⟩ := h.multiplyRow (mem_of_getElem? hi) hop
    refine ⟨a', ρ, ?_, h'⟩
    change ((used.map ρ)[i]? >>= _) = _
    rw [hname hi, bind_eq_bind, bind_some, ha']
    rfl
  | rowPlusRowTimesConstant i j mult =>
    obtain ⟨r, hi, hres⟩ := bind_inv hres
    obtain ⟨src, hj, hres⟩ := bind_inv hres
    obtain ⟨b1, hop, hres⟩ := bind_inv hres
    cases hres
    obtain ⟨a', ha', h'⟩ := h.rowPlusRow (mem_of_getElem? hi) (mem_of_getElem? hj) hop
    refine ⟨a', ρ, ?_, h'⟩
    change ((used.map ρ)[i]? >>= fun _ => (used.map ρ)[j]? >>= _) = _
    rw [hname hi, hname hj, bind_eq_bind, bind_some, bind_some, ha']
    rfl
  | manipulateRowEntry i col c =>
    obtain ⟨r, hi, hres⟩ := bind_inv hres
    obtain ⟨b1, hop, hres⟩ := bind_inv hres
    cases hres
    obtain ⟨a', ha', h'⟩ := h.manipulate (mem_of_getElem? hi) hop
    refine ⟨a', ρ, ?_, h'⟩
    change ((used.map ρ)[i]? >>= _) = _
    rw [hname hi, bind_eq_bind, bind_some, ha']
    rfl
  | removeRow i =>
    obtain ⟨r, hi, hres⟩ := bind_inv hres
    obtain ⟨b1, hop, hres⟩ := bind_inv hres
    cases hres
    obtain ⟨a', ha', h'⟩ := h.removeRow hi hop
    refine ⟨a', ρ, ?_, h'⟩
    change ((used.map ρ)[i]? >>= _) = _
    rw [hname hi, bind_eq_bind, bind_some, ha', List.eraseIdx_map]
    rfl

lemma Matches.run (h : Matches ρ used a b) {ops : List (Op T)}
    (hres : run ops (b, used) = some (b', used')) :
    ∃ a' ρ', Tableau.run ops (a, used.map ρ) = some (a', used'.map ρ') ∧
      Matches ρ' used' a' b' := by
  induction ops generalizing ρ used a b with
  | nil =>
    cases hres
    exact ⟨a, ρ, rfl, h⟩
  | cons op ops ih =>
    obtain ⟨⟨b1, used1⟩, hop, hres⟩ := bind_inv hres
    obtain ⟨a1, ρ1, ha1, h1⟩ := h.apply hop
    obtain ⟨a', ρ', ha', h'⟩ := ih h1 hres
    refine ⟨a', ρ', ?_, h'⟩
    rw [Tableau.run, ha1]
    exact ha'

/-! ## Assignment -/

omit [Add T] [Mul T] [DecidableEq T] in
lemma matches_empty : Matches id [] (Matrix.empty (0 : T)) (Matrix.empty 0) := by
  have hlists : Lists (Matrix.empty (0 : T)) [] fun _ => [] := by
    refine ⟨fun r hr => absurd hr not_mem_nil, fun r hr => absurd hr not_mem_nil,
      fun r hr => absurd hr not_mem_nil, fun r hr => absurd hr not_mem_nil,
      fun r hr => absurd hr not_mem_nil, ?_, fun _ _ => rfl, nodup_nil,
      fun id hid => absurd hid not_mem_nil⟩
    intro id r hr
    cases hr
  have hpool : Pool [] (Matrix.empty (0 : T)) :=
    ⟨nodup_nil, nodup_nil, fun p hp => absurd hp not_mem_nil,
      fun p hp => absurd hp not_mem_nil, fun p hp => absurd hp not_mem_nil,
      fun r hr => absurd hr not_mem_nil⟩
  exact ⟨(transfer_id [] _).symm, ⟨_, hlists⟩, rfl, hpool, hpool,
    fun r hr => absurd hr (Nat.not_lt_zero r)⟩

/-- A matrix after any operations matches itself. -/
lemma Reachable.matches (h : Reachable m used) : ∃ ρ, Matches ρ used m m := by
  obtain ⟨ops, hrun⟩ := h
  obtain ⟨m', ρ, hrun', hmatch⟩ := matches_empty.run hrun
  rw [List.map_nil, hrun] at hrun'
  have hsame : m = m' := congrArg Prod.fst (some.inj hrun')
  rw [← hsame] at hmatch
  exact ⟨ρ, hmatch⟩

lemma Reachable.run {ops : List (Op T)} (h : Reachable m used)
    (hrun : run ops (m, used) = some (m', used')) : Reachable m' used' := by
  obtain ⟨ops0, h0⟩ := h
  refine ⟨ops0 ++ ops, ?_⟩
  have happend : ∀ (ops0 : List (Op T)) (st : Matrix T × List Nat),
      Tableau.run (ops0 ++ ops) st = (Tableau.run ops0 st).bind (Tableau.run ops) := by
    intro ops0
    induction ops0 with
    | nil => exact fun _ => rfl
    | cons op ops0 ih =>
      intro st
      rw [List.cons_append, Tableau.run, Tableau.run]
      cases op.apply st with
      | none => rfl
      | some st => exact ih st
  rw [happend, h0]
  exact hrun

lemma matches_assign {usedA : List Nat} (ha : Reachable a usedA) (hb : Reachable b used)
    (hpool : ∀ p ∈ a.pool, p ∈ b.pool) : Matches id used (a.assign b) b := by
  obtain ⟨_, hA⟩ := ha.matches
  obtain ⟨_, hB⟩ := hb.matches
  have hassign : a.assign b = transfer id used (a.assign b) b := by
    conv_lhs => rw [← transfer_id used (a.assign b)]
    refine Matrix.ext rfl ?_ rfl rfl rfl rfl rfl rfl rfl rfl rfl
    exact rows_transfer_congr rfl
  refine ⟨hassign, hB.ok, hB.buffer, ?_, hB.poolB, hB.cover⟩
  rw [List.map_id]
  exact ⟨hB.poolB.used_nodup, hA.poolB.nodup, fun p hp => hB.poolB.not_used p (hpool p hp),
    fun p hp => hB.poolB.rows p (hpool p hp), fun p hp => hB.poolB.lt p (hpool p hp),
    hB.poolB.used_lt⟩

omit [Add T] [Mul T] [DecidableEq T] in
lemma Matches.coefficients (h : Matches ρ used a b) :
    List.Forall₂ (fun r r' => ∀ col, a.coefficient r col = b.coefficient r' col)
      (used.map ρ) used := by
  rw [List.forall₂_map_left_iff, List.forall₂_same]
  intro r hr col
  rw [h.eq]
  exact transfer_coefficient h.injective h.lt h.ok hr col

lemma Matches.copies (h : Matches id used a b) : Copies a b used := by
  intro ops b' usedB hrun
  obtain ⟨a', ρ, hrunA, hmatch⟩ := h.run hrun
  rw [List.map_id] at hrunA
  exact ⟨a', usedB.map ρ, hrunA, hmatch.poolA.used_nodup, hmatch.coefficients⟩

/-- Rows without entries are added. -/
def addEmptyRows (n : Nat) : List (Op T) := List.replicate n (.addRow [] [])

lemma run_addEmptyRows (n : Nat) (m : Matrix T) (used : List Nat) (h : n ≤ m.pool.length) :
    run (addEmptyRows n) (m, used) =
      some ({ m with pool := m.pool.drop n }, used ++ m.pool.take n) := by
  induction n generalizing m used with
  | zero => rw [List.take_zero, List.append_nil]; rfl
  | succ n ih =>
    cases hpool : m.pool with
    | nil =>
      rw [hpool] at h
      exact absurd h (Nat.not_succ_le_zero n)
    | cons p pool =>
      have hadd : (Op.addRow [] []).apply (m, used) =
          some ({ m with pool := pool }, used ++ [p]) := by
        change (Option.map (fun m' => (m.requestRowIndex.1, m')) (some m.requestRowIndex.2)
          >>= _) = _
        unfold Matrix.requestRowIndex
        rw [hpool]
        rfl
      have hlen : n ≤ pool.length := by
        rw [hpool] at h
        exact Nat.le_of_succ_le_succ h
      change (Op.addRow [] []).apply (m, used) >>= run (addEmptyRows n) = _
      rw [hadd]
      refine (ih { m with pool := pool } (used ++ [p]) hlen).trans ?_
      rw [List.append_assoc]
      rfl

lemma exists_addEmptyRows (n : Nat) (m : Matrix T) (used : List Nat) :
    ∃ m' used', run (addEmptyRows n) (m, used) = some (m', used') ∧
      m'.numColumns = m.numColumns := by
  induction n generalizing m used with
  | zero => exact ⟨m, used, rfl, rfl⟩
  | succ n ih =>
    obtain ⟨m', used', hrun, hcol⟩ := ih m.requestRowIndex.2 (used ++ [m.requestRowIndex.1])
    refine ⟨m', used', hrun, hcol.trans ?_⟩
    unfold Matrix.requestRowIndex
    split
    · rfl
    · rfl

/-- An assignment copies the right side if and only if the rows that were free on the left side
are free on the right side. -/
theorem assign_copies_iff {usedA : List Nat} (ha : Reachable a usedA) (hb : Reachable b used) :
    Copies (a.assign b) b used ↔ ∀ p ∈ a.pool, p ∈ b.pool := by
  constructor
  · -- A column is added and rows are taken from the pool until `p` is handed out.
    intro hcopies p hp
    obtain ⟨k, hk, hget⟩ := List.getElem_of_mem hp
    obtain ⟨b', usedB, hrunB, hcol⟩ := exists_addEmptyRows (k + 1) b.increaseSize used
    have hrunA := run_addEmptyRows (k + 1) (a.assign b).increaseSize used hk
    obtain ⟨a', usedA', hrunA', hnodup, hcoeff⟩ :=
      hcopies (.increaseSize :: addEmptyRows (k + 1)) b' usedB hrunB
    have heq := hrunA'.symm.trans hrunA
    cases heq
    have htake : p ∈ (a.assign b).increaseSize.pool.take (k + 1) := by
      refine List.mem_iff_getElem.2 ⟨k, ?_, ?_⟩
      · rw [List.length_take]
        exact Nat.lt_min.2 ⟨Nat.lt_succ_self k, hk⟩
      · rw [List.getElem_take]
        exact hget
    have hnot : p ∉ used := fun hmem => (List.nodup_append.1 hnodup).2.2 p hmem p htake rfl
    -- Its coefficients are those of a row of `b'`, so that it is a row of `b`.
    obtain ⟨r', hr', hsame⟩ : ∃ r' ∈ usedB, ∀ col, Matrix.coefficient
        { (a.assign b).increaseSize with
          pool := (a.assign b).increaseSize.pool.drop (k + 1) } p col = b'.coefficient r' col := by
      obtain ⟨i, hi, hget'⟩ := List.getElem_of_mem (List.mem_append_right used htake)
      have hi' : i < usedB.length := hcoeff.length_eq ▸ hi
      have hpair := hcoeff.get hi hi'
      rw [List.get_eq_getElem, hget'] at hpair
      exact ⟨_, List.getElem_mem hi', hpair⟩
    have hrunB' : run (.increaseSize :: addEmptyRows (k + 1)) (b, used) = some (b', usedB) := hrunB
    obtain ⟨_, hB'⟩ := (hb.run hrunB').matches
    obtain ⟨_, hB⟩ := hb.matches
    have hlt : p < b.numRows := by
      by_contra hge
      have hnone : Matrix.coefficient { (a.assign b).increaseSize with
          pool := (a.assign b).increaseSize.pool.drop (k + 1) } p 0 = none :=
        if_neg fun hb => hge hb.1
      rw [hsame 0] at hnone
      unfold Matrix.coefficient at hnone
      have hzero : 0 < b'.numColumns := by
        rw [hcol]
        exact Nat.succ_pos _
      rw [if_pos ⟨hB'.poolB.used_lt r' hr', hzero⟩] at hnone
      split at hnone
      · cases hnone
      · cases hnone
    exact (hB.cover p hlt).resolve_left hnot
  · exact fun hpool => (matches_assign ha hb hpool).copies

/-- After any operations, each row in use is a linked list without repetitions of exactly the entries
with its index, and a row is either in use or in the pool. -/
theorem rows_of_reachable (h : Reachable m used) :
    (∃ L, Lists m used L) ∧ used.Nodup ∧ m.pool.Nodup ∧ ∀ r < m.numRows, r ∈ used ↔ r ∉ m.pool := by
  obtain ⟨_, hm⟩ := h.matches
  refine ⟨hm.ok, hm.poolB.used_nodup, hm.poolB.nodup, fun r hr => ?_⟩
  exact ⟨fun hused hp => hm.poolB.not_used r hp hused, (hm.cover r hr).resolve_right⟩

end Arithmetic

/-- A row is added to another one and then removed. -/
theorem rows_of_reachable_removed : ∃ m : Matrix Int,
    (∃ L, Lists m [0] L) ∧ [0].Nodup ∧ m.pool.Nodup ∧ ∀ r < m.numRows, r ∈ [0] ↔ r ∉ m.pool := by
  obtain ⟨m, hrun⟩ : ∃ m : Matrix Int, run [.increaseSize, .addRow [2] [0], .addRow [3] [0],
      .rowPlusRowTimesConstant 0 1 1, .removeRow 1] (Matrix.empty 0, []) = some (m, [0]) := ⟨_, rfl⟩
  exact ⟨m, rows_of_reachable ⟨_, hrun⟩⟩

/-- The row that has been removed on either side may be handed out again. -/
theorem assign_copies_iff_removed : ∃ a b : Matrix Int,
    run [.addRow [] [], .removeRow 0] (Matrix.empty 0, []) = some (a, []) ∧
      run [.addRow [] [], .removeRow 0] (Matrix.empty 0, []) = some (b, []) ∧
      Copies (a.assign b) b [] := by
  have hreach : ∀ m : Matrix Int, run [.addRow [] [], .removeRow 0] (Matrix.empty 0, []) =
      some (m, []) → Reachable m [] := fun _ h => ⟨_, h⟩
  exact ⟨_, _, rfl, rfl, (assign_copies_iff (hreach _ rfl) (hreach _ rfl)).2 fun _ hp => hp⟩

/-- The row that has been removed on the left side is handed out although it is in use. -/
theorem assign_not_copies : ∃ a b : Matrix Int,
    run [.addRow [] [], .removeRow 0] (Matrix.empty 0, []) = some (a, []) ∧
      run [.addRow [] []] (Matrix.empty 0, []) = some (b, [0]) ∧
      ¬ Copies (a.assign b) b [0] := by
  refine ⟨_, _, rfl, rfl, fun h => ?_⟩
  obtain ⟨a', usedA, hrun, hnodup, _⟩ := h [.addRow [] []] _ _ rfl
  have hused : [0, 0] = usedA := congrArg Prod.snd (some.inj hrun)
  rw [← hused] at hnodup
  exact absurd hnodup (by decide)

end EthosCpc.Cvc5.Tableau
