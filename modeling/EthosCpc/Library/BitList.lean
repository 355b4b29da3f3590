import Mathlib.Data.Nat.Bitwise
import Mathlib.Tactic.Ring

/-!
# Circuits on bit lists

Little-endian lists of Booleans and the circuits that a bit-blaster builds
over them: the ripple-carry adder, the comparator that walks from the
least significant bit, and the two shifts.  `toNat` reads a list as a
number, and each circuit comes with the theorem that says what it computes
on that number.

Multiplication and division are compositions of these: a shift-and-add
multiplier adds a masked row to the tail of an accumulator (`adc` on
`drop`), and a restoring divider compares by the carry of a subtraction
(`sub_carry`).
-/

namespace EthosCpc.Library.BitList

open Nat (add_zero div_eq_of_lt mod_eq_of_lt mul_comm pow_succ zero_add)
open Bool (not_false not_true toNat_false toNat_true)
open List (eq_nil_of_length_eq_zero length_append length_cons length_drop length_replicate length_take map_cons zipWith)

lemma cons_of_length {α β : Type} {x : α} {xs : List α} {ys : List β}
    (h : (x :: xs).length = ys.length) : ∃ y ys', ys = y :: ys' ∧ xs.length = ys'.length := by
  cases ys with
  | nil => cases h
  | cons y ys => exact ⟨y, ys, rfl, Nat.succ.inj h⟩

/-- The number of a bit list, least significant bit first. -/
def toNat : List Bool → Nat
  | [] => 0
  | b :: bs => b.toNat + 2 * toNat bs

@[simp] lemma toNat_nil : toNat [] = 0 := rfl

@[simp] lemma toNat_cons (b : Bool) (bs : List Bool) :
    toNat (b :: bs) = b.toNat + 2 * toNat bs := rfl

lemma toNat_lt (bs : List Bool) : toNat bs < 2 ^ bs.length := by
  induction bs with
  | nil => simp
  | cons b bs ih =>
    have hb := Bool.toNat_lt b
    rw [toNat_cons, length_cons, pow_succ]
    omega

lemma toNat_append (xs ys : List Bool) :
    toNat (xs ++ ys) = toNat xs + 2 ^ xs.length * toNat ys := by
  induction xs with
  | nil => simp
  | cons x xs ih =>
    rw [List.cons_append, toNat_cons, toNat_cons, ih, length_cons, pow_succ]
    ring

lemma toNat_replicate_false (n : Nat) : toNat (List.replicate n false) = 0 := by
  induction n with
  | zero => rfl
  | succ n ih => simp [List.replicate_succ, ih]

/-- Complement: a list and its complement add up to all ones. -/
lemma toNat_map_not (xs : List Bool) : toNat (xs.map not) + toNat xs + 1 = 2 ^ xs.length := by
  induction xs with
  | nil => rfl
  | cons x xs ih =>
    rw [map_cons, toNat_cons, toNat_cons, length_cons, Nat.pow_succ]
    cases x
    · simp only [Bool.not_false, Bool.toNat_true, Bool.toNat_false]
      omega
    · simp only [Bool.not_true, Bool.toNat_true, Bool.toNat_false]
      omega

lemma toNat_replicate_true (n : Nat) : toNat (List.replicate n true) + 1 = 2 ^ n := by
  have h := toNat_map_not (List.replicate n false)
  rw [List.map_replicate, toNat_replicate_false, length_replicate] at h
  exact h

variable {xs ys : List Bool}

lemma toNat_inj (hlen : xs.length = ys.length) : toNat xs = toNat ys ↔ xs = ys := by
  constructor
  · induction xs generalizing ys with
    | nil =>
      intro _
      exact (eq_nil_of_length_eq_zero hlen.symm).symm
    | cons x xs ih =>
      intro h
      obtain ⟨y, ys, rfl, hlen'⟩ := cons_of_length hlen
      have hx := Bool.toNat_lt x
      have hy := Bool.toNat_lt y
      rw [toNat_cons, toNat_cons] at h
      have hhead : x.toNat = y.toNat := by omega
      have hxy : x = y := by
        cases x <;> cases y <;> simp_all
      rw [ih hlen' (by omega), hxy]
  · intro h
    rw [h]

lemma toNat_take (xs : List Bool) (k : Nat) : toNat (xs.take k) = toNat xs % 2 ^ k := by
  by_cases hk : k ≤ xs.length
  swap
  · have hlt := toNat_lt xs
    have hpow : 2 ^ xs.length ≤ 2 ^ k := Nat.pow_le_pow_right (by decide) (by omega)
    rw [List.take_of_length_le (by omega), mod_eq_of_lt (by omega)]
  have h := toNat_append (xs.take k) (xs.drop k)
  have hlt := toNat_lt (xs.take k)
  rw [length_take, Nat.min_eq_left hk] at h hlt
  rw [List.take_append_drop] at h
  rw [h, Nat.add_mul_mod_self_left, mod_eq_of_lt hlt]

lemma toNat_drop (xs : List Bool) (k : Nat) : toNat (xs.drop k) = toNat xs / 2 ^ k := by
  by_cases hk : k ≤ xs.length
  swap
  · have hlt := toNat_lt xs
    have hpow : 2 ^ xs.length ≤ 2 ^ k := Nat.pow_le_pow_right (by decide) (by omega)
    rw [List.drop_of_length_le (by omega), div_eq_of_lt (by omega), toNat_nil]
  have h := toNat_append (xs.take k) (xs.drop k)
  have hlt := toNat_lt (xs.take k)
  rw [length_take, Nat.min_eq_left hk] at h hlt
  rw [List.take_append_drop] at h
  rw [h, Nat.add_mul_div_left _ _ (Nat.two_pow_pos k), div_eq_of_lt hlt, zero_add]

lemma testBit_toNat (xs : List Bool) (i : Nat) : (toNat xs).testBit i = xs.getD i false := by
  induction xs generalizing i with
  | nil => simp
  | cons x xs ih =>
    have hx := Bool.toNat_lt x
    cases i with
    | zero =>
      rw [toNat_cons, Nat.testBit_zero, List.getD_cons_zero, Nat.add_mul_mod_self_left]
      cases x <;> rfl
    | succ i =>
      rw [toNat_cons, Nat.testBit_succ, List.getD_cons_succ, ← ih,
        show (x.toNat + 2 * toNat xs) / 2 = toNat xs by omega]

lemma toNat_testBits (n i k : Nat) :
    toNat ((List.range' i k).map n.testBit) = n / 2 ^ i % 2 ^ k := by
  induction k generalizing i with
  | zero => simp [Nat.mod_one]
  | succ k ih =>
    rw [List.range'_succ, map_cons, toNat_cons, ih, Nat.toNat_testBit,
      Nat.pow_succ' (n := k), Nat.mod_mul, Nat.div_div_eq_div_mul, ← pow_succ]

lemma toNat_cons_mod (b : Bool) (bs : List Bool) (k : Nat) :
    toNat (b :: bs) % 2 ^ (k + 1) = b.toNat + 2 * (toNat bs % 2 ^ k) := by
  have hb := Bool.toNat_lt b
  rw [toNat_cons, Nat.pow_succ', Nat.mod_mul, Nat.add_mul_mod_self_left, mod_eq_of_lt hb,
    Nat.add_mul_div_left _ _ (by decide), div_eq_of_lt hb, zero_add]

lemma testBit_zipWith (f : Bool → Bool → Bool) (hf : f false false = false)
    (hlen : xs.length = ys.length) (i : Nat) :
    (toNat (zipWith f xs ys)).testBit i = f ((toNat xs).testBit i) ((toNat ys).testBit i) := by
  rw [testBit_toNat, testBit_toNat, testBit_toNat]
  induction xs generalizing ys i with
  | nil =>
    rw [eq_nil_of_length_eq_zero hlen.symm]
    simpa using hf.symm
  | cons x xs ih =>
    obtain ⟨y, ys, rfl, hlen'⟩ := cons_of_length hlen
    cases i with
    | zero => rfl
    | succ i => exact ih hlen' i

lemma toNat_and (hlen : xs.length = ys.length) :
    toNat (zipWith Bool.and xs ys) = toNat xs &&& toNat ys := by
  apply Nat.eq_of_testBit_eq
  intro i
  rw [testBit_zipWith _ rfl hlen, Nat.testBit_and]

lemma toNat_or (hlen : xs.length = ys.length) :
    toNat (zipWith Bool.or xs ys) = toNat xs ||| toNat ys := by
  apply Nat.eq_of_testBit_eq
  intro i
  rw [testBit_zipWith _ rfl hlen, Nat.testBit_or]

lemma toNat_xor (hlen : xs.length = ys.length) :
    toNat (zipWith Bool.xor xs ys) = toNat xs ^^^ toNat ys := by
  apply Nat.eq_of_testBit_eq
  intro i
  rw [testBit_zipWith _ rfl hlen, Nat.testBit_xor]

/-- Masking a row with one bit. -/
lemma toNat_map_and (b : Bool) (xs : List Bool) : toNat (xs.map (b && ·)) = b.toNat * toNat xs := by
  induction xs with
  | nil => simp
  | cons x xs ih =>
    rw [map_cons, toNat_cons, ih, toNat_cons]
    cases b
    · simp
    · simp

/-- Choosing between two lists bit by bit. -/
lemma zipWith_cond (c : Bool) (hlen : xs.length = ys.length) :
    zipWith (fun x y => bif c then x else y) xs ys = bif c then xs else ys := by
  induction xs generalizing ys with
  | nil =>
    rw [eq_nil_of_length_eq_zero hlen.symm]
    simp
  | cons x xs ih =>
    obtain ⟨y, ys, rfl, hlen'⟩ := cons_of_length hlen
    rw [List.zipWith_cons_cons, ih hlen']
    cases c <;> rfl

/-! ## Addition -/

/-- Ripple-carry addition: the carry out and the sum. -/
def adc : List Bool → List Bool → Bool → Bool × List Bool
  | x :: xs, y :: ys, c =>
    ((adc xs ys ((x && y) || ((x ^^ y) && c))).1,
      ((x ^^ y) ^^ c) :: (adc xs ys ((x && y) || ((x ^^ y) && c))).2)
  | _, _, c => (c, [])

lemma adc_cons (x y : Bool) (xs ys : List Bool) (c : Bool) : adc (x :: xs) (y :: ys) c =
      ((adc xs ys ((x && y) || ((x ^^ y) && c))).1,
        ((x ^^ y) ^^ c) :: (adc xs ys ((x && y) || ((x ^^ y) && c))).2) := rfl

@[simp] lemma adc_nil (c : Bool) : adc [] [] c = (c, []) := rfl

lemma length_adc (xs ys : List Bool) (c : Bool) (hlen : xs.length = ys.length) :
    (adc xs ys c).2.length = xs.length := by
  induction xs generalizing ys c with
  | nil =>
    rw [eq_nil_of_length_eq_zero hlen.symm]
    rfl
  | cons x xs ih =>
    obtain ⟨y, ys, rfl, hlen'⟩ := cons_of_length hlen
    rw [adc_cons, length_cons, length_cons, ih _ _ hlen']

lemma fullAdder (x y c : Bool) : ((x ^^ y) ^^ c).toNat + 2 * ((x && y) || ((x ^^ y) && c)).toNat =
      x.toNat + y.toNat + c.toNat := by
  cases x <;> cases y <;> cases c <;> rfl

/-- The sum together with the weighted carry out is exact. -/
lemma adc_val (xs ys : List Bool) (c : Bool) (hlen : xs.length = ys.length) :
    toNat (adc xs ys c).2 + 2 ^ xs.length * (adc xs ys c).1.toNat =
      toNat xs + toNat ys + c.toNat := by
  induction xs generalizing ys c with
  | nil =>
    rw [eq_nil_of_length_eq_zero hlen.symm]
    simp
  | cons x xs ih =>
    obtain ⟨y, ys, rfl, hlen'⟩ := cons_of_length hlen
    have hstep := ih ys ((x && y) || ((x ^^ y) && c)) hlen'
    have hfull := fullAdder x y c
    simp only [adc_cons, toNat_cons, length_cons, Nat.pow_succ]
    rw [Nat.mul_right_comm, Nat.mul_comm _ 2]
    omega

lemma adc_mod (xs ys : List Bool) (c : Bool) (hlen : xs.length = ys.length) :
    toNat (adc xs ys c).2 = (toNat xs + toNat ys + c.toNat) % 2 ^ xs.length := by
  have hlt := toNat_lt (adc xs ys c).2
  rw [length_adc _ _ _ hlen] at hlt
  rw [← adc_val _ _ _ hlen, Nat.add_mul_mod_self_left, mod_eq_of_lt hlt]

lemma sub_carry (hlen : xs.length = ys.length) :
    ((adc xs (ys.map not) true).1 = true ↔ toNat ys ≤ toNat xs) ∧
      (toNat ys ≤ toNat xs → toNat (adc xs (ys.map not) true).2 = toNat xs - toNat ys) := by
  have hlen' : xs.length = (ys.map not).length := by rw [List.length_map, hlen]
  have hval := adc_val xs (ys.map not) true hlen'
  have hlt := toNat_lt (adc xs (ys.map not) true).2
  have hnot := toNat_map_not ys
  have hx := toNat_lt xs
  rw [length_adc _ _ _ hlen'] at hlt
  rw [← hlen] at hnot
  cases hc : (adc xs (ys.map not) true).1
  · rw [hc] at hval
    simp only [toNat_true, toNat_false, Nat.mul_zero, add_zero] at hval
    exact ⟨by simp only [Bool.false_eq_true, false_iff]; omega, by omega⟩
  · rw [hc] at hval
    simp only [toNat_true, Nat.mul_one] at hval
    exact ⟨by simp only [true_iff]; omega, by omega⟩

/-- One step of restoring division: from the quotient and remainder of `a / 2` to those
of `a`. -/
lemma div_step {a d : Nat} (hd : 0 < d) : (d ≤ 2 * (a / 2 % d) + a % 2 →
      a / d = 2 * (a / 2 / d) + 1 ∧ a % d = 2 * (a / 2 % d) + a % 2 - d) ∧
    (2 * (a / 2 % d) + a % 2 < d → a / d = 2 * (a / 2 / d) ∧ a % d = 2 * (a / 2 % d) + a % 2) := by
  have hr : a / 2 % d < d := Nat.mod_lt _ hd
  have hdm : d * (a / 2 / d) + a / 2 % d = a / 2 := Nat.div_add_mod _ _
  have ha : a = 2 * (a / 2) + a % 2 := (Nat.div_add_mod a 2).symm
  constructor
  · intro h
    apply (Nat.div_mod_unique hd).2
    refine ⟨?_, by omega⟩
    rw [Nat.mul_add, Nat.mul_one, Nat.mul_left_comm]
    omega
  intro h
  apply (Nat.div_mod_unique hd).2
  refine ⟨?_, h⟩
  rw [Nat.mul_left_comm]
  omega

/-! ## Comparison -/

/-- The comparator, from the least significant bit up. -/
def ltFold : List Bool → List Bool → Bool → Bool
  | x :: xs, y :: ys, r => ltFold xs ys (((x == y) && r) || (!x && y))
  | _, _, r => r

lemma ltFold_iff (xs ys : List Bool) (r : Bool) (hlen : xs.length = ys.length) :
    ltFold xs ys r = true ↔ toNat xs < toNat ys ∨ (toNat xs = toNat ys ∧ r = true) := by
  induction xs generalizing ys r with
  | nil =>
    rw [eq_nil_of_length_eq_zero hlen.symm]
    simp [ltFold]
  | cons x xs ih =>
    obtain ⟨y, ys, rfl, hlen'⟩ := cons_of_length hlen
    rw [ltFold, ih ys _ hlen', toNat_cons, toNat_cons]
    cases x <;> cases y <;> simp <;> omega

/-! ## Shifts -/

def shl (i : Nat) (xs : List Bool) : List Bool := (List.replicate i false ++ xs).take xs.length

/-- Shift towards the least significant bit, filling up with `s`. -/
def shr (s : Bool) (i : Nat) (xs : List Bool) : List Bool := (xs ++ List.replicate i s).drop i

@[simp] lemma length_shl (i : Nat) (xs : List Bool) : (shl i xs).length = xs.length := by
  rw [shl, length_take, length_append, length_replicate]
  omega

@[simp] lemma length_shr (s : Bool) (i : Nat) (xs : List Bool) :
    (shr s i xs).length = xs.length := by
  rw [shr, length_drop, length_append, length_replicate]
  omega

lemma toNat_shl (i : Nat) (xs : List Bool) :
    toNat (shl i xs) = toNat xs * 2 ^ i % 2 ^ xs.length := by
  rw [shl, toNat_take, toNat_append, toNat_replicate_false, length_replicate, zero_add, mul_comm]

lemma toNat_shr_false (i : Nat) (xs : List Bool) : toNat (shr false i xs) = toNat xs / 2 ^ i := by
  rw [shr, toNat_drop, toNat_append, toNat_replicate_false, Nat.mul_zero, add_zero]

lemma shr_shr (s : Bool) (i j : Nat) (xs : List Bool) :
    shr s i (shr s j xs) = shr s (j + i) xs := by
  have hj : j ≤ (xs ++ List.replicate j s).length := by
    rw [length_append, length_replicate]
    omega
  rw [shr, shr, shr, ← List.drop_append_of_le_length hj, List.drop_drop, List.append_assoc,
    List.replicate_append_replicate]

lemma map_not_shr (s : Bool) (i : Nat) (xs : List Bool) :
    (shr s i xs).map not = shr (!s) i (xs.map not) := by
  rw [shr, shr, List.map_drop, List.map_append, List.map_replicate]

/-- A shift by the whole length leaves only the fill bit. -/
lemma shr_of_le (s : Bool) {i : Nat} {xs : List Bool} (hi : xs.length ≤ i) :
    shr s i xs = List.replicate xs.length s := by
  rw [shr, List.drop_append, List.drop_of_length_le hi, List.nil_append, List.drop_replicate]
  congr 1
  omega

/-- A shift by padding the remaining bits up to the length. -/
lemma shr_eq_take (s : Bool) (i : Nat) (xs : List Bool) :
    shr s i xs = (xs.drop i ++ List.replicate xs.length s).take xs.length := by
  by_cases hi : i ≤ xs.length
  swap
  · rw [shr_of_le s (by omega), List.drop_of_length_le (by omega), List.nil_append,
      List.take_replicate, Nat.min_self]
  rw [shr, List.drop_append_of_le_length hi, List.take_append, length_drop,
    List.take_of_length_le (by rw [length_drop]; omega), List.take_replicate]
  congr 2
  omega

@[simp] lemma shr_zero (s : Bool) (xs : List Bool) : shr s 0 xs = xs := by
  simp [shr]

lemma toNat_shl_shl (i j : Nat) (xs : List Bool) :
    toNat (shl i (shl j xs)) = toNat (shl (j + i) xs) := by
  rw [toNat_shl, toNat_shl, toNat_shl, length_shl, Nat.mod_mul_mod, Nat.mul_assoc, ← Nat.pow_add]

lemma toNat_shl_of_le {i : Nat} {xs : List Bool} (hi : xs.length ≤ i) : toNat (shl i xs) = 0 := by
  rw [toNat_shl]
  exact Nat.mod_eq_zero_of_dvd (Dvd.dvd.mul_left (Nat.pow_dvd_pow 2 hi) _)

/-! ## Division -/

lemma toNat_headD (xs : List Bool) : (xs.headD false).toNat = toNat xs % 2 := by
  cases xs with
  | nil => rfl
  | cons x xs =>
    have hx := Bool.toNat_lt x
    rw [List.headD_cons, toNat_cons]
    omega

lemma toNat_tail (xs : List Bool) : toNat xs.tail = toNat xs / 2 := by
  cases xs with
  | nil => rfl
  | cons x xs =>
    have hx := Bool.toNat_lt x
    rw [List.tail_cons, toNat_cons]
    omega

/-- Twice a number that fits into half the range, with a bit shifted in. -/
lemma toNat_shl_one_adc {rs : List Bool} {n : Nat} (hlen : rs.length = n) (b : Bool)
    (hfit : 2 * toNat rs + b.toNat < 2 ^ n) :
    toNat (adc (shl 1 rs) (List.replicate n false) b).2 = 2 * toNat rs + b.toNat := by
  have hlen' : (shl 1 rs).length = (List.replicate n false).length := by
    rw [length_shl, length_replicate, hlen]
  rw [adc_mod _ _ _ hlen', toNat_shl, toNat_replicate_false, length_shl, hlen, Nat.pow_one,
    Nat.mul_comm (toNat rs) 2, Nat.mod_eq_of_lt (by omega : 2 * toNat rs < 2 ^ n), Nat.add_zero,
    Nat.mod_eq_of_lt hfit]

/-- One row of a restoring divider.  `qs` and `rs` are quotient and remainder of half
of `xs` by `ys`; the row doubles both, shifts in the last bit of `xs` and subtracts
`ys` where that does not underflow. -/
def divRow (xs ys qs rs : List Bool) : List Bool × List Bool :=
  let sum := (adc (shl 1 rs) (List.replicate ys.length false) (xs.headD false)).2
  let sub := adc sum (ys.map not) true
  let whole := (adc xs (ys.map not) true).1
  (bif !whole then List.replicate ys.length false else sub.1 :: (shl 1 qs).tail,
    bif !whole then xs else bif !sub.1 then sum else sub.2)

lemma length_divRow {xs ys qs rs : List Bool} (hx : xs.length = ys.length)
    (hq : qs.length = ys.length) (hr : rs.length = ys.length) (hpos : 0 < ys.length) :
    (divRow xs ys qs rs).1.length = ys.length ∧ (divRow xs ys qs rs).2.length = ys.length := by
  have hsum := length_adc (shl 1 rs) (List.replicate ys.length false) (xs.headD false)
    (by rw [length_shl, length_replicate, hr])
  rw [length_shl, hr] at hsum
  have hsub := length_adc _ (ys.map not) true (by rw [hsum, List.length_map])
  simp only [divRow, Bool.apply_cond List.length, hsub, hsum, hx, Bool.cond_self, and_true]
  rw [length_replicate, length_cons, List.length_tail, length_shl, hq,
    Nat.sub_add_cancel hpos, Bool.cond_self]

lemma divRow_val {xs ys qs rs : List Bool} (hx : xs.length = ys.length)
    (hq : qs.length = ys.length) (hr : rs.length = ys.length) (hd : 0 < toNat ys)
    (hqs : toNat qs = toNat xs / 2 / toNat ys) (hrs : toNat rs = toNat xs / 2 % toNat ys) :
    toNat (divRow xs ys qs rs).1 = toNat xs / toNat ys ∧
      toNat (divRow xs ys qs rs).2 = toNat xs % toNat ys := by
  have hlt := toNat_lt xs
  rw [hx] at hlt
  have hqle : toNat qs ≤ toNat xs / 2 := by
    rw [hqs]
    exact Nat.div_le_self _ _
  have hrle : toNat rs ≤ toNat xs / 2 := by
    rw [hrs]
    exact Nat.mod_le _ _
  have hodd := toNat_headD xs
  have hsum := toNat_shl_one_adc hr (xs.headD false) (by omega)
  have hsumlen := length_adc (shl 1 rs) (List.replicate ys.length false) (xs.headD false)
    (by rw [length_shl, length_replicate, hr])
  have htail : toNat (shl 1 qs).tail = toNat qs := by
    rw [toNat_tail, toNat_shl, hq, Nat.pow_one, Nat.mod_eq_of_lt (by omega)]
    omega
  have hwhole := (sub_carry hx).1
  simp only [divRow]
  generalize (adc (shl 1 rs) (List.replicate ys.length false) (xs.headD false)).2 = sum at *
  rw [length_shl, hr] at hsumlen
  obtain ⟨hcarry, hdiff⟩ := sub_carry hsumlen
  obtain ⟨hge, hlow⟩ := div_step (a := toNat xs) hd
  rw [hodd, hrs] at hsum
  rw [hsum] at hcarry hdiff
  cases hw : (adc xs (ys.map not) true).1
  · -- the dividend is less than the divisor
    have hsmall : toNat xs < toNat ys := by
      rw [hw] at hwhole
      simpa using hwhole
    simp only [Bool.not_false, cond_true]
    rw [toNat_replicate_false, Nat.div_eq_of_lt hsmall, Nat.mod_eq_of_lt hsmall]
    exact ⟨rfl, rfl⟩
  · simp only [Bool.not_true, cond_false]
    cases hc : (adc sum (ys.map not) true).1
    · have hunder : 2 * (toNat xs / 2 % toNat ys) + toNat xs % 2 < toNat ys := by
        rw [hc] at hcarry
        simpa using hcarry
      obtain ⟨hdiv, hmod⟩ := hlow hunder
      simp only [Bool.not_false, cond_true]
      rw [toNat_cons, htail, hsum, hdiv, hmod, hqs, Bool.toNat_false, Nat.zero_add]
      exact ⟨rfl, rfl⟩
    · have hover : toNat ys ≤ 2 * (toNat xs / 2 % toNat ys) + toNat xs % 2 := hcarry.1 hc
      obtain ⟨hdiv, hmod⟩ := hge hover
      simp only [Bool.not_true, cond_false]
      rw [toNat_cons, htail, hdiff hover, hdiv, hmod, hqs, Bool.toNat_true, Nat.add_comm]
      exact ⟨rfl, rfl⟩

end EthosCpc.Library.BitList
