import EthosCpc.Eunoia.Term
import EthosCpc.Library.Words
import EthosCpc.Library.Matching

/-!
# Strings of code points

The SMT-LIB operations that are particular to strings: code points,
decimal notation, letter case, the lexicographic order, and the regular
expression operators that go beyond the Boolean and Kleene ones.
-/

namespace EthosCpc

open Computability

abbrev RegLan : Type := Language CodePoint

/-! ## Code points and numbers -/

def strToCode : Str → Int
  | [c] => c.val
  | _ => -1

def strFromCode (n : Int) : Str :=
  if h : 0 ≤ n ∧ n.toNat < numCodes then [⟨n.toNat, h.2⟩] else []

/-- The ten digits. -/
def IsDigit (c : CodePoint) : Prop := 48 ≤ c.val ∧ c.val ≤ 57

instance : DecidablePred IsDigit := fun c => inferInstanceAs (Decidable (48 ≤ c.val ∧ c.val ≤ 57))

def strIsDigit (s : Str) : Prop := ∃ c, s = [c] ∧ IsDigit c

/-- The number that a sequence of digits denotes. -/
def decimalValue (s : Str) : Int := s.foldl (fun n c => 10 * n + (c.val - 48)) 0

def strToInt (s : Str) : Int := if s ≠ [] ∧ ∀ c ∈ s, IsDigit c then decimalValue s else -1

/-- The digit of a number below ten. -/
def digitChar (d : Nat) : CodePoint := Fin.ofNat numCodes (48 + d)

/-- Decimal notation. -/
def decimal (n : Nat) : Str :=
  if n = 0 then [digitChar 0] else (Nat.digits 10 n).reverse.map digitChar

def strFromInt (n : Int) : Str := if n < 0 then [] else decimal n.toNat

lemma neg_one_le_strToInt (s : Str) : -1 ≤ strToInt s := by
  unfold strToInt
  split
  swap
  · exact le_rfl
  rename_i h
  have hfold : ∀ (l : Str) (n : Int), 0 ≤ n → (∀ c ∈ l, IsDigit c) →
      0 ≤ l.foldl (fun n c => 10 * n + ((c.val : Int) - 48)) n := by
    intro l
    induction l with
    | nil => exact fun n hn _ => hn
    | cons c l ih =>
      intro n hn hl
      have hc := (hl c (by simp)).1
      refine ih _ ?_ fun d hd => hl d (by simp [hd])
      show 0 ≤ 10 * n + ((c.val : Int) - 48)
      omega
  have := hfold s 0 le_rfl h.2
  unfold decimalValue
  omega

lemma length_decimal_pos (n : Nat) : 1 ≤ (decimal n).length := by
  unfold decimal
  split
  · exact le_rfl
  rename_i h
  rw [List.length_map, List.length_reverse]
  exact List.length_pos_iff.2 (Nat.digits_ne_nil_iff_ne_zero.2 h)

lemma length_decimal_le {n : Nat} (hn : 0 < n) : (decimal n).length ≤ n := by
  rw [decimal, if_neg hn.ne', List.length_map, List.length_reverse,
    Nat.digits_length_le_iff (by norm_num)]
  exact Nat.lt_pow_self (by norm_num)

/-! ## Letter case and order -/

def charToLower (c : CodePoint) : CodePoint :=
  if 65 ≤ c.val ∧ c.val ≤ 90 then Fin.ofNat numCodes (c.val + 32) else c

def charToUpper (c : CodePoint) : CodePoint :=
  if 97 ≤ c.val ∧ c.val ≤ 122 then Fin.ofNat numCodes (c.val - 32) else c

/-- `str.<`: the lexicographic order. -/
def strLt (s t : Str) : Prop := List.Lex (fun c d : CodePoint => c < d) s t

/-- `str.<=`. -/
def strLe (s t : Str) : Prop := s = t ∨ strLt s t

/-! ## Regular expression operators -/

def reAllchar : RegLan := { s | s.length = 1 }

lemma flatten_map_singleton (w : Str) : (w.map fun c => [c]).flatten = w := by
  induction w with
  | nil => rfl
  | cons c w ih => rw [List.map_cons, List.flatten_cons, ih, List.singleton_append]

/-- Every word is a sequence of characters. -/
lemma mem_sigmaStar (w : Str) : w ∈ reAllchar∗ := by
  refine Language.mem_kstar.2 ⟨w.map fun c => [c], (flatten_map_singleton w).symm, ?_⟩
  intro y hy
  obtain ⟨c, -, rfl⟩ := List.mem_map.1 hy
  exact rfl

/-- `re.range`: empty unless both bounds are single characters. -/
def reRange : Str → Str → RegLan
  | [a], [b] => { s | ∃ c, s = [c] ∧ a ≤ c ∧ c ≤ b }
  | _, _ => 0

lemma nil_notMem_reRange : ∀ s t : Str, [] ∉ reRange s t
  | [_], [_] => fun ⟨_, hc, _⟩ => nomatch hc
  | [], _ | [_], [] | [_], _ :: _ :: _ | _ :: _ :: _, _ => Language.notMem_zero []

lemma length_of_mem_reRange : ∀ (s t : Str) {w : Str}, w ∈ reRange s t → w.length = 1
  | [_], [_], _, ⟨_, hc, _⟩ => congrArg List.length hc
  | [], _, _, h | [_], [], _, h | [_], _ :: _ :: _, _, h | _ :: _ :: _, _, _, h =>
    absurd h (Language.notMem_zero _)

/-- `re.^`. -/
def rePow (n : Int) (L : RegLan) : RegLan := { s | ∃ i : Nat, i = n ∧ s ∈ L ^ i }

def reLoop (l u : Int) (L : RegLan) : RegLan := { s | ∃ i : Nat, l ≤ i ∧ i ≤ u ∧ s ∈ L ^ i }

end EthosCpc
