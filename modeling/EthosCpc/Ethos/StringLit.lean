import Mathlib.Data.List.Basic

/-!
# String literals

`String::toInternal` and `String::toString`, and how the lexer and the parser read a
string literal.  A character is its code: 34 is the quote, 92 the backslash, 117 the
letter `u`, and 123 and 125 are the braces.
-/

namespace EthosCpc.StringLit

open List (cons_append flatMap_cons)

def numCodes : Nat := 196608

def isHexDigit (c : Nat) : Bool := 48 ≤ c ∧ c ≤ 57 ∨ 65 ≤ c ∧ c ≤ 70 ∨ 97 ≤ c ∧ c ≤ 102

def isPrintable (c : Nat) : Bool := 32 ≤ c ∧ c ≤ 126

/-- What `addCharToInternal` adds.  The exception for the other characters is commented out. -/
def addCharToInternal (ch : Nat) : List Nat := if ch > 127 ∨ ch < 32 then [] else [ch]

/-- What `std::hex` reads. -/
def hexValue (hexString : List Nat) : Nat :=
  hexString.foldl
    (fun n c => 16 * n + if c ≤ 57 then c - 48 else if c ≤ 70 then c - 55 else c - 87) 0

/-- The digits if an escape sequence was read, the characters read and those left. -/
structure Scan where
  hexString : Option (List Nat)
  nonEscCache : List Nat
  rest : List Nat

def Scan.add (si : Nat) (r : Scan) : Scan :=
  { r with nonEscCache := addCharToInternal si ++ r.nonEscCache }

/-- The loop of `toInternal` that reads an escape sequence. -/
def scanEscape (hasBrace isStart : Bool) (hexString : List Nat) : List Nat → Scan
  | [] => ⟨none, [], []⟩
  | si :: s =>
    if isStart && si == 123 then (scanEscape true false hexString s).add si
    else if !isStart && si == 125 then
      .add si ⟨if hasBrace && !hexString.isEmpty then some hexString else none, [], s⟩
    else if !isHexDigit si then ⟨none, [], si :: s⟩
    else if !hasBrace && (hexString ++ [si]).length == 4 then
      .add si ⟨some (hexString ++ [si]), [], s⟩
    else if hasBrace && (hexString ++ [si]).length > 5 then .add si ⟨none, [], s⟩
    else (scanEscape hasBrace false (hexString ++ [si]) s).add si

/-- What `toInternal` adds behind a backslash, and the characters left. -/
def readEscape : List Nat → List Nat × List Nat
  | 117 :: s =>
    let r := scanEscape false true [] s
    let nonEscCache := addCharToInternal 92 ++ addCharToInternal 117 ++ r.nonEscCache
    match r.hexString with
    | some hex =>
      if hexValue hex ≥ numCodes then (nonEscCache, r.rest) else ([hexValue hex], r.rest)
    | none => (nonEscCache, r.rest)
  | s => (addCharToInternal 92, s)

/-! ## Escape sequences -/

/-- Digits, and how they are written behind `\u`. -/
inductive Code : List Nat → List Nat → Prop
  | four {ds} : ds.length = 4 → (∀ c ∈ ds, isHexDigit c) → Code ds ds
  | braces {ds} : ds ≠ [] → ds.length ≤ 5 → (∀ c ∈ ds, isHexDigit c) → Code ds (123 :: ds ++ [125])

/-- A text begins with an escape sequence for a code point. -/
def IsEscape (s : List Nat) (n : Nat) (rest : List Nat) : Prop :=
  ∃ ds t, Code ds t ∧ hexValue ds = n ∧ n < numCodes ∧ s = 92 :: 117 :: t ++ rest

/-- A character that stands for itself. -/
abbrev Plain (c : Nat) : Prop := 32 ≤ c ∧ c ≤ 127 ∧ c ≠ 92

variable {s t ds e rest u v : List Nat} {c n : Nat} {b i : Bool}

lemma addCharToInternal_of_ge (h : 32 ≤ c) (h' : c ≤ 127) : addCharToInternal c = [c] :=
  if_neg (by omega)

lemma isHexDigit_iff :
    isHexDigit c = true ↔ 48 ≤ c ∧ c ≤ 57 ∨ 65 ≤ c ∧ c ≤ 70 ∨ 97 ≤ c ∧ c ≤ 102 := decide_eq_true_iff

lemma plain_of_hex (h : isHexDigit c) : Plain c ∧ c ≠ 123 ∧ c ≠ 125 := by
  rw [isHexDigit_iff] at h
  omega

/-- What was read are plain characters in front of the rest, and an escape sequence if it has
digits. -/
def Scanned (pre s : List Nat) (r : Scan) : Prop :=
  s = r.nonEscCache ++ r.rest ∧ (∀ c ∈ r.nonEscCache, Plain c) ∧
    ∀ ds, r.hexString = some ds → Code ds (pre ++ r.nonEscCache)

lemma Scanned.add {pre : List Nat} {r : Scan} (h : Scanned (pre ++ [c]) s r) (hc : Plain c) :
    Scanned pre (c :: s) (r.add c) := by
  obtain ⟨hs, hplain, hcode⟩ := h
  have hadd : (r.add c).nonEscCache = c :: r.nonEscCache := by
    rw [Scan.add, addCharToInternal_of_ge hc.1 hc.2.1]
    rfl
  refine ⟨?_, ?_, fun ds hds => ?_⟩
  · rw [hadd, cons_append]
    exact congrArg _ hs
  · rw [hadd]
    exact List.forall_mem_cons.2 ⟨hc, hplain⟩
  · rw [hadd]
    simpa using hcode ds hds

lemma scanned_nil {pre : List Nat} {o : Option (List Nat)} (h : ∀ ds, o = some ds → Code ds pre) :
    Scanned pre s ⟨o, [], s⟩ := ⟨rfl, List.forall_mem_nil _, by simpa using h⟩

lemma scanned_none {pre : List Nat} : Scanned pre s ⟨none, [], s⟩ := scanned_nil nofun

lemma scanEscape_sound (hhex : ∀ c ∈ e, isHexDigit c) (hlen : e.length < if b then 6 else 4)
    (hst : i = true → b = false ∧ e = []) :
    Scanned ((if b then [123] else []) ++ e) s (scanEscape b i e s) := by
  induction s generalizing b i e with
  | nil => exact scanned_none
  | cons c s ih =>
    generalize hpre : (if b then [123] else []) ++ e = pre
    unfold scanEscape
    split
    · rename_i h
      obtain ⟨h1, h2⟩ := (Bool.and_eq_true ..).mp h
      obtain ⟨rfl, rfl⟩ := hst h1
      obtain rfl := beq_iff_eq.1 h2
      subst hpre
      have hrec := ih (b := true) (i := false) hhex (by simp) (by simp)
      exact hrec.add (by decide)
    split
    · rename_i h
      obtain ⟨_, h2⟩ := (Bool.and_eq_true ..).mp h
      obtain rfl := beq_iff_eq.1 h2
      refine .add (scanned_nil fun ds hds => ?_) (by decide)
      obtain ⟨h3, h4⟩ := Option.ite_none_right_eq_some.1 hds
      cases h4
      obtain ⟨rfl, h5⟩ := (Bool.and_eq_true ..).mp h3
      subst hpre
      simpa using Code.braces (by simpa using h5) (Nat.le_of_lt_succ hlen) hhex
    split
    · exact scanned_none
    rename_i h
    have hc : isHexDigit c := by simpa using h
    have hhex' : ∀ c' ∈ e ++ [c], isHexDigit c' := by simpa [or_imp, forall_and] using ⟨hhex, hc⟩
    have hplain := (plain_of_hex hc).1
    split
    · rename_i h
      obtain ⟨h1, h2⟩ := (Bool.and_eq_true ..).mp h
      refine .add (scanned_nil fun ds hds => ?_) hplain
      cases hds
      obtain rfl : b = false := by simpa using h1
      subst hpre
      simpa using Code.four (beq_iff_eq.1 h2) hhex'
    split
    · exact .add scanned_none hplain
    refine .add ?_ hplain
    rw [← hpre, List.append_assoc]
    refine ih hhex' ?_ (by simp)
    cases b <;> simp_all <;> omega

lemma scanEscape_four (hds : ∀ c ∈ ds, isHexDigit c) (hne : ds ≠ []) (hlen : (e ++ ds).length = 4) :
    scanEscape false i e (ds ++ s) = ⟨some (e ++ ds), ds, s⟩ := by
  induction ds generalizing e i with
  | nil => exact absurd rfl hne
  | cons c ds ih =>
    obtain ⟨hc, hds⟩ := List.forall_mem_cons.1 hds
    obtain ⟨⟨h1, h2, _⟩, h3, h4⟩ := plain_of_hex hc
    have hadd := addCharToInternal_of_ge h1 h2
    rw [cons_append, scanEscape, if_neg (by simp [h3]), if_neg (by simp [h4]),
      if_neg (by simp [hc])]
    cases ds with
    | nil =>
      rw [if_pos (by simpa using hlen), Scan.add, hadd]
      rfl
    | cons c' ds =>
      rw [if_neg (by simp at hlen ⊢; omega), if_neg (by simp),
        ih hds (List.cons_ne_nil _ _) (by simpa using hlen), Scan.add, hadd]
      simp

lemma scanEscape_braces (hds : ∀ c ∈ ds, isHexDigit c) (hne : e ++ ds ≠ [])
    (hlen : (e ++ ds).length ≤ 5) :
    scanEscape true false e (ds ++ 125 :: s) = ⟨some (e ++ ds), ds ++ [125], s⟩ := by
  induction ds generalizing e with
  | nil =>
    rw [List.nil_append, scanEscape, if_neg (by simp), if_pos (by simp),
      if_pos (by simpa using hne)]
    simp [Scan.add, addCharToInternal]
  | cons c ds ih =>
    obtain ⟨hc, hds⟩ := List.forall_mem_cons.1 hds
    obtain ⟨⟨h1, h2, _⟩, h3, h4⟩ := plain_of_hex hc
    rw [cons_append, scanEscape, if_neg (by simp), if_neg (by simp [h4]),
      if_neg (by simp [hc]), if_neg (by simp), if_neg (by simp at hlen ⊢; omega),
      ih hds (by simp) (by simpa using hlen), Scan.add, addCharToInternal_of_ge h1 h2]
    simp

lemma readEscape_escape (h : IsEscape (92 :: s) n rest) : readEscape s = ([n], rest) := by
  obtain ⟨ds, t, hcode, rfl, hlt, heq⟩ := h
  cases heq
  have hscan : scanEscape false true [] (t ++ rest) = ⟨some ds, t, rest⟩ := by
    cases hcode with
    | four hlen hds => exact scanEscape_four hds (by rintro rfl; cases hlen) hlen
    | braces hne hlen hds =>
      rw [cons_append, cons_append, scanEscape, if_pos (by simp), List.append_assoc]
      exact congrArg (Scan.add 123) (scanEscape_braces (e := []) hds hne hlen)
  change readEscape (117 :: (t ++ rest)) = _
  rw [readEscape]
  simp only [hscan]
  exact if_neg (Nat.not_le_of_lt hlt)

lemma readEscape_cases (s : List Nat) :
    (∃ n, (readEscape s).1 = [n] ∧ n < numCodes ∧ IsEscape (92 :: s) n (readEscape s).2) ∨
      ∃ t, (∀ c ∈ t, Plain c) ∧ s = t ++ (readEscape s).2 ∧ (readEscape s).1 = 92 :: t := by
  unfold readEscape
  split
  swap
  · exact .inr ⟨[], List.forall_mem_nil _, rfl, rfl⟩
  rename_i s
  obtain ⟨hs, hplain, hcode⟩ := scanEscape_sound (b := false) (i := true) (s := s) (e := [])
    (List.forall_mem_nil _) (by decide) fun _ => ⟨rfl, rfl⟩
  have hput : ∀ c ∈ 117 :: (scanEscape false true [] s).nonEscCache, Plain c :=
    List.forall_mem_cons.2 ⟨by decide, hplain⟩
  dsimp only
  split
  swap
  · exact .inr ⟨_, hput, congrArg _ hs, rfl⟩
  rename_i ds hds
  split
  · exact .inr ⟨_, hput, congrArg _ hs, rfl⟩
  rename_i hlt
  have hlt := Nat.lt_of_not_le hlt
  exact .inl ⟨_, rfl, hlt, ds, _, hcode ds hds, rfl, hlt, congrArg (92 :: 117 :: ·) hs⟩

lemma length_readEscape (s : List Nat) : (readEscape s).2.length ≤ s.length := by
  rcases readEscape_cases s with ⟨n, -, -, ds, t, -, -, -, heq⟩ | ⟨t, -, heq, -⟩
  · have := congrArg List.length heq
    simp at this
    omega
  have := congrArg List.length heq
  simp at this
  omega

/-- `String::toInternal` with escape sequences. -/
def toInternal : List Nat → List Nat
  | [] => []
  | si :: s =>
    if si ≠ 92 then addCharToInternal si ++ toInternal s
    else (readEscape s).1 ++ toInternal (readEscape s).2
termination_by s => s.length
decreasing_by
  · exact Nat.lt_succ_self _
  · exact Nat.lt_succ_of_le (length_readEscape s)

def toString (str : List Nat) : List Nat :=
  str.flatMap fun c =>
    if isPrintable c ∧ c ≠ 92 then [c]
    else 92 :: 117 :: 123 :: (Nat.toDigits 16 c).map Char.toNat ++ [125]

lemma toInternal_cons (h : c ≠ 92) : toInternal (c :: s) = addCharToInternal c ++ toInternal s := by
  rw [toInternal, if_pos h]

lemma toInternal_plain (h : ∀ c ∈ t, Plain c) : toInternal (t ++ s) = t ++ toInternal s := by
  induction t with
  | nil => rfl
  | cons c t ih =>
    obtain ⟨⟨h1, h2, h3⟩, ht⟩ := List.forall_mem_cons.1 h
    rw [cons_append, toInternal_cons h3, addCharToInternal_of_ge h1 h2, ih ht]
    rfl

lemma toInternal_backslash :
    toInternal (92 :: s) = (readEscape s).1 ++ toInternal (readEscape s).2 := by
  rw [toInternal, if_neg (not_not_intro rfl)]

lemma toInternal_escape (h : IsEscape s n rest) : toInternal s = n :: toInternal rest := by
  obtain ⟨s, rfl⟩ : ∃ s', s = 92 :: s' := by
    obtain ⟨_, _, -, -, -, rfl⟩ := h
    exact ⟨_, rfl⟩
  rw [toInternal_backslash, readEscape_escape h]
  rfl

lemma toInternal_lt (h : c ∈ toInternal s) : c < numCodes := by
  induction s using toInternal.induct with
  | case1 => rw [toInternal] at h; cases h
  | case2 si s hsi ih =>
    rw [toInternal_cons hsi] at h
    rcases List.mem_append.1 h with h | h
    · unfold addCharToInternal numCodes at *
      split at h <;> simp_all
      omega
    · exact ih h
  | case3 si s hsi ih =>
    obtain rfl := not_not.1 hsi
    rw [toInternal_backslash] at h
    rcases List.mem_append.1 h with h | h
    · rcases readEscape_cases s with ⟨n, hn, hlt, -⟩ | ⟨t, ht, -, hput⟩
      · rw [hn, List.mem_singleton] at h
        exact h ▸ hlt
      · rw [hput] at h
        have hc : Plain c ∨ c = 92 := (List.mem_cons.1 h).symm.imp (ht c) id
        unfold Plain numCodes at *
        omega
    · exact ih h

/-! ## Reading back what is printed -/

lemma hexValue_append (ds : List Nat) (d : Nat) :
    hexValue (ds ++ [d]) = 16 * hexValue ds + hexValue [d] := by
  simp [hexValue]

lemma digitChar_hex :
    ∀ n < 16, isHexDigit n.digitChar.toNat ∧ hexValue [n.digitChar.toNat] = n := by
  decide

lemma toDigits_hex (n : Nat) : (∀ c ∈ (Nat.toDigits 16 n).map Char.toNat, isHexDigit c) ∧
    hexValue ((Nat.toDigits 16 n).map Char.toNat) = n := by
  induction n using Nat.strongRecOn with
  | ind n ih =>
    rw [Nat.toDigits_eq_if (by decide)]
    split
    · rename_i hlt
      simpa using digitChar_hex n hlt
    obtain ⟨hds, hval⟩ := ih (n / 16) (Nat.div_lt_self (by omega) (by decide))
    obtain ⟨hd, hdval⟩ := digitChar_hex (n % 16) (Nat.mod_lt n (by decide))
    rw [List.map_append, List.map_singleton, hexValue_append, hval, hdval]
    refine ⟨fun c hc => ?_, Nat.div_add_mod n 16⟩
    rcases List.mem_append.1 hc with hc | hc
    · exact hds c hc
    · exact List.mem_singleton.1 hc ▸ hd

lemma toInternal_toString (h : ∀ c ∈ v, c < numCodes) : toInternal (toString v) = v := by
  induction v with
  | nil => exact toInternal.eq_1
  | cons c v ih =>
    obtain ⟨hc, hv⟩ := List.forall_mem_cons.1 h
    rw [toString, flatMap_cons, ← toString]
    split
    · rename_i hprint
      have hc := decide_eq_true_iff.1 hprint.1
      rw [toInternal_plain, ih hv]
      · rfl
      · simpa using ⟨hc.1, by omega, hprint.2⟩
    obtain ⟨hds, hval⟩ := toDigits_hex c
    have hlen : ((Nat.toDigits 16 c).map Char.toNat).length ≤ 5 := by
      rw [List.length_map, Nat.length_toDigits_le_iff (by decide) (by decide)]
      exact Nat.lt_trans hc (by decide)
    rw [toInternal_escape ⟨_, _, .braces (by simp) hlen hds, hval, hc, ?_⟩, ih hv]
    simp

/-! ## String literals -/

/-- The string of a literal. -/
inductive Denotes : List Nat → List Nat → Prop
  | nil : Denotes [] []
  | escape {s rest v : List Nat} {n : Nat} : IsEscape s n rest → Denotes rest v →
      Denotes s (n :: v)
  | char {c : Nat} {s v : List Nat} : (∀ n rest, ¬ IsEscape (c :: s) n rest) → Denotes s v →
      Denotes (c :: s) (c :: v)

lemma exists_denotes (s : List Nat) : ∃ v, Denotes s v := by
  by_cases h : ∃ n rest, IsEscape s n rest
  · obtain ⟨n, rest, hesc⟩ := h
    have hlt : rest.length < s.length := by
      obtain ⟨_, _, -, -, -, rfl⟩ := hesc
      simp
      omega
    obtain ⟨v, hv⟩ := exists_denotes rest
    exact ⟨_, .escape hesc hv⟩
  cases s with
  | nil => exact ⟨_, .nil⟩
  | cons c s =>
    obtain ⟨v, hv⟩ := exists_denotes s
    exact ⟨_, .char (fun n rest hesc => h ⟨n, rest, hesc⟩) hv⟩
termination_by s.length

lemma Code.plain (h : Code ds t) : ∀ c ∈ t, Plain c := by
  cases h with
  | four _ hds => exact fun c hc => (plain_of_hex (hds c hc)).1
  | braces _ _ hds =>
    have hplain := fun c hc => (plain_of_hex (hds c hc)).1
    simpa [or_imp, forall_and] using hplain

/-- Raw control characters are dropped, and nothing else. -/
lemma Denotes.toInternal (h : Denotes s v) (hs : ∀ c ∈ s, c ≤ 127) :
    (∀ c ∈ s, 32 ≤ c) ∧ toInternal s = v ∨
      (¬ ∀ c ∈ s, 32 ≤ c) ∧ (StringLit.toInternal s).length < v.length := by
  induction h with
  | nil => exact .inl ⟨List.forall_mem_nil _, toInternal.eq_1⟩
  | @escape s rest v n h _ ih =>
    rw [toInternal_escape h]
    obtain ⟨ds, t, hcode, -, -, rfl⟩ := h
    have hmem : (∀ c ∈ 92 :: 117 :: t ++ rest, 32 ≤ c) ↔ ∀ c ∈ rest, 32 ≤ c := by
      simp [or_imp, forall_and]
      exact fun _ c hc => (hcode.plain c hc).1
    rw [hmem]
    have hrest := ih fun c hc => hs c (List.mem_append_right _ hc)
    exact hrest.imp (.imp_right (congrArg _)) (.imp_right Nat.succ_lt_succ)
  | @char c s v hesc _ ih =>
    obtain ⟨hc, hs⟩ := List.forall_mem_cons.1 hs
    have hput : 32 ≤ c → StringLit.toInternal (c :: s) = c :: StringLit.toInternal s := by
      intro hge
      by_cases h92 : c = 92
      · subst h92
        rcases readEscape_cases s with ⟨n, -, -, h⟩ | ⟨t, ht, heq, hadd⟩
        · exact absurd h (hesc n _)
        · rw [toInternal_backslash, hadd, cons_append, ← toInternal_plain ht, ← heq]
      · rw [toInternal_cons h92, addCharToInternal_of_ge hge hc]
        rfl
    rw [List.forall_mem_cons]
    by_cases hge : 32 ≤ c
    · rw [hput hge]
      refine (ih hs).imp ?_ ?_
      · rintro ⟨hall, heq⟩
        exact ⟨⟨hge, hall⟩, congrArg _ heq⟩
      · rintro ⟨hnot, hlt⟩
        exact ⟨fun h => hnot h.2, Nat.succ_lt_succ hlt⟩
    refine .inr ⟨fun h => hge h.1, ?_⟩
    have hdrop : addCharToInternal c = [] := if_pos (by omega)
    rw [toInternal_cons (by omega), hdrop]
    rcases ih hs with ⟨-, heq⟩ | ⟨-, hlt⟩
    · exact Nat.lt_succ_of_le (heq ▸ Nat.le_refl _)
    · exact Nat.lt_succ_of_lt hlt

/-- A quote in a literal is written twice. -/
def double (u : List Nat) : List Nat := u.flatMap fun c => if c = 34 then [34, 34] else [c]

/-- The string literal of `Lexer::computeNextToken` behind the first quote, and the input left. -/
def lexString : List Nat → Option (List Nat × List Nat)
  | [] => none
  | 34 :: 34 :: s => (lexString s).map fun r => (34 :: 34 :: r.1, r.2)
  | 34 :: s => some ([34], s)
  | ch :: s => (lexString s).map fun r => (ch :: r.1, r.2)

/-- The loop of `unescapeString` that removes the second of two quotes. -/
def dropQuotes : List Nat → List Nat
  | 34 :: _ :: s => 34 :: dropQuotes s
  | c :: s => c :: dropQuotes s
  | [] => []

/-- `unescapeString`.  No character above 127 is printable. -/
def unescapeString (s : List Nat) : Option (List Nat) :=
  let s := (s.drop 1).dropLast
  if s.any (· > 127) then none else some (dropQuotes s)

/-- A string literal in `parseExpr`: it is decoded, printed, and decoded by `mkLiteral`. -/
def parseString : List Nat → Option (List Nat × List Nat)
  | 34 :: s => (lexString s).bind fun r =>
    (unescapeString (34 :: r.1)).map fun s => (toInternal (toString (toInternal s)), r.2)
  | _ => none

lemma dropQuotes_double (u : List Nat) : dropQuotes (double u) = u := by
  induction u with
  | nil => rfl
  | cons c u ih =>
    rw [double, flatMap_cons, ← double]
    split
    · subst c
      exact congrArg _ ih
    rename_i hc
    rw [List.singleton_append, dropQuotes, ih]
    rintro _ _ rfl
    contradiction

lemma lexString_inv {r : List Nat × List Nat} (h : lexString s = some r) :
    ∃ u, r.1 = double u ++ [34] ∧ s = double u ++ 34 :: r.2 := by
  induction s using lexString.induct generalizing r with
  | case1 => cases h
  | case2 s ih =>
    obtain ⟨r', hr', rfl⟩ := Option.map_eq_some_iff.1 h
    obtain ⟨u, h1, h2⟩ := ih hr'
    exact ⟨34 :: u, congrArg (34 :: 34 :: ·) h1, congrArg (34 :: 34 :: ·) h2⟩
  | case3 s hs =>
    rw [lexString] at h
    · cases h
      exact ⟨[], rfl, rfl⟩
    · exact hs
  | case4 c s _ hc ih =>
    have hc : c ≠ 34 := by
      rintro rfl
      exact hc rfl
    rw [lexString] at h
    · obtain ⟨r', hr', rfl⟩ := Option.map_eq_some_iff.1 h
      obtain ⟨u, h1, h2⟩ := ih hr'
      have hdouble : double (c :: u) = c :: double u := by
        rw [double, flatMap_cons, if_neg hc]
        rfl
      refine ⟨c :: u, ?_, ?_⟩ <;> rw [hdouble]
      · exact congrArg (c :: ·) h1
      · exact congrArg (c :: ·) h2
    · exact fun s h _ => hc h
    · exact hc

/-- What is printed is read back, and a literal is read as its string if and only if no raw control
character is in it. -/
theorem parseString_iff (input r rest : List Nat) :
    (∀ v, (∀ c ∈ v, c < numCodes) → toInternal (toString v) = v) ∧
      (parseString input = some (r, rest) →
        ∃ u, input = 34 :: double u ++ 34 :: rest ∧ (∃ v, Denotes u v) ∧
          ∀ v, Denotes u v → (r.length = v.length ↔ ∀ c ∈ u, 32 ≤ c) ∧
            (r = v ↔ ∀ c ∈ u, 32 ≤ c)) := by
  refine ⟨fun v hv => toInternal_toString hv, fun h => ?_⟩
  unfold parseString at h
  split at h
  swap
  · cases h
  obtain ⟨⟨tok, rest'⟩, hlex, hmap⟩ := Option.bind_eq_some_iff.1 h
  obtain ⟨s, hs, heq⟩ := Option.map_eq_some_iff.1 hmap
  cases heq
  obtain ⟨u, rfl, rfl⟩ := lexString_inv hlex
  refine ⟨u, rfl, exists_denotes u, fun v hv => ?_⟩
  have hdrop : ((34 :: (double u ++ [34])).drop 1).dropLast = double u := by simp
  unfold unescapeString at hs
  rw [hdrop] at hs
  obtain ⟨hany, hs⟩ := Option.ite_none_left_eq_some.1 hs
  obtain rfl : u = s := by rw [← dropQuotes_double u, Option.some.inj hs]
  have hle : ∀ c ∈ u, c ≤ 127 := by
    intro c hc
    by_contra hgt
    refine hany (List.any_eq_true.2 ⟨c, List.mem_flatMap.2 ⟨c, hc, ?_⟩, by simpa using hgt⟩)
    split <;> simp_all
  rw [toInternal_toString fun c hc => toInternal_lt hc]
  rcases hv.toInternal hle with ⟨hall, rfl⟩ | ⟨hnot, hlt⟩
  · exact ⟨iff_of_true rfl hall, iff_of_true rfl hall⟩
  · exact ⟨iff_of_false (Nat.ne_of_lt hlt) hnot,
      iff_of_false (fun h => Nat.ne_of_lt hlt (congrArg _ h)) hnot⟩

/-- A tab is dropped. -/
theorem not_parseString_length : ¬ ∀ r rest u v, parseString (34 :: double u ++ 34 :: rest) =
    some (r, rest) → Denotes u v → r.length = v.length := by
  intro h
  have hparse : parseString [34, 9, 34] = some ([], []) := by
    simp [parseString, lexString, unescapeString, dropQuotes, toInternal, toString,
      addCharToInternal]
  have htab : ∀ n rest, ¬ IsEscape [9] n rest := by
    rintro n rest ⟨_, _, -, -, -, h⟩
    cases h
  cases h [] [] [9] [9] hparse (.char htab .nil)

end EthosCpc.StringLit
