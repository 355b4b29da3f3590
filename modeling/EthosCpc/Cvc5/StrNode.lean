import EthosCpc.Cpc.ReEval

/-!
# Nodes of the theory of strings

The nodes that the string checkers of cvc5 inspect.  The kind of a node is the
symbol that it is printed as, and an application of an `n`-ary kind has a list
of children where its printed form is a list with a nil terminator.  A variable
or a skolem is applied to no arguments.  Strings are strings and no other
sequences.
-/

namespace EthosCpc.Cvc5

open List (eq_nil_or_concat' foldl_append map_cons)

/-! ## Syntax -/

/-- Constants. -/
inductive StrLeaf
  | bool (b : Bool) | num (z : Int) | str (s : Str)
  deriving DecidableEq, Repr

/-- A kind of the signature, or the application of a declared function. -/
inductive StrKind
  | sym (s : Sym) | uf (f : Nat)
  deriving DecidableEq, Repr

/-- Nodes. -/
inductive StrNode
  | leaf (a : StrLeaf)
  | app (k : StrKind) (cs : List StrNode)

namespace StrNode

mutual

/-- Equality of nodes is decided child by child. -/
def decEq : (a b : StrNode) → Decidable (a = b)
  | .leaf a, .leaf b => if h : a = b then isTrue (h ▸ rfl) else isFalse fun heq => h (leaf.inj heq)
  | .app k cs, .app k' cs' =>
    if h : k = k' then
      match decEqList cs cs' with
      | isTrue hcs => isTrue (h ▸ hcs ▸ rfl)
      | isFalse hcs => isFalse fun heq => hcs (app.inj heq).2
    else isFalse fun heq => h (app.inj heq).1
  | .leaf _, .app _ _ | .app _ _, .leaf _ => isFalse (by simp)

def decEqList : (as bs : List StrNode) → Decidable (as = bs)
  | [], [] => isTrue rfl
  | [], _ :: _ | _ :: _, [] => isFalse (by simp)
  | a :: as, b :: bs =>
    match decEq a b with
    | isTrue h =>
      match decEqList as bs with
      | isTrue h' => isTrue (h ▸ h' ▸ rfl)
      | isFalse h' => isFalse fun heq => h' (List.cons.inj heq).2
    | isFalse h => isFalse fun heq => h (List.cons.inj heq).1

end

instance : DecidableEq StrNode := decEq

@[elab_as_elim, induction_eliminator]
lemma rec' {motive : StrNode → Prop} (leaf : ∀ a, motive (.leaf a))
    (app : ∀ k cs, (∀ c ∈ cs, motive c) → motive (.app k cs)) (n : StrNode) : motive n :=
  @StrNode.rec motive (fun cs => ∀ c ∈ cs, motive c) leaf app (by simp)
    (fun c cs hc hcs => by simpa using ⟨hc, hcs⟩) n

/-- A string literal. -/
@[match_pattern] abbrev str (s : Str) : StrNode := .leaf (.str s)

/-- An integer. -/
@[match_pattern] abbrev num (z : Int) : StrNode := .leaf (.num z)

/-- A variable or a skolem. -/
abbrev var (n : Nat) : StrNode := .app (.uf n) []

/-- `NodeManager::mkNode`. -/
@[match_pattern] abbrev mk (s : Sym) (cs : List StrNode) : StrNode := .app (.sym s) cs

def eqNode (a b : StrNode) : StrNode := mk .eq [a, b]

def negate : StrNode → StrNode
  | .app (.sym .not) [n] => n
  | n => mk .not [n]

end StrNode

/-! ## Printing -/

/-- The nil terminator of an `n`-ary kind. -/
def kindNil : Sym → Option Term
  | .strConcat => some (.str [])
  | .reConcat => some reEmpty
  | .reUnion => some (.sym .reNone)
  | .reInter => some (.sym .reAll)
  | .and => some (.bool true)
  | .or => some (.bool false)
  | .plus => some (.num 0)
  | .times => some (.num 1)
  | _ => none

def StrLeaf.print : StrLeaf → Term
  | .bool b => .bool b
  | .num z => .num z
  | .str s => .str s

/-- The printed form of an application. -/
def StrKind.print (k : StrKind) (cs : List Term) : Term :=
  match k with
  | .sym s =>
    match kindNil s, cs with
    | some nil, c :: cs => prependNAryChildren (.sym s) nil (c :: cs)
    | _, cs => cs.foldl .app (.sym s)
  | .uf f => cs.foldl .app (.const f)

mutual

def StrNode.print : StrNode → Term
  | .leaf a => a.print
  | .app k cs => k.print (StrNode.printList cs)

/-- The printed forms of the children. -/
def StrNode.printList : List StrNode → List Term
  | [] => []
  | c :: cs => StrNode.print c :: StrNode.printList cs

end

@[simp] lemma StrNode.printList_eq_map (cs : List StrNode) :
    StrNode.printList cs = cs.map StrNode.print := by
  induction cs with
  | nil => rfl
  | cons c cs ih => rw [StrNode.printList, ih, map_cons]

@[simp] lemma StrNode.print_leaf (a : StrLeaf) : (StrNode.leaf a).print = a.print := by
  rw [StrNode.print]

lemma StrNode.print_app (k : StrKind) (cs : List StrNode) :
    (StrNode.app k cs).print = k.print (cs.map StrNode.print) := by
  rw [StrNode.print, StrNode.printList_eq_map]

@[simp] lemma StrNode.print_var (n : Nat) : (StrNode.var n).print = .const n := by
  rw [StrNode.print_app]
  rfl

variable {s : Sym}

variable {nil : Term} {ts : List Term}

lemma StrNode.print_nary (h : kindNil s = some nil) (c : StrNode)
    (cs : List StrNode) : (StrNode.mk s (c :: cs)).print =
      prependNAryChildren (.sym s) nil ((c :: cs).map StrNode.print) := by
  rw [StrNode.print_app, StrKind.print.eq_def]
  simp only [h, map_cons]

lemma StrNode.print_curried (h : kindNil s = none) (cs : List StrNode) :
    (StrNode.mk s cs).print = (cs.map StrNode.print).foldl .app (.sym s) := by
  rw [StrNode.print_app, StrKind.print.eq_def]
  simp only [h]

lemma foldl_app_eq_sym {f : Term} (h : ts.foldl .app f = .sym s) : ts = [] ∧ f = .sym s := by
  rcases eq_nil_or_concat' ts with rfl | ⟨ts, t, rfl⟩
  · exact ⟨rfl, h⟩
  · rw [foldl_append] at h
    cases h

lemma foldl_app_eq_uop {f u : Term} (hf : ∀ g a, f ≠ .app g a)
    (h : ts.foldl .app f = .app (.sym s) u) : ts = [u] ∧ f = .sym s := by
  rcases eq_nil_or_concat' ts with rfl | ⟨ts, t, rfl⟩
  · exact absurd h (hf _ _)
  rw [foldl_append, List.foldl_cons, List.foldl_nil, Term.app.injEq] at h
  obtain ⟨rfl, rfl⟩ := foldl_app_eq_sym h.1
  exact ⟨by rw [h.2]; rfl, rfl⟩

lemma StrNode.of_print_eq_uop {n : StrNode} {u : Term} (h : n.print = .app (.sym s) u) :
    ∃ t, n = .mk s [t] ∧ t.print = u := by
  cases n with
  | leaf a => cases a <;> simp [StrLeaf.print] at h
  | app k cs =>
    rw [StrNode.print_app] at h
    have hshape : ∀ f, (∀ g a, f ≠ Term.app g a) →
        (cs.map StrNode.print).foldl .app f = .app (.sym s) u →
          ∃ t, cs = [t] ∧ t.print = u ∧ f = .sym s := by
      intro f hf heq
      obtain ⟨hcs, rfl⟩ := foldl_app_eq_uop hf heq
      obtain ⟨t, cs', rfl, hlist⟩ := List.map_eq_cons_iff.1 hcs
      obtain ⟨ht, hnil⟩ := hlist
      rw [List.map_eq_nil_iff.1 hnil]
      exact ⟨t, rfl, ht, rfl⟩
    cases k with
    | uf f =>
      obtain ⟨t, _, _, hf⟩ := hshape (.const f) (by simp) h
      cases hf
    | sym k =>
      unfold StrKind.print at h
      simp only at h
      split at h
      · cases h
      obtain ⟨t, rfl, ht, hk⟩ := hshape (.sym k) (by simp) h
      cases hk
      exact ⟨t, rfl, ht⟩

/-! ## Printing is injective -/

/-- The arguments of the curried application that a list of printed children becomes. -/
def StrKind.args (k : StrKind) (cs : List Term) : List Term :=
  match k with
  | .sym s =>
    match kindNil s, cs with
    | some nil, c :: cs => [c, prependNAryChildren (.sym s) nil cs]
    | _, cs => cs
  | .uf _ => cs

/-- The head of a printed application. -/
def StrKind.head : StrKind → Term
  | .sym s => .sym s
  | .uf f => .const f

lemma StrKind.head_ne_app (k : StrKind) (g a : Term) : k.head ≠ .app g a := by
  cases k <;> simp [StrKind.head]

lemma StrKind.head_inj {k k' : StrKind} (h : k.head = k'.head) : k = k' := by
  cases k <;> cases k' <;> simp_all [StrKind.head]

lemma StrKind.print_eq_foldl (k : StrKind) (cs : List Term) :
    k.print cs = (k.args cs).foldl .app k.head := by
  cases k with
  | uf f => rfl
  | sym s =>
    unfold StrKind.print StrKind.args StrKind.head
    cases hs : kindNil s with
    | none => simp only [hs]
    | some nil =>
      simp only [hs]
      cases cs with
      | nil => rfl
      | cons c cs => rfl

lemma foldl_app_inj {f f' : Term} (hf : ∀ g a, f ≠ .app g a) (hf' : ∀ g a, f' ≠ .app g a)
    {ts' : List Term} (h : ts.foldl .app f = ts'.foldl .app f') : f = f' ∧ ts = ts' := by
  induction ts using List.reverseRecOn generalizing ts' with
  | nil =>
    rcases eq_nil_or_concat' ts' with rfl | ⟨ts', t', rfl⟩
    · exact ⟨h, rfl⟩
    · rw [foldl_append] at h
      exact absurd h (hf _ _)
  | append_singleton ts t ih =>
    rcases eq_nil_or_concat' ts' with rfl | ⟨ts', t', rfl⟩
    · rw [foldl_append] at h
      exact absurd h.symm (hf' _ _)
    rw [foldl_append, foldl_append] at h
    simp only [List.foldl_cons, List.foldl_nil, Term.app.injEq] at h
    obtain ⟨rfl, rfl⟩ := ih h.1
    exact ⟨rfl, by rw [h.2]⟩

lemma prependNAryChildren_inj {op : Term} (hnil : naryView op nil = ([], nil)) {xs ys : List Term}
    (h : prependNAryChildren op nil xs = prependNAryChildren op nil ys) : xs = ys := by
  have hx := getNAryChildren_prepend hnil xs
  rw [h, getNAryChildren_prepend hnil ys] at hx
  exact (Option.some.inj hx).symm

lemma naryView_kindNil (h : kindNil s = some nil) : naryView (.sym s) nil = ([], nil) := by
  unfold kindNil at h
  split at h <;> cases h <;> rfl

lemma StrKind.args_inj {k : StrKind} {cs cs' : List Term} (h : k.args cs = k.args cs') :
    cs = cs' := by
  cases k with
  | uf f => exact h
  | sym s =>
    unfold StrKind.args at h
    cases hs : kindNil s with
    | none =>
      simp only [hs] at h
      exact h
    | some nil =>
      cases cs <;> cases cs' <;> simp only [hs] at h
      · rfl
      · cases h
      · cases h
      · rw [List.cons.injEq, List.cons.injEq] at h
        rw [h.1, prependNAryChildren_inj (naryView_kindNil hs) h.2.1]

lemma StrKind.print_ne_leaf (k : StrKind) (cs : List Term) (a : StrLeaf) :
    k.print cs ≠ a.print := by
  rw [StrKind.print_eq_foldl]
  rcases eq_nil_or_concat' (k.args cs) with hargs | ⟨ts, t, hargs⟩
  · rw [hargs]
    cases k <;> cases a <;> simp [StrKind.head, StrLeaf.print]
  · rw [hargs, foldl_append]
    cases a <;> simp [StrLeaf.print]

lemma StrNode.print_inj {a b : StrNode} (h : a.print = b.print) : a = b := by
  induction a generalizing b with
  | leaf a =>
    cases b with
    | leaf b =>
      rw [print_leaf, print_leaf] at h
      cases a <;> cases b <;> simp_all [StrLeaf.print]
    | app k cs =>
      rw [print_leaf, print_app] at h
      exact absurd h.symm (k.print_ne_leaf _ a)
  | app k cs ih =>
    cases b with
    | leaf b =>
      rw [print_leaf, print_app] at h
      exact absurd h (k.print_ne_leaf _ b)
    | app k' cs' =>
      rw [print_app, print_app, StrKind.print_eq_foldl, StrKind.print_eq_foldl] at h
      obtain ⟨hhead, hargs⟩ := foldl_app_inj k.head_ne_app k'.head_ne_app h
      obtain rfl := StrKind.head_inj hhead
      have hmap := StrKind.args_inj hargs
      have hcs : cs = cs' := by
        clear h hargs hhead
        induction cs generalizing cs' with
        | nil => exact (List.map_eq_nil_iff.1 hmap.symm).symm
        | cons c cs ihcs =>
          cases cs' with
          | nil => cases hmap
          | cons c' cs' =>
            rw [map_cons, map_cons, List.cons.injEq] at hmap
            rw [ih c List.mem_cons_self hmap.1, ihcs (fun d hd => ih d (.tail _ hd)) cs' hmap.2]
      rw [hcs]

end EthosCpc.Cvc5
