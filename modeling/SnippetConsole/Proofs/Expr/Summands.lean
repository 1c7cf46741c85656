import SnippetConsole.Proofs.Expr.Numeric
import SnippetConsole.Proofs.Expr.Rules

/-!
# The summands of a sum

Cutting a sum at its plus signs outside brackets leaves sums again, provided that no
plus sign is the sign of an operand. Their values, added up from left to right, are the
value of the sum, unless a part behind the first takes something away: in the sum it is
taken from all that stands in front of it, in the part only from the part.

* `Finished`, `Unsigned`, `Subtracts` — runs, and their signs outside brackets.
* `splitFrom_append_of_eq` — cutting two runs, one behind the other.
* `solid_of_derives` — what is below a sum is one part.
* `exists_summands` — the parts of a sum, and its value.
-/

namespace SnippetConsole

open Arith

/-! ## Signs outside brackets -/

/-- The operator, if the kind is one. -/
def Kind.operator? : Kind → Option Operator
  | .operator op => some op
  | _ => none

/-- The run is not empty and its last token is no operator. -/
def Finished (ts : List Token) : Prop := ∃ t ∈ ts.getLast?, t.kind.operator? = none

/-- The operator stands outside brackets, with the run in front of it. -/
def SignAfter (op : Operator) (ts before : List Token) : Prop :=
  ∃ t after, ts = before ++ t :: after ∧ t.kind = .operator op ∧ height before = 0

/-- Each plus sign outside brackets stands behind an operand. -/
def Unsigned (ts : List Token) : Prop := ∀ before, SignAfter .add ts before → Finished before

/-- A minus sign outside brackets stands behind an operand. -/
def Subtracts (ts : List Token) : Prop := ∃ before, SignAfter .sub ts before ∧ Finished before

instance (ts : List Token) : Decidable (Finished ts) :=
  inferInstanceAs (Decidable (∃ t ∈ ts.getLast?, t.kind.operator? = none))

theorem signAfter_iff {op : Operator} {ts before : List Token} :
    SignAfter op ts before ↔ ∃ i < ts.length, before = ts.take i ∧
      ts[i]?.map Token.kind = some (.operator op) ∧ height (ts.take i) = 0 := by
  constructor
  · rintro ⟨t, after, rfl, ht, hheight⟩
    exact ⟨before.length, by simp, by simp, by simp [ht], by simpa using hheight⟩
  · rintro ⟨i, hi, rfl, ht, hheight⟩
    rw [List.getElem?_eq_getElem hi, Option.map_some, Option.some.injEq] at ht
    exact ⟨ts[i], ts.drop (i + 1), by simp, ht, hheight⟩

theorem unsigned_iff {ts : List Token} : Unsigned ts ↔ ∀ i < ts.length,
    ts[i]?.map Token.kind = some (.operator .add) → height (ts.take i) = 0 →
      Finished (ts.take i) := by
  simp only [Unsigned, signAfter_iff]
  exact ⟨fun h i hi ht hheight => h _ ⟨i, hi, rfl, ht, hheight⟩,
    fun h before ⟨i, hi, hbefore, ht, hheight⟩ => hbefore ▸ h i hi ht hheight⟩

theorem subtracts_iff {ts : List Token} : Subtracts ts ↔ ∃ i < ts.length,
    ts[i]?.map Token.kind = some (.operator .sub) ∧ height (ts.take i) = 0 ∧
      Finished (ts.take i) := by
  simp only [Subtracts, signAfter_iff]
  exact ⟨fun ⟨before, ⟨i, hi, hbefore, ht, hheight⟩, hfinished⟩ =>
      ⟨i, hi, ht, hheight, hbefore ▸ hfinished⟩,
    fun ⟨i, hi, ht, hheight, hfinished⟩ => ⟨_, ⟨i, hi, rfl, ht, hheight⟩, hfinished⟩⟩

instance (ts : List Token) : Decidable (Unsigned ts) := decidable_of_iff _ unsigned_iff.symm

instance (ts : List Token) : Decidable (Subtracts ts) := decidable_of_iff _ subtracts_iff.symm

section

variable {ts us ls rs : List Token} {t : Token}

theorem operator?_of_kind {op : Operator} (ht : t.kind = .operator op) :
    t.kind.operator? = some op := by rw [ht]; rfl

theorem finished_concat (ts : List Token) (ht : t.kind.operator? = none) : Finished (ts ++ [t]) :=
  ⟨t, by simp, ht⟩

theorem Finished.append (h : Finished us) (ts : List Token) : Finished (ts ++ us) := by
  obtain ⟨t, hlast, ht⟩ := h
  exact ⟨t, by rw [List.getLast?_append, hlast, Option.some_or]; rfl, ht⟩

theorem Finished.cons (h : Finished us) (t : Token) : Finished (t :: us) := h.append [t]

/-- Behind an operator there is an operand. -/
theorem Finished.of_operator {op : Operator} (h : Finished (ls ++ t :: us))
    (ht : t.kind = .operator op) : Finished us := by
  obtain ⟨u, hlast, hu⟩ := h
  cases us with
  | nil =>
    rw [List.getLast?_concat] at hlast
    obtain rfl := Option.some.inj hlast
    cases (operator?_of_kind ht).symm.trans hu
  | cons v us =>
    rw [List.append_cons, List.getLast?_append_cons] at hlast
    exact ⟨u, hlast, hu⟩

theorem Unsigned.left (h : Unsigned (ls ++ rs)) : Unsigned ls := by
  rintro before ⟨t, after, rfl, ht, hheight⟩
  exact h before ⟨t, after ++ rs, by simp, ht, hheight⟩

/-- Behind an operator outside brackets. -/
theorem Unsigned.right {op : Operator} (h : Unsigned (ls ++ t :: rs)) (ht : t.kind = .operator op)
    (hls : height ls = 0) : Unsigned rs := by
  rintro before ⟨u, after, rfl, hu, hbefore⟩
  have hheight : height (ls ++ t :: before) = 0 := by
    rw [height_append, height_cons, hls, ht, hbefore]
    rfl
  exact (h (ls ++ t :: before) ⟨u, after, by simp, hu, hheight⟩).of_operator ht

/-! ## Cutting -/

/-- The first part of a run is cut off together with the last part of what stands in
front of it. -/
theorem splitFrom_append_of_eq {separator : Kind} (hflat : separator.slope = 0) {depth : Int}
    {init : List (List Token)} {last : List Token}
    (h : splitFrom separator depth ts = init ++ [last]) (us : List Token) :
    splitFrom separator depth (ts ++ us) =
      init ++ (splitFrom separator (depth + height ts) us).modifyHead (last ++ ·) := by
  induction ts generalizing depth init last with
  | nil =>
    change [] ++ [[]] = init ++ [last] at h
    obtain ⟨rfl, hlast⟩ := List.append_inj' h rfl
    obtain ⟨rfl, -⟩ := List.cons.inj hlast
    rw [height_nil, Int.add_zero]
    exact (congrFun List.modifyHead_id (splitFrom separator depth us)).symm
  | cons t ts ih =>
    rw [splitFrom] at h
    rw [List.cons_append, splitFrom, height_cons]
    split at h
    · next hcut =>
      rw [if_pos hcut, hcut.2, hflat, Int.zero_add]
      cases init with
      | nil => exact absurd (List.cons.inj h).2 (splitFrom_ne_nil separator depth ts)
      | cons first init =>
        obtain ⟨rfl, hrest⟩ := List.cons.inj h
        rw [ih hrest]
        rfl
    · next hcut =>
      rw [if_neg hcut, ← Int.add_assoc]
      obtain ⟨part, parts, hparts⟩ :=
        List.exists_cons_of_ne_nil (splitFrom_ne_nil separator (depth + t.kind.slope) ts)
      rw [hparts, List.modifyHead_cons] at h
      cases init with
      | nil =>
        obtain ⟨rfl, rfl⟩ := List.cons.inj h
        rw [@ih _ [] part hparts, List.nil_append, List.nil_append, List.modifyHead_modifyHead]
        rfl
      | cons first init =>
        obtain ⟨rfl, rfl⟩ := List.cons.inj h
        rw [@ih _ (part :: init) last hparts]
        rfl

variable {separator : Kind}

/-- What is behind a separator outside brackets is cut by itself. -/
theorem splitAtTop_append_separator (hflat : separator.slope = 0) (hts : height ts = 0)
    (ht : t.kind = separator) :
    splitAtTop separator (ts ++ t :: us) = splitAtTop separator ts ++ splitAtTop separator us := by
  have hsplit := (List.dropLast_append_getLast (splitAtTop_ne_nil separator ts)).symm
  rw [splitAtTop, splitFrom_append_of_eq hflat hsplit, hts, Int.zero_add, splitFrom,
    if_pos ⟨rfl, ht⟩, List.modifyHead_cons, List.append_nil, ← splitAtTop, List.append_cons,
    ← hsplit]

/-- A run that is one part goes on with the last part in front of it. -/
theorem splitAtTop_append_solid (hflat : separator.slope = 0) (hts : height ts = 0)
    {init : List (List Token)} {last : List Token}
    (hsplit : splitAtTop separator ts = init ++ [last]) (hus : Solid separator 0 us) :
    splitAtTop separator (ts ++ us) = init ++ [last ++ us] := by
  rw [splitAtTop, splitFrom_append_of_eq hflat hsplit, hts, Int.zero_add, ← splitAtTop,
    Grammar.splitAtTop_of_solid hus]
  rfl

theorem Solid.append (hflat : separator.slope = 0) (hts : Solid separator 0 ts)
    (hheight : height ts = 0) (hus : Solid separator 0 us) : Solid separator 0 (ts ++ us) := by
  rw [← Grammar.splitAtTop_length_eq_one_iff,
    @splitAtTop_append_solid _ _ _ hflat hheight [] ts (Grammar.splitAtTop_of_solid hts) hus]
  rfl

end

/-! ## Derived runs -/

section

variable {store : Store} {P : List Token → Float → Prop} {n : Nonterminal} {depth : Nat}
  {ts : List Token} {tree : Tree}

theorem exists_operator_of_joins {kind : Kind} {op : Operator}
    (h : additive kind = some op ∨ multiplicative kind = some op) : kind = .operator op := by
  cases kind with
  | operator op' => cases op' <;> rcases h with h | h <;> cases h <;> rfl
  | _ => rcases h with h | h <;> cases h

theorem AtomNumber.balanced {x : Float} (h : AtomNumber store P ts x) : balanced ts = true := by
  cases h with
  | literal | binding | member => rfl
  | slot henclosed => exact (balanced_cons_of_flat rfl).trans henclosed.balanced

theorem AtomNumber.finished {x : Float} (h : AtomNumber store P ts x) : Finished ts := by
  cases h with
  | literal | binding => exact finished_concat [] rfl
  | @member object field s₁ s₂ s₃ => exact finished_concat [⟨.word object, s₁⟩, ⟨.dot, s₂⟩] rfl
  | slot henclosed =>
    obtain ⟨opener, closer, shape', rfl, -, hcloser, -⟩ := enclosed_iff.1 henclosed
    exact (finished_concat _ (by rw [hcloser]; rfl)).cons _

theorem balanced_of_derives (h : Derives Token.kind (AtomNumber store P) n depth ts tree) :
    balanced ts = true := by
  have hoperator {rs : List Token} {t : Token} {op : Operator} (ht : t.kind = .operator op)
      (hrs : balanced rs = true) : balanced (t :: rs) = true :=
    (balanced_cons_of_flat (by rw [ht]; rfl)).trans hrs
  induction h with
  | product _ ih | unary _ ih | primary _ ih => exact ih
  | add _ ht _ ihl ihr =>
    exact balanced_append ihl (hoperator (exists_operator_of_joins (.inl ht)) ihr)
  | mul _ ht _ ihl ihr =>
    exact balanced_append ihl (hoperator (exists_operator_of_joins (.inr ht)) ihr)
  | minus ht _ ih | plus ht _ ih => exact hoperator ht ih
  | atom hatom => exact hatom.balanced
  | bracket ho _ hc ih => exact balanced_bracket ho hc ih

/-- A run whose operands are a sum closes its brackets. -/
theorem balanced_of_ofKinds? {near : Resolver} {steps steps' : Nat} {ks : List Kind} {tree : Tree}
    (hks : ((operands ts).mapM (Operand.kindIn store near)).result steps = (some ks, steps'))
    (htree : Tree.ofKinds? ks = some tree) : balanced ts = true := by
  obtain ⟨depth, -, hderives⟩ := fits_of_ofKinds? htree
  exact balanced_of_derives (derives_of_stands (fun _ _ => .literal) hderives (stands_of_mapM hks))

theorem finished_of_derives (h : Derives Token.kind (AtomNumber store P) n depth ts tree) :
    Finished ts := by
  induction h with
  | product _ ih | unary _ ih | primary _ ih => exact ih
  | add _ _ _ _ ihr | mul _ _ _ _ ihr => exact (ihr.cons _).append _
  | minus _ _ ih | plus _ _ ih => exact ih.cons _
  | atom hatom => exact hatom.finished
  | bracket _ _ hc => exact (finished_concat _ (by rw [hc]; rfl)).cons _

theorem AtomNumber.solid {x : Float} (h : AtomNumber store P ts x) :
    Solid (.operator .add) 0 ts := by
  cases h with
  | literal | binding => exact solid_singleton (by simp) 0
  | member =>
    exact Grammar.Solid.cons (by simp) (Grammar.Solid.cons (by simp) (solid_singleton (by simp) _))
  | slot henclosed => exact Grammar.Solid.cons (by simp) (henclosed.solid rfl (Int.le_refl 0))

/-- Below a sum, the only plus signs outside brackets are signs of operands. -/
theorem solid_of_derives (h : Derives Token.kind (AtomNumber store P) n depth ts tree)
    (hn : n ≠ .sum) (hts : Unsigned ts) : Solid (.operator .add) 0 ts := by
  induction h with
  | product => exact absurd rfl hn
  | add => exact absurd rfl hn
  | unary _ ih | primary _ ih => exact ih nofun hts
  | mul hl ht hr ihl ihr =>
    have hoperator := exists_operator_of_joins (.inr ht)
    have hheight := height_of_balanced (balanced_of_derives hl)
    refine Solid.append rfl (ihl nofun hts.left) hheight ?_
    refine Grammar.Solid.cons ?_ ?_
    · rintro ⟨-, hadd⟩
      rw [hadd] at ht
      cases ht
    · rw [hoperator]
      exact ihr nofun (hts.right hoperator hheight)
  | minus ht _ ih =>
    refine Grammar.Solid.cons (by simp [ht]) ?_
    rw [ht]
    exact ih nofun (@Unsigned.right [] _ _ _ hts ht rfl)
  | @plus _ t ts _ ht _ ih =>
    -- in front of the sign there is no operand
    obtain ⟨u, hnil, -⟩ := hts [] ⟨t, ts, rfl, ht, rfl⟩
    cases hnil
  | atom hatom => exact hatom.solid
  | bracket ho h hc =>
    have henclosed := enclosed_iff.2 ⟨_, _, _, rfl, ho, hc, balanced_of_derives h⟩
    exact henclosed.solid rfl (Int.le_refl 0)

/-! ## Sums -/

theorem exists_of_forall₂_concat {α β : Type} {R : α → β → Prop} {init : List α} {last : α}
    {ys : List β} (h : List.Forall₂ R (init ++ [last]) ys) :
    ∃ init' last', ys = init' ++ [last'] ∧ List.Forall₂ R init init' ∧ R last last' := by
  induction init generalizing ys with
  | nil =>
    cases h with
    | cons hlast hnil =>
      cases hnil
      exact ⟨[], _, rfl, .nil, hlast⟩
  | cons x init ih =>
    cases h with
    | cons hx h =>
      obtain ⟨init', last', rfl, hinit, hlast⟩ := ih h
      exact ⟨_ :: init', last', rfl, .cons hx hinit, hlast⟩

/-- The parts of a sum are sums. What they are worth, added up from left to right, is
what the sum is worth, if no part but the first takes anything away. -/
theorem exists_summands (h : Derives Token.kind (AtomNumber store P) .sum depth ts tree)
    (hts : Unsigned ts) :
    ∃ first rest, List.Forall₂
        (fun part tree => ∃ d ≤ depth, Derives Token.kind (AtomNumber store P) .sum d part tree)
        (splitAtTop (.operator .add) ts) (first :: rest) ∧
      ((∀ part ∈ (splitAtTop (.operator .add) ts).tail, ¬Subtracts part) →
        tree.eval = (rest.map Tree.eval).foldl (· + ·) first.eval) := by
  generalize hn : Nonterminal.sum = n at h
  induction h with
  | @product d ts tree h =>
    rw [Grammar.splitAtTop_of_solid (solid_of_derives h nofun hts)]
    exact ⟨tree, [], .cons ⟨d, Nat.le_refl d, .product h⟩ .nil, fun _ => rfl⟩
  | @add d e ls rs t op left right hl ht hr ih =>
    obtain ⟨first, rest, hparts, heval⟩ := ih hts.left rfl
    have hoperator := exists_operator_of_joins (.inl ht)
    have hheight := height_of_balanced (balanced_of_derives hl)
    have hsolid := solid_of_derives hr nofun (hts.right hoperator hheight)
    have hlift : List.Forall₂ (fun part tree => ∃ d' ≤ max d e,
        Derives Token.kind (AtomNumber store P) .sum d' part tree)
          (splitAtTop (.operator .add) ls) (first :: rest) :=
      hparts.imp fun part tree ⟨d', hd', h⟩ => ⟨d', hd'.trans (Nat.le_max_left d e), h⟩
    cases op with
    | add =>
      -- one more part
      rw [splitAtTop_append_separator rfl hheight hoperator, Grammar.splitAtTop_of_solid hsolid]
      refine ⟨first, rest ++ [right], ?_, fun hsub => ?_⟩
      · exact List.rel_append hlift (.cons ⟨e, Nat.le_max_right d e, .product hr⟩ .nil)
      · rw [List.tail_append_of_ne_nil (splitAtTop_ne_nil _ ls), List.forall_mem_append] at hsub
        rw [List.map_append, List.foldl_append, ← heval hsub.1]
        rfl
    | sub =>
      -- a longer last part
      obtain ⟨init, last, hsplit⟩ : ∃ init last, splitAtTop (.operator .add) ls = init ++ [last] :=
        ⟨_, _, (List.dropLast_append_getLast (splitAtTop_ne_nil _ ls)).symm⟩
      have hbehind : Solid (.operator .add) 0 (t :: rs) :=
        Grammar.Solid.cons (by simp [hoperator]) (by rw [hoperator]; exact hsolid)
      rw [splitAtTop_append_solid rfl hheight hsplit hbehind]
      rw [hsplit] at hlift heval
      obtain ⟨trees, tree, htrees, hinit, d', hd', hlast⟩ := exists_of_forall₂_concat hlift
      have hpart : Derives Token.kind (AtomNumber store P) .sum (max d' e) (last ++ t :: rs)
          (.binary .sub tree right) := .add hlast ht hr
      have hdepth : max d' e ≤ max d e := Nat.max_le.2 ⟨hd', Nat.le_max_right d e⟩
      cases hinit with
      | nil =>
        obtain ⟨rfl, rfl⟩ := List.cons.inj htrees
        refine ⟨_, [], .cons ⟨_, hdepth, hpart⟩ .nil, fun _ => ?_⟩
        have hleft := heval (by simp)
        simp only [List.map_nil, List.foldl_nil] at hleft ⊢
        rw [Tree.eval, Tree.eval, hleft]
      | cons hfirst hinit =>
        obtain ⟨rfl, rfl⟩ := List.cons.inj htrees
        have hlater := List.rel_append hinit (.cons ⟨_, hdepth, hpart⟩ .nil)
        refine ⟨first, _, .cons hfirst hlater, fun hsub => ?_⟩
        have hlastsub : Subtracts (last ++ t :: rs) :=
          ⟨last, ⟨t, rs, rfl, hoperator, height_of_balanced (balanced_of_derives hlast)⟩,
            finished_of_derives hlast⟩
        exact absurd hlastsub (hsub _ (by simp))
    | mul | div =>
      rw [hoperator] at ht
      cases ht
  | _ => cases hn

end

end SnippetConsole
