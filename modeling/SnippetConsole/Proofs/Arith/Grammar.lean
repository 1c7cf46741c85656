import Mathlib.Data.Nat.Init
import SnippetConsole.Arith.Reading

/-!
# The grammar of arithmetic

The grammar is stated apart from its reader, over anything that has kinds, with the
depth of each derivation: the number of signs and brackets that are open at once on
one of its paths, where there are most. The reader accepts what the grammar derives at
a depth it has room for, whatever the length.

* `Exact` — a reader and what it reads.
* `exact_joined` — joining operands is exact if reading an operand is.
* `exact_signed`, `exact_sum` — so are the readers of the grammar, at every depth.
* `ofKinds?_eq_some_iff` — which runs of kinds are arithmetic, and their trees.
-/

namespace SnippetConsole

namespace Arith

/-! ## The grammar -/

/-- What the grammar derives. -/
inductive Nonterminal
  | sum
  | product
  | unary
  | primary

/-- The grammar, over tokens of any sort whose kinds are known, with atoms that stand
for numbers. A derivation of `depth` has at most so many signs and brackets open at
once, and on some path as many. -/
inductive Derives {α : Type} (kind : α → Kind) (atom : List α → Float → Prop) :
    Nonterminal → (depth : Nat) → List α → Tree → Prop
  | product {d : Nat} {ts : List α} {tree : Tree} :
      Derives kind atom .product d ts tree → Derives kind atom .sum d ts tree
  | add {d e : Nat} {ls rs : List α} {t : α} {op : Operator} {left right : Tree} :
      Derives kind atom .sum d ls left → additive (kind t) = some op →
      Derives kind atom .product e rs right →
      Derives kind atom .sum (max d e) (ls ++ t :: rs) (.binary op left right)
  | unary {d : Nat} {ts : List α} {tree : Tree} :
      Derives kind atom .unary d ts tree → Derives kind atom .product d ts tree
  | mul {d e : Nat} {ls rs : List α} {t : α} {op : Operator} {left right : Tree} :
      Derives kind atom .product d ls left → multiplicative (kind t) = some op →
      Derives kind atom .unary e rs right →
      Derives kind atom .product (max d e) (ls ++ t :: rs) (.binary op left right)
  | minus {d : Nat} {t : α} {ts : List α} {tree : Tree} :
      kind t = .operator .sub → Derives kind atom .unary d ts tree →
      Derives kind atom .unary (d + 1) (t :: ts) (.neg tree)
  | plus {d : Nat} {t : α} {ts : List α} {tree : Tree} :
      kind t = .operator .add → Derives kind atom .unary d ts tree →
      Derives kind atom .unary (d + 1) (t :: ts) tree
  | primary {d : Nat} {ts : List α} {tree : Tree} :
      Derives kind atom .primary d ts tree → Derives kind atom .unary d ts tree
  | atom {ts : List α} {x : Float} :
      atom ts x → Derives kind atom .primary 0 ts (.number x)
  | bracket {d : Nat} {opener closer : α} {ts : List α} {tree : Tree} :
      kind opener = .opening .round → Derives kind atom .sum d ts tree →
      kind closer = .closing .round →
      Derives kind atom .primary (d + 1) (opener :: (ts ++ [closer])) tree

/-- A single kind that is a number. -/
def IsNumber (ks : List Kind) (x : Float) : Prop := ks = [.number x]

/-- The kinds are derived at a depth for which there is room. -/
def Fits (room : Nat) (n : Nonterminal) (ks : List Kind) (tree : Tree) : Prop :=
  ∃ depth ≤ room, Derives id IsNumber n depth ks tree

/-! ## Exact readers -/

/-- What is read off the front of a run is what `P` holds of, and it is read wherever
the reader may stop behind it. -/
def Exact (reader : Reader) (P : List Kind → Tree → Prop) (stop : List Kind → Prop) : Prop :=
  ∀ ks tree rest, reader ks = some (tree, rest) ↔
    ∃ used, ks = used ++ rest ∧ P used tree ∧ stop rest

/-- No operator follows. -/
def Stops (joins : Kind → Option Operator) (rest : List Kind) : Prop :=
  ∀ k ∈ rest.head?, joins k = none

@[simp] theorem stops_nil (joins : Kind → Option Operator) : Stops joins [] := by simp [Stops]

@[simp] theorem stops_cons (joins : Kind → Option Operator) (k : Kind) (ks : List Kind) :
    Stops joins (k :: ks) ↔ joins k = none := by simp [Stops]

/-- Operands joined by operators, with the last operator at the root. -/
inductive Joined (joins : Kind → Option Operator) (P : List Kind → Tree → Prop) :
    List Kind → Tree → Prop
  | one {ks : List Kind} {tree : Tree} : P ks tree → Joined joins P ks tree
  | more {ls rs : List Kind} {k : Kind} {op : Operator} {left right : Tree} :
      Joined joins P ls left → joins k = some op → P rs right →
      Joined joins P (ls ++ k :: rs) (.binary op left right)

section

variable {joins : Kind → Option Operator} {operand : Reader} {P : List Kind → Tree → Prop}
  {stop : List Kind → Prop}

/-- Two runs of joined operands may be joined. -/
theorem Joined.append {ls rs : List Kind} {k : Kind} {op : Operator} {left right : Tree}
    (hl : Joined joins P ls left) (hk : joins k = some op) (hr : Joined joins P rs right) :
    ∃ tree, Joined joins P (ls ++ k :: rs) tree := by
  induction hr with
  | one h => exact ⟨_, .more hl hk h⟩
  | @more ms rs j op' middle right _ hj h ih =>
    obtain ⟨tree, htree⟩ := ih
    refine ⟨.binary op' tree right, ?_⟩
    have hassoc : ls ++ k :: (ms ++ j :: rs) = ls ++ k :: ms ++ j :: rs := by simp
    rw [hassoc]
    exact .more htree hj h

/-- What is built like joined operands is joined operands. -/
theorem joined_iff {Q : List Kind → Tree → Prop} (hone : ∀ ks tree, P ks tree → Q ks tree)
    (hmore : ∀ ls k rs op left right, Q ls left → joins k = some op → P rs right →
      Q (ls ++ k :: rs) (.binary op left right))
    (hcases : ∀ ks tree, Q ks tree → P ks tree ∨ ∃ ls k rs op left right,
      ks = ls ++ k :: rs ∧ tree = .binary op left right ∧ Q ls left ∧ joins k = some op ∧
        P rs right) (ks : List Kind) (tree : Tree) :
    Joined joins P ks tree ↔ Q ks tree := by
  constructor
  · intro h
    induction h with
    | one h => exact hone _ _ h
    | more _ hk hr ih => exact hmore _ _ _ _ _ _ ih hk hr
  · intro h
    induction hn : ks.length using Nat.strong_induction_on generalizing ks tree with
    | h n ih =>
      rcases hcases ks tree h with h | ⟨ls, k, rs, op, left, right, rfl, rfl, hl, hk, hr⟩
      · exact .one h
      · refine .more (ih ls.length ?_ ls left hl rfl) hk hr
        rw [← hn, List.length_append, List.length_cons]
        omega

theorem Exact.length_le (h : Exact operand P stop) {ks rest : List Kind} {tree : Tree}
    (hread : operand ks = some (tree, rest)) : rest.length ≤ ks.length := by
  obtain ⟨used, rfl, -, -⟩ := (h ks tree rest).1 hread
  simp

theorem joinMore_of_stops {rest : List Kind} (h : Stops joins rest) (rounds : Nat) (left : Tree) :
    joinMore joins operand rounds left rest = some (left, rest) := by
  cases rounds with
  | zero => rfl
  | succ rounds =>
    cases rest with
    | nil => rfl
    | cons k ks => simp only [joinMore, (stops_cons joins k ks).1 h]

theorem joinMore_of_joins {k : Kind} {op : Operator} (h : joins k = some op) (rounds : Nat)
    (left : Tree) (ks : List Kind) :
    joinMore joins operand (rounds + 1) left (k :: ks) =
      (operand ks).bind fun r => joinMore joins operand rounds (.binary op left r.1) r.2 := by
  simp only [joinMore, h]
  rfl

/-- There are rounds enough if there are as many as kinds. -/
theorem joinMore_rounds (h : Exact operand P stop) {m n : Nat} {left : Tree} {ks : List Kind}
    (hm : ks.length ≤ m) (hn : ks.length ≤ n) :
    joinMore joins operand m left ks = joinMore joins operand n left ks := by
  induction m generalizing n left ks with
  | zero =>
    obtain rfl := List.length_eq_zero_iff.1 (Nat.le_zero.1 hm)
    exact (joinMore_of_stops (stops_nil joins) n left).symm
  | succ m ih =>
    cases ks with
    | nil => exact (joinMore_of_stops (stops_nil joins) n left).symm
    | cons k ks =>
      obtain ⟨n, rfl⟩ := Nat.exists_eq_add_one.2 (Nat.lt_of_lt_of_le (Nat.succ_pos _) hn)
      rw [List.length_cons] at hm hn
      cases hk : joins k with
      | none =>
        have hstops := (stops_cons joins k ks).2 hk
        rw [joinMore_of_stops hstops, joinMore_of_stops hstops]
      | some op =>
        rw [joinMore_of_joins hk, joinMore_of_joins hk]
        refine Option.bind_congr fun r hr => ?_
        have hlength := h.length_le hr
        exact ih (by omega) (by omega)

/-- Reading joined operands leaves the loop where they end. -/
theorem joined_append (h : Exact operand P stop)
    (hstop : ∀ k ks, joins k ≠ none → stop (k :: ks)) {used rest : List Kind} {tree : Tree}
    (hused : Joined joins P used tree) (hrest : stop rest) :
    joined joins operand (used ++ rest) =
      joinMore joins operand rest.length tree rest := by
  induction hused generalizing rest with
  | one hP =>
    have hread := (h _ _ rest).2 ⟨_, rfl, hP, hrest⟩
    rw [joined, hread]
    rfl
  | @more ls rs k op left right _ hk hP ih =>
    have hread := (h _ _ rest).2 ⟨_, rfl, hP, hrest⟩
    rw [List.append_assoc, List.cons_append, ih (hstop k _ (by simp [hk])), List.length_cons,
      joinMore_of_joins hk, hread]
    exact joinMore_rounds h (by simp) (Nat.le_refl _)

/-- What the loop adds to joined operands are joined operands. -/
theorem joined_of_joinMore (h : Exact operand P stop) {rounds : Nat} {used ks rest : List Kind}
    {left tree : Tree} (hused : Joined joins P used left) (hks : stop ks)
    (hrounds : ks.length ≤ rounds)
    (hread : joinMore joins operand rounds left ks = some (tree, rest)) :
    ∃ more, ks = more ++ rest ∧ Joined joins P (used ++ more) tree ∧ stop rest ∧
      Stops joins rest := by
  induction rounds generalizing used ks left with
  | zero =>
    obtain rfl := List.length_eq_zero_iff.1 (Nat.le_zero.1 hrounds)
    obtain ⟨rfl, rfl⟩ := Prod.mk.inj (Option.some.inj hread)
    exact ⟨[], rfl, by rwa [List.append_nil], hks, stops_nil joins⟩
  | succ rounds ih =>
    by_cases hstops : Stops joins ks
    · rw [joinMore_of_stops hstops] at hread
      obtain ⟨rfl, rfl⟩ := Prod.mk.inj (Option.some.inj hread)
      exact ⟨[], rfl, by rwa [List.append_nil], hks, hstops⟩
    · cases ks with
      | nil => exact absurd (stops_nil joins) hstops
      | cons k ks =>
        rw [stops_cons] at hstops
        obtain ⟨op, hop⟩ := Option.ne_none_iff_exists'.1 hstops
        rw [joinMore_of_joins hop] at hread
        obtain ⟨⟨right, middle⟩, hright, hloop⟩ := Option.bind_eq_some_iff.1 hread
        obtain ⟨rs, rfl, hrs, hmiddle⟩ := (h _ _ _).1 hright
        rw [List.length_cons, List.length_append] at hrounds
        obtain ⟨more, rfl, hmore, hrest⟩ :=
          ih (.more hused hop hrs) hmiddle (by omega) hloop
        exact ⟨k :: (rs ++ more), by simp, by simpa using hmore, hrest⟩

theorem exact_joined (h : Exact operand P stop)
    (hstop : ∀ k ks, joins k ≠ none → stop (k :: ks)) :
    Exact (joined joins operand) (Joined joins P) fun rest => stop rest ∧ Stops joins rest := by
  intro ks tree rest
  constructor
  · intro hread
    obtain ⟨⟨left, middle⟩, hleft, hloop⟩ := Option.bind_eq_some_iff.1 hread
    obtain ⟨ls, rfl, hls, hmiddle⟩ := (h _ _ _).1 hleft
    obtain ⟨more, rfl, hmore, hrest⟩ :=
      joined_of_joinMore h (.one hls) hmiddle (Nat.le_refl _) hloop
    exact ⟨ls ++ more, by simp, hmore, hrest⟩
  · rintro ⟨used, rfl, hused, hrest, hstops⟩
    rw [joined_append h hstop hused hrest, joinMore_of_stops hstops]

end

/-! ## The readers of the grammar -/

theorem fits_product_iff (room : Nat) (ks : List Kind) (tree : Tree) :
    Joined multiplicative (Fits room .unary) ks tree ↔ Fits room .product ks tree := by
  refine joined_iff ?_ ?_ ?_ ks tree
  · rintro ks tree ⟨d, hd, h⟩
    exact ⟨d, hd, .unary h⟩
  · rintro ls k rs op left right ⟨d, hd, hl⟩ hk ⟨e, he, hr⟩
    exact ⟨max d e, Nat.max_le.2 ⟨hd, he⟩, .mul hl hk hr⟩
  · rintro ks tree ⟨d, hd, h⟩
    cases h with
    | unary h => exact .inl ⟨d, hd, h⟩
    | mul hl hk hr =>
      obtain ⟨hd, he⟩ := Nat.max_le.1 hd
      exact .inr ⟨_, _, _, _, _, _, rfl, rfl, ⟨_, hd, hl⟩, hk, ⟨_, he, hr⟩⟩

theorem fits_sum_iff (room : Nat) (ks : List Kind) (tree : Tree) :
    Joined additive (Fits room .product) ks tree ↔ Fits room .sum ks tree := by
  refine joined_iff ?_ ?_ ?_ ks tree
  · rintro ks tree ⟨d, hd, h⟩
    exact ⟨d, hd, .product h⟩
  · rintro ls k rs op left right ⟨d, hd, hl⟩ hk ⟨e, he, hr⟩
    exact ⟨max d e, Nat.max_le.2 ⟨hd, he⟩, .add hl hk hr⟩
  · rintro ks tree ⟨d, hd, h⟩
    cases h with
    | product h => exact .inl ⟨d, hd, h⟩
    | add hl hk hr =>
      obtain ⟨hd, he⟩ := Nat.max_le.1 hd
      exact .inr ⟨_, _, _, _, _, _, rfl, rfl, ⟨_, hd, hl⟩, hk, ⟨_, he, hr⟩⟩

/-- Where a sum may end. -/
def EndsSum (rest : List Kind) : Prop := Stops multiplicative rest ∧ Stops additive rest

theorem exact_sumOf {room : Nat} (h : Exact (signed room) (Fits room .unary) fun _ => True) :
    Exact (sumOf (signed room)) (Fits room .sum) EndsSum := by
  have hproducts : Joined multiplicative (Fits room .unary) = Fits room .product :=
    funext fun ks => funext fun tree => propext (fits_product_iff room ks tree)
  have hsums : Joined additive (Fits room .product) = Fits room .sum :=
    funext fun ks => funext fun tree => propext (fits_sum_iff room ks tree)
  have hany : ∀ k (ks : List Kind), multiplicative k ≠ none → True := fun _ _ _ => trivial
  have hproduct := exact_joined h hany
  rw [hproducts] at hproduct
  -- an operator that joins products ends a product
  have hends : ∀ k ks, additive k ≠ none → True ∧ Stops multiplicative (k :: ks) := by
    intro k ks hk
    rw [stops_cons]
    unfold additive at hk
    split at hk
    · exact ⟨trivial, rfl⟩
    · exact ⟨trivial, rfl⟩
    · exact absurd rfl hk
  have hsum := exact_joined hproduct hends
  rw [hsums] at hsum
  simp only [true_and] at hsum
  exact hsum

/-- A round bracket that is closed ends a sum. -/
theorem endsSum_closing (rest : List Kind) : EndsSum (.closing .round :: rest) :=
  ⟨(stops_cons _ _ rest).2 rfl, (stops_cons _ _ rest).2 rfl⟩

theorem endsSum_nil : EndsSum [] := ⟨stops_nil _, stops_nil _⟩

theorem signed_number (room : Nat) (x : Float) (ks : List Kind) :
    signed room (.number x :: ks) = some (.number x, ks) := by
  cases room <;> rfl

theorem signed_bracket {room : Nat} {ks rest : List Kind} {tree : Tree}
    (h : sumOf (signed room) ks = some (tree, .closing .round :: rest)) :
    signed (room + 1) (.opening .round :: ks) = some (tree, rest) := by
  simp only [signed, h]

/-- What a signed number starts with. All but numbers need room. -/
theorem signed_cases {room : Nat} {ks rest : List Kind} {tree : Tree}
    (h : signed room ks = some (tree, rest)) :
    (∃ x, ks = .number x :: rest ∧ tree = .number x) ∨
      ∃ r us, room = r + 1 ∧
        ((ks = .operator .sub :: us ∧ ∃ inner, tree = .neg inner ∧
            signed r us = some (inner, rest)) ∨
          (ks = .operator .add :: us ∧ signed r us = some (tree, rest)) ∨
          (ks = .opening .round :: us ∧
            sumOf (signed r) us = some (tree, .closing .round :: rest))) := by
  cases room with
  | zero =>
    cases ks with
    | nil => cases h
    | cons k ks =>
      cases k with
      | number x =>
        obtain ⟨rfl, rfl⟩ := Prod.mk.inj (Option.some.inj h)
        exact .inl ⟨x, rfl, rfl⟩
      | _ => cases h
  | succ r =>
    simp only [signed] at h
    split at h
    · next us =>
      obtain ⟨⟨inner, rest⟩, hread, heq⟩ := Option.map_eq_some_iff.1 h
      obtain ⟨rfl, rfl⟩ := Prod.mk.inj heq
      exact .inr ⟨r, us, rfl, .inl ⟨rfl, inner, rfl, hread⟩⟩
    · next us => exact .inr ⟨r, us, rfl, .inr (.inl ⟨rfl, h⟩)⟩
    · next x us =>
      obtain ⟨rfl, rfl⟩ := Prod.mk.inj (Option.some.inj h)
      exact .inl ⟨x, rfl, rfl⟩
    · next us =>
      split at h
      · next hread =>
        obtain ⟨rfl, rfl⟩ := Prod.mk.inj (Option.some.inj h)
        exact .inr ⟨r, us, rfl, .inr (.inr ⟨rfl, hread⟩)⟩
      · cases h
    · cases h

/-- A sign or a bracket is read exactly if what it stands before is, with less room. -/
theorem exact_signed_of {room : Nat}
    (ih : ∀ r, room = r + 1 → Exact (signed r) (Fits r .unary) fun _ => True) :
    Exact (signed room) (Fits room .unary) fun _ => True := by
  intro ks tree rest
  constructor
  · intro h
    rcases signed_cases h with ⟨x, rfl, rfl⟩ | ⟨r, us, rfl, hread⟩
    · exact ⟨[.number x], rfl, ⟨0, Nat.zero_le room, .primary (.atom rfl)⟩, trivial⟩
    · rcases hread with ⟨rfl, inner, rfl, hread⟩ | ⟨rfl, hread⟩ | ⟨rfl, hread⟩
      · obtain ⟨used, rfl, ⟨d, hd, hused⟩, -⟩ := (ih r rfl _ _ _).1 hread
        exact ⟨_, rfl, ⟨d + 1, Nat.succ_le_succ hd, .minus rfl hused⟩, trivial⟩
      · obtain ⟨used, rfl, ⟨d, hd, hused⟩, -⟩ := (ih r rfl _ _ _).1 hread
        exact ⟨_, rfl, ⟨d + 1, Nat.succ_le_succ hd, .plus rfl hused⟩, trivial⟩
      · obtain ⟨used, rfl, ⟨d, hd, hused⟩, -⟩ := (exact_sumOf (ih r rfl) _ _ _).1 hread
        exact ⟨.opening .round :: (used ++ [.closing .round]), by simp,
          ⟨d + 1, Nat.succ_le_succ hd, .primary (.bracket rfl hused rfl)⟩, trivial⟩
  · rintro ⟨used, rfl, ⟨d, hd, h⟩, -⟩
    cases h with
    | @minus d t ts inner ht hts =>
      obtain ⟨r, rfl⟩ := Nat.exists_eq_add_one.2 (Nat.lt_of_lt_of_le (Nat.succ_pos d) hd)
      have hread := (ih r rfl _ _ rest).2 ⟨ts, rfl, ⟨d, Nat.le_of_succ_le_succ hd, hts⟩, trivial⟩
      obtain rfl : t = .operator .sub := ht
      rw [List.cons_append, signed, hread]
      rfl
    | @plus d t ts inner ht hts =>
      obtain ⟨r, rfl⟩ := Nat.exists_eq_add_one.2 (Nat.lt_of_lt_of_le (Nat.succ_pos d) hd)
      have hread := (ih r rfl _ _ rest).2 ⟨ts, rfl, ⟨d, Nat.le_of_succ_le_succ hd, hts⟩, trivial⟩
      obtain rfl : t = .operator .add := ht
      rw [List.cons_append, signed, hread]
    | primary h =>
      cases h with
      | @atom _ x hx =>
        rw [show used = [.number x] from hx]
        exact signed_number room x rest
      | @bracket d opener closer ts tree ho hts hc =>
        obtain ⟨r, rfl⟩ := Nat.exists_eq_add_one.2 (Nat.lt_of_lt_of_le (Nat.succ_pos d) hd)
        obtain rfl : opener = .opening .round := ho
        obtain rfl : closer = .closing .round := hc
        rw [List.cons_append, List.append_assoc]
        exact signed_bracket ((exact_sumOf (ih r rfl) _ _ _).2
          ⟨ts, rfl, ⟨d, Nat.le_of_succ_le_succ hd, hts⟩, endsSum_closing rest⟩)

theorem exact_signed (room : Nat) : Exact (signed room) (Fits room .unary) fun _ => True := by
  induction room with
  | zero => exact exact_signed_of nofun
  | succ room ih =>
    refine exact_signed_of fun r hr => ?_
    obtain rfl := Nat.succ.inj hr
    exact ih

theorem exact_sum (room : Nat) : Exact (sumOf (signed room)) (Fits room .sum) EndsSum :=
  exact_sumOf (exact_signed room)

end Arith

/-! ## Whole runs -/

theorem Tree.ofKinds?_iff_sumOf {ks : List Kind} {tree : Tree} :
    Tree.ofKinds? ks = some tree ↔ Arith.sumOf (Arith.signed deepest) ks = some (tree, []) := by
  unfold Tree.ofKinds?
  split
  · next heq => simp [heq]
  · next hne =>
    constructor
    · nofun
    · intro h
      exact absurd h (hne tree)

theorem fits_of_ofKinds? {ks : List Kind} {tree : Tree} (h : Tree.ofKinds? ks = some tree) :
    Arith.Fits deepest .sum ks tree := by
  obtain ⟨used, rfl, hused, -⟩ :=
    (Arith.exact_sum deepest _ _ _).1 (Tree.ofKinds?_iff_sumOf.1 h)
  rwa [List.append_nil]

theorem ofKinds?_of_fits {ks : List Kind} {tree : Tree} (h : Arith.Fits deepest .sum ks tree) :
    Tree.ofKinds? ks = some tree :=
  Tree.ofKinds?_iff_sumOf.2 ((Arith.exact_sum deepest _ _ _).2
    ⟨ks, (List.append_nil ks).symm, h, Arith.endsSum_nil⟩)

/-- The kinds that the grammar knows. -/
def Kind.IsArithmetic : Kind → Prop
  | .number _ | .operator _ | .opening .round | .closing .round => True
  | _ => False

theorem Arith.isArithmetic_of_derives {n : Arith.Nonterminal} {depth : Nat} {ks : List Kind}
    {tree : Tree} (h : Arith.Derives id Arith.IsNumber n depth ks tree) :
    ∀ k ∈ ks, k.IsArithmetic := by
  have hjoins {k : Kind} {op : Operator}
      (hk : Arith.additive k = some op ∨ Arith.multiplicative k = some op) : k.IsArithmetic := by
    cases k with
    | operator op => trivial
    | _ => rcases hk with hk | hk <;> cases hk
  induction h with
  | product _ ih | unary _ ih | primary _ ih => exact ih
  | add _ hk _ ihl ihr =>
    exact List.forall_mem_append.2 ⟨ihl, List.forall_mem_cons.2 ⟨hjoins (.inl hk), ihr⟩⟩
  | mul _ hk _ ihl ihr =>
    exact List.forall_mem_append.2 ⟨ihl, List.forall_mem_cons.2 ⟨hjoins (.inr hk), ihr⟩⟩
  | minus hk _ ih | plus hk _ ih =>
    rw [id] at hk
    exact List.forall_mem_cons.2 ⟨by rw [hk]; trivial, ih⟩
  | atom hatom =>
    obtain rfl : _ = _ := hatom
    exact List.forall_mem_singleton.2 trivial
  | bracket ho _ hc ih =>
    rw [id] at ho hc
    rw [List.forall_mem_cons, List.forall_mem_append, List.forall_mem_singleton]
    exact ⟨by rw [ho]; trivial, ih, by rw [hc]; trivial⟩

/-- What is arithmetic is of kinds that the grammar knows. -/
theorem isArithmetic_of_ofKinds? {ks : List Kind} {tree : Tree}
    (h : Tree.ofKinds? ks = some tree) : ∀ k ∈ ks, k.IsArithmetic := by
  obtain ⟨depth, -, hderives⟩ := fits_of_ofKinds? h
  exact Arith.isArithmetic_of_derives hderives

/-- A run of kinds is arithmetic exactly if the grammar derives it with no more signs
and brackets open at once than there is room for; its tree is that of the derivation. -/
theorem ofKinds?_eq_some_iff (ks : List Kind) (tree : Tree) :
    Tree.ofKinds? ks = some tree ↔
      ∃ depth ≤ deepest, Arith.Derives id Arith.IsNumber .sum depth ks tree :=
  ⟨fits_of_ofKinds?, ofKinds?_of_fits⟩

/-- What is arithmetic on both sides of an operator between products is arithmetic. -/
theorem exists_ofKinds?_append {ls rs : List Kind} {left right : Tree} {k : Kind} {op : Operator}
    (hl : Tree.ofKinds? ls = some left) (hk : Arith.additive k = some op)
    (hr : Tree.ofKinds? rs = some right) : ∃ tree, Tree.ofKinds? (ls ++ k :: rs) = some tree := by
  have hleft := (Arith.fits_sum_iff deepest ls left).2 (fits_of_ofKinds? hl)
  have hright := (Arith.fits_sum_iff deepest rs right).2 (fits_of_ofKinds? hr)
  obtain ⟨tree, htree⟩ := hleft.append hk hright
  exact ⟨tree, ofKinds?_of_fits ((Arith.fits_sum_iff deepest _ tree).1 htree)⟩

end SnippetConsole
