import SnippetConsole.Proofs.Arith.Grammar

/-!
# A number in place of brackets

Where a number takes the place of brackets that are worth it, a run is read like the
longer one: the readers come to the same end, with a tree of the same value. They need
no more room, as a number takes none.

* `Abridged` — a run with the number in place of some of the brackets.
* `abridges_joined`, `abridges_signed` — what the readers make of it.
* `exists_ofKinds?_of_abridged` — whole runs.
-/

namespace SnippetConsole

namespace Arith

/-- The second run is the first with the number in place of some of the brackets around
`inside`. -/
inductive Abridged (inside : List Kind) (v : Float) : List Kind → List Kind → Prop
  | nil : Abridged inside v [] []
  | keep {k : Kind} {ks ls : List Kind} :
      Abridged inside v ks ls → Abridged inside v (k :: ks) (k :: ls)
  | bracket {ks ls : List Kind} : Abridged inside v ks ls →
      Abridged inside v (.opening .round :: (inside ++ .closing .round :: ks)) (.number v :: ls)

/-- What the reader makes of a run, it makes of the abridged run, but for the tree, which
has the same value. -/
def Abridges (inside : List Kind) (v : Float) (reader : Reader) : Prop :=
  ∀ ks ls tree rest, Abridged inside v ks ls → reader ks = some (tree, rest) →
    ∃ tree' rest', reader ls = some (tree', rest') ∧ Abridged inside v rest rest' ∧
      tree'.eval = tree.eval

variable {inside : List Kind} {v : Float} {ks ls : List Kind}

/-- All kinds but an opening bracket are kept. -/
theorem Abridged.exists_keep {k : Kind} (h : Abridged inside v (k :: ks) ls)
    (hk : k ≠ .opening .round) : ∃ rest, ls = k :: rest ∧ Abridged inside v ks rest := by
  cases h with
  | keep h => exact ⟨_, rfl, h⟩
  | bracket => exact absurd rfl hk

/-! ## Joined operands -/

section

variable {joins : Kind → Option Operator} {operand : Reader} {P : List Kind → Tree → Prop}
  {stop : List Kind → Prop}

theorem Abridged.stops (h : Abridged inside v ks ls) (hnumber : joins (.number v) = none)
    (hks : Stops joins ks) : Stops joins ls := by
  cases h with
  | nil => exact stops_nil joins
  | keep => exact (stops_cons joins _ _).2 ((stops_cons joins _ _).1 hks)
  | bracket => exact (stops_cons joins _ _).2 hnumber

theorem abridges_joinMore (hexact : Exact operand P stop) (h : Abridges inside v operand)
    (hnumber : joins (.number v) = none) (hopening : joins (.opening .round) = none)
    {rounds rounds' : Nat} {rest : List Kind} {left left' tree : Tree}
    (hks : Abridged inside v ks ls) (hrounds : ks.length ≤ rounds) (hrounds' : ls.length ≤ rounds')
    (hleft : left'.eval = left.eval)
    (hread : joinMore joins operand rounds left ks = some (tree, rest)) :
    ∃ tree' rest', joinMore joins operand rounds' left' ls = some (tree', rest') ∧
      Abridged inside v rest rest' ∧ tree'.eval = tree.eval := by
  -- one round for each operator that follows
  induction rounds generalizing rounds' ks ls left left' with
  | zero =>
    obtain rfl := List.length_eq_zero_iff.1 (Nat.le_zero.1 hrounds)
    cases hks
    obtain ⟨rfl, rfl⟩ := Prod.mk.inj (Option.some.inj hread)
    exact ⟨left', [], joinMore_of_stops (stops_nil joins) _ _, .nil, hleft⟩
  | succ rounds ih =>
    by_cases hstops : Stops joins ks
    · rw [joinMore_of_stops hstops] at hread
      obtain ⟨rfl, rfl⟩ := Prod.mk.inj (Option.some.inj hread)
      exact ⟨left', ls, joinMore_of_stops (hks.stops hnumber hstops) _ _, hks, hleft⟩
    · cases hks with
      | nil => exact absurd (stops_nil joins) hstops
      | bracket => exact absurd ((stops_cons joins _ _).2 hopening) hstops
      | @keep k ks ls hks =>
        rw [stops_cons] at hstops
        obtain ⟨op, hop⟩ := Option.ne_none_iff_exists'.1 hstops
        rw [List.length_cons] at hrounds hrounds'
        obtain ⟨rounds', rfl⟩ :=
          Nat.exists_eq_add_one.2 (Nat.lt_of_lt_of_le (Nat.succ_pos _) hrounds')
        rw [joinMore_of_joins hop] at hread ⊢
        obtain ⟨⟨right, middle⟩, hright, hloop⟩ := Option.bind_eq_some_iff.1 hread
        obtain ⟨right', middle', hright', hmiddle, heval⟩ := h _ _ _ _ hks hright
        have hlength := hexact.length_le hright
        have hlength' := hexact.length_le hright'
        have hbinary : (Tree.binary op left' right').eval = (Tree.binary op left right).eval := by
          rw [Tree.eval, Tree.eval, hleft, heval]
        rw [hright', Option.bind_some]
        exact ih hmiddle (show middle.length ≤ rounds by omega)
          (show middle'.length ≤ rounds' by omega) hbinary hloop

theorem abridges_joined (hexact : Exact operand P stop) (h : Abridges inside v operand)
    (hnumber : joins (.number v) = none) (hopening : joins (.opening .round) = none) :
    Abridges inside v (joined joins operand) := by
  intro ks ls tree rest hks hread
  obtain ⟨⟨left, middle⟩, hleft, hloop⟩ := Option.bind_eq_some_iff.1 hread
  obtain ⟨left', middle', hleft', hmiddle, heval⟩ := h _ _ _ _ hks hleft
  obtain ⟨tree', rest', hloop', hrest, htree⟩ := abridges_joinMore hexact h hnumber hopening
    hmiddle (Nat.le_refl _) (Nat.le_refl _) heval hloop
  exact ⟨tree', rest', Option.bind_eq_some_iff.2 ⟨_, hleft', hloop'⟩, hrest, htree⟩

end

/-! ## The readers of the grammar -/

theorem abridges_sumOf {room : Nat} (h : Abridges inside v (signed room)) :
    Abridges inside v (sumOf (signed room)) :=
  abridges_joined (exact_joined (exact_signed room) fun _ _ _ => trivial)
    (abridges_joined (exact_signed room) h rfl rfl) rfl rfl

/-- With any room, what is read up to a closing bracket is what the brackets hold. -/
theorem sumOf_signed_inside {room : Nat} {tree tree' : Tree} {ks rest : List Kind}
    (hinside : Tree.ofKinds? inside = some tree)
    (h : sumOf (signed room) (inside ++ .closing .round :: ks) = some (tree', rest)) :
    tree' = tree ∧ rest = .closing .round :: ks := by
  obtain ⟨used, hused, ⟨depth, hdepth, hderives⟩, hends⟩ := (exact_sum room _ _ _).1 h
  obtain ⟨depth', hdepth', hderives'⟩ := fits_of_ofKinds? hinside
  -- one reader with room for both reads both
  have hread := (exact_sum (max room deepest) _ _ _).2
    ⟨used, hused, ⟨depth, Nat.le_trans hdepth (Nat.le_max_left _ _), hderives⟩, hends⟩
  have hread' := (exact_sum (max room deepest) _ _ _).2 ⟨inside, rfl,
    ⟨depth', Nat.le_trans hdepth' (Nat.le_max_right _ _), hderives'⟩, endsSum_closing ks⟩
  rw [hread'] at hread
  obtain ⟨rfl, rfl⟩ := Prod.mk.inj (Option.some.inj hread)
  exact ⟨rfl, rfl⟩

theorem abridges_signed {inner : Tree} (hinside : Tree.ofKinds? inside = some inner)
    (room : Nat) : Abridges inside inner.eval (signed room) := by
  induction room with
  | zero =>
    intro ks ls tree rest hks h
    rcases signed_cases h with ⟨x, rfl, rfl⟩ | ⟨r, us, hr, -⟩
    · obtain ⟨rest', rfl, hrest⟩ := hks.exists_keep (by simp)
      exact ⟨_, rest', rfl, hrest, rfl⟩
    · cases hr
  | succ room ih =>
    intro ks ls tree rest hks h
    rcases signed_cases h with ⟨x, rfl, rfl⟩ | ⟨r, us, hr, hcases⟩
    · obtain ⟨rest', rfl, hrest⟩ := hks.exists_keep (by simp)
      exact ⟨_, rest', rfl, hrest, rfl⟩
    obtain rfl := Nat.succ.inj hr
    rcases hcases with ⟨rfl, tree, rfl, hread⟩ | ⟨rfl, hread⟩ | ⟨rfl, hread⟩
    · obtain ⟨vs, rfl, hus⟩ := hks.exists_keep (by simp)
      obtain ⟨tree', rest', hread', hrest, heval⟩ := ih _ _ _ _ hus hread
      refine ⟨.neg tree', rest', by rw [signed, hread']; rfl, hrest, ?_⟩
      rw [Tree.eval, Tree.eval, heval]
    · obtain ⟨vs, rfl, hus⟩ := hks.exists_keep (by simp)
      exact ih _ _ _ _ hus hread
    · cases hks with
      | keep hus =>
        obtain ⟨tree', _, hread', hclosing, heval⟩ := abridges_sumOf ih _ _ _ _ hus hread
        obtain ⟨rest', rfl, hrest⟩ := hclosing.exists_keep (by simp)
        exact ⟨tree', rest', signed_bracket hread', hrest, heval⟩
      | bracket hus =>
        obtain ⟨rfl, hrest⟩ := sumOf_signed_inside hinside hread
        obtain rfl := (List.cons.inj hrest).2
        exact ⟨.number tree.eval, _, signed_number _ _ _, hus, rfl⟩

end Arith

/-- A run of kinds that is arithmetic is so with a number in place of brackets that are
worth it, and has the same value. -/
theorem exists_ofKinds?_of_abridged {inside ks ls : List Kind} {inner tree : Tree}
    (hinside : Tree.ofKinds? inside = some inner)
    (h : Arith.Abridged inside inner.eval ks ls) (htree : Tree.ofKinds? ks = some tree) :
    ∃ tree', Tree.ofKinds? ls = some tree' ∧ tree'.eval = tree.eval := by
  obtain ⟨tree', rest', hread, hrest, heval⟩ :=
    Arith.abridges_sumOf (Arith.abridges_signed hinside deepest) _ _ _ _ h
      (Tree.ofKinds?_iff_sumOf.1 htree)
  cases hrest
  exact ⟨tree', Tree.ofKinds?_iff_sumOf.2 hread, heval⟩

end SnippetConsole
