import Mathlib
import SnippetConsole.Proofs.Expr.Direct
import SnippetConsole.Proofs.Token.Brackets

/-!
# Numbers and the trees they are the values of

An expression that is worth a number is a sum by the grammar of arithmetic, whose atoms
are numbers and references to numbers, and the number is the value of its tree. Without
indices the converse holds: such an expression is worth its number.

* `Numeric` — runs of tokens by the grammar, and their numbers.
* `derives_of_stands` — a derivation over kinds is one over the tokens they stand for.
* `numeric_of_resolve` — numbers that are found are those of the grammar.
* `evaluate?_of_numeric` — numbers of the grammar are found, but for indices.
-/

namespace SnippetConsole

open Arith

/-! ## Numbers by the grammar -/

/-- The run is an atom that is worth the number: a number itself, or a reference to
one. What an index is worth, `P` says. -/
inductive AtomNumber (store : Store) (P : List Token → Float → Prop) :
    List Token → Float → Prop
  | literal {x : Float} {span : Text.Span} : AtomNumber store P [⟨.number x, span⟩] x
  | binding {name : String} {span : Text.Span} {x : Float} :
      store.get? name = some (.number x) → AtomNumber store P [⟨.word name, span⟩] x
  | member {object field : String} {s₁ s₂ s₃ : Text.Span} {x : Float} :
      (store.object? object).bind (·.field? field) = some (.number x) →
      AtomNumber store P [⟨.word object, s₁⟩, ⟨.dot, s₂⟩, ⟨.word field, s₃⟩] x
  | slot {array : String} {span : Text.Span} {inside run : List Token} {slots : Slots}
      {n x : Float} {i : Nat} :
      Enclosed .square inside run → P inside n → index? n = some i →
      store.array? array = some slots → slots.read? i = some (.number x) →
      AtomNumber store P (⟨.word array, span⟩ :: run) x

/-- The run is a sum whose atoms are numbers, and the number is the value of its tree.
Indices, which `P` collects, are numbers by the same rule. -/
inductive Numeric (store : Store) : List Token → Float → Prop
  | intro {P : List Token → Float → Prop} {ts : List Token} {depth : Nat} {tree : Tree} :
      (∀ inside n, P inside n → Numeric store inside n) →
      Derives Token.kind (AtomNumber store P) .sum depth ts tree → depth ≤ deepest →
      Numeric store ts tree.eval

/-! ## From kinds to tokens -/

/-- The kinds stand for the tokens: each for itself, but a number maybe for an atom. -/
inductive Stands (atom : List Token → Float → Prop) : List Token → List Kind → Prop
  | nil : Stands atom [] []
  | plain {t : Token} {ts : List Token} {ks : List Kind} :
      Stands atom ts ks → Stands atom (t :: ts) (t.kind :: ks)
  | atom {used ts : List Token} {ks : List Kind} {x : Float} :
      atom used x → Stands atom ts ks → Stands atom (used ++ ts) (.number x :: ks)

namespace Stands

variable {atom : List Token → Float → Prop} {ts : List Token} {ks ls : List Kind}

theorem split (h : Stands atom ts (ks ++ ls)) :
    ∃ us vs, ts = us ++ vs ∧ Stands atom us ks ∧ Stands atom vs ls := by
  induction ks generalizing ts with
  | nil => exact ⟨[], ts, rfl, .nil, h⟩
  | cons k ks ih =>
    cases h with
    | plain h =>
      obtain ⟨us, vs, rfl, hus, hvs⟩ := ih h
      exact ⟨_ :: us, vs, rfl, .plain hus, hvs⟩
    | atom hatom h =>
      obtain ⟨us, vs, rfl, hus, hvs⟩ := ih h
      exact ⟨_ ++ us, vs, (List.append_assoc _ us vs).symm, .atom hatom hus, hvs⟩

/-- A kind that is no number stands for a token of the kind. -/
theorem exists_cons {k : Kind} (h : Stands atom ts (k :: ks)) (hk : ∀ x, k ≠ .number x) :
    ∃ t us, ts = t :: us ∧ t.kind = k ∧ Stands atom us ks := by
  cases h with
  | plain h => exact ⟨_, _, rfl, rfl, h⟩
  | atom => exact absurd rfl (hk _)

theorem atom_of_number {x : Float} (hliteral : ∀ y span, atom [⟨.number y, span⟩] y)
    (h : Stands atom ts [.number x]) : atom ts x := by
  generalize hks : [Kind.number x] = ks at h
  cases h with
  | nil => cases hks
  | @plain t ts ks h =>
    obtain ⟨hkind, rfl⟩ := List.cons.inj hks
    cases h
    obtain ⟨kind, span⟩ := t
    obtain rfl : Kind.number x = kind := hkind
    exact hliteral x span
  | atom hatom h =>
    obtain ⟨hkind, rfl⟩ := List.cons.inj hks
    cases h
    obtain rfl := Kind.number.inj hkind
    rwa [List.append_nil]

end Stands

/-- A derivation over kinds is one over the tokens that the kinds stand for. -/
theorem derives_of_stands {atom : List Token → Float → Prop}
    (hliteral : ∀ x span, atom [⟨.number x, span⟩] x) {n : Nonterminal} {depth : Nat}
    {ks : List Kind} {tree : Tree} (h : Derives id IsNumber n depth ks tree) {ts : List Token}
    (hts : Stands atom ts ks) : Derives Token.kind atom n depth ts tree := by
  induction h generalizing ts with
  | product _ ih => exact .product (ih hts)
  | unary _ ih => exact .unary (ih hts)
  | primary _ ih => exact .primary (ih hts)
  | atom hx =>
    rw [show _ = _ from hx] at hts
    exact .atom (hts.atom_of_number hliteral)
  | add _ hk _ ihl ihr =>
    obtain ⟨us, vs, rfl, hus, hvs⟩ := hts.split
    obtain ⟨t, vs, rfl, rfl, hrs⟩ := hvs.exists_cons (by rintro x rfl; cases hk)
    exact .add (ihl hus) hk (ihr hrs)
  | mul _ hk _ ihl ihr =>
    obtain ⟨us, vs, rfl, hus, hvs⟩ := hts.split
    obtain ⟨t, vs, rfl, rfl, hrs⟩ := hvs.exists_cons (by rintro x rfl; cases hk)
    exact .mul (ihl hus) hk (ihr hrs)
  | minus hk _ ih =>
    obtain ⟨t, us, rfl, rfl, hus⟩ := hts.exists_cons (by rintro x rfl; cases hk)
    exact .minus hk (ih hus)
  | plus hk _ ih =>
    obtain ⟨t, us, rfl, rfl, hus⟩ := hts.exists_cons (by rintro x rfl; cases hk)
    exact .plus hk (ih hus)
  | bracket ho _ hc ih =>
    obtain ⟨opener, ws, rfl, rfl, hws⟩ := hts.exists_cons (by rintro x rfl; cases ho)
    obtain ⟨us, vs, rfl, hus, hvs⟩ := hws.split
    obtain ⟨closer, vs, rfl, rfl, hnil⟩ := hvs.exists_cons (by rintro x rfl; cases hc)
    cases hnil
    exact .bracket ho (ih hus) hc

/-! ## Numbers that are found -/

/-- The resolver comes to the number for the run, from some steps on. -/
def Reaches (index : Resolver) (ts : List Token) (x : Float) : Prop :=
  ∃ steps steps', (index ts).result steps = (some (.number x), steps')

section

variable {store : Store} {index : Resolver} {ts : List Token} {steps steps' : Nat}

/-- A reference to a number, read off the front of a run, is an atom. -/
theorem atomNumber_of_read? {r : Reference} {rest : List Token} {x : Float}
    (hread : Reference.read? ts = some (r, rest))
    (h : (r.value store index).result steps = (some (.number x), steps')) :
    ∃ used, ts = used ++ rest ∧ AtomNumber store (Reaches index) used x := by
  fun_cases Reference.read? ts with
  | case1 object s₁ s₂ field s₃ rest' =>
    obtain ⟨rfl, rfl⟩ := Prod.mk.inj (Option.some.inj hread)
    exact ⟨[⟨.word object, s₁⟩, ⟨.dot, s₂⟩, ⟨.word field, s₃⟩], rfl,
      .member (Attempt.result_ofOption_iff.1 h).1⟩
  | case2 => simp_all [Reference.read?]
  | case3 array s₁ s₂ ts =>
    simp only [Reference.read?, Option.map_eq_some_iff] at hread
    obtain ⟨⟨inside, after⟩, hclosed, he⟩ := hread
    obtain ⟨rfl, rfl⟩ := Prod.mk.inj he
    obtain ⟨run, hrun, henclosed⟩ := (bracketed?_eq_some_iff .square s₂).1 hclosed
    obtain ⟨slots, n₁, hslots, h⟩ := Attempt.result_bind_eq_some_iff.1 h
    obtain ⟨v, n₂, hv, h⟩ := Attempt.result_bind_eq_some_iff.1 h
    obtain ⟨i, hi, hx⟩ := Option.bind_eq_some_iff.1 (Attempt.result_ofOption_iff.1 h).1
    obtain ⟨n, rfl⟩ := Value.isNumber_of_index? hi
    exact ⟨⟨.word array, s₁⟩ :: run, by rw [hrun]; rfl,
      .slot henclosed ⟨n₁, n₂, hv⟩ hi (Attempt.result_ofOption_iff.1 hslots).1 hx⟩
  | case4 name span rest' hdot hsquare =>
    simp only [Reference.read?, Option.some.injEq, Prod.mk.injEq] at hread
    obtain ⟨rfl, rfl⟩ := hread
    exact ⟨[⟨.word name, span⟩], rfl, .binding (Attempt.result_ofOption_iff.1 h).1⟩
  | case5 => simp_all [Reference.read?]

theorem stands_of_mapM {kinds : List Kind}
    (h : ((operands ts).mapM (Operand.kindIn store index)).result steps = (some kinds, steps')) :
    Stands (AtomNumber store (Reaches index)) ts kinds := by
  fun_induction operands ts generalizing kinds steps with
  | case1 =>
    obtain ⟨rfl, -⟩ := Attempt.result_mapM_nil_iff.1 h
    exact .nil
  | case2 t ts hname ih =>
    obtain ⟨kind, between, later, hkind, hlater, rfl⟩ := Attempt.result_mapM_cons_iff.1 h
    obtain ⟨rfl, -⟩ := Attempt.result_pure_iff.1 hkind
    exact .plain (ih hlater)
  | case3 t ts name hname r rest hread ih =>
    obtain ⟨kind, between, later, hkind, hlater, rfl⟩ := Attempt.result_mapM_cons_iff.1 h
    obtain ⟨x, rfl, hx⟩ := Operand.kindIn_ref_eq_some_iff.1 hkind
    obtain ⟨used, hused, hatom⟩ := atomNumber_of_read? hread hx
    rw [hused]
    exact .atom hatom (ih hlater)
  | case4 t ts name hname hread => exact absurd List.mem_cons_self (broken_not_mem_of_mapM h)

theorem derives_atom {P : List Token → Float → Prop} {x : Float} (h : AtomNumber store P ts x) :
    Derives Token.kind (AtomNumber store P) .sum 0 ts (.number x) :=
  .product (.unary (.primary (.atom h)))

end

/-- A number that is found for a run is its number by the grammar. -/
theorem numeric_of_resolve {store : Store} {level room steps steps' : Nat} {ts : List Token}
    {x : Float} (h : (resolve store level room ts).result steps = (some (.number x), steps')) :
    Numeric store ts x := by
  induction room using Nat.strong_induction_on generalizing ts steps x steps' with
  | h room ih =>
    have hbelow : ∀ less, less < room → ∀ inside n, Reaches (resolve store level less) inside n →
        Numeric store inside n := by
      rintro less hless inside n ⟨m, m', hn⟩
      exact ih less hless hn
    have hpos : 0 < room := by
      rw [Nat.pos_iff_ne_zero]
      rintro rfl
      exact resolve_zero_ne h
    obtain ⟨-, hdirect | hdirect⟩ := (numbers_of_resolve store level room).1 ts steps x steps' h
    · obtain ⟨r, hr, hvalue⟩ := referenceValue_eq_some_iff.1 hdirect
      obtain ⟨used, hused, hatom⟩ := atomNumber_of_read? (Reference.read?_of_ofRun? hr) hvalue
      rw [List.append_nil] at hused
      rw [hused]
      exact .intro (hbelow _ (by omega)) (derives_atom hatom) (Nat.zero_le deepest)
    · obtain ⟨-, kinds, tree, hkinds, htree, hx⟩ := arithmeticValue_eq_some_iff.1 hdirect
      obtain rfl := Value.number.inj hx
      obtain ⟨depth, hdepth, hderives⟩ := fits_of_ofKinds? htree
      exact .intro (hbelow _ (by omega))
        (derives_of_stands (fun _ _ => .literal) hderives (stands_of_mapM hkinds)) hdepth

/-! ## Numbers without indices -/

/-- The tokens are read as operands that are the kinds, whatever the store costs to look
at, and so they are in front of any run that goes on with no name. -/
def Substituted (store : Store) (far : Resolver) (ts : List Token) (ks : List Kind) : Prop :=
  ∃ os, (∀ rest, Quiet rest → operands (ts ++ rest) = os ++ operands rest) ∧
    ∀ steps, (os.mapM (Operand.kindIn store far)).result steps = (some ks, steps)

/-- The kind is no name and does not go on with one. -/
structure Kind.Separates (kind : Kind) : Prop where
  name? : kind.name? = none
  dot : kind ≠ .dot
  square : kind ≠ .opening .square

theorem separates_closing : (Kind.closing .round).Separates := ⟨rfl, nofun, nofun⟩

theorem separates_of_joins {kind : Kind} {op : Operator}
    (h : additive kind = some op ∨ multiplicative kind = some op) : kind.Separates := by
  cases kind with
  | operator op => exact ⟨rfl, nofun, nofun⟩
  | _ => rcases h with h | h <;> cases h

section

variable {store : Store} {far : Resolver} {ts us : List Token} {ks ls : List Kind}

namespace Substituted

theorem operands_eq (h : Substituted store far ts ks) (steps : Nat) :
    ((operands ts).mapM (Operand.kindIn store far)).result steps = (some ks, steps) := by
  obtain ⟨os, hoperands, hkinds⟩ := h
  have := hoperands [] quiet_nil
  rw [List.append_nil, operands_nil, List.append_nil] at this
  rw [this]
  exact hkinds steps

theorem nil : Substituted store far [] [] := ⟨[], fun _ _ => rfl, fun _ => rfl⟩

theorem cons {t : Token} (ht : t.kind.name? = none) (h : Substituted store far ts ks) :
    Substituted store far (t :: ts) (t.kind :: ks) := by
  obtain ⟨os, hoperands, hkinds⟩ := h
  refine ⟨.plain t.kind :: os, fun rest hrest => ?_, fun steps => ?_⟩
  · rw [List.cons_append, operands_plain ht, hoperands rest hrest]
    rfl
  · exact Attempt.result_mapM_cons_iff.2 ⟨t.kind, steps, ks, rfl, hkinds steps, rfl⟩

theorem append {t : Token} (hts : Substituted store far ts ks) (ht : t.kind.Separates)
    (h : Substituted store far us ls) :
    Substituted store far (ts ++ t :: us) (ks ++ t.kind :: ls) := by
  obtain ⟨os, hoperands, hkinds⟩ := hts
  obtain ⟨os', hoperands', hkinds'⟩ := h.cons ht.name?
  refine ⟨os ++ os', fun rest hrest => ?_, fun steps => ?_⟩
  · have hquiet : Quiet (t :: us ++ rest) := quiet_cons ht.dot ht.square (us ++ rest)
    rw [List.append_assoc, hoperands _ hquiet, hoperands' rest hrest, List.append_assoc]
  · exact Attempt.result_mapM_append_iff.2 ⟨ks, steps, _, hkinds steps, hkinds' steps, rfl⟩

theorem reference {t : Token} {name : String} {r : Reference} {x : Float}
    (ht : t.kind.name? = some name)
    (hread : ∀ rest, Quiet rest → Reference.read? (t :: (ts ++ rest)) = some (r, rest))
    (hvalue : ∀ steps, (r.value store far).result steps = (some (.number x), steps)) :
    Substituted store far (t :: ts) [.number x] := by
  refine ⟨[.ref r], fun rest hrest => ?_, fun steps => ?_⟩
  · rw [List.cons_append, operands_ref ht (hread rest hrest)]
    rfl
  · exact Attempt.result_mapM_cons_iff.2
      ⟨_, steps, [], Operand.kindIn_ref_eq_some_iff.2 ⟨x, rfl, hvalue steps⟩, rfl, rfl⟩

end Substituted

theorem substituted_of_atomNumber {P : List Token → Float → Prop} {x : Float}
    (h : AtomNumber store P ts x) (hts : ∀ t ∈ ts, t.kind ≠ .opening .square) :
    Substituted store far ts [.number x] := by
  cases h with
  | literal => exact .cons rfl .nil
  | binding hx =>
    refine .reference rfl (fun rest hrest => Reference.read?_binding hrest) fun steps => ?_
    rw [Reference.value, Attempt.result_ofOption, hx]
  | @member object field s₁ s₂ s₃ x hx =>
    refine .reference (r := .member object field) rfl (fun rest _ => rfl) fun steps => ?_
    rw [Reference.value, Attempt.result_ofOption, hx]
  | slot henclosed =>
    obtain ⟨opener, closer, rfl, hopener, -⟩ := henclosed
    exact absurd hopener (hts opener (by simp))

/-- Without indices, a derivation over tokens is one over the kinds they are read as. -/
theorem substituted_of_derives {P : List Token → Float → Prop} {n : Nonterminal} {depth : Nat}
    {tree : Tree} (h : Derives Token.kind (AtomNumber store P) n depth ts tree)
    (hts : ∀ t ∈ ts, t.kind ≠ .opening .square) :
    ∃ ks, Substituted store far ts ks ∧ Derives id IsNumber n depth ks tree := by
  induction h with
  | product _ ih =>
    obtain ⟨ks, hks, h⟩ := ih hts
    exact ⟨ks, hks, .product h⟩
  | unary _ ih =>
    obtain ⟨ks, hks, h⟩ := ih hts
    exact ⟨ks, hks, .unary h⟩
  | primary _ ih =>
    obtain ⟨ks, hks, h⟩ := ih hts
    exact ⟨ks, hks, .primary h⟩
  | atom hatom => exact ⟨_, substituted_of_atomNumber hatom hts, .atom rfl⟩
  | add _ hk _ ihl ihr =>
    rw [List.forall_mem_append, List.forall_mem_cons] at hts
    obtain ⟨ks, hks, hl⟩ := ihl hts.1
    obtain ⟨ls, hls, hr⟩ := ihr hts.2.2
    exact ⟨_, hks.append (separates_of_joins (.inl hk)) hls, .add hl hk hr⟩
  | mul _ hk _ ihl ihr =>
    rw [List.forall_mem_append, List.forall_mem_cons] at hts
    obtain ⟨ks, hks, hl⟩ := ihl hts.1
    obtain ⟨ls, hls, hr⟩ := ihr hts.2.2
    exact ⟨_, hks.append (separates_of_joins (.inr hk)) hls, .mul hl hk hr⟩
  | minus hk _ ih =>
    obtain ⟨ks, hks, h⟩ := ih (List.forall_mem_cons.1 hts).2
    exact ⟨_, hks.cons (by rw [hk]; rfl), .minus hk h⟩
  | plus hk _ ih =>
    obtain ⟨ks, hks, h⟩ := ih (List.forall_mem_cons.1 hts).2
    exact ⟨_, hks.cons (by rw [hk]; rfl), .plus hk h⟩
  | bracket ho _ hc ih =>
    rw [List.forall_mem_cons, List.forall_mem_append] at hts
    obtain ⟨ks, hks, h⟩ := ih hts.2.1
    exact ⟨_, (hks.append (hc ▸ separates_closing) .nil).cons (by rw [ho]; rfl), .bracket ho h hc⟩

/-- A run whose number the grammar derives without indices is worth it at any step. -/
theorem undivided_of_derives {near : Resolver} {P : List Token → Float → Prop} {depth : Nat}
    {tree : Tree} (h : Derives Token.kind (AtomNumber store P) .sum depth ts tree)
    (hdepth : depth ≤ deepest) (hts : ∀ t ∈ ts, t.kind ≠ .opening .square) (steps : Nat) :
    Undivided store near far ts steps tree.eval steps := by
  cases hr : Reference.ofRun? ts with
  | none =>
    obtain ⟨ks, hks, hderives⟩ := substituted_of_derives h hts
    exact .inr (arithmeticValue_eq_some_iff.2 ⟨hr, ks, tree, hks.operands_eq steps,
      ofKinds?_of_fits ⟨depth, hdepth, hderives⟩, rfl⟩)
  | some r =>
    obtain ⟨ks, hks, hderives⟩ := @substituted_of_derives store near ts P _ _ _ h hts
    have hkinds := hks.operands_eq steps
    rw [operands_of_ofRun? hr] at hkinds
    obtain ⟨kind, between, later, hkind, hlater, rfl⟩ := Attempt.result_mapM_cons_iff.1 hkinds
    obtain ⟨rfl, rfl⟩ := Attempt.result_mapM_nil_iff.1 hlater
    obtain ⟨x, rfl, hx⟩ := Operand.kindIn_ref_eq_some_iff.1 hkind
    -- one number has one tree
    have htree : Tree.ofKinds? [.number x] = some tree := ofKinds?_of_fits ⟨depth, hdepth, hderives⟩
    obtain rfl : Tree.number x = tree := Option.some.inj htree
    exact .inl (referenceValue_eq_some_iff.2 ⟨r, hr, hx⟩)

end

/-! ## Whole texts -/

theorem evaluate?_of_numeric {store : Store} {text : String} {ts : List Token} {x : Float}
    (hlex : lex text = .ok ts) (hts : ∀ t ∈ ts, t.kind ≠ .opening .square)
    (h : Numeric store ts x) : evaluate? store text = some (.number x) := by
  obtain ⟨-, hderives, hdepth⟩ := h
  have hundivided (near far : Resolver) := @undivided_of_derives store far ts near _ _ _ hderives
    hdepth hts 1
  have hresult (near far : Resolver) := result_rules_of_direct (fillAt store text.length)
    (show Direct store near far ts 0 _ 1 from ⟨by decide, hundivided near far⟩)
  rw [evaluate?, attempt, hlex]
  simp only
  rw [resolve_succ, hresult]

theorem exists_numeric_of_evaluate? {store : Store} {text : String} {x : Float}
    (h : evaluate? store text = some (.number x)) : ∃ ts, lex text = .ok ts ∧ Numeric store ts x := by
  unfold evaluate? attempt at h
  cases hlex : lex text with
  | error e =>
    rw [hlex] at h
    cases h
  | ok ts =>
    rw [hlex] at h
    exact ⟨ts, rfl, numeric_of_resolve (Prod.ext h rfl)⟩

/-- Numbers are the values of sums: whatever is worth a number is a sum of atoms that are
numbers, and is worth its value; without indices, such a sum is worth its value; and
where arithmetic has failed, joining makes no number. -/
theorem numbers_are_sums (store : Store) :
    (∀ text x, evaluate? store text = some (.number x) →
        ∃ ts, lex text = .ok ts ∧ Numeric store ts x) ∧
      (∀ text ts x, lex text = .ok ts → (∀ t ∈ ts, t.kind ≠ .opening .square) →
        Numeric store ts x → evaluate? store text = some (.number x)) ∧
      ∀ level room ts steps failed,
        (arithmeticValue store (resolve store level (room - 1)) ts).result steps = (none, failed) →
        ∀ x steps', (joinedValue (resolve store level room) ts).result failed ≠
          (some (.number x), steps') := by
  refine ⟨fun _ _ => exists_numeric_of_evaluate?, fun _ _ _ => evaluate?_of_numeric, ?_⟩
  intro level room ts steps failed hfailed x steps'
  have hnear := (numbers_of_resolve store level (room - 1)).2 (room - 1) (Nat.le_refl _)
  have hfar := (numbers_of_resolve store level (room - 2)).2 (room - 1) (by omega)
  exact joined_ne_number (numbers_of_resolve store level room).1 hnear hfar
    (grows_resolve store level (room - 1)) hfailed x

/-- A number at an index, a product of names, and a text with a number behind it. -/
theorem numbers_are_sums_index :
    let store := ((({} : Store).define "x" (.number 1)).define "s" (.text "a")).putArray "n"
      (.ofValues [.text "b", .number 5])
    let text : List Token := [⟨.word "s", ⟨0, 1⟩⟩, ⟨.operator .add, ⟨2, 3⟩⟩, ⟨.word "x", ⟨4, 5⟩⟩]
    (∃ ts, lex "n[x] - x" = .ok ts ∧ Numeric store ts 4) ∧
      evaluate? store "-x * x" = some (.number (-1 * 1)) ∧
        ((joinedValue (resolve store 0 1) text).result 0).1 ≠ some (.number 1) := by
  intro store text
  obtain ⟨hsound, hcomplete, hjoined⟩ := numbers_are_sums store
  refine ⟨hsound _ _ (by decide +kernel), ?_, ?_⟩
  · let product : List Token := [⟨.operator .sub, ⟨0, 1⟩⟩, ⟨.word "x", ⟨1, 2⟩⟩,
      ⟨.operator .mul, ⟨3, 4⟩⟩, ⟨.word "x", ⟨5, 6⟩⟩]
    have hlex : lex "-x * x" = .ok product := by cbv
    have hx (span : Text.Span) : AtomNumber store (fun _ _ => False) [⟨.word "x", span⟩] 1 :=
      .binding (by decide +kernel)
    have hminus : Derives Token.kind (AtomNumber store fun _ _ => False) .product 1
        (product.take 2) (.neg (.number 1)) :=
      .unary (.minus rfl (.primary (.atom (hx _))))
    have hproduct : Derives Token.kind (AtomNumber store fun _ _ => False) .sum 1 product
        (.binary .mul (.neg (.number 1)) (.number 1)) :=
      .product (.mul hminus rfl (.primary (.atom (hx _))))
    exact hcomplete _ _ _ hlex (by decide) (.intro (fun _ _ h => h.elim) hproduct (by decide))
  · have hfailed : (arithmeticValue store (resolve store 0 0) text).result 0 = (none, 0) := by
      decide +kernel
    intro h
    exact hjoined 0 1 text 0 0 hfailed 1 _ (Prod.ext h rfl)

end SnippetConsole
