import SnippetConsole.Proofs.Arith.Abridging
import SnippetConsole.Proofs.Expr.Joining
import SnippetConsole.Proofs.Expr.Unfolding

/-!
# A number with a name

A run in brackets that is a number may be given a name: where the name is bound to the
number, arithmetic comes to what it did with the brackets, in no more steps. The operands
are those of before but for the brackets, for which the number stands, and the indices of
references, which are runs of their own.

* `Intermediate` — the run that gets the name, and what it is read as.
* `Reference.carriesOver_unfolded` — references whose indices carry over.
* `exists_kinds_of_unfolded` — the kinds of the operands.
* `exists_undivided_of_unfolded` — arithmetic.
-/

namespace SnippetConsole

open Arith

/-- The run is arithmetic: its operands, looked up from the first step on, are the kinds,
and these have the tree. -/
structure Intermediate (store : Store) (top : Resolver) (inside : List Token)
    (kinds : List Kind) (tree : Tree) : Prop where
  balanced : balanced inside = true
  lookup : ∃ steps', ((operands inside).mapM (Operand.kindIn store top)).result 1 =
    (some kinds, steps')
  reads : Tree.ofKinds? kinds = some tree

/-- No token is an interpolated string. -/
def Uninterpolated (ts : List Token) : Prop :=
  ∀ t ∈ ts, ∀ raw, t.kind ≠ .quoted .interpolated raw

theorem Uninterpolated.isInfix {ts us : List Token} (h : Uninterpolated ts) (hus : us <:+: ts) :
    Uninterpolated us :=
  fun t ht => h t (hus.subset ht)

variable {store : Store} {near near' far far' top : Resolver} {name : String}
  {inside ts : List Token} {kinds ks : List Kind} {tree : Tree} {steps steps' fewer : Nat}

/-! ## References -/

theorem Reference.carriesOver_unfolded {r : Reference} (hr : r ≠ .binding name) (v : Value)
    (h : (near (SnippetConsole.unfolded name inside r.index)).CarriesOver (fun _ => True)
      (near' r.index)) :
    ((r.unfolded name inside).value store near).CarriesOver (fun _ => True)
      (r.value (store.define name v) near') := by
  cases r with
  | binding other =>
    have hne : ¬name = other := fun heq => hr (by rw [heq])
    rw [unfolded, value, value, Store.get?_define, if_neg hne]
    exact Attempt.carriesOver_ofOption _ _
  | member object field => exact Attempt.carriesOver_ofOption _ _
  | slot array index =>
    refine (Attempt.carriesOver_ofOption (fun _ => True) (store.array? array)).bind
      (fun slots => ?_) fun _ _ _ _ _ => trivial
    exact h.bind (fun i => Attempt.carriesOver_ofOption _ _) fun _ _ _ _ _ => trivial

/-- Where another name stands, it starts a reference, which is looked up with the name
unfolded in its index. -/
theorem exists_of_unfolded_reference (hinside : balanced inside = true) {t : Token}
    {other : String} (ht : t.kind.name? = some other) (hword : t.kind ≠ .word name)
    (h : ((operands (unfolded name inside (t :: ts))).mapM (Operand.kindIn store far)).result
      steps = (some ks, steps')) :
    ∃ r rest, Reference.read? (t :: ts) = some (r, rest) ∧ r ≠ .binding name ∧
      ∃ x between later, ks = .number x :: later ∧
        ((r.unfolded name inside).value store far).result steps = (some (.number x), between) ∧
        ((operands (unfolded name inside rest)).mapM (Operand.kindIn store far)).result between =
          (some later, steps') := by
  rw [unfolded_cons hword] at h
  cases hread : Reference.read? (t :: unfolded name inside ts) with
  | none =>
    rw [operands_broken ht hread] at h
    cases h
  | some found =>
    rw [operands_ref ht hread] at h
    rw [← unfolded_cons hword] at hread
    obtain ⟨r, rest, hread', hr, hrest, hne⟩ := Reference.exists_of_read?_unfolded hinside hread
    obtain ⟨kind, between, later, hkind, hlater, rfl⟩ := Attempt.result_mapM_cons_iff.1 h
    obtain ⟨x, rfl, hx⟩ := Operand.kindIn_ref_eq_some_iff.1 hkind
    rw [hr] at hx
    rw [hrest] at hlater
    exact ⟨r, rest, hread', hne, x, between, later, rfl, hx, hlater⟩

/-! ## The name -/

/-- Behind a name, arithmetic goes on with neither a dot nor a square bracket. -/
theorem quiet_of_isArithmetic
    (h : ((operands ts).mapM (Operand.kindIn store far)).result steps = (some ks, steps'))
    (hks : ∀ k ∈ ks, k.IsArithmetic) : Quiet ts := by
  cases ts with
  | nil => exact quiet_nil
  | cons t ts =>
    have hplain : t.kind.name? = none → t.kind.IsArithmetic := by
      intro ht
      rw [operands_plain ht] at h
      obtain ⟨kind, between, later, hkind, -, rfl⟩ := Attempt.result_mapM_cons_iff.1 h
      obtain ⟨rfl, -⟩ := Attempt.result_pure_iff.1 hkind
      exact hks _ List.mem_cons_self
    refine quiet_cons ?_ ?_ ts
    · intro hdot
      rw [hdot] at hplain
      exact hplain rfl
    · intro hsquare
      rw [hsquare] at hplain
      exact hplain rfl

theorem operands_unfolded_name {t : Token} (ht : t.kind = .word name)
    (hinside : .broken ∉ operands inside) :
    operands (unfolded name inside (t :: ts)) = .plain (.opening .round) ::
      (operands inside ++ .plain (.closing .round) :: operands (unfolded name inside ts)) := by
  rw [unfolded_name ht, inBrackets, List.cons_append, List.append_assoc, List.singleton_append,
    operands_plain rfl, operands_append hinside (quiet_cons (by simp) (by simp) _),
    operands_plain rfl]

section

variable (hinside : Intermediate store top inside kinds tree) (htop : NoWorse far top)
  (hgrows : ∀ us, (far us).Grows)

include hinside htop hgrows

/-- Where the name stands, the operands in the brackets are looked up as ever, and then
those of what follows, which does not go on with the name. -/
theorem exists_of_unfolded_name {t : Token} (ht : t.kind = .word name) (hsteps : 1 ≤ steps)
    (h : ((operands (unfolded name inside (t :: ts))).mapM (Operand.kindIn store far)).result
      steps = (some ks, steps'))
    (hks : ∀ k ∈ ks, k.IsArithmetic) :
    Quiet ts ∧ ∃ later between, ks = .opening .round :: (kinds ++ .closing .round :: later) ∧
      steps ≤ between ∧ ((operands (unfolded name inside ts)).mapM
        (Operand.kindIn store far)).result between = (some later, steps') := by
  obtain ⟨-, ⟨n, hlookup⟩, -⟩ := hinside
  rw [operands_unfolded_name ht (broken_not_mem_of_mapM hlookup)] at h
  obtain ⟨opening, _, _, hopening, hinner, rfl⟩ := Attempt.result_mapM_cons_iff.1 h
  obtain ⟨rfl, rfl⟩ := Attempt.result_pure_iff.1 hopening
  obtain ⟨used, between, _, hused, hbehind, rfl⟩ := Attempt.result_mapM_append_iff.1 hinner
  obtain ⟨closing, _, later, hclosing, hlater, rfl⟩ := Attempt.result_mapM_cons_iff.1 hbehind
  obtain ⟨rfl, rfl⟩ := Attempt.result_pure_iff.1 hclosing
  have hquiet := quiet_of_isArithmetic hlater fun k hk => hks k (by simp [hk])
  -- with as much room and from fewer steps they are the same kinds
  obtain ⟨_, -, hused'⟩ := Attempt.carriesOver_mapM
    (fun operand _ => operand.carriesOver_kindIn htop) _ _ _ hused trivial 1 hsteps
  obtain ⟨hkinds, -⟩ := Prod.mk.inj (hused'.symm.trans hlookup)
  obtain rfl := Option.some.inj hkinds
  have hbetween := (Attempt.grows_mapM (Operand.grows_kindIn hgrows) _).le hused
  exact ⟨quiet_unfolded_iff.1 hquiet, later, between, rfl, hbetween, hlater⟩

/-! ## Operands and arithmetic -/

variable (hfar : ∀ us, Uninterpolated us →
  (far (unfolded name inside us)).CarriesOver (fun _ => True) (far' us))

include hfar

/-- Where the operands of a run with the name unfolded are arithmetic, so are those of the
run, if the number is bound to the name: one kind takes the place of the brackets. -/
theorem exists_kinds_of_unfolded (hts : Uninterpolated ts) (hsteps : 1 ≤ steps)
    (h : ((operands (unfolded name inside ts)).mapM (Operand.kindIn store far)).result steps =
      (some ks, steps'))
    (hks : ∀ k ∈ ks, k.IsArithmetic) (hfewer : fewer ≤ steps) :
    ∃ ls, ∃ fewer' ≤ steps',
      ((operands ts).mapM (Operand.kindIn (store.define name (.number tree.eval)) far')).result
        fewer = (some ls, fewer') ∧ Abridged kinds tree.eval ks ls := by
  fun_induction operands ts generalizing ks steps fewer with
  | case1 =>
    rw [unfolded_nil, operands_nil] at h
    obtain ⟨rfl, rfl⟩ := Attempt.result_mapM_nil_iff.1 h
    exact ⟨[], fewer, hfewer, rfl, .nil⟩
  | case2 t ts ht ih =>
    have hne : t.kind ≠ .word name := by
      intro hword
      rw [hword] at ht
      cases ht
    rw [unfolded_cons hne, operands_plain ht] at h
    obtain ⟨kind, _, later, hkind, hlater, rfl⟩ := Attempt.result_mapM_cons_iff.1 h
    obtain ⟨rfl, rfl⟩ := Attempt.result_pure_iff.1 hkind
    obtain ⟨ls, fewer', hfewer', hls, habridged⟩ := ih
      (hts.isInfix (List.suffix_cons t ts).isInfix) hsteps hlater
      (fun k hk => hks k (List.mem_cons_of_mem _ hk)) hfewer
    exact ⟨_, fewer', hfewer',
      Attempt.result_mapM_cons_iff.2 ⟨_, fewer, ls, rfl, hls, rfl⟩, .keep habridged⟩
  | case3 t ts other ht r rest hread ih =>
    by_cases hword : t.kind = .word name
    · obtain ⟨hquiet, later, between, rfl, hbetween, hlater⟩ :=
        exists_of_unfolded_name hinside htop hgrows hword hsteps h hks
      obtain ⟨kind, span⟩ := t
      obtain rfl : kind = .word name := hword
      rw [Reference.read?_binding hquiet] at hread
      obtain ⟨rfl, rfl⟩ := Prod.mk.inj (Option.some.inj hread)
      obtain ⟨ls, fewer', hfewer', hls, habridged⟩ := ih
        (hts.isInfix (List.suffix_cons _ ts).isInfix) (Nat.le_trans hsteps hbetween) hlater
        (fun k hk => hks k (by simp [hk])) (Nat.le_trans hfewer hbetween)
      have hbound : (Operand.kindIn (store.define name (.number tree.eval)) far'
          (.ref (.binding name))).result fewer = (some (.number tree.eval), fewer) := by
        refine Operand.kindIn_ref_eq_some_iff.2 ⟨tree.eval, rfl, ?_⟩
        rw [Reference.value, Attempt.result_ofOption, Store.get?_define, if_pos rfl]
      exact ⟨_, fewer', hfewer',
        Attempt.result_mapM_cons_iff.2 ⟨_, fewer, ls, hbound, hls, rfl⟩, .bracket habridged⟩
    · obtain ⟨_, _, hread', hr, x, between, later, rfl, hx, hlater⟩ :=
        exists_of_unfolded_reference hinside.balanced ht hword h
      obtain ⟨rfl, rfl⟩ := Prod.mk.inj (Option.some.inj (hread.symm.trans hread'))
      obtain ⟨hindex, hrest⟩ := Reference.isInfix_of_read? hread
      obtain ⟨between', hbetween', hx'⟩ := Reference.carriesOver_unfolded hr (.number tree.eval)
        (hfar _ (hts.isInfix hindex)) _ _ _ hx trivial fewer hfewer
      have hbetween := ((r.unfolded name inside).grows_value hgrows).le hx
      obtain ⟨ls, fewer', hfewer', hls, habridged⟩ := ih (hts.isInfix hrest.isInfix)
        (Nat.le_trans hsteps hbetween) hlater (fun k hk => hks k (List.mem_cons_of_mem _ hk))
        hbetween'
      exact ⟨_, fewer', hfewer', Attempt.result_mapM_cons_iff.2 ⟨_, between', ls,
        Operand.kindIn_ref_eq_some_iff.2 ⟨x, rfl, hx'⟩, hls, rfl⟩, .keep habridged⟩
  | case4 t ts other ht hread =>
    exfalso
    by_cases hword : t.kind = .word name
    · obtain ⟨hquiet, -⟩ := exists_of_unfolded_name hinside htop hgrows hword hsteps h hks
      obtain ⟨kind, span⟩ := t
      obtain rfl : kind = .word name := hword
      rw [Reference.read?_binding hquiet] at hread
      cases hread
    · obtain ⟨r, rest, hread', -⟩ := exists_of_unfolded_reference hinside.balanced ht hword h
      rw [hread] at hread'
      cases hread'

/-- What is arithmetic with the name unfolded is a number of the same value without, as
arithmetic or, if it is the name alone, as a reference. -/
theorem exists_undivided_of_unfolded (hts : Uninterpolated ts) (hsteps : 1 ≤ steps)
    (hnear' : NoWorse far' near') {v : Value}
    (h : (arithmeticValue store far (unfolded name inside ts)).result steps = (some v, steps'))
    (hfewer : fewer ≤ steps) :
    ∃ x, v = .number x ∧ ∃ fewer' ≤ steps',
      Undivided (store.define name (.number tree.eval)) near' far' ts fewer x fewer' := by
  obtain ⟨-, ks, outer, hks, houter, rfl⟩ := arithmeticValue_eq_some_iff.1 h
  obtain ⟨ls, between, hbetween, hls, habridged⟩ := exists_kinds_of_unfolded hinside htop hgrows
    hfar hts hsteps hks (isArithmetic_of_ofKinds? houter) hfewer
  obtain ⟨outer', houter', heval⟩ := exists_ofKinds?_of_abridged hinside.reads habridged houter
  obtain ⟨fewer', hfewer', hundivided⟩ := exists_undivided hnear' hls houter'
  rw [heval] at hundivided
  exact ⟨_, rfl, fewer', Nat.le_trans hfewer' hbetween, hundivided⟩

end

end SnippetConsole
