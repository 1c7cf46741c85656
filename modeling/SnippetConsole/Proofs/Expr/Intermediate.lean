import SnippetConsole.Proofs.Expr.Naming
import SnippetConsole.Proofs.Expr.Operation

/-!
# Naming an intermediate result

An expression in brackets that is a number may be given a name: wherever it stands, in
arithmetic, between plus signs or in an index, the text around it is worth the same with
the name in its place. Parts that are joined are cut where they were, as each of them
closes its brackets. Before they are joined, arithmetic has failed, and with the name it
fails again: up to the first part that is no number it looks up what it did before.

* `passes_of_resolve`, `alike_of_parts` — how arithmetic passes over parts with values.
* `exists_result_none_of_joined` — it fails with the name as without.
* `carriesOver_unfolded` — runs, with any room.
* `evaluate?_named` — texts.
-/

namespace SnippetConsole

open Arith

variable {store : Store} {near far far' : Resolver} {name : String} {inside ts part : List Token}
  {kinds : List Kind} {tree : Tree} {level room steps steps' fewer later later' : Nat} {w : Value}

/-! ## Balanced parts -/

theorem balanced_of_splitAtTop {separator : Kind} (hflat : separator.slope = 0)
    (h : ∀ part ∈ splitAtTop separator ts, balanced part = true) : balanced ts = true := by
  induction hparts : splitAtTop separator ts generalizing ts with
  | nil => exact absurd hparts (splitAtTop_ne_nil separator ts)
  | cons part parts ih =>
    rw [hparts] at h
    obtain ⟨hpart, hlater⟩ := List.forall_mem_cons.1 h
    rcases splitFrom_eq_cons hparts with ⟨rfl, -⟩ | ⟨t, rest, rfl, ht, hrest⟩
    · exact hpart
    · refine balanced_append hpart ((balanced_cons_of_flat (by rw [ht]; exact hflat)).trans ?_)
      exact ih (by rwa [hrest]) hrest

/-- A part with a value closes its brackets. -/
theorem balanced_of_resolve (hsolid : Solid (.operator .add) 0 ts)
    (h : (resolve store level room ts).result steps = (some w, steps')) : balanced ts = true := by
  rcases (applies_of_resolve h).cases hsolid with ⟨t, rfl, ht⟩ | ⟨r, hr, -⟩ | harithmetic
  · exact balanced_of_flat (List.forall_mem_singleton.2 ht.slope)
  · exact balanced_of_ofRun? hr
  · obtain ⟨-, ks, outer, hks, houter, -⟩ := arithmeticValue_eq_some_iff.1 harithmetic
    exact balanced_of_ofKinds? hks houter

/-- Where all parts of a run have values, the run with the name unfolded is cut where it
is itself. -/
theorem splitAtTop_unfolded_of_values (hinside : balanced inside = true) {values : List Value}
    (h : ((splitAtTop (.operator .add) (unfolded name inside ts)).mapM
      (resolve store level room)).result steps = (some values, steps')) :
    splitAtTop (.operator .add) (unfolded name inside ts) =
      (splitAtTop (.operator .add) ts).map (unfolded name inside) := by
  have hbalanced : balanced (unfolded name inside ts) = true := by
    refine @balanced_of_splitAtTop _ (.operator .add) rfl fun part hpart => ?_
    obtain ⟨v, -, before, after, hv⟩ := Attempt.exists_result_of_mem h hpart
    exact balanced_of_resolve (solid_of_mem_splitAtTop hpart) hv
  exact splitAtTop_unfolded hinside (balanced_of_unfolded hinside hbalanced) rfl nofun

/-! ## Operands of parts -/

/-- Two ways to look operands up end alike: both find kinds, those of the second with the
property, or both fail, and the second takes no more steps. -/
inductive Alike (Q : List Kind → Prop) :
    Option (List Kind) × Nat → Option (List Kind) × Nat → Prop
  | found {ks ls : List Kind} {steps fewer : Nat} :
      fewer ≤ steps → Q ls → Alike Q (some ks, steps) (some ls, fewer)
  | failed {steps fewer : Nat} : fewer ≤ steps → Alike Q (none, steps) (none, fewer)

theorem Alike.mono {Q R : List Kind → Prop} {found found' : Option (List Kind) × Nat}
    (h : Alike Q found found') (hQR : ∀ ls, Q ls → R ls) : Alike R found found' := by
  cases h with
  | found hle hQ => exact .found hle (hQR _ hQ)
  | failed hle => exact .failed hle

/-- What has been found before is put in front. -/
theorem Alike.prepend {Q R : List Kind → Prop} {found found' : Option (List Kind) × Nat}
    (h : Alike Q found found') {front front' : List Kind} (hQR : ∀ ls, Q ls → R (front' ++ ls)) :
    Alike R (found.1.map (front ++ ·), found.2) (found'.1.map (front' ++ ·), found'.2) := by
  cases h with
  | found hle hQ => exact .found hle (hQR _ hQ)
  | failed hle => exact .failed hle

/-- The operands with the name unfolded and those without are looked up alike, and neither
run breaks off. -/
structure Passes (store : Store) (far far' : Resolver) (name : String) (inside : List Token)
    (tree : Tree) (Q : List Kind → Prop) (ts : List Token) (steps fewer : Nat) : Prop where
  unfolded : .broken ∉ operands (unfolded name inside ts)
  named : .broken ∉ operands ts
  alike : Alike Q
    (((operands (SnippetConsole.unfolded name inside ts)).mapM
      (Operand.kindIn store far)).result steps)
    (((operands ts).mapM
      (Operand.kindIn (store.define name (.number tree.eval)) far')).result fewer)

/-- Arithmetic fails on a reference that is no number. -/
theorem result_mapM_ref_of_not_isNumber {r : Reference} (hw : ¬w.IsNumber)
    (h : (r.value store far).result steps = (some w, steps')) :
    ([Operand.ref r].mapM (Operand.kindIn store far)).result steps = (none, steps') := by
  have hkind : (Operand.kindIn store far (.ref r)).result steps = (none, steps') := by
    rw [Operand.kindIn, Attempt.result_bind, h]
    cases w with
    | number x => exact absurd ⟨x, rfl⟩ hw
    | truth | text => rfl
  rw [List.mapM_cons, Attempt.result_bind, hkind]

/-- Behind a plus sign the operands are looked up from where those in front of it end. -/
theorem result_mapM_operands_plus {us : List Token} {t : Token} {ks : List Kind}
    (ht : t.kind = .operator .add)
    (h : ((operands ts).mapM (Operand.kindIn store far)).result steps = (some ks, steps')) :
    ((operands (ts ++ t :: us)).mapM (Operand.kindIn store far)).result steps =
      ((((operands us).mapM (Operand.kindIn store far)).result steps').1.map
          (ks ++ [.operator .add] ++ ·),
        (((operands us).mapM (Operand.kindIn store far)).result steps').2) := by
  have hplus : ((operands ts ++ [Operand.plain (.operator .add)]).mapM
      (Operand.kindIn store far)).result steps = (some (ks ++ [.operator .add]), steps') := by
    rw [Attempt.result_mapM_append_of_some h]
    rfl
  rw [operands_append_plus (broken_not_mem_of_mapM h) ht, List.append_cons,
    Attempt.result_mapM_append_of_some hplus]

section

variable (hinside : Intermediate store (resolve store level deepest) inside kinds tree)
  (hroom : room ≤ deepest)
  (hfar : ∀ us, Uninterpolated us →
    (resolve store level (room - 1) (unfolded name inside us)).CarriesOver (fun _ => True)
      (far' us))

include hinside hroom hfar

/-- A part that is a number later on. -/
theorem passes_of_undivided (hpart : Uninterpolated part) {x : Float}
    (h : Undivided store (resolve store level (room - 1)) (resolve store level (room - 2))
      (unfolded name inside part) later x later')
    (hsteps : 1 ≤ steps) (hlater : steps ≤ later) (hfewer : fewer ≤ steps) {Q : List Kind → Prop}
    (hQ : ∀ ls, Q ls) :
    Passes store (resolve store level (room - 1)) far' name inside tree Q part steps fewer := by
  obtain ⟨between, -, ks, outer, hks, houter, -⟩ := h.exists_kinds
    (noWorse_resolve (Nat.le_refl (room - 1)))
    (noWorse_resolve (by omega)) hlater
  obtain ⟨ls, fewer', hfewer', hls, -⟩ := exists_kinds_of_unfolded hinside
    (noWorse_resolve (by omega))
    (grows_resolve store level (room - 1)) hfar hpart hsteps hks (isArithmetic_of_ofKinds? houter)
    hfewer
  refine ⟨broken_not_mem_of_mapM hks, broken_not_mem_of_mapM hls, ?_⟩
  rw [hks, hls]
  exact .found hfewer' (hQ ls)

/-- A part that comes to its value later on: before, arithmetic looks its operands up, or
fails on it, alike with the name unfolded and without. Only a number or a literal lets it
pass. -/
theorem passes_of_resolve (hpart : Uninterpolated part)
    (hsolid : Solid (.operator .add) 0 (unfolded name inside part))
    (h : (resolve store level room (unfolded name inside part)).result later = (some w, later'))
    (hsteps : 1 ≤ steps) (hlater : steps ≤ later) (hfewer : fewer ≤ steps) :
    Passes store (resolve store level (room - 1)) far' name inside tree
      (fun ls => w.IsNumber ∨ ∃ k ∈ ls, k.IsLiteral) part steps fewer := by
  have hlater := Nat.le_succ_of_le hlater
  rcases (applies_of_resolve h).cases hsolid with ⟨t, ht, hliteral⟩ | ⟨r, hr, hv⟩ | hv
  · obtain rfl := unfolded_eq_singleton ht
    have hoperands := operands_of_isLiteral hliteral
    refine ⟨by simp [ht, hoperands], by simp [hoperands], ?_⟩
    rw [ht, hoperands]
    exact .found hfewer (.inr ⟨t.kind, List.mem_cons_self, hliteral⟩)
  · by_cases hw : w.IsNumber
    · obtain ⟨x, rfl⟩ := hw
      exact passes_of_undivided hinside hroom hfar hpart
        (.inl (referenceValue_eq_some_iff.2 ⟨r, hr, hv⟩)) hsteps hlater hfewer
        fun _ => .inl ⟨x, rfl⟩
    · obtain ⟨r', hr', rfl, hne⟩ := Reference.exists_of_ofRun?_unfolded hinside.balanced hr
      obtain ⟨between, -, hbetween⟩ := Reference.carriesOver_value
        (noWorse_resolve (Nat.le_refl (room - 1))) _ _ _ _ hv
        trivial steps hlater
      have hindex := (Reference.isInfix_of_read? (Reference.read?_of_ofRun? hr')).1
      obtain ⟨fewer', hfewer', hv'⟩ := Reference.carriesOver_unfolded hne (.number tree.eval)
        (hfar _ (hpart.isInfix hindex)) _ _ _ hbetween trivial fewer hfewer
      refine ⟨by simp [operands_of_ofRun? hr], by simp [operands_of_ofRun? hr'], ?_⟩
      rw [operands_of_ofRun? hr, operands_of_ofRun? hr',
        result_mapM_ref_of_not_isNumber hw hbetween, result_mapM_ref_of_not_isNumber hw hv']
      exact .failed hfewer'
  · obtain ⟨-, ks, outer, -, -, rfl⟩ := arithmeticValue_eq_some_iff.1 hv
    exact passes_of_undivided hinside hroom hfar hpart (.inr hv) hsteps hlater hfewer
      fun _ => .inl ⟨outer.eval, rfl⟩

/-- So arithmetic passes over all parts of a run alike, as long as it ends before the parts
come to their values. -/
theorem alike_of_parts (hts : Uninterpolated ts) {parts : List (List Token)}
    (hparts : splitAtTop (.operator .add) ts = parts)
    (hunfolded : ∀ part ∈ parts, Solid (.operator .add) 0 (unfolded name inside part))
    {values : List Value}
    (h : ((parts.map (unfolded name inside)).mapM (resolve store level room)).result later =
      (some values, later'))
    (hsteps : 1 ≤ steps) (hfewer : fewer ≤ steps)
    (hend : (((operands (unfolded name inside ts)).mapM
      (Operand.kindIn store (resolve store level (room - 1)))).result steps).2 ≤ later) :
    Alike (fun ls => (∀ v ∈ values, v.IsNumber) ∨ ∃ k ∈ ls, k.IsLiteral)
      (((operands (unfolded name inside ts)).mapM
        (Operand.kindIn store (resolve store level (room - 1)))).result steps)
      (((operands ts).mapM
        (Operand.kindIn (store.define name (.number tree.eval)) far')).result fewer) := by
  have hgrows (os : List Operand) : (os.mapM
      (Operand.kindIn store (resolve store level (room - 1)))).Grows :=
    Attempt.grows_mapM (Operand.grows_kindIn (grows_resolve store level (room - 1))) os
  induction parts generalizing ts values steps fewer later with
  | nil => exact absurd hparts (splitAtTop_ne_nil _ ts)
  | cons part parts ih =>
    obtain ⟨hsolid, hsolids⟩ := List.forall_mem_cons.1 hunfolded
    obtain ⟨w, between, rest, hw, hrest, rfl⟩ := Attempt.result_mapM_cons_iff.1 h
    have hlater : steps ≤ later := Nat.le_trans (hgrows _ steps) hend
    rcases splitFrom_eq_cons hparts with ⟨rfl, rfl⟩ | ⟨t, us, rfl, ht, hus⟩
    · obtain ⟨rfl, -⟩ := Attempt.result_mapM_nil_iff.1 hrest
      refine (passes_of_resolve hinside hroom hfar hts hsolid hw hsteps hlater hfewer).alike.mono ?_
      rintro ls (hnumber | hliteral)
      · exact .inl (List.forall_mem_singleton.2 hnumber)
      · exact .inr hliteral
    · have hpart : Uninterpolated part := hts.isInfix (List.prefix_append _ _).isInfix
      have hbehind : Uninterpolated us :=
        hts.isInfix ((List.suffix_cons t us).trans (List.suffix_append _ _)).isInfix
      obtain ⟨hbroken, hbroken', halike⟩ :=
        passes_of_resolve hinside hroom hfar hpart hsolid hw hsteps hlater hfewer
      rw [unfolded_append, unfolded_cons (by simp [ht])] at hend ⊢
      generalize hfront : ((operands (unfolded name inside part)).mapM
        (Operand.kindIn store (resolve store level (room - 1)))).result steps = front at halike
      generalize hfront' : ((operands part).mapM
        (Operand.kindIn (store.define name (.number tree.eval)) far')).result fewer = front'
        at halike
      cases halike with
      | found hle hQ =>
        rw [result_mapM_operands_plus ht hfront] at hend ⊢
        rw [result_mapM_operands_plus ht hfront']
        refine (ih hbehind hus hsolids hrest (Nat.le_trans hsteps ((hgrows _).le hfront)) hle
          (Nat.le_trans hend ((grows_resolve store level room _).le hw))).prepend fun ls hls => ?_
        rcases hQ with hnumber | ⟨k, hk, hliteral⟩
        · rcases hls with hnumbers | ⟨k, hk, hliteral⟩
          · exact .inl (List.forall_mem_cons.2 ⟨hnumber, hnumbers⟩)
          · exact .inr ⟨k, List.mem_append_right _ hk, hliteral⟩
        · exact .inr ⟨k, by simp [hk], hliteral⟩
      | failed hle =>
        rw [operands_append_plus hbroken ht, operands_append_plus hbroken' ht,
          Attempt.result_mapM_append_of_none hfront, Attempt.result_mapM_append_of_none hfront']
        exact .failed hle

/-- So it fails on the run as it does with the name unfolded, if the parts are joined. -/
theorem exists_result_none_of_joined (hts : Uninterpolated ts) {failed : Nat}
    (harithmetic : (arithmeticValue store (resolve store level (room - 1))
      (unfolded name inside ts)).result steps = (none, failed))
    (hjoined : (joinedValue (resolve store level room) (unfolded name inside ts)).result failed =
      (some w, steps'))
    (hsteps : 1 ≤ steps) (hfewer : fewer ≤ steps) :
    ∃ fewer' ≤ failed, (arithmeticValue (store.define name (.number tree.eval)) far' ts).result
      fewer = (none, fewer') := by
  obtain ⟨hlength, values, hvalues, hjoin⟩ := joinedValue_eq_some_iff.1 hjoined
  have hsplit := splitAtTop_unfolded_of_values hinside.balanced hvalues
  have hnone := ofRun?_of_divided hlength
  have hnone' : Reference.ofRun? ts = none := by
    rw [hsplit, List.length_map] at hlength
    exact ofRun?_of_divided hlength
  have hend : (((operands (unfolded name inside ts)).mapM
      (Operand.kindIn store (resolve store level (room - 1)))).result steps).2 = failed :=
    congrArg Prod.snd ((result_arithmeticValue hnone rfl).symm.trans harithmetic)
  rw [hsplit] at hvalues
  have hsolid : ∀ part ∈ splitAtTop (.operator .add) ts,
      Solid (.operator .add) 0 (unfolded name inside part) := by
    intro part hpart
    have hmem := List.mem_map_of_mem (f := unfolded name inside) hpart
    rw [← hsplit] at hmem
    exact solid_of_mem_splitAtTop hmem
  have halike := alike_of_parts hinside hroom hfar hts rfl hsolid hvalues hsteps hfewer
    (Nat.le_of_eq hend)
  generalize hfound : ((operands (unfolded name inside ts)).mapM
    (Operand.kindIn store (resolve store level (room - 1)))).result steps = found at halike hend
  generalize hfound' : ((operands ts).mapM
    (Operand.kindIn (store.define name (.number tree.eval)) far')).result fewer = found' at halike
  cases halike with
  | failed hle =>
    subst hend
    exact ⟨_, hle, result_arithmeticValue hnone' hfound'⟩
  | @found ks ls _ fewer' hle hls =>
    subst hend
    refine ⟨fewer', hle, ?_⟩
    have hkinds : Tree.ofKinds? ls = none := by
      rw [Option.eq_none_iff_forall_ne_some]
      intro outer houter
      rcases hls with hnumbers | ⟨k, hk, hliteral⟩
      · -- numbers alone would have been arithmetic
        obtain ⟨x, rfl⟩ := isNumber_of_forall hjoin hnumbers
        exact joined_ne_number (numbers_of_resolve store level room).1
          (noWorse_resolve (Nat.le_refl (room - 1)))
          (noWorse_resolve (by omega))
          (grows_resolve store level (room - 1)) harithmetic x hjoined
      · exact hliteral.not_isArithmetic (isArithmetic_of_ofKinds? houter k hk)
    rw [result_arithmeticValue hnone' hfound', Option.bind_some, hkinds]
    rfl

end

/-! ## Whole runs -/

/-- What is joined with the name unfolded is joined without. -/
theorem carriesOver_joinedValue (hinside : balanced inside = true) (hts : Uninterpolated ts)
    (hnear : ∀ us, Uninterpolated us →
      (resolve store level room (unfolded name inside us)).CarriesOver (fun _ => True) (near us)) :
    (joinedValue (resolve store level room) (unfolded name inside ts)).CarriesOver
      (fun _ => True) (joinedValue near ts) := by
  intro steps w steps' h _ fewer hfewer
  obtain ⟨hlength, values, hvalues, hjoin⟩ := joinedValue_eq_some_iff.1 h
  have hsplit := splitAtTop_unfolded_of_values hinside hvalues
  rw [hsplit, List.mapM_map] at hvalues
  rw [hsplit, List.length_map] at hlength
  have hparts : ∀ part ∈ splitAtTop (.operator .add) ts,
      ((resolve store level room ∘ unfolded name inside) part).CarriesOver (fun _ => True)
        (near part) := fun part hpart =>
    hnear part (hts.isInfix ((splitAtTop_run (fun t => rfl) (.operator .add) ts).1 part hpart))
  obtain ⟨fewer', hfewer', hvalues'⟩ :=
    Attempt.carriesOver_mapM hparts _ _ _ hvalues trivial fewer hfewer
  exact ⟨fewer', hfewer', joinedValue_eq_some_iff.2 ⟨hlength, values, hvalues', hjoin⟩⟩

/-- With any room, a run is worth what it is worth with the name unfolded. -/
theorem carriesOver_unfolded
    (hinside : Intermediate store (resolve store level deepest) inside kinds tree)
    (level' : Nat) (hroom : room ≤ deepest + 1) (hts : Uninterpolated ts) :
    (resolve store level room (unfolded name inside ts)).CarriesOver (fun _ => True)
      (resolve (store.define name (.number tree.eval)) level' room ts) := by
  -- indices and parts have less room
  induction room using Nat.strong_induction_on generalizing ts with
  | _ room ih =>
  intro steps v steps' h _ fewer hfewer
  cases room with
  | zero => exact absurd h resolve_zero_ne
  | succ room =>
    have hnear : ∀ us, Uninterpolated us → (resolve store level room
        (unfolded name inside us)).CarriesOver (fun _ => True)
          (resolve (store.define name (.number tree.eval)) level' room us) :=
      fun us hus => ih room (by omega) (by omega) hus
    have hfar : ∀ us, Uninterpolated us → (resolve store level (room - 1)
        (unfolded name inside us)).CarriesOver (fun _ => True)
          (resolve (store.define name (.number tree.eval)) level' (room - 1) us) :=
      fun us hus => ih (room - 1) (by omega) (by omega) hus
    rw [resolve_succ] at h
    obtain ⟨hlt, happlies⟩ := result_rules_eq_some_iff.1 h
    have hlt' : fewer < stepBudget := by omega
    simp only [resolve_succ, result_rules_eq_some_iff]
    cases happlies with
    | literal hv =>
      obtain ⟨⟨t, ht, -⟩, -⟩ := literalValue?_cases hv
      rw [ht] at hv
      rw [unfolded_eq_singleton ht]
      exact ⟨fewer + 1, Nat.succ_le_succ hfewer, hlt', .literal hv⟩
    | interpolated ht =>
      rw [unfolded_eq_singleton ht] at hts
      exact absurd rfl (hts _ List.mem_cons_self _)
    | reference hr hv =>
      obtain ⟨r, hr', rfl, hne⟩ := Reference.exists_of_ofRun?_unfolded hinside.balanced hr
      have hindex := (Reference.isInfix_of_read? (Reference.read?_of_ofRun? hr')).1
      obtain ⟨fewer', hfewer', hv'⟩ := Reference.carriesOver_unfolded hne (.number tree.eval)
        (hnear _ (hts.isInfix hindex)) _ _ _ hv trivial _ (Nat.succ_le_succ hfewer)
      exact ⟨fewer', hfewer', hlt', .reference hr' hv'⟩
    | arithmetic hv =>
      obtain ⟨x, rfl, fewer', hfewer', hundivided⟩ := exists_undivided_of_unfolded hinside
        (noWorse_resolve (by omega))
        (grows_resolve store level (room - 1)) hfar hts (Nat.le_add_left 1 steps)
        (noWorse_resolve (Nat.sub_le room 1)) hv (Nat.succ_le_succ hfewer)
      have hdirect := result_rules_of_direct (fillAt (store.define name (.number tree.eval)) level')
        ⟨hlt', hundivided⟩
      exact ⟨fewer', hfewer', result_rules_eq_some_iff.1 hdirect⟩
    | joined hfailed hv =>
      obtain ⟨failed', hle, hfailed'⟩ := exists_result_none_of_joined hinside (by omega) hfar hts
        hfailed hv (Nat.le_add_left 1 steps) (Nat.succ_le_succ hfewer)
      obtain ⟨fewer', hfewer', hv'⟩ :=
        carriesOver_joinedValue hinside.balanced hts hnear _ _ _ hv trivial _ hle
      exact ⟨fewer', hfewer', hlt', .joined hfailed' hv'⟩

/-! ## Texts -/

/-- A run that is worth a number is an intermediate result. -/
theorem exists_intermediate {x : Float}
    (h : (resolve store level (deepest + 1) ts).result 0 = (some (.number x), steps')) :
    ∃ kinds tree, Intermediate store (resolve store level deepest) ts kinds tree ∧
      tree.eval = x := by
  obtain ⟨-, hundivided⟩ := (numbers_of_resolve store level (deepest + 1)).1 _ _ _ _ h
  obtain ⟨steps', -, kinds, tree, hkinds, htree, heval⟩ := hundivided.exists_kinds
    (noWorse_resolve (Nat.le_refl deepest))
    (noWorse_resolve (Nat.sub_le deepest 1)) (Nat.le_refl 1)
  exact ⟨kinds, tree, ⟨balanced_of_ofKinds? hkinds htree, ⟨steps', hkinds⟩, htree⟩, heval⟩

section

variable {pre text post : String} {ps es qs : List Token} {span : Text.Span}

theorem exists_lex_bracketed (hpre : lex pre = .ok ps) (hps : EndsClosed pre ps)
    (htext : lex text = .ok es) (hes : EndsClosed text es) (hpost : lex post = .ok qs) :
    ∃ ts, lex (pre ++ " (" ++ text ++ ") " ++ post) = .ok ts ∧
      ts.map Token.kind = (ps ++ (inBrackets es ++ qs)).map Token.kind := by
  have hread := (Lexer.begins_of_lex hpre hps).readAs_append
    ((Lexer.begins_of_lex htext hes).bracket.readAs_append (Lexer.readAs_of_lex hpost))
  have htoList : (pre ++ " (" ++ text ++ ") " ++ post).toList =
      pre.toList ++ ' ' :: ('(' :: (text.toList ++ [')']) ++ ' ' :: post.toList) := by simp
  rw [← htoList] at hread
  obtain ⟨ts, hts, hkinds⟩ := hread.lex
  exact ⟨ts, hts, by rw [hkinds]; simp [inBrackets]⟩

theorem exists_lex_named (hpre : lex pre = .ok ps) (hps : EndsClosed pre ps)
    (hname : lex name = .ok [⟨.word name, span⟩]) (hpost : lex post = .ok qs) :
    ∃ ts, lex (pre ++ " " ++ name ++ " " ++ post) = .ok ts ∧
      ts.map Token.kind = (ps ++ ⟨.word name, span⟩ :: qs).map Token.kind := by
  have hread := (Lexer.begins_of_lex hpre hps).readAs_append
    ((Lexer.begins_name hname).readAs_append (Lexer.readAs_of_lex hpost))
  have htoList : (pre ++ " " ++ name ++ " " ++ post).toList =
      pre.toList ++ ' ' :: (name.toList ++ ' ' :: post.toList) := by simp
  rw [← htoList] at hread
  obtain ⟨ts, hts, hkinds⟩ := hread.lex
  exact ⟨ts, hts, by rw [hkinds]; simp⟩

/-- An expression in brackets that is a number may be given a name. Whatever the text around
the brackets is worth, it is worth with the name in their place, where the name is bound to
the number. -/
theorem evaluate?_named {x : Float} (hpre : lex pre = .ok ps) (hps : EndsClosed pre ps)
    (htext : lex text = .ok es) (hes : EndsClosed text es) (hpost : lex post = .ok qs)
    (hname : lex name = .ok [⟨.word name, span⟩]) (hnew : ∀ t ∈ ps ++ qs, t.kind ≠ .word name)
    (hstrings : ∀ t ∈ ps ++ qs, ∀ raw, t.kind ≠ .quoted .interpolated raw)
    (hx : evaluate? store text = some (.number x))
    (hw : evaluate? store (pre ++ " (" ++ text ++ ") " ++ post) = some w) :
    evaluate? (store.define name (.number x)) (pre ++ " " ++ name ++ " " ++ post) = some w := by
  obtain ⟨ts, hts, hkinds⟩ := exists_lex_bracketed hpre hps htext hes hpost
  obtain ⟨us, hus, hkinds'⟩ := exists_lex_named hpre hps hname hpost
  obtain ⟨hnewps, hnewqs⟩ := List.forall_mem_append.1 hnew
  have hunfolded : unfolded name es (ps ++ ⟨.word name, span⟩ :: qs) =
      ps ++ (inBrackets es ++ qs) := by
    rw [unfolded_append, unfolded_name rfl, unfolded_eq_self hnewps, unfolded_eq_self hnewqs]
  have huninterpolated : Uninterpolated (ps ++ ⟨.word name, span⟩ :: qs) := by
    obtain ⟨hstringsps, hstringsqs⟩ := List.forall_mem_append.1 hstrings
    exact List.forall_mem_append.2 ⟨hstringsps, List.forall_mem_cons.2 ⟨nofun, hstringsqs⟩⟩
  -- one level for the expression and the text around it
  obtain ⟨level, hlevel⟩ : ∃ level, level =
      max text.length (pre ++ " (" ++ text ++ ") " ++ post).length := ⟨_, rfl⟩
  rw [evaluate?_eq_resolve htext rfl (by omega : _ ≤ level)] at hx
  rw [evaluate?_eq_resolve hts hkinds (by omega : _ ≤ level), ← hunfolded] at hw
  rw [evaluate?_eq_resolve hus hkinds' (Nat.le_refl _)]
  obtain ⟨kinds, tree, hinside, rfl⟩ := exists_intermediate (Prod.ext hx rfl)
  obtain ⟨fewer, -, hnamed⟩ := carriesOver_unfolded hinside _ (Nat.le_refl _) huninterpolated
    _ _ _ (Prod.ext hw rfl) trivial 0 (Nat.le_refl 0)
  rw [hnamed]

end

/-- The index of an array in a text gets a name. -/
theorem evaluate?_named_index :
    let store := (Store.define {} "i" (.number 0)).putArray "a" (.ofValues [.number 3, .number 4])
    evaluate? store "i + 1" = some (.number 1) ∧
      evaluate? store ("\"n: \" + a[" ++ " (" ++ "i + 1" ++ ") " ++ "] + i") =
        some (.text "n: 40") ∧
      evaluate? (store.define "next" (.number 1))
        ("\"n: \" + a[" ++ " " ++ "next" ++ " " ++ "] + i") = some (.text "n: 40") := by
  intro store
  have hpre : lex "\"n: \" + a[" = .ok [⟨.quoted .string "n: ", ⟨0, 5⟩⟩,
      ⟨.operator .add, ⟨6, 7⟩⟩, ⟨.word "a", ⟨8, 9⟩⟩, ⟨.opening .square, ⟨9, 10⟩⟩] := by
    decide +kernel
  have htext : lex "i + 1" = .ok [⟨.word "i", ⟨0, 1⟩⟩, ⟨.operator .add, ⟨2, 3⟩⟩,
      ⟨.number 1, ⟨4, 5⟩⟩] := by decide +kernel
  have hpost : lex "] + i" = .ok [⟨.closing .square, ⟨0, 1⟩⟩, ⟨.operator .add, ⟨2, 3⟩⟩,
      ⟨.word "i", ⟨4, 5⟩⟩] := by decide +kernel
  have hname : lex "next" = .ok [⟨.word "next", ⟨0, 4⟩⟩] := by decide +kernel
  have hx : evaluate? store "i + 1" = some (.number 1) := by decide +kernel
  have hw : evaluate? store ("\"n: \" + a[" ++ " (" ++ "i + 1" ++ ") " ++ "] + i") =
      some (.text "n: 40") := by decide +kernel
  exact ⟨hx, hw, evaluate?_named hpre
    (endsClosed_of_no_comment hpre (by decide +kernel) (by decide +kernel)) htext
    (endsClosed_of_no_comment htext (by decide +kernel) (by decide +kernel)) hpost hname
    (by decide +kernel) (by simp) hx hw⟩

end SnippetConsole
