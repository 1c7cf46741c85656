import SnippetConsole.Proofs.Expr.Mentions
import SnippetConsole.Proofs.Machine.Execution
import SnippetConsole.Proofs.Statement.Similar
import SnippetConsole.Proofs.Store.Cells

/-!
# Statements in another order

What a statement does depends on the store only through the names that occur in it,
and it writes no more than one name. So of two statements neither of which mentions
the name that the other writes, each does the same in front of the other as behind
it, and it does not matter which comes first, as long as only one of them prints.

* `Store.edit_comm` — edits under different names commute.
* `Statement.effect_alike` — a statement does the same in stores that are the same under
  the names in it.
* `Machine.execute_swap` — independent statements go through in either order.
* `Machine.executeAll_of_perm` — so do lists of them, in any order.
-/

namespace SnippetConsole

/-! ## Edits of a store -/

namespace Store

/-- A single write: what a name stands for from now on. -/
inductive Edit
  | binding (name : String) (value : Value)
  | object (name : String) (object : Object)
  | array (name : String) (slots : Slots)

/-- The name that an edit writes. -/
def Edit.name : Edit → String
  | .binding name _ | .object name _ | .array name _ => name

/-- The store after an edit. -/
def edit (s : Store) : Edit → Store
  | .binding name value => s.define name value
  | .object name object => s.putObject name object
  | .array name slots => s.putArray name slots

/-- Two stores hold the same under a name, in all three tables. -/
structure SameAt (s s' : Store) (name : String) : Prop where
  binding : s.get? name = s'.get? name
  object : s.object? name = s'.object? name
  array : s.array? name = s'.array? name

namespace SameAt

variable {s s' s'' : Store} {name : String}

theorem refl (s : Store) (name : String) : s.SameAt s name := ⟨rfl, rfl, rfl⟩

theorem symm (h : s.SameAt s' name) : s'.SameAt s name :=
  ⟨h.binding.symm, h.object.symm, h.array.symm⟩

theorem trans (h : s.SameAt s' name) (h' : s'.SameAt s'' name) : s.SameAt s'' name :=
  ⟨h.binding.trans h'.binding, h.object.trans h'.object, h.array.trans h'.array⟩

theorem agreeOn (h : s.SameAt s' name) : s.AgreeOn s' name :=
  ⟨h.binding, by rw [h.object], h.array⟩

/-- The same edit of both stores keeps what they have in common. -/
theorem edit (h : s.SameAt s' name) (e : Edit) : (s.edit e).SameAt (s'.edit e) name := by
  obtain ⟨hbinding, hobject, harray⟩ := h
  cases e with
  | binding => exact ⟨by simp [Store.edit, hbinding], hobject, harray⟩
  | object => exact ⟨hbinding, by simp [Store.edit, hobject], harray⟩
  | array => exact ⟨hbinding, hobject, by simp [Store.edit, harray]⟩

end SameAt

theorem ext_sameAt {s s' : Store} (h : ∀ name, s.SameAt s' name) : s = s' := by
  obtain ⟨bindings, objects, arrays⟩ := s
  obtain ⟨bindings', objects', arrays'⟩ := s'
  rw [mk.injEq]
  refine ⟨?_, ?_, ?_⟩
  · exact Std.ExtTreeMap.ext_getElem? fun {name} => (h name).binding
  · exact Std.ExtTreeMap.ext_getElem? fun {name} => (h name).object
  · exact Std.ExtTreeMap.ext_getElem? fun {name} => (h name).array

/-- An edit changes nothing under other names. -/
theorem edit_sameAt (s : Store) {e : Edit} {name : String} (h : e.name ≠ name) :
    (s.edit e).SameAt s name := by
  cases e with
  | binding other value => exact ⟨by simp [edit, show other ≠ name from h], rfl, rfl⟩
  | object other object => exact ⟨rfl, by simp [edit, show other ≠ name from h], rfl⟩
  | array other slots => exact ⟨rfl, rfl, by simp [edit, show other ≠ name from h]⟩

theorem edit_comm (s : Store) {e e' : Edit} (h : e.name ≠ e'.name) :
    (s.edit e).edit e' = (s.edit e').edit e := by
  refine ext_sameAt fun name => ?_
  by_cases he : e.name = name
  · -- under the name of the first edit only that edit counts
    have he' : e'.name ≠ name := fun he' => h (he.trans he'.symm)
    exact ((s.edit e).edit_sameAt he').trans ((s.edit_sameAt he').edit e).symm
  · exact ((s.edit_sameAt he).edit e').trans ((s.edit e').edit_sameAt he).symm

end Store

/-! ## Names in a statement -/

namespace Statement

/-- The name that a statement looks up or writes in the store, those in its expressions
aside. -/
def subject? : Statement → Option String
  | .printSlot name _ | .declare name _ | .assign name _ | .update name _ _ | .step name _
  | .construct name _ | .setField name _ _ | .call name _ | .makeArray name _
  | .setSlot name _ _ => some name
  | .print _ | .unrecognized => none

/-- The name that a statement writes. Statements that print write none. -/
def target? (s : Statement) : Option String := if s.prints then none else s.subject?

theorem subject?_of_target? {s : Statement} {name : String} (h : s.target? = some name) :
    s.subject? = some name := by
  unfold target? at h
  split at h
  · cases h
  · exact h

/-- The name occurs in the statement, be it as a part of the text of an expression. -/
def Mentions (s : Statement) (name : String) : Prop :=
  s.subject? = some name ∨ ∃ e ∈ s.exprs, name.toList <:+: e.text.toList

/-- Neither statement mentions the name that the other writes, and one of them at most
prints. -/
structure Independent (s t : Statement) : Prop where
  prints : s.prints = true → t.prints = false
  left : ∀ name ∈ s.target?, ¬t.Mentions name
  right : ∀ name ∈ t.target?, ¬s.Mentions name

theorem Independent.symm {s t : Statement} (h : s.Independent t) : t.Independent s where
  prints ht := by
    cases hs : s.prints with
    | false => rfl
    | true => rw [h.prints hs] at ht; cases ht
  left := h.right
  right := h.left

end Statement

/-! ## What a statement does in similar stores -/

theorem Expr.value_congr {s s' : Store} {e : Expr}
    (h : ∀ name : String, name.toList <:+: e.text.toList → s.AgreeOn s' name) :
    e.value s = e.value s' := by
  rw [value, value, evaluate?, evaluate?, attempt_congr h]

theorem ArrayInit.wanted?_congr {s s' : Store} {init : ArrayInit}
    (h : ∀ e ∈ init.exprs, e.value s = e.value s') : init.wanted? s = init.wanted? s' := by
  cases init with
  | sized size => rw [wanted?, wanted?, h size List.mem_cons_self]
  | items list =>
    have hitems : list.map (·.value s) = list.map (·.value s') := List.map_congr_left h
    rw [wanted?, wanted?, hitems]

/-- What a statement does, by itself. -/
inductive Action
  | nothing
  | edit (e : Store.Edit)
  | print (line : String)

/-- The effect of an action on a store. -/
def Action.effect (store : Store) : Action → Effect
  | .nothing => .nothing
  | .edit e => .change (store.edit e)
  | .print line => .print line

/-- The action is one that the statement may take: it writes what the statement writes,
and it prints only if the statement does. -/
def Action.Of (s : Statement) : Action → Prop
  | .nothing => True
  | .edit e => s.target? = some e.name
  | .print _ => s.prints = true

namespace Statement

variable {store store' : Store} {s : Statement}

/-- The two outcomes are the same fault or come from the same action of the statement. -/
def Alike (s : Statement) (store store' : Store) (a b : Except Fault Effect) : Prop :=
  (∃ fault, a = .error fault ∧ b = .error fault) ∨
    ∃ action : Action, action.Of s ∧ a = .ok (action.effect store) ∧
      b = .ok (action.effect store')

theorem Alike.ofStore? {α : Type} {f : α → Store.Edit} (h : ∀ a, s.target? = some (f a).name)
    (a? : Option α) :
    s.Alike store store' (.ok (.ofStore? (a?.map fun a => store.edit (f a))))
      (.ok (.ofStore? (a?.map fun a => store'.edit (f a)))) := by
  cases a? with
  | none => exact .inr ⟨.nothing, trivial, rfl, rfl⟩
  | some a => exact .inr ⟨.edit (f a), h a, rfl, rfl⟩

theorem Alike.ofLine? (h : s.prints = true) (line? : Option String) :
    s.Alike store store' (.ok (.ofLine? line?)) (.ok (.ofLine? line?)) := by
  cases line? with
  | none => exact .inr ⟨.nothing, trivial, rfl, rfl⟩
  | some line => exact .inr ⟨.print line, h, rfl, rfl⟩

/-- A statement does the same in stores that are the same under the names in it. -/
theorem effect_alike (limits : Limits)
    (h : ∀ name, s.Mentions name → store.SameAt store' name) :
    s.Alike store store' (s.effect limits store) (s.effect limits store') := by
  have hvalue (e : Expr) (he : e ∈ s.exprs) : e.value store = e.value store' :=
    e.value_congr fun name hname => (h name (.inr ⟨e, he, hname⟩)).agreeOn
  have hsubject (name : String) (hname : s.subject? = some name) : store.SameAt store' name :=
    h name (.inl hname)
  cases s with
  | unrecognized => exact .inr ⟨.nothing, trivial, rfl, rfl⟩
  | print expr =>
    cases expr with
    | none => exact .ofLine? rfl (some "")
    | some e =>
      rw [effect, effect, hvalue e (by simp [exprs])]
      exact .ofLine? rfl (some _)
  | printSlot name index =>
    rw [effect, effect, (hsubject name rfl).array]
    exact .ofLine? rfl _
  | call name method =>
    rw [effect, effect, (hsubject name rfl).object]
    exact .ofLine? rfl _
  | declare name e =>
    rw [effect, effect, hvalue e (by simp [exprs])]
    exact .ofStore? (f := fun value => .binding name value) (fun _ => rfl) (some _)
  | assign name e =>
    rw [effect, effect, Store.assign?, Store.assign?, hvalue e (by simp [exprs]),
      (hsubject name rfl).binding]
    exact .ofStore? (f := fun _ => .binding name _) (fun _ => rfl) _
  | update name op e =>
    rw [effect, effect, hvalue e (by simp [exprs]), (hsubject name rfl).binding]
    exact .ofStore? (f := fun value => .binding name value) (fun _ => rfl) _
  | step name direction =>
    rw [effect, effect, (hsubject name rfl).binding]
    exact .ofStore? (f := fun x => .binding name (.number (x + direction.delta))) (fun _ => rfl) _
  | construct name className =>
    exact .ofStore? (f := fun object => .object name object) (fun _ => rfl) (some _)
  | setField name field e =>
    rw [effect, effect, Store.setField?, Store.setField?, hvalue e (by simp [exprs]),
      (hsubject name rfl).object]
    exact .ofStore? (f := fun object : Object => .object name (object.setField field _))
      (fun _ => rfl) _
  | setSlot name index e =>
    have hwrite (st : Store) : (index.value store').index?.bind (fun i =>
          (store'.array? name).bind fun a => (a.write? i (e.value store')).map (st.putArray name)) =
        ((index.value store').index?.bind fun i =>
          (store'.array? name).bind (·.write? i (e.value store'))).map (st.putArray name) := by
      simp only [Option.map_bind, Function.comp_def]
    rw [effect, effect]
    simp only [Store.setSlot?]
    rw [hvalue index (by simp [exprs]), hvalue e (by simp [exprs]), (hsubject name rfl).array,
      hwrite, hwrite]
    exact .ofStore? (f := fun a => .array name a) (fun _ => rfl) _
  | makeArray name init =>
    rw [effect_makeArray, effect_makeArray, ArrayInit.wanted?_congr hvalue]
    cases init.wanted? store' with
    | none => exact .inr ⟨.nothing, trivial, rfl, rfl⟩
    | some a =>
      by_cases hsize : a.size ≤ limits.arrayLength
      · simp only [if_pos hsize]
        exact .ofStore? (f := fun a => .array name a) (fun _ => rfl) (some a)
      · simp only [if_neg hsize]
        exact .inl ⟨_, rfl, rfl⟩

end Statement

/-! ## Two statements -/

namespace Machine

/-- The machine after an action of a statement that goes through. -/
def after (m : Machine) : Action → Machine
  | .nothing => m.tick
  | .edit e => { m.tick with store := m.store.edit e }
  | .print line => { m.tick with console := { m.console with lines := m.console.lines.push line } }

theorem Step.of_action {m : Machine} {s : Statement} {action : Action}
    (hexec : m.executed < m.limits.statements)
    (heffect : s.effect m.limits m.store = .ok (action.effect m.store))
    (hroom : ∀ line, action = .print line → m.console.lines.size < m.console.capacity) :
    m.Step s (m.after action) none := by
  cases action with
  | nothing => exact .idle hexec heffect
  | edit e => exact .changed hexec heffect
  | print line => exact .printed hexec heffect (hroom line rfl)

/-- A line that is printed has room. -/
theorem Step.room {m m' : Machine} {s : Statement} {line : String} (h : m.Step s m' none)
    (heffect : s.effect m.limits m.store = .ok (.print line)) :
    m.console.lines.size < m.console.capacity := by
  cases h with
  | printed _ _ hroom => exact hroom
  | idle _ heffect' | changed _ heffect' =>
    rw [heffect] at heffect'
    cases heffect'

/-- A statement that goes through takes an action, and takes the same one on any
machine with budget and room for it whose store is the same under its names. -/
theorem Step.exists_action {m m' : Machine} {s : Statement} (h : m.Step s m' none)
    (other : Machine) (hlimits : other.limits = m.limits) (hexec : other.executed < m.limits.statements)
    (hconsole : s.prints = true → other.console = m.console)
    (hstore : ∀ name, s.Mentions name → m.store.SameAt other.store name) :
    ∃ action : Action, action.Of s ∧ m' = m.after action ∧
      other.Step s (other.after action) none := by
  obtain ⟨hbudget, effect, heffect⟩ := h.exists_effect
  obtain ⟨fault, hfault, -⟩ | ⟨action, hof, hhere, hthere⟩ :=
    Statement.effect_alike m.limits hstore
  · rw [heffect] at hfault
    cases hfault
  · have hroom (line : String) (hline : action = .print line) :
        m.console.lines.size < m.console.capacity := by
      subst hline
      exact h.room hhere
    refine ⟨action, hof, ?_, ?_⟩
    · have hstep := Step.of_action hbudget hhere hroom
      exact congrArg Prod.fst (h.execute.symm.trans hstep.execute)
    · rw [← hlimits] at hexec hthere
      refine .of_action hexec hthere fun line hline => ?_
      subst hline
      rw [hconsole hof]
      exact hroom line rfl

/-! ### Actions one after the other -/

theorem limits_after (m : Machine) (a : Action) : (m.after a).limits = m.limits := by
  cases a <;> rfl

theorem executed_after (m : Machine) (a : Action) : (m.after a).executed = m.executed + 1 := by
  cases a <;> rfl

theorem console_after (m : Machine) {s : Statement} {a : Action} (ha : a.Of s)
    (hs : s.prints = false) : (m.after a).console = m.console := by
  cases a with
  | nothing | edit => rfl
  | print line =>
    rw [show s.prints = true from ha] at hs
    cases hs

theorem sameAt_after (m : Machine) {s : Statement} {a : Action} (ha : a.Of s) {name : String}
    (hname : s.target? ≠ some name) : (m.after a).store.SameAt m.store name := by
  cases a with
  | nothing | print => exact .refl _ _
  | edit e =>
    refine m.store.edit_sameAt fun he => hname ?_
    rw [show s.target? = some e.name from ha, he]

theorem after_comm (m : Machine) {s t : Statement} {a b : Action} (h : s.Independent t)
    (ha : a.Of s) (hb : b.Of t) : (m.after a).after b = (m.after b).after a := by
  cases a with
  | nothing => cases b <;> rfl
  | edit e =>
    cases b with
    | nothing | print => rfl
    | edit e' =>
      have hne : e.name ≠ e'.name := by
        intro he
        refine h.left e.name ha (.inl ?_)
        rw [he]
        exact Statement.subject?_of_target? hb
      simp only [after, tick, m.store.edit_comm hne]
  | print line =>
    cases b with
    | nothing | edit => rfl
    | print line' =>
      have hprints := h.prints ha
      rw [show t.prints = true from hb] at hprints
      cases hprints

/-- Independent statements that go through one after the other go through in the other
order, to the same end. -/
theorem Step.swap {m m₁ m₂ : Machine} {s t : Statement} (h : s.Independent t)
    (hs : m.Step s m₁ none) (ht : m₁.Step t m₂ none) :
    ∃ m', m.Step t m' none ∧ m'.Step s m₂ none := by
  have hbudget := ht.exists_effect.1
  obtain ⟨a, ha, rfl, -⟩ :=
    hs.exists_action m rfl hs.exists_effect.1 (fun _ => rfl) fun name _ => .refl _ name
  rw [limits_after, executed_after] at hbudget
  -- the second statement finds in front of the first what it finds behind it
  obtain ⟨b, hb, rfl, htm⟩ := ht.exists_action m (limits_after m a).symm
    (by rw [limits_after]; omega)
    (fun hprints => (console_after m ha (h.symm.prints hprints)).symm)
    fun name hname => sameAt_after m ha fun htarget => h.left name htarget hname
  -- and so does the first behind the second
  obtain ⟨a', ha', heq, hsm⟩ := hs.exists_action (m.after b) (limits_after m b)
    (by rw [executed_after]; exact hbudget)
    (fun hprints => console_after m hb (h.prints hprints))
    fun name hname => (sameAt_after m hb fun htarget => h.right name htarget hname).symm
  refine ⟨m.after b, htm, ?_⟩
  rw [heq, after_comm m h ha' hb]
  exact hsm

/-- Statements each of which is independent of each other may be executed in any order. -/
theorem executeAll_of_perm {m r : Machine} {ss ts : List Statement} (hperm : ss.Perm ts)
    (h : ss.Pairwise Statement.Independent) (hr : m.executeAll ss = .ok r) :
    m.executeAll ts = .ok r := by
  induction hperm generalizing m with
  | nil => exact hr
  | cons s _ ih =>
    obtain ⟨m', hs, hss⟩ := executeAll_cons_eq_ok_iff.1 hr
    exact executeAll_cons_eq_ok_iff.2 ⟨m', hs, ih h.tail hss⟩
  | swap s t ss =>
    obtain ⟨m₁, ht, hr⟩ := executeAll_cons_eq_ok_iff.1 hr
    obtain ⟨m₂, hs, hss⟩ := executeAll_cons_eq_ok_iff.1 hr
    have hindependent := List.rel_of_pairwise_cons h List.mem_cons_self
    obtain ⟨m', hs', ht'⟩ := (step_iff.2 ht).swap hindependent (step_iff.2 hs)
    rw [executeAll_cons_of_ok hs'.execute, executeAll_cons_of_ok ht'.execute]
    exact hss
  | trans hst _ ih ih' =>
    exact ih' ((hst.pairwise_iff Statement.Independent.symm).1 h) (ih h hr)

/-- If two independent statements go through one after the other, they go through in the
other order, and the machine is the same at the end: its store, its lines and its count. -/
theorem execute_swap {m m₁ m₂ : Machine} {s t : Statement} (h : s.Independent t)
    (hs : m.execute s = (m₁, none)) (ht : m₁.execute t = (m₂, none)) :
    ∃ m', m.execute t = (m', none) ∧ m'.execute s = (m₂, none) := by
  obtain ⟨m', ht', hs'⟩ := (step_iff.2 hs).swap h (step_iff.2 ht)
  exact ⟨m', ht'.execute, hs'.execute⟩

/-- A line is printed and a slot is written, with one value for both and no room for more. -/
theorem execute_swap_slot :
    let m := (new ⟨4, 1, 1⟩).executeEach [.declare "a" ⟨"1"⟩, .makeArray "n" (.sized ⟨"1"⟩)]
    let s : Statement := .print (some ⟨"$\"\x7ba\x7d\""⟩)
    let t : Statement := .setSlot "n" ⟨"0"⟩ ⟨"a"⟩
    let m₁ := (m.execute s).1
    let m₂ := (m₁.execute t).1
    s.Independent t ∧ m.execute s = (m₁, none) ∧ m₁.execute t = (m₂, none) ∧
      (∃ m', m.execute t = (m', none) ∧ m'.execute s = (m₂, none)) ∧
      m₂.console.lines = #["1"] ∧ m₂.store.read (.slot "n" 0) = some (.value (.number 1)) := by
  intro m s t m₁ m₂
  have h : s.Independent t := by
    refine ⟨fun _ => rfl, nofun, ?_⟩
    rintro _ ⟨⟩ (hsubject | ⟨e, he, hinfix⟩)
    · cases hsubject
    · cases List.mem_singleton.1 he
      exact absurd hinfix (by decide)
  have hs : m.execute s = (m₁, none) := Prod.ext rfl (by decide +kernel)
  have ht : m₁.execute t = (m₂, none) := Prod.ext rfl (by decide +kernel)
  exact ⟨h, hs, ht, execute_swap h hs ht, by decide +kernel, by decide +kernel⟩

end Machine

end SnippetConsole
