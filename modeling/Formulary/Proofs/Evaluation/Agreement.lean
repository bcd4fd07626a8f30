import Formulary.Evaluation.Reference
import Formulary.Proofs.Expr.Nodes

/-!
# One node at a time, and two ways to follow references

Seen from outside, the evaluator knows no chains: the outcome of a node is what its operands give
(`inner`), under the line of the node itself (`evaluate_eq_close`). Everything below is proved from
this equation, by one induction on the tree.

Two evaluations may differ in how they follow references, in how deep the tree lies, and in parts of
the tree itself (`Replaces`). If a relation between outcomes is kept by sequences of evaluations
(`Congruence`) and by the lines of nodes, **what it says of the places where they differ it says of
the trees** (`evaluate_related`); for one tree, these places are its variables and the references in
it (`evaluate_related_self`). Three relations are used here:

* `Agrees p q`: the first outcome is a failure with an error in `p`, or the second one is a failure
  with an error in `q`, or they are the same, lines included, and no cycle was found. Up to the first
  reference at which two scopes part their evaluations are one, and there one of them ends;
* having the same result, whatever the depths (`result_evaluate_eq`);
* not failing with an error of some kind (`not_fails_evaluate`).
-/

namespace Formulary

/-! ## One node -/

namespace Scope

variable (scope : Scope)

/-- What a node gives, without its line. -/
def inner : Expr → (depth : Nat) → Outcome Value
  | .number x, _ => .pure (.ofFloat x)
  | .text s, _ => .pure (.text s)
  | .var name, _ => .pure (Environment.valueOf scope.vars name)
  | .reference name, depth => scope.formula name (depth + 1)
  | .bracket e, depth => scope.evaluate e (depth + 1)
  | .minus e, depth => (scope.evaluate e (depth + 1)).bind fun v => .ofOperation v.negate
  | .arith l op r, depth =>
    (scope.evaluate l (depth + 1)).bind fun left =>
      (scope.evaluate r (depth + 1)).bind fun right => .ofOperation (left.arith op right)
  | .compare l op r, depth =>
    (scope.evaluate l (depth + 1)).bind fun left =>
      (scope.evaluate r (depth + 1)).bind fun right => .ofOperation (left.compare op right)
  | .call name es, depth =>
    (scope.evaluateList es (depth + 1)).bind fun vs => scope.apply name vs

/-- **A node is evaluated by evaluating its operands** and putting its line in front. -/
theorem evaluate_eq_close (e : Expr) (depth : Nat) :
    scope.evaluate e depth = scope.close depth e (scope.inner e depth) := by
  cases e with
  | arith l op r => exact evaluate_arith scope l op r depth
  | _ => exact resume_nil scope _

/-- What was evaluated was displayed, if a trace is kept. -/
theorem displayed_evaluate (e : Expr) (depth : Nat) :
    displayed scope.traced (scope.evaluate e depth).result = (scope.evaluate e depth).result := by
  rw [evaluate_eq_close]
  exact displayed_displayed _ _

end Scope

/-! ## Relations that evaluation keeps -/

/-- A relation between outcomes that sequences of evaluations keep. -/
structure Outcome.Congruence (R : {α : Type} → Outcome α → Outcome α → Prop) : Prop where
  pure {α : Type} (a : α) : R (.pure a) (.pure a)
  operation {α : Type} (r : Except OperationError α) : R (.ofOperation r) (.ofOperation r)
  unknown (name : String) (suggestions : List String) :
    R (.fail (.functionNotFound name suggestions) : Outcome Value)
      (.fail (.functionNotFound name suggestions))
  bind {α β : Type} {o o' : Outcome α} {f f' : α → Outcome β} :
    R o o' → (∀ a, R (f a) (f' a)) → R (o.bind f) (o'.bind f')

/-! ## Trees that differ in places -/

/-- Parts of the first tree, if any, were replaced as `Q` says; this gave the second one. -/
inductive Expr.Replaces (Q : Expr → Expr → Prop) : Expr → Expr → Prop
  | here {e e' : Expr} : Q e e' → Replaces Q e e'
  | bracket {e e' : Expr} : Replaces Q e e' → Replaces Q (.bracket e) (.bracket e')
  | minus {e e' : Expr} : Replaces Q e e' → Replaces Q (.minus e) (.minus e')
  | arith {l l' r r' : Expr} {op : ArithOp} : Replaces Q l l' → Replaces Q r r' →
      Replaces Q (.arith l op r) (.arith l' op r')
  | compare {l l' r r' : Expr} {op : CompareOp} : Replaces Q l l' → Replaces Q r r' →
      Replaces Q (.compare l op r) (.compare l' op r')
  | call {name : String} {es es' : List Expr} : es.length = es'.length →
      (∀ p ∈ es.zip es', Replaces Q p.1 p.2) → Replaces Q (.call name es) (.call name es')

namespace Expr

/-- The two trees are one leaf. -/
inductive SameLeaf : Expr → Expr → Prop
  | number (x : Float) : SameLeaf (.number x) (.number x)
  | text (s : String) : SameLeaf (.text s) (.text s)
  | var (name : String) : SameLeaf (.var name) (.var name)
  | reference (name : String) : SameLeaf (.reference name) (.reference name)

theorem SameLeaf.eq {e e' : Expr} (h : e.SameLeaf e') : e = e' := by cases h <;> rfl

/-- Arguments are replaced one by one. -/
theorem replaces_call_map {Q : Expr → Expr → Prop} {f : Expr → Expr} {name : String}
    {es : List Expr} (h : ∀ e ∈ es, e.Replaces Q (f e)) :
    (call name es).Replaces Q (.call name (es.map f)) := by
  refine .call (List.length_map ..).symm fun p hp => ?_
  have hzip : es.zip (es.map f) = es.map fun e => (e, f e) := by
    simpa using List.zip_map' (f := id) (g := f) (l := es)
  rw [hzip] at hp
  obtain ⟨e, he, rfl⟩ := List.mem_map.1 hp
  exact h e he

/-- Each leaf of a tree stands for itself, and has what all nodes have. -/
theorem replaces_of_everywhere {P : Expr → Prop} {e : Expr} (h : e.Everywhere P) :
    e.Replaces (fun l l' => l.SameLeaf l' ∧ P l) e := by
  induction e with
  | number x => exact .here ⟨.number x, h.root⟩
  | text s => exact .here ⟨.text s, h.root⟩
  | var name => exact .here ⟨.var name, h.root⟩
  | reference name => exact .here ⟨.reference name, h.root⟩
  | bracket e ih => exact .bracket (ih (everywhere_bracket.1 h).2)
  | minus e ih => exact .minus (ih (everywhere_minus.1 h).2)
  | arith l op r hl hr =>
    obtain ⟨-, hle, hre⟩ := everywhere_arith.1 h
    exact .arith (hl hle) (hr hre)
  | compare l op r hl hr =>
    obtain ⟨-, hle, hre⟩ := everywhere_compare.1 h
    exact .compare (hl hle) (hr hre)
  | call name es ih =>
    have hes := (everywhere_call.1 h).2
    have hmap : (call name es).Replaces (fun l l' => l.SameLeaf l' ∧ P l)
        (.call name (es.map id)) := replaces_call_map fun e he => ih e he (hes e he)
    rwa [List.map_id] at hmap

/-- Where nothing but the same is put in its place, the tree is the same. -/
theorem Replaces.eq {Q : Expr → Expr → Prop} (hQ : ∀ e e', Q e e' → e = e') {e e' : Expr}
    (h : e.Replaces Q e') : e = e' := by
  induction h with
  | here h => exact hQ _ _ h
  | bracket _ ih => rw [ih]
  | minus _ ih => rw [ih]
  | arith _ _ ihl ihr => rw [ihl, ihr]
  | compare _ _ ihl ihr => rw [ihl, ihr]
  | @call name es es' hlength hes ih =>
    clear hes
    congr 1
    induction es generalizing es' with
    | nil => exact (List.length_eq_zero_iff.1 hlength.symm).symm
    | cons e es ihes =>
      obtain ⟨e', es', rfl⟩ := List.exists_cons_of_length_eq_add_one hlength.symm
      have hhead : e = e' := ih _ List.mem_cons_self
      rw [hhead, ihes (Nat.succ.inj hlength) fun p hp => ih p (List.mem_cons_of_mem _ hp)]

end Expr

namespace Scope

section

variable {R : {α : Type} → Outcome α → Outcome α → Prop} {D : Nat → Nat → Prop}
  {Q : Expr → Expr → Prop} {s s' : Scope}

theorem evaluateList_related (hR : Outcome.Congruence R) {es es' : List Expr} {d d' : Nat}
    (hlength : es.length = es'.length)
    (h : ∀ p ∈ es.zip es', R (s.evaluate p.1 d) (s'.evaluate p.2 d')) :
    R (s.evaluateList es d) (s'.evaluateList es' d') := by
  induction es generalizing es' with
  | nil =>
    obtain rfl := List.length_eq_zero_iff.1 hlength.symm
    exact hR.pure []
  | cons e es ih =>
    obtain ⟨e', es', rfl⟩ := List.exists_cons_of_length_eq_add_one hlength.symm
    have hrest := ih (Nat.succ.inj hlength) fun p hp => h p (List.mem_cons_of_mem _ hp)
    exact hR.bind (h _ List.mem_cons_self) fun v => hR.bind hrest fun vs => hR.pure (v :: vs)

theorem apply_related (hR : Outcome.Congruence R) (hfunctions : s'.functions = s.functions)
    (name : String) (vs : List Value) : R (s.apply name vs) (s'.apply name vs) := by
  unfold apply
  rw [hfunctions]
  cases s.functions.find? name with
  | none => exact hR.unknown name _
  | some f => exact hR.operation (f vs)

/-- **What holds of the places where two trees differ holds of the trees**, at any two depths that
are related. -/
theorem evaluate_related (hR : Outcome.Congruence R)
    (happly : ∀ name vs, R (s.apply name vs) (s'.apply name vs))
    (hD : ∀ d d', D d d' → D (d + 1) (d' + 1))
    (hclose : ∀ d d' e e' o o', D d d' → e.Replaces Q e' → R o o' →
      R (s.close d e o) (s'.close d' e' o'))
    (hQ : ∀ e e' d d', Q e e' → D d d' → R (s.evaluate e d) (s'.evaluate e' d')) {e e' : Expr}
    (he : e.Replaces Q e') (d d' : Nat) (hd : D d d') :
    R (s.evaluate e d) (s'.evaluate e' d') := by
  have hnode {e e' : Expr} {d d' : Nat} (hd : D d d') (he : e.Replaces Q e')
      (hinner : R (s.inner e d) (s'.inner e' d')) : R (s.evaluate e d) (s'.evaluate e' d') := by
    rw [evaluate_eq_close, evaluate_eq_close]
    exact hclose d d' e e' _ _ hd he hinner
  induction he generalizing d d' with
  | here h => exact hQ _ _ d d' h hd
  | bracket he ih => exact hnode hd (.bracket he) (ih _ _ (hD d d' hd))
  | minus he ih =>
    exact hnode hd (.minus he) (hR.bind (ih _ _ (hD d d' hd)) fun v => hR.operation _)
  | arith hl hr ihl ihr =>
    exact hnode hd (.arith hl hr) (hR.bind (ihl _ _ (hD d d' hd)) fun left =>
      hR.bind (ihr _ _ (hD d d' hd)) fun right => hR.operation _)
  | compare hl hr ihl ihr =>
    exact hnode hd (.compare hl hr) (hR.bind (ihl _ _ (hD d d' hd)) fun left =>
      hR.bind (ihr _ _ (hD d d' hd)) fun right => hR.operation _)
  | call hlength hes ih =>
    refine hnode hd (.call hlength hes) (hR.bind ?_ fun vs => happly _ vs)
    exact evaluateList_related hR hlength fun p hp => ih p hp _ _ (hD d d' hd)

/-- **What holds of the references in a tree holds of the tree**, if its variables have the same
values. -/
theorem evaluate_related_self (hR : Outcome.Congruence R)
    (happly : ∀ name vs, R (s.apply name vs) (s'.apply name vs))
    (hD : ∀ d d', D d d' → D (d + 1) (d' + 1))
    (hclose : ∀ d d' e o o', D d d' → R o o' → R (s.close d e o) (s'.close d' e o')) {e : Expr}
    (hvars : ∀ name, .var name ∈ e.nodes →
      Environment.valueOf s'.vars name = Environment.valueOf s.vars name)
    (h : ∀ name d d', .reference name ∈ e.nodes → D d d' →
      R (s.formula name d) (s'.formula name d')) (d d' : Nat) (hd : D d d') :
    R (s.evaluate e d) (s'.evaluate e d') := by
  have hself : e.Replaces (fun l l' => l.SameLeaf l' ∧ l ∈ e.nodes) e :=
    Expr.replaces_of_everywhere fun _ hl => hl
  refine evaluate_related hR happly hD ?_ ?_ hself d d' hd
  · intro d d' e e' o o' hd he ho
    obtain rfl := he.eq fun _ _ hleaf => hleaf.1.eq
    exact hclose d d' e o o' hd ho
  · rintro l l' d d' ⟨hleaf, hl⟩ hd
    rw [evaluate_eq_close, evaluate_eq_close]
    cases hleaf with
    | number x => exact hclose _ _ _ _ _ hd (hR.pure _)
    | text t => exact hclose _ _ _ _ _ hd (hR.pure _)
    | var name =>
      refine hclose _ _ _ _ _ hd ?_
      rw [inner, inner, hvars name hl]
      exact hR.pure _
    | reference name => exact hclose _ _ _ _ _ hd (h name _ _ hl (hD d d' hd))

end

end Scope

/-! ## Kinds of errors -/

def EvaluationError.IsCycle : EvaluationError → Prop
  | .cycle _ => True
  | _ => False

def EvaluationError.IsUnbounded : EvaluationError → Prop
  | .unbounded => True
  | _ => False

namespace Outcome

variable {α β : Type} {p q : EvaluationError → Prop} {o o' : Outcome α} {f f' : α → Outcome β}

/-- The outcome is a failure with an error of a kind. -/
def Fails (p : EvaluationError → Prop) (o : Outcome α) : Prop := ∃ e, o.result = .error e ∧ p e

theorem fails_isCycle_iff :
    o.Fails EvaluationError.IsCycle ↔ ∃ path, o.result = .error (.cycle path) := by
  constructor
  · intro ⟨e, he, hc⟩
    cases e with
    | cycle path => exact ⟨path, he⟩
    | _ => exact hc.elim
  · intro ⟨path, he⟩
    exact ⟨_, he, trivial⟩

theorem fails_isUnbounded_iff :
    o.Fails EvaluationError.IsUnbounded ↔ o.result = .error .unbounded := by
  constructor
  · intro ⟨e, he, hu⟩
    cases e with
    | unbounded => exact he
    | _ => exact hu.elim
  · intro he
    exact ⟨_, he, trivial⟩

theorem bind_of_ok {a : α} (h : o.result = .ok a) :
    o.bind f = ⟨(f a).result, o.lines ++ (f a).lines⟩ := by
  unfold Outcome.bind
  rw [h]

theorem bind_of_error {e : EvaluationError} (h : o.result = .error e) :
    o.bind f = ⟨.error e, o.lines⟩ := by
  unfold Outcome.bind
  rw [h]

theorem Fails.bind (h : o.Fails p) : (o.bind f).Fails p := by
  obtain ⟨e, he, hp⟩ := h
  rw [bind_of_error he]
  exact ⟨e, rfl, hp⟩

theorem not_fails_pure {a : α} : ¬ (pure a).Fails p := by
  intro ⟨e, he, _⟩
  cases he

theorem not_fails_ofOperation (hp : ∀ cause, ¬ p (.operation cause))
    {r : Except OperationError α} : ¬ (ofOperation r).Fails p := by
  intro ⟨e, he, hpe⟩
  cases r with
  | error cause =>
    cases he
    exact hp cause hpe
  | ok a => cases he

theorem not_fails_fail {e : EvaluationError} (h : ¬ p e) : ¬ (fail e : Outcome α).Fails p := by
  intro ⟨e', he, hp⟩
  cases he
  exact h hp

theorem not_fails_bind (h : ¬ o.Fails p) (hf : ∀ a, ¬ (f a).Fails p) : ¬ (o.bind f).Fails p := by
  intro ⟨e, he, hp⟩
  cases hr : o.result with
  | error e' =>
    rw [bind_of_error hr] at he
    cases he
    exact h ⟨e, hr, hp⟩
  | ok a =>
    rw [bind_of_ok hr] at he
    exact hf a ⟨e, he, hp⟩

/-! ## Lines -/

section

variable {scope : Scope} {depth : Nat} {node : Expr} {o : Outcome Value}

theorem result_close_congr {scope' : Scope} {depth' : Nat} {node' : Expr} {o' : Outcome Value}
    (htraced : scope'.traced = scope.traced) (h : o.result = o'.result) :
    (scope.close depth node o).result = (scope'.close depth' node' o').result := by
  show displayed scope.traced o.result = displayed scope'.traced o'.result
  rw [htraced, h]

theorem Fails.close (h : o.Fails p) : (scope.close depth node o).Fails p := by
  obtain ⟨e, he, hp⟩ := h
  refine ⟨e, ?_, hp⟩
  rw [Scope.close, he]
  rfl

/-- The line of a node makes it fail at most by not being shown. -/
theorem not_fails_close (hoperation : ∀ cause, ¬ p (.operation cause)) (h : ¬ o.Fails p) :
    ¬ (scope.close depth node o).Fails p := by
  rintro ⟨e, he, hp⟩
  rcases displayed_eq_or scope.traced o.result with hd | hd
  · exact h ⟨e, hd.symm.trans he, hp⟩
  · cases hd.symm.trans he
    exact hoperation _ hp

end

/-! ## Agreement -/

/-- One of the two failed in its own way, or both are the same and found no cycle. -/
inductive Agrees (p q : EvaluationError → Prop) (o o' : Outcome α) : Prop
  | left (h : o.Fails p)
  | right (h : o'.Fails q)
  | both (h : o' = o) (hc : ¬ o.Fails EvaluationError.IsCycle)

theorem Agrees.bind (h : Agrees p q o o') (hf : ∀ a, Agrees p q (f a) (f' a)) :
    Agrees p q (o.bind f) (o'.bind f') := by
  cases h with
  | left h => exact .left h.bind
  | right h => exact .right h.bind
  | both h hc =>
    subst h
    cases hr : o'.result with
    | error e =>
      rw [bind_of_error hr, bind_of_error hr]
      refine .both rfl fun ⟨e', he', hc'⟩ => hc ⟨e, hr, ?_⟩
      cases he'
      exact hc'
    | ok a =>
      cases hf a with
      | left h =>
        refine .left ?_
        rw [bind_of_ok hr]
        exact h
      | right h =>
        refine .right ?_
        rw [bind_of_ok hr]
        exact h
      | both h hc' =>
        refine .both ?_ ?_
        · rw [bind_of_ok hr, bind_of_ok hr, h]
        · rw [bind_of_ok hr]
          exact hc'

theorem congruence_agrees : Congruence (Agrees p q) where
  pure _ := .both rfl not_fails_pure
  operation _ := .both rfl (not_fails_ofOperation fun _ => id)
  unknown _ _ := .both rfl (not_fails_fail id)
  bind h hf := h.bind hf

theorem congruence_result :
    Congruence fun {α : Type} (o o' : Outcome α) => o.result = o'.result where
  pure _ := rfl
  operation _ := rfl
  unknown _ _ := rfl
  bind {α β o o' f f'} h hf := by
    unfold Outcome.bind
    rw [h]
    cases o'.result with
    | error e => rfl
    | ok a => exact hf a

theorem congruence_not_fails (hoperation : ∀ cause, ¬ p (.operation cause))
    (hunknown : ∀ name suggestions, ¬ p (.functionNotFound name suggestions)) :
    Congruence fun {α : Type} (o _ : Outcome α) => ¬ o.Fails p where
  pure _ := not_fails_pure
  operation _ := not_fails_ofOperation hoperation
  unknown name suggestions := not_fails_fail (hunknown name suggestions)
  bind h hf := not_fails_bind h hf

end Outcome

/-! ## Scopes that follow references differently -/

namespace Scope

open Outcome

variable {p q : EvaluationError → Prop} {s : Scope}

/-- **Scopes that agree on references agree on trees.** -/
theorem evaluate_agrees {formula : String → Nat → Outcome Value}
    (h : ∀ name depth, Agrees p q (s.formula name depth) (formula name depth)) (e : Expr)
    (depth : Nat) : Agrees p q (s.evaluate e depth) (evaluate { s with formula } e depth) := by
  refine evaluate_related_self (D := Eq) congruence_agrees ?_ ?_ ?_ ?_ ?_ depth depth rfl
  · exact apply_related congruence_agrees rfl
  · rintro d _ rfl
    rfl
  · rintro d _ e o o' rfl ho
    cases ho with
    | left h => exact .left h.close
    | right h => exact .right h.close
    | both h hc =>
      subst h
      exact .both rfl (not_fails_close (fun _ => id) hc)
  · exact fun _ _ => rfl
  · rintro name d _ - rfl
    exact h name d

/-- The result of a tree does not depend on its depth if those of references do not. -/
theorem result_evaluate_eq (s s' : Scope) (hvars : s'.vars = s.vars)
    (hfunctions : s'.functions = s.functions) (htraced : s'.traced = s.traced)
    (h : ∀ name d d', (s.formula name d).result = (s'.formula name d').result) (e : Expr)
    (d d' : Nat) : (s.evaluate e d).result = (s'.evaluate e d').result :=
  evaluate_related_self (D := fun _ _ => True) congruence_result
    (apply_related congruence_result hfunctions) (fun _ _ _ => trivial)
    (fun _ _ _ _ _ _ ho => result_close_congr htraced ho) (fun _ _ => by rw [hvars]) (fun name d d' _ _ => h name d d') d d' trivial

/-- A tree does not fail with errors that only references could have. -/
theorem not_fails_evaluate (hoperation : ∀ cause, ¬ p (.operation cause))
    (hunknown : ∀ name suggestions, ¬ p (.functionNotFound name suggestions))
    (h : ∀ name depth, ¬ (s.formula name depth).Fails p) (e : Expr) (depth : Nat) :
    ¬ (s.evaluate e depth).Fails p :=
  evaluate_related_self (D := fun _ _ => True) (congruence_not_fails hoperation hunknown)
    (apply_related (congruence_not_fails hoperation hunknown) rfl) (fun _ _ _ => trivial)
    (fun _ _ _ _ _ _ ho => not_fails_close hoperation ho) (fun _ _ => rfl) (fun name d _ _ _ => h name d) depth depth trivial

end Scope

end Formulary
