import Formulary.Proofs.Evaluation.Inlining

/-!
# Nothing comes of nothing

**An expression without a value leaves every operation around it without one, and none of them
fails** (`evaluate_fill_empty`), if only their other operands have values of some kind. What those
are does not matter: each operator looks for an empty operand before it looks at anything else, so
neither an operand of a wrong type nor an integer too large for a double is noticed.

The operations around an expression are a tree with a hole, a `Context`. It may go through
references: behind a reference, the hole lies in the tree of the formula. The induction is on the
context, over evaluations of the trees in it by themselves. At a reference this needs more than
that its formula is empty by itself, as its tree is evaluated with one more name on the path; but
an evaluation that ends without a cycle does not depend on the path.
-/

namespace Formulary

/-! ## Operators -/

namespace Outcome

variable {α β γ : Type} {x : Outcome α} {y : Outcome β} {a : α} {b : β}

theorem result_bind_ofOperation {f : α → Except OperationError γ} (h : x.result = .ok a) :
    (x.bind fun a => .ofOperation (f a)).result = (f a).mapError .operation := by
  rw [bind_of_ok h]
  rfl

theorem result_bind_bind_ofOperation {f : α → β → Except OperationError γ} (h : x.result = .ok a)
    (h' : y.result = .ok b) :
    (x.bind fun a => y.bind fun b => .ofOperation (f a b)).result =
      (f a b).mapError .operation := by
  rw [bind_of_ok h]
  exact result_bind_ofOperation h'

end Outcome

namespace Scope

open Outcome

variable {s : Scope} {e l r : Expr} {v left right : Value} {d : Nat}

theorem result_evaluate_minus (h : (s.evaluate e (d + 1)).result = .ok v) :
    (s.evaluate (.minus e) d).result = displayed s.traced (v.negate.mapError .operation) := by
  rw [evaluate_eq_close]
  exact congrArg (displayed s.traced) (result_bind_ofOperation h)

theorem result_evaluate_arith {op : ArithOp} (hl : (s.evaluate l (d + 1)).result = .ok left)
    (hr : (s.evaluate r (d + 1)).result = .ok right) :
    (s.evaluate (.arith l op r) d).result =
      displayed s.traced ((left.arith op right).mapError .operation) := by
  rw [evaluate_eq_close]
  exact congrArg (displayed s.traced) (result_bind_bind_ofOperation hl hr)

theorem result_evaluate_compare {op : CompareOp} (hl : (s.evaluate l (d + 1)).result = .ok left)
    (hr : (s.evaluate r (d + 1)).result = .ok right) :
    (s.evaluate (.compare l op r) d).result =
      displayed s.traced ((left.compare op right).mapError .operation) := by
  rw [evaluate_eq_close]
  exact congrArg (displayed s.traced) (result_bind_bind_ofOperation hl hr)

end Scope

/-! ## Operations around a hole -/

/-- Operations around a hole. The hole of `reference name formula` lies in the tree of the formula
with this name. -/
inductive Context where
  | hole
  | bracket (inner : Context)
  | minus (operand : Context)
  | arithLeft (left : Context) (op : ArithOp) (right : Expr)
  | arithRight (left : Expr) (op : ArithOp) (right : Context)
  | compareLeft (left : Context) (op : CompareOp) (right : Expr)
  | compareRight (left : Expr) (op : CompareOp) (right : Context)
  | reference (name : String) (formula : Context)

namespace Context

/-- The tree with an expression in the hole, which is not seen if it lies behind a reference. -/
def fill (e : Expr) : Context → Expr
  | hole => e
  | bracket c => .bracket (fill e c)
  | minus c => .minus (fill e c)
  | arithLeft c op r => .arith (fill e c) op r
  | arithRight l op c => .arith l op (fill e c)
  | compareLeft c op r => .compare (fill e c) op r
  | compareRight l op c => .compare l op (fill e c)
  | reference name _ => .reference name

/-- The formulas on the way to the hole are those of the environment. -/
def Bound (env : Environment) (e : Expr) : Context → Prop
  | hole => True
  | bracket c | minus c | arithLeft c _ _ | arithRight _ _ c | compareLeft c _ _
  | compareRight _ _ c => Bound env e c
  | reference name c => env.formulas.find? name = some (c.fill e) ∧ Bound env e c

/-- The other operands of the operations around the hole, behind references as well. -/
def others : Context → List Expr
  | hole => []
  | bracket c | minus c | reference _ c => others c
  | arithLeft c _ r | compareLeft c _ r => r :: others c
  | arithRight l _ c | compareRight l _ c => l :: others c

end Context

namespace Environment

open Outcome

variable {env : Environment} {traced : Bool} {e f : Expr} {v : Value} {name : String} {c : Context}

/-- By itself, the tree has this value, however deep it lies. -/
def Gives (env : Environment) (traced : Bool) (e : Expr) (v : Value) : Prop :=
  ∀ d, ((env.within traced []).evaluate e d).result = .ok v

theorem gives_of_result (h : ((env.within traced []).evaluate e 0).result = .ok v) :
    env.Gives traced e v :=
  fun d => (result_within_eq [] e d 0).trans h

/-- A tree has a value without the guard against cycles just if it has it with the guard. -/
theorem result_evaluate_iff (mode : Mode) :
    (env.evaluate mode e).result = .ok v ↔ env.Gives mode.traced e v := by
  obtain ⟨_ | _, traced⟩ := mode
  · show ((env.bounded traced env.formulas.size).evaluate e 0).result = _ ↔ _
    by_cases hc : ((env.within traced []).evaluate e 0).Fails EvaluationError.IsCycle
    · have hu := fails_isUnbounded_iff.1 (bounded_unbounded hc env.formulas.size)
      obtain ⟨path, hpath⟩ := fails_isCycle_iff.1 hc
      refine iff_of_false ?_ ?_
      · rw [hu]
        nofun
      · intro h
        cases hpath.symm.trans (h 0)
    · rw [bounded_eq_within (Nat.le_refl _) hc]
      exact ⟨gives_of_result, fun h => h 0⟩
  · exact ⟨gives_of_result, fun h => h 0⟩

/-- A reference has the value of its formula. -/
theorem Gives.reference (hf : env.formulas.find? name = some f) (h : env.Gives traced f v) :
    env.Gives traced (.reference name) v := by
  intro d
  have hbracket : ((env.within traced []).evaluate (.bracket f) d).result = .ok v := by
    rw [result_bracket]
    exact h (d + 1)
  have halike : Alike ((env.within traced []).evaluate (.reference name) d)
      ((env.within traced []).evaluate (.bracket f) d) := alike_bracket hf d d
  rcases halike with heq | ⟨-, hc⟩
  · exact heq.trans hbracket
  · obtain ⟨path, hpath⟩ := fails_isCycle_iff.1 hc
    cases hpath.symm.trans hbracket

theorem gives_fill_empty (hbound : c.Bound env e) (he : env.Gives traced e .empty)
    (hothers : ∀ o ∈ c.others, ∃ v, env.Gives traced o v) :
    env.Gives traced (c.fill e) .empty := by
  induction c with
  | hole => exact he
  | bracket c ih =>
    intro d
    show ((env.within traced []).evaluate (.bracket (c.fill e)) d).result = _
    rw [result_bracket]
    exact ih hbound hothers (d + 1)
  | minus c ih =>
    intro d
    refine (Scope.result_evaluate_minus (ih hbound hothers (d + 1))).trans ?_
    rw [Value.negate_empty]
    exact displayed_empty traced
  | arithLeft c op r ih =>
    obtain ⟨⟨v, hr⟩, hothers⟩ := List.forall_mem_cons.1 hothers
    intro d
    refine (Scope.result_evaluate_arith (ih hbound hothers (d + 1)) (hr (d + 1))).trans ?_
    rw [Value.arith_empty_left]
    exact displayed_empty traced
  | arithRight l op c ih =>
    obtain ⟨⟨v, hl⟩, hothers⟩ := List.forall_mem_cons.1 hothers
    intro d
    refine (Scope.result_evaluate_arith (hl (d + 1)) (ih hbound hothers (d + 1))).trans ?_
    rw [Value.arith_empty_right]
    exact displayed_empty traced
  | compareLeft c op r ih =>
    obtain ⟨⟨v, hr⟩, hothers⟩ := List.forall_mem_cons.1 hothers
    intro d
    refine (Scope.result_evaluate_compare (ih hbound hothers (d + 1)) (hr (d + 1))).trans ?_
    rw [Value.compare_empty_left]
    exact displayed_empty traced
  | compareRight l op c ih =>
    obtain ⟨⟨v, hl⟩, hothers⟩ := List.forall_mem_cons.1 hothers
    intro d
    refine (Scope.result_evaluate_compare (hl (d + 1)) (ih hbound hothers (d + 1))).trans ?_
    rw [Value.compare_empty_right]
    exact displayed_empty traced
  | reference name c ih => exact .reference hbound.1 (ih hbound.2 hothers)

/-- **Absence propagates and never fails**: if the expression in the hole is empty and all other
operands have values, then the whole is empty. -/
theorem evaluate_fill_empty (mode : Mode) (hbound : c.Bound env e)
    (he : (env.evaluate mode e).result = .ok .empty)
    (hothers : ∀ o ∈ c.others, ∃ v, (env.evaluate mode o).result = .ok v) :
    (env.evaluate mode (c.fill e)).result = .ok .empty := by
  rw [result_evaluate_iff] at he ⊢
  refine gives_fill_empty hbound he fun o ho => ?_
  obtain ⟨v, hv⟩ := hothers o ho
  exact ⟨v, (result_evaluate_iff mode).1 hv⟩

/-- An unknown variable behind a reference, between an integer beyond all doubles, a text and a
sequence. -/
theorem evaluate_fill_empty_unknown :
    let f : Expr := .minus (.arith (.var "large") .pow (.var "unknown"))
    let env : Environment :=
      ⟨.ofList [("large", .number (.integer (10 ^ 400))), ("text", .text "a")], .empty,
        .ofList [("f", f)]⟩
    let c : Context := .compareRight (.var "a:z") .ne <| .bracket <|
      .compareLeft (.reference "f" (.minus (.arithRight (.var "large") .pow .hole))) .lt
        (.var "text")
    c.Bound env (.var "unknown") ∧ (env.evaluate {} (.var "unknown")).result = .ok .empty ∧
      (∀ o ∈ c.others, ∃ v, (env.evaluate {} o).result = .ok v) ∧
      (env.evaluate {} (c.fill (.var "unknown"))).result = .ok .empty := by
  intro f env c
  have hbound : c.Bound env (.var "unknown") := ⟨by rfl, trivial⟩
  have he : (env.evaluate {} (.var "unknown")).result = .ok .empty := by rfl
  have hothers : ∀ o ∈ c.others, ∃ v, (env.evaluate {} o).result = .ok v := by
    intro o ho
    have ho : o ∈ [Expr.var "a:z", .var "text", .var "large"] := ho
    fin_cases ho
    · exact ⟨_, rfl⟩
    · exact ⟨_, rfl⟩
    · exact ⟨_, rfl⟩
  exact ⟨hbound, he, hothers, evaluate_fill_empty {} hbound he hothers⟩

end Environment

end Formulary
