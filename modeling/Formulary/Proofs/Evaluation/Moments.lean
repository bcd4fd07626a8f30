import Formulary.Proofs.Evaluation.Dependence
import Formulary.Proofs.Evaluation.Inlining
import Formulary.Proofs.Evaluation.Unfolding
import Mathlib.Data.List.Chain
import Mathlib.Logic.Relation

/-!
# The moments of a guarded evaluation

A guarded evaluation keeps the names of the formulas it is in on a stack: a name is put on it when
the tree of its formula is entered, and taken off when this tree has a value. It is not taken off
when something fails. To say what holds of the stack *at every moment*, the evaluation is cut into
steps here (`Moment.next`). Between two of them either a tree is about to be entered or a result is
about to be handed back, and the nodes around it wait in `Frame`s with what their operands gave so
far. The steps come to what the recursion comes to, and leave the stack that it leaves, also after
an error (`leads_run`).

**The stack says no more than the frames do** (`Intact`): as long as nothing has failed, it has the
names of the references among the waiting nodes, and the trees that are still to be entered lie in
the tree of the last one. So the stack is the same before a tree is entered and after it has a
value; each name on it is referred to in the tree of the one before it; and no name is on it twice,
since a reference to a name on the stack is reported instead of entered (`Nested`). One step keeps
this (`Sound.next`), and therefore every evaluation does.

A reported cycle is such a stack with one of its names once more at the end. Following references,
one comes from this name back to it (`Nested.transGen`).

Main result: `guarded_moments`.
-/

namespace Formulary

open Relation (ReflTransGen TransGen)

/-! ## Steps -/

/-- A node that waits for the value of one of the trees below it. -/
structure Frame where
  node : Expr
  /-- The values of the trees to the left of it. -/
  values : List Value
  /-- The trees to the right of it. -/
  others : List Expr

/-- What is about to happen. -/
inductive Control where
  | enter (e : Expr)
  | back (result : Except EvaluationError Value)

/-- Where an evaluation is. -/
structure Moment where
  control : Control
  /-- The nodes around, the innermost one first. -/
  frames : List Frame
  /-- The names of the formulas being evaluated, the outermost one first. -/
  stack : List String

namespace Environment

/-- Takes the name off the stack that entering the tree below a node has put there. -/
def pathAbove (path : List String) : Expr → List String
  | .reference _ => path.dropLast
  | _ => path

theorem pathBelow_of_operand {path : List String} {e : Expr} (h : ∀ name, e ≠ .reference name) :
    pathBelow path e = path := by
  cases e with
  | reference name => exact absurd rfl (h name)
  | _ => rfl

theorem pathAbove_of_operand {path : List String} {e : Expr} (h : ∀ name, e ≠ .reference name) :
    pathAbove path e = path := by
  cases e with
  | reference name => exact absurd rfl (h name)
  | _ => rfl

theorem pathAbove_pathBelow (path : List String) (e : Expr) :
    pathAbove (pathBelow path e) e = path := by
  cases e with
  | reference name => exact List.dropLast_concat
  | _ => rfl

end Environment

namespace Moment

/-- The next moment, if the evaluation has not ended. -/
def next (env : Environment) (traced : Bool) : Moment → Option Moment
  | ⟨.enter e, frames, stack⟩ =>
    if env.Opens stack e then
      match env.operands e with
      | [] => some ⟨.back (displayed traced (env.combine e [])), frames, stack⟩
      | first :: others =>
        some ⟨.enter first, ⟨e, [], others⟩ :: frames, Environment.pathBelow stack e⟩
    else some ⟨.back (.error (.cycle (Environment.pathBelow stack e))), frames, stack⟩
  | ⟨.back _, [], _⟩ => none
  | ⟨.back (.error cause), _ :: frames, stack⟩ => some ⟨.back (.error cause), frames, stack⟩
  | ⟨.back (.ok v), ⟨e, values, []⟩ :: frames, stack⟩ =>
    some ⟨.back (displayed traced (env.combine e (values ++ [v]))), frames,
      Environment.pathAbove stack e⟩
  | ⟨.back (.ok v), ⟨e, values, following :: others⟩ :: frames, stack⟩ =>
    some ⟨.enter following, ⟨e, values ++ [v], others⟩ :: frames, stack⟩

/-- The second moment comes some steps after the first one. -/
def Reaches (env : Environment) (traced : Bool) : Moment → Moment → Prop :=
  ReflTransGen fun m m' => m.next env traced = some m'

/-- The moment in which the evaluation of a whole tree begins. -/
def start (t : Expr) : Moment := ⟨.enter t, [], []⟩

/-! ## The steps lead to what the recursion gives -/

section

open Recursion Recursion.State

variable {env : Environment} {chains : Chains} {traced : Bool} {frames : List Frame}
  {stack : List String} {e : Expr} {depth : Nat}

/-- What is left of a result when its node has been displayed. -/
def shown (traced : Bool) : Result Value → Result Value
  | (result, s) => (displayed traced result, s)

/-- What a node does with what came of the trees below it, after it had these values of some. -/
def finish (env : Environment) (traced : Bool) (e : Expr) (values : List Value) :
    Result (List Value) → Result Value
  | (.error cause, s) => (.error cause, s)
  | (.ok vs, s) =>
    (displayed traced (env.combine e (values ++ vs)),
      { s with stack := s.stack.map (Environment.pathAbove · e) })

/-- A node runs the trees below it, one after the other. -/
theorem node_eq_finish (hopen : env.Opens stack e) (depth : Nat) (trace : Option (List String)) :
    (node env chains e depth ⟨some stack, trace⟩).map (shown traced) =
      (runList env chains (env.operands e) (depth + 1)
        ⟨some (Environment.pathBelow stack e), trace⟩).map (finish env traced e []) := by
  cases e with
  | number x =>
    simp only [node, Environment.operands, runList]
    rfl
  | text t =>
    simp only [node, Environment.operands, runList]
    rfl
  | var name =>
    simp only [node, Environment.operands, runList]
    rfl
  | reference name =>
    cases hf : env.formulas.find? name with
    | none =>
      simp only [node_unknown hf, Environment.operands, hf, Option.toList, runList]
      show _ = some (Except.error (env.unknownFormula name), State.mk
        (some (Environment.pathAbove (Environment.pathBelow stack _) (.reference name))) trace)
      rw [Environment.pathAbove_pathBelow]
      rfl
    | some f =>
      have hn : name ∉ stack := hopen (by rw [hf]; exact Option.some_ne_none f)
      simp only [node_enter hf hn, Environment.operands, hf, Option.toList, runList,
        Environment.pathBelow]
      rcases run env chains f (depth + 1) ⟨some (stack ++ [name]), trace⟩ with
        _ | ⟨cause | v, s⟩ <;> rfl
  | bracket e =>
    simp only [node, Environment.operands, runList, Environment.pathBelow]
    rcases run env chains e (depth + 1) ⟨some stack, trace⟩ with
      _ | ⟨cause | v, _ | path, t⟩ <;> rfl
  | minus e =>
    simp only [node, Environment.operands, runList, Environment.pathBelow]
    rcases run env chains e (depth + 1) ⟨some stack, trace⟩ with
      _ | ⟨cause | v, _ | path, t⟩ <;> rfl
  | arith l op r =>
    simp only [node_arith, nested, Environment.operands, runList, Environment.pathBelow]
    rcases run env chains l (depth + 1) ⟨some stack, trace⟩ with _ | ⟨cause | v, s⟩
    · rfl
    · rfl
    · show Option.map _ (run env chains r (depth + 1) s >>= _) =
        Option.map _ ((run env chains r (depth + 1) s >>= _) >>= _)
      rcases run env chains r (depth + 1) s with _ | ⟨cause | w, _ | path, t⟩ <;> rfl
  | compare l op r =>
    simp only [node, Environment.operands, runList, Environment.pathBelow]
    rcases run env chains l (depth + 1) ⟨some stack, trace⟩ with _ | ⟨cause | v, s⟩
    · rfl
    · rfl
    · show Option.map _ (run env chains r (depth + 1) s >>= _) =
        Option.map _ ((run env chains r (depth + 1) s >>= _) >>= _)
      rcases run env chains r (depth + 1) s with _ | ⟨cause | w, _ | path, t⟩ <;> rfl
  | call name es =>
    simp only [node, Environment.operands, Environment.pathBelow]
    rcases runList env chains es (depth + 1) ⟨some stack, trace⟩ with _ | ⟨cause | vs, s⟩
    · rfl
    · rfl
    · have hcombine (r : Except EvaluationError Value) (h : env.combine (.call name es) vs = r) :
          some (shown traced (r, s)) =
            some (finish env traced (.call name es) [] (.ok vs, s)) := by
        obtain ⟨_ | path, t⟩ := s <;> rw [finish, List.nil_append, h] <;> rfl
      cases hf : env.functions.find? name with
      | none => exact hcombine _ (by rw [Environment.combine, hf])
      | some f => exact hcombine _ (by rw [Environment.combine, hf])

/-- The run gives a result, and the steps from this moment hand it back to these frames with the
stack that the run is left with. If the result is a value, it is this stack. -/
def Leads (env : Environment) (traced : Bool) (m : Moment) (x : Option (Result Value))
    (frames : List Frame) (stack : List String) : Prop :=
  ∃ result stack' trace, x = some (result, ⟨some stack', trace⟩) ∧ trace.isSome = traced ∧
    m.Reaches env traced ⟨.back result, frames, stack'⟩ ∧ ∀ v, result = .ok v → stack' = stack

theorem Leads.step {m m' : Moment} {x : Option (Result Value)} (hstep : m.next env traced = some m')
    (h : Leads env traced m' x frames stack) : Leads env traced m x frames stack := by
  obtain ⟨result, stack', trace, hx, htrace, hreaches, hstack⟩ := h
  exact ⟨result, stack', trace, hx, htrace, .head hstep hreaches, hstack⟩

theorem leads_back (result : Except EvaluationError Value) {trace : Option (List String)}
    (htrace : trace.isSome = traced) :
    Leads env traced ⟨.back result, frames, stack⟩ (some (result, ⟨some stack, trace⟩)) frames
      stack :=
  ⟨result, stack, trace, rfl, htrace, .refl, fun _ _ => rfl⟩

/-- A frame goes on with a value, and it passes an error on. -/
theorem Leads.bind {m : Moment} {frame : Frame} {stack' : List String}
    {x : Option (Result Value)} {k : Result Value → Option (Result Value)}
    (h : Leads env traced m x (frame :: frames) stack)
    (herror : ∀ cause s, k (.error cause, s) = some (.error cause, s))
    (hok : ∀ v trace, trace.isSome = traced → Leads env traced
      ⟨.back (.ok v), frame :: frames, stack⟩ (k (.ok v, ⟨some stack, trace⟩)) frames stack') :
    Leads env traced m (x >>= k) frames stack' := by
  obtain ⟨result, after, trace, rfl, htrace, hreaches, hafter⟩ := h
  cases result with
  | error cause => exact ⟨.error cause, after, trace, herror _ _, htrace, hreaches.tail rfl, nofun⟩
  | ok v =>
    obtain rfl : after = stack := hafter v rfl
    obtain ⟨result, last, trace', hk, htrace', hreaches', hlast⟩ := hok v trace htrace
    exact ⟨result, last, trace', hk, htrace', hreaches.trans hreaches', hlast⟩

theorem runList_finish (first : Expr) (others : List Expr) (values : List Value) (s : State) :
    (runList env chains (first :: others) depth s).map (finish env traced e values) =
      run env chains first depth s >>= fun
        | (.error cause, s) => some (.error cause, s)
        | (.ok v, s) =>
          (runList env chains others depth s).map (finish env traced e (values ++ [v])) := by
  rw [runList]
  rcases run env chains first depth s with _ | ⟨cause | v, s⟩
  · rfl
  · rfl
  · show Option.map _ (runList env chains others depth s >>= _) =
      Option.map _ (runList env chains others depth s)
    rcases runList env chains others depth s with _ | ⟨cause | vs, s⟩
    · rfl
    · rfl
    · show some (finish env traced e values (.ok (v :: vs), s)) =
        some (finish env traced e _ (.ok vs, s))
      rw [finish, finish, List.append_assoc, List.singleton_append]

/-- A frame has the trees below its node run, one after the other. -/
theorem leads_runList {first : Expr} {others : List Expr}
    (h : ∀ e' ∈ first :: others, ∀ trace frames, trace.isSome = traced →
      Leads env traced ⟨.enter e', frames, stack⟩
        (run env chains e' depth ⟨some stack, trace⟩) frames stack)
    (e : Expr) (values : List Value) {trace : Option (List String)}
    (htrace : trace.isSome = traced) (frames : List Frame) :
    Leads env traced ⟨.enter first, ⟨e, values, others⟩ :: frames, stack⟩
      ((runList env chains (first :: others) depth ⟨some stack, trace⟩).map
        (finish env traced e values))
      frames (Environment.pathAbove stack e) := by
  induction others generalizing first values trace with
  | nil =>
    rw [runList_finish]
    refine (h first List.mem_cons_self trace _ htrace).bind (fun _ _ => rfl)
      fun v trace htrace => .step rfl ?_
    simp only [runList]
    show Leads env traced _ (some (displayed traced (env.combine e ((values ++ [v]) ++ [])),
      ⟨some (Environment.pathAbove stack e), trace⟩)) frames _
    rw [List.append_nil]
    exact leads_back _ htrace
  | cons following others ih =>
    rw [runList_finish]
    refine (h first List.mem_cons_self trace _ htrace).bind (fun _ _ => rfl)
      fun v trace htrace => .step rfl ?_
    exact ih (fun e' he' => h e' (List.mem_cons_of_mem _ he')) (values ++ [v]) htrace

/-- The line of a node does not matter but for what cannot be displayed. -/
theorem leads_of_node {m : Moment} (depth : Nat)
    (h : ∀ trace, trace.isSome = traced → Leads env traced m
      ((node env chains e depth ⟨some stack, trace⟩).map (shown traced)) frames stack)
    {trace : Option (List String)} (htrace : trace.isSome = traced) :
    Leads env traced m (run env chains e depth ⟨some stack, trace⟩) frames stack := by
  cases trace with
  | none =>
    obtain ⟨result, stack', trace', hnode, htrace', hreaches⟩ := h none htrace
    obtain ⟨⟨inner, s⟩, hs, hinner⟩ := Option.map_eq_some_iff.1 hnode
    obtain rfl : traced = false := htrace.symm
    cases hinner
    rw [displayed_false] at hreaches
    exact ⟨inner, stack', trace', (run_of_none rfl e depth).trans hs, htrace', hreaches⟩
  | some lines =>
    obtain ⟨result, stack', trace', hnode, htrace', hreaches⟩ := h (some (lines ++ [""])) htrace
    obtain ⟨⟨inner, s⟩, hs, hinner⟩ := Option.map_eq_some_iff.1 hnode
    obtain rfl : traced = true := htrace.symm
    cases hinner
    let left := leave ⟨some stack', trace'⟩ lines.length depth e inner
    have hresult : left.1 = displayed true inner := leave_result htrace' _ _ _ _
    have hstack : left.2.stack = some stack' := stack_leave _ _ _ _ _
    refine ⟨displayed true inner, stack', left.2.trace, ?_, ?_, hreaches⟩
    · rw [run_of_isSome rfl, ← hresult, ← hstack]
      show node env chains e depth ⟨some stack, some (lines ++ [""])⟩ >>= _ = some left
      rw [hs]
      rfl
    · exact (isSome_trace_leave _ _ _ _ _).trans htrace'

/-- **The steps lead to what the recursion gives**, from within any formulas and with any frames,
and all the time they have its stack. -/
theorem leads_run (path : List String) (e : Expr) :
    ∀ depth trace frames, trace.isSome = traced → Leads env traced ⟨.enter e, frames, path⟩
      (run env chains e depth ⟨some path, trace⟩) frames path := by
  induction path, e using Environment.within_induction env with
  | closes path name f hf hn =>
    intro depth trace frames htrace
    refine leads_of_node depth (fun trace htrace => ?_) htrace
    have hclosed : ¬ env.Opens path (.reference name) := by
      intro hopen
      exact hopen (by rw [hf]; exact Option.some_ne_none f) hn
    rw [node_cycle hf hn]
    exact .step (if_neg hclosed) (leads_back _ htrace)
  | opens path e hopen ih =>
    intro depth trace frames htrace
    refine leads_of_node depth (fun trace htrace => ?_) htrace
    rw [node_eq_finish hopen]
    cases hoperands : env.operands e with
    | nil =>
      have hstep : next env traced ⟨.enter e, frames, path⟩ =
          some ⟨.back (displayed traced (env.combine e [])), frames, path⟩ := by
        rw [next, if_pos hopen, hoperands]
      rw [runList]
      show Leads env traced _ (some (displayed traced (env.combine e []),
        ⟨some (Environment.pathAbove (Environment.pathBelow path e) e), trace⟩)) frames path
      rw [Environment.pathAbove_pathBelow]
      exact .step hstep (leads_back _ htrace)
    | cons first others =>
      have hstep : next env traced ⟨.enter e, frames, path⟩ =
          some ⟨.enter first, ⟨e, [], others⟩ :: frames, Environment.pathBelow path e⟩ := by
        rw [next, if_pos hopen, hoperands]
      rw [hoperands] at ih
      have hframe := leads_runList (fun e' he' => ih e' he' (depth + 1)) e [] htrace frames
      rw [Environment.pathAbove_pathBelow] at hframe
      exact .step hstep hframe

end

end Moment

/-! ## Stacks -/

namespace Environment

theorem nodes_operands_subset {env : Environment} {e : Expr} (h : ∀ name, e ≠ .reference name) :
    ∀ e' ∈ env.operands e, e'.nodes ⊆ e.nodes := by
  cases e with
  | reference name => exact absurd rfl (h name)
  | bracket e => exact List.forall_mem_singleton.2 (List.subset_cons_self _ _)
  | minus e => exact List.forall_mem_singleton.2 (List.subset_cons_self _ _)
  | arith l op r =>
    refine List.forall_mem_cons.2 ⟨?_, List.forall_mem_singleton.2 ?_⟩
    · exact List.subset_cons_of_subset _ (List.subset_append_left _ _)
    · exact List.subset_cons_of_subset _ (List.subset_append_right _ _)
  | compare l op r =>
    refine List.forall_mem_cons.2 ⟨?_, List.forall_mem_singleton.2 ?_⟩
    · exact List.subset_cons_of_subset _ (List.subset_append_left _ _)
    · exact List.subset_cons_of_subset _ (List.subset_append_right _ _)
  | call name es =>
    intro e' he' n hn
    rw [Expr.nodes, Expr.nodesList_eq_flatMap]
    exact List.mem_cons_of_mem _ (List.mem_flatMap.2 ⟨e', he', hn⟩)
  | _ => exact List.forall_mem_nil _

/-- The tree of the first formula has a reference to the second one. -/
def Mentions (env : Environment) (name name' : String) : Prop :=
  ∃ e, env.formulas.find? name = some e ∧ .reference name' ∈ e.nodes

/-- The first name is referred to in the tree, and each other one in the tree of the name before. -/
structure Linked (env : Environment) (t : Expr) (names : List String) : Prop where
  first : ∀ name ∈ names.head?, .reference name ∈ t.nodes
  others : names.IsChain env.Mentions

/-- Following references from `t` through formulas of these names, none of them twice, leads to the
tree `e`. -/
inductive Nested (env : Environment) (t : Expr) : List String → Expr → Prop
  | outside : Nested env t [] t
  | inside {stack : List String} {e f : Expr} {name : String} : Nested env t stack e →
      .reference name ∈ e.nodes → name ∉ stack → env.formulas.find? name = some f →
      Nested env t (stack ++ [name]) f

namespace Nested

variable {env : Environment} {t e : Expr} {stack : List String} {name : String}

theorem nodup (h : env.Nested t stack e) : stack.Nodup := by
  induction h with
  | outside => exact List.nodup_nil
  | inside _ _ hnew _ ih =>
    exact ih.append (List.nodup_singleton _) (List.disjoint_singleton.2 hnew)

theorem bound (h : env.Nested t stack e) : ∀ name ∈ stack, name ∈ env.formulas.keys := by
  induction h with
  | outside => exact nofun
  | inside _ _ _ hf ih =>
    refine List.forall_mem_append.2 ⟨ih, List.forall_mem_singleton.2 ?_⟩
    exact Table.mem_keys_iff.2 ⟨_, hf⟩

/-- The names are different and all in the table, so there are no more of them than formulas. -/
theorem length_le (h : env.Nested t stack e) : stack.length ≤ env.formulas.size := by
  rw [← Table.length_keys]
  exact (h.nodup.subperm h.bound).length_le

theorem reachable (h : env.Nested t stack e) : env.Reachable t e := by
  induction h with
  | outside => exact .self
  | inside _ hname _ hf ih => exact .formula ih hname hf

/-- The name of a reference in the tree that the names lead to can be added to them. -/
theorem linked_concat (h : env.Nested t stack e) (hname : .reference name ∈ e.nodes) :
    env.Linked t (stack ++ [name]) := by
  induction h generalizing name with
  | outside =>
    refine ⟨?_, List.isChain_singleton name⟩
    rintro _ ⟨⟩
    exact hname
  | @inside stack e f last _ hlast _ hf ih =>
    have hstack := ih hlast
    refine ⟨fun first hfirst => hstack.first first ?_, ?_⟩
    · rwa [List.head?_append_of_ne_nil _ (List.append_ne_nil_of_right_ne_nil _ (by simp))] at hfirst
    · rw [List.append_assoc]
      exact List.isChain_split.2 ⟨hstack.others, List.isChain_pair.2 ⟨f, hf, hname⟩⟩

theorem linked (h : env.Nested t stack e) : env.Linked t stack := by
  cases h with
  | outside => exact ⟨nofun, List.isChain_nil⟩
  | inside h hname _ _ => exact h.linked_concat hname

/-- Such a name can be reached from each of them. -/
theorem transGen {name' : String} (h : env.Nested t stack e) (hname : name ∈ stack)
    (hname' : .reference name' ∈ e.nodes) : TransGen env.Mentions name name' := by
  induction h generalizing name' with
  | outside => exact absurd hname List.not_mem_nil
  | @inside stack e f last _ hlast _ hf ih =>
    have hmentions : env.Mentions last name' := ⟨f, hf, hname'⟩
    rcases List.mem_append.1 hname with hstack | hsingle
    · exact (ih hstack hlast).tail hmentions
    · obtain rfl := List.mem_singleton.1 hsingle
      exact .single hmentions

end Nested

end Environment

/-! ## The stack at every moment -/

/-- The names of the references among the frames are those of the stack, and the last one is that of
the formula with the tree `f`, in which all trees lie that the frames have still to enter. -/
inductive Intact (env : Environment) (t : Expr) : List Frame → List String → Expr → Prop
  | outside : Intact env t [] [] t
  | operand {frames : List Frame} {stack : List String} {e f : Expr} {values : List Value}
      {others : List Expr} : Intact env t frames stack f → (∀ name, e ≠ .reference name) →
      (∀ e' ∈ others, e'.nodes ⊆ f.nodes) → Intact env t (⟨e, values, others⟩ :: frames) stack f
  | formula {frames : List Frame} {stack : List String} {e f : Expr} {name : String}
      {values : List Value} : Intact env t frames stack e → .reference name ∈ e.nodes →
      name ∉ stack → env.formulas.find? name = some f →
      Intact env t (⟨.reference name, values, []⟩ :: frames) (stack ++ [name]) f

namespace Intact

variable {env : Environment} {t f : Expr} {frames : List Frame} {stack : List String}

theorem nested (h : Intact env t frames stack f) : env.Nested t stack f := by
  induction h with
  | outside => exact .outside
  | operand _ _ _ ih => exact ih
  | formula _ hname hnew hf ih => exact .inside ih hname hnew hf

/-- The frames determine the stack. -/
theorem stack_eq {stack' : List String} {f' : Expr} (h : Intact env t frames stack f)
    (h' : Intact env t frames stack' f') : stack' = stack := by
  induction h generalizing stack' f' with
  | outside => cases h' with | outside => rfl
  | operand _ hnode _ ih =>
    cases h' with
    | operand h' _ _ => exact ih h'
    | formula => exact absurd rfl (hnode _)
  | formula _ _ _ _ ih =>
    cases h' with
    | operand _ hnode' _ => exact absurd rfl (hnode' _)
    | formula h' _ _ _ => rw [ih h']

end Intact

namespace Moment

open Recursion Recursion.State

/-- What is always the case: the stack is intact, and a tree to be entered lies in that of the last
formula on it. After an error, the stack is still the one where it arose. If it is a cycle, there
was a reference to a name on the stack. -/
def Sound (env : Environment) (traced : Bool) (t : Expr) : Moment → Prop
  | ⟨.enter e, frames, stack⟩ => ∃ f, Intact env t frames stack f ∧ e.nodes ⊆ f.nodes
  | ⟨.back (.ok _), frames, stack⟩ => ∃ f, Intact env t frames stack f
  | ⟨.back (.error cause), _, stack⟩ => ∃ f, env.Nested t stack f ∧
      ∀ path, cause = .cycle path → ∃ frames name, .reference name ∈ f.nodes ∧
        (start t).Reaches env traced ⟨.enter (.reference name), frames, stack⟩ ∧
        name ∈ stack ∧ path = stack ++ [name]

section

variable {env : Environment} {traced : Bool} {t : Expr}

theorem Sound.nested {m : Moment} (h : m.Sound env traced t) : ∃ f, env.Nested t m.stack f := by
  obtain ⟨e | result, frames, stack⟩ := m
  · obtain ⟨f, hintact, -⟩ := h
    exact ⟨f, hintact.nested⟩
  · cases result with
    | error cause =>
      obtain ⟨f, hnested, -⟩ := h
      exact ⟨f, hnested⟩
    | ok v =>
      obtain ⟨f, hintact⟩ := h
      exact ⟨f, hintact.nested⟩

/-- What a node makes of the values of its operands is no cycle. -/
theorem sound_combine {frames : List Frame} {stack : List String} {f : Expr}
    (h : Intact env t frames stack f) (e : Expr) (vs : List Value) :
    Sound env traced t ⟨.back (displayed traced (env.combine e vs)), frames, stack⟩ := by
  cases hr : displayed traced (env.combine e vs) with
  | error cause =>
    refine ⟨f, h.nested, ?_⟩
    rintro path rfl
    rcases displayed_eq_or traced (env.combine e vs) with hd | hd
    · exact absurd (hd.symm.trans hr) (Environment.combine_ne_cycle e vs path)
    · cases hd.symm.trans hr
  | ok v => exact ⟨f, h⟩

/-- A node of the last tree on the stack is entered: the trees below it lie in the same one, or in
that of the formula it refers to, whose name is put on the stack. -/
theorem sound_enter {frames : List Frame} {stack : List String} {e f first : Expr}
    {others : List Expr} (h : Intact env t frames stack f) (he : e.nodes ⊆ f.nodes)
    (hopen : env.Opens stack e) (hoperands : env.operands e = first :: others) :
    Sound env traced t
      ⟨.enter first, ⟨e, [], others⟩ :: frames, Environment.pathBelow stack e⟩ := by
  by_cases hnode : ∀ name, e ≠ .reference name
  · have hsubset : ∀ e' ∈ env.operands e, e'.nodes ⊆ e.nodes :=
      Environment.nodes_operands_subset hnode
    rw [hoperands] at hsubset
    obtain ⟨hfirst, hothers⟩ := List.forall_mem_cons.1 hsubset
    rw [Environment.pathBelow_of_operand hnode]
    exact ⟨f, .operand h hnode fun e' he' => List.Subset.trans (hothers e' he') he,
      List.Subset.trans hfirst he⟩
  · obtain ⟨name, rfl⟩ : ∃ name, e = .reference name := by
      simpa only [ne_eq, not_forall, not_not] using hnode
    rw [Environment.operands] at hoperands
    cases hg : env.formulas.find? name with
    | none =>
      rw [hg] at hoperands
      cases hoperands
    | some g =>
      rw [hg] at hoperands
      obtain ⟨rfl, rfl⟩ : g = first ∧ [] = others := List.cons.inj hoperands
      have hnew : name ∉ stack := hopen (by rw [hg]; exact Option.some_ne_none g)
      exact ⟨g, .formula h (he List.mem_cons_self) hnew hg, List.Subset.refl _⟩

/-- A reference to a name on the stack is reported, and the stack is left as it is. -/
theorem sound_cycle {frames : List Frame} {stack : List String} {e f : Expr}
    (h : Intact env t frames stack f) (he : e.nodes ⊆ f.nodes) (hclosed : ¬ env.Opens stack e)
    (hreached : (start t).Reaches env traced ⟨.enter e, frames, stack⟩) :
    Sound env traced t ⟨.back (.error (.cycle (Environment.pathBelow stack e))), frames, stack⟩ := by
  cases e with
  | reference name =>
    obtain ⟨-, hname⟩ := Classical.not_imp.1 hclosed
    refine ⟨f, h.nested, ?_⟩
    rintro path ⟨⟩
    exact ⟨frames, name, he List.mem_cons_self, hreached, not_not.1 hname, rfl⟩
  | _ => exact absurd trivial hclosed

/-- The last of the trees below a node has a value, and the name of its formula, if the node is a
reference, is taken off the stack. -/
theorem sound_combine_above {frames : List Frame} {stack : List String} {e f : Expr}
    {values : List Value} (h : Intact env t (⟨e, values, []⟩ :: frames) stack f) (vs : List Value) :
    Sound env traced t ⟨.back (displayed traced (env.combine e vs)), frames, Environment.pathAbove stack e⟩ := by
  cases h with
  | operand h hnode _ =>
    rw [Environment.pathAbove_of_operand hnode]
    exact sound_combine h e vs
  | @formula _ before _ _ name _ h _ _ _ =>
    rw [Environment.pathAbove, List.dropLast_concat]
    exact sound_combine h (.reference name) vs

/-- **One step keeps it.** -/
theorem Sound.next {m m' : Moment} (h : m.Sound env traced t) (hreached : (start t).Reaches env traced m)
    (hstep : m.next env traced = some m') : m'.Sound env traced t := by
  obtain ⟨e | result, frames, stack⟩ := m
  · obtain ⟨f, hintact, he⟩ := h
    by_cases hopen : env.Opens stack e
    · rw [Moment.next, if_pos hopen] at hstep
      cases hoperands : env.operands e with
      | nil =>
        rw [hoperands] at hstep
        cases hstep
        exact sound_combine hintact e []
      | cons first others =>
        rw [hoperands] at hstep
        cases hstep
        exact sound_enter hintact he hopen hoperands
    · rw [Moment.next, if_neg hopen] at hstep
      cases hstep
      exact sound_cycle hintact he hopen hreached
  · obtain _ | ⟨⟨e, values, others⟩, frames⟩ := frames
    · cases hstep
    · cases result with
      | error cause =>
        cases hstep
        exact h
      | ok v =>
        obtain ⟨f, hintact⟩ := h
        cases others with
        | nil =>
          cases hstep
          exact sound_combine_above hintact _
        | cons following others =>
          cases hstep
          cases hintact with
          | operand hintact hnode hothers =>
            obtain ⟨hfollowing, hothers⟩ := List.forall_mem_cons.1 hothers
            exact ⟨f, .operand hintact hnode hothers, hfollowing⟩

theorem sound_of_reaches {m : Moment} (h : (start t).Reaches env traced m) : m.Sound env traced t := by
  induction h with
  | refl => exact ⟨t, .outside, List.Subset.refl _⟩
  | tail hreaches hstep ih => exact ih.next hreaches hstep

/-- The recursion and the steps come to the result of the evaluator, and to the same stack. -/
theorem run_start (env : Environment) (chains : Chains) (t : Expr) (traced : Bool) :
    ∃ stack trace, run env chains t 0 (.start ⟨true, traced⟩) =
      some ((env.evaluate ⟨true, traced⟩ t).result, ⟨some stack, trace⟩) ∧
    (start t).Reaches env traced ⟨.back (env.evaluate ⟨true, traced⟩ t).result, [], stack⟩ := by
  have htrace : (State.start ⟨true, traced⟩).trace.isSome = traced := by
    cases traced <;> rfl
  obtain ⟨stack', hrun, -⟩ := simulates_scopeFrom (some []) t 0
    (Environment.not_isUnbounded_within [] t 0) (State.start ⟨true, traced⟩).trace htrace
  have hleads : Leads env traced (start t) (run env chains t 0 (.start ⟨true, traced⟩)) [] [] :=
    leads_run [] t 0 _ [] htrace
  obtain ⟨result, stack, trace, hrun', -, hreaches, -⟩ := hleads
  obtain ⟨rfl, -⟩ : result = (env.evaluate ⟨true, traced⟩ t).result ∧ _ :=
    Prod.mk.inj (Option.some.inj (hrun'.symm.trans hrun))
  exact ⟨stack, trace, hrun', hreaches⟩

/-- **At every moment of a guarded evaluation**, the names on the stack are different ones of
formulas, each referred to in the tree of the one before it, and so there are no more of them than
formulas. The stack is that of the recursion, and a tree that has a value leaves it as it was. If a
cycle is reported, it is the stack with one name of it added, to which the last tree refers. This
does not happen if no name that the tree can come to refers to itself, directly or through others.
-/
theorem guarded_moments (env : Environment) (chains : Chains) (t : Expr) (traced : Bool) :
    (∀ m : Moment, (start t).Reaches env traced m → m.stack.Nodup ∧
      (∀ name ∈ m.stack, name ∈ env.formulas.keys) ∧ env.Linked t m.stack ∧
      m.stack.length ≤ env.formulas.size) ∧
    (∀ e frames stack, (start t).Reaches env traced ⟨.enter e, frames, stack⟩ →
      (∀ depth trace, trace.isSome = traced → Leads env traced ⟨.enter e, frames, stack⟩
        (run env chains e depth ⟨some stack, trace⟩) frames stack) ∧
      ∀ v stack', (start t).Reaches env traced ⟨.back (.ok v), frames, stack'⟩ → stack' = stack) ∧
    (∃ stack trace,
      (start t).Reaches env traced ⟨.back (env.evaluate ⟨true, traced⟩ t).result, [], stack⟩ ∧
      run env chains t 0 (.start ⟨true, traced⟩) =
        some ((env.evaluate ⟨true, traced⟩ t).result, ⟨some stack, trace⟩) ∧
      ∀ path, (env.evaluate ⟨true, traced⟩ t).result = .error (.cycle path) →
        env.Linked t path ∧ ∃ frames name, path = stack ++ [name] ∧ name ∈ stack ∧
          (start t).Reaches env traced ⟨.enter (.reference name), frames, stack⟩) ∧
    ((∀ name, env.Refers t name → ¬ TransGen env.Mentions name name) →
      ∀ path, (env.evaluate ⟨true, traced⟩ t).result ≠ .error (.cycle path)) := by
  obtain ⟨stack, trace, hrun, hreaches⟩ := run_start env chains t traced
  have hcycle : ∀ path, (env.evaluate ⟨true, traced⟩ t).result = .error (.cycle path) →
      ∃ f, env.Nested t stack f ∧ ∃ frames name, .reference name ∈ f.nodes ∧
        (start t).Reaches env traced ⟨.enter (.reference name), frames, stack⟩ ∧ name ∈ stack ∧
        path = stack ++ [name] := by
    intro path hpath
    rw [hpath] at hreaches
    obtain ⟨f, hnested, hreported⟩ := sound_of_reaches hreaches
    exact ⟨f, hnested, hreported path rfl⟩
  refine ⟨?_, ?_, ⟨stack, trace, hreaches, hrun, ?_⟩, ?_⟩
  · intro m hm
    obtain ⟨f, hnested⟩ := (sound_of_reaches hm).nested
    exact ⟨hnested.nodup, hnested.bound, hnested.linked, hnested.length_le⟩
  · intro e frames stack he
    refine ⟨fun depth trace => leads_run stack e depth trace frames, ?_⟩
    intro v stack' hv
    obtain ⟨f, hintact, -⟩ := sound_of_reaches he
    obtain ⟨f', hintact'⟩ := sound_of_reaches hv
    exact hintact.stack_eq hintact'
  · intro path hpath
    obtain ⟨f, hnested, frames, name, hname, hentered, hmem, rfl⟩ := hcycle path hpath
    exact ⟨hnested.linked_concat hname, frames, name, rfl, hmem, hentered⟩
  · intro hacyclic path hpath
    obtain ⟨f, hnested, frames, name, hname, -, hmem, -⟩ := hcycle path hpath
    exact hacyclic name ⟨f, hnested.reachable, hname⟩ (hnested.transGen hmem hname)

/-- Two formulas refer to each other, and a tree has two references to a third one. -/
theorem guarded_moments_shared :
    let f : Expr := .reference "g"
    let g : Expr := .bracket (.reference "f")
    let base : Expr := .text ""
    let env : Environment := ⟨.empty, .empty, .ofList [("f", f), ("g", g), ("base", base)]⟩
    let t : Expr := .bracket (.reference "f")
    let shared : Expr := .compare (.reference "base") .eq (.reference "base")
    let around : List Frame := [⟨.reference "base", [], []⟩, ⟨shared, [], [.reference "base"]⟩]
    let around' : List Frame := [⟨g, [], []⟩, ⟨f, [], []⟩, ⟨.reference "f", [], []⟩, ⟨t, [], []⟩]
    (start shared).Reaches env false ⟨.enter base, around, ["base"]⟩ ∧
      (start shared).Reaches env false ⟨.back (.ok (.text "")), around, ["base"]⟩ ∧
      (∀ v stack, (start shared).Reaches env false ⟨.back (.ok v), around, stack⟩ → stack = ["base"]) ∧
      (∀ name, env.Refers shared name → ¬ TransGen env.Mentions name name) ∧
      (∀ path, (env.evaluate {} shared).result ≠ .error (.cycle path)) ∧
      (start t).Reaches env false ⟨.enter (.reference "f"), around', ["f", "g"]⟩ ∧
      ["f", "g"].length ≤ env.formulas.size ∧
      (env.evaluate {} t).result = .error (.cycle ["f", "g", "f"]) ∧
      env.Linked t ["f", "g", "f"] := by
  intro f g base env t shared around around'
  have henter : (start shared).Reaches env false ⟨.enter base, around, ["base"]⟩ :=
    .head rfl (.head rfl .refl)
  have hback : (start shared).Reaches env false ⟨.back (.ok (.text "")), around, ["base"]⟩ :=
    henter.tail rfl
  have hbase : ∀ name, ¬ env.Mentions "base" name := by
    rintro name ⟨e, he, hname⟩
    obtain rfl : base = e := Option.some.inj he
    simp [base, Expr.nodes] at hname
  have hrefers : ∀ name, env.Refers shared name → name = "base" := by
    rintro name ⟨e, he, hname⟩
    induction he generalizing name with
    | self => simpa [shared, Expr.nodes] using hname
    | formula _ hlast hf ih =>
      obtain rfl := ih _ hlast
      exact absurd ⟨_, hf, hname⟩ (hbase name)
  have hacyclic : ∀ name, env.Refers shared name → ¬ TransGen env.Mentions name name := by
    intro name hname hround
    obtain rfl := hrefers name hname
    obtain ⟨following, hfirst, -⟩ := TransGen.head'_iff.1 hround
    exact hbase following hfirst
  have hreaches : (start t).Reaches env false ⟨.enter (.reference "f"), around', ["f", "g"]⟩ :=
    .head rfl (.head rfl (.head rfl (.head rfl .refl)))
  have hcycle : (env.evaluate {} t).result = .error (.cycle ["f", "g", "f"]) := by
    have hf : env.formulas.find? "f" = some f := by rfl
    have hg : env.formulas.find? "g" = some g := by rfl
    show ((env.within false []).evaluate t 0).result = _
    rw [Environment.result_bracket, Environment.result_reference,
      Environment.guardedFormula_enter hf List.not_mem_nil, Environment.result_reference,
      Environment.guardedFormula_enter hg (by decide), Environment.result_bracket,
      Environment.result_reference, Environment.guardedFormula_cycle hf (by decide)]
    rfl
  obtain ⟨-, hcompleted, -, hnone⟩ := guarded_moments env .spine shared false
  obtain ⟨hmoments, -, ⟨_, _, -, -, hreported⟩, -⟩ := guarded_moments env .spine t false
  exact ⟨henter, hback, (hcompleted _ _ _ henter).2, hacyclic, hnone hacyclic, hreaches,
    (hmoments _ hreaches).2.2.2, hcycle, (hreported _ hcycle).1⟩

end

end Moment

end Formulary
