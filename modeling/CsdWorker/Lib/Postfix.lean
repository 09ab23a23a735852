import Mathlib

/-! # Postfix notation

A binary expression as the sequence of its tokens, and the machine that runs such a sequence on a stack. Leaves and
operators compute their values in a monad. The machine comes to the value of the expression whatever lies below on the
stack, and an operator always finds two values there.
-/

namespace CsdWorker.Postfix

set_option autoImplicit false

universe u v w

inductive Token (α β : Type u) where
  | leaf (a : α)
  | operator (b : β)

inductive Term (α β : Type u) where
  | leaf (a : α)
  | node (b : β) (left right : Term α β)

variable {α β : Type u}

namespace Term

def tokens : Term α β → List (Token α β)
  | leaf a => [.leaf a]
  | node b left right => left.tokens ++ (right.tokens ++ [.operator b])

theorem tokens_eq_leaf_cons (t : Term α β) : ∃ a rest, t.tokens = .leaf a :: rest := by
  induction t with
  | leaf a => exact ⟨a, [], rfl⟩
  | node b left right ihLeft _ =>
    obtain ⟨a, rest, hLeft⟩ := ihLeft
    exact ⟨a, rest ++ (right.tokens ++ [.operator b]), by rw [tokens, hLeft, List.cons_append]⟩

end Term

section Machine
variable {m : Type v → Type w} [Monad m] {ν : Type v}

/-- `underflow` is what the machine does if an operator finds fewer than two values. -/
def run (underflow : m (List ν)) (value : α → m ν) (apply : β → ν → ν → m ν) : List (Token α β) → List ν → m (List ν)
  | [], stack => pure stack
  | .leaf a :: rest, stack => do
    let x ← value a
    run underflow value apply rest (x :: stack)
  | .operator b :: rest, rv :: lv :: stack => do
    let x ← apply b lv rv
    run underflow value apply rest (x :: stack)
  | .operator _ :: _, _ => underflow

def Term.eval (value : α → m ν) (apply : β → ν → ν → m ν) : Term α β → m ν
  | .leaf a => value a
  | .node b left right => do
    let lv ← left.eval value apply
    let rv ← right.eval value apply
    apply b lv rv

/-- The values of several expressions, the last one on top. -/
def pushAll (value : α → m ν) (apply : β → ν → ν → m ν) : List (Term α β) → List ν → m (List ν)
  | [], stack => pure stack
  | t :: ts, stack => do
    let x ← t.eval value apply
    pushAll value apply ts (x :: stack)

variable [LawfulMonad m] (underflow : m (List ν)) (value : α → m ν) (apply : β → ν → ν → m ν)

theorem run_tokens_append (t : Term α β) (rest : List (Token α β)) (stack : List ν) :
    run underflow value apply (t.tokens ++ rest) stack =
      (do let x ← t.eval value apply; run underflow value apply rest (x :: stack)) := by
  induction t generalizing rest stack with
  | leaf a => rfl
  | node b left right ihLeft ihRight =>
    rw [Term.tokens, List.append_assoc, List.append_assoc, ihLeft, Term.eval, bind_assoc]
    refine bind_congr fun lv => ?_
    rw [ihRight, bind_assoc]
    rfl

theorem run_tokens (t : Term α β) (stack : List ν) :
    run underflow value apply t.tokens stack = (do let x ← t.eval value apply; pure (x :: stack)) := by
  have h := run_tokens_append underflow value apply t [] stack
  rw [List.append_nil] at h
  exact h

theorem run_flatMap_tokens_append (ts : List (Term α β)) (rest : List (Token α β)) (stack : List ν) :
    run underflow value apply (ts.flatMap Term.tokens ++ rest) stack =
      (do let below ← pushAll value apply ts stack; run underflow value apply rest below) := by
  induction ts generalizing stack with
  | nil => rw [List.flatMap_nil, List.nil_append, pushAll, pure_bind]
  | cons t ts ih =>
    rw [List.flatMap_cons, List.append_assoc, run_tokens_append, pushAll, bind_assoc]
    exact bind_congr fun x => ih (x :: stack)

end Machine

/-- How high a stack of height `h` is after the tokens; an operator needs two values. -/
def height : Nat → List (Token α β) → Option Nat
  | h, [] => some h
  | h, .leaf _ :: rest => height (h + 1) rest
  | h + 2, .operator _ :: rest => height (h + 1) rest
  | _, .operator _ :: _ => none

section Height

theorem height_tokens_append (t : Term α β) (rest : List (Token α β)) (h : Nat) :
    height h (t.tokens ++ rest) = height (h + 1) rest := by
  induction t generalizing rest h with
  | leaf a => rfl
  | node b left right ihLeft ihRight =>
    rw [Term.tokens, List.append_assoc, List.append_assoc, ihLeft, ihRight]
    rfl

theorem height_flatMap_tokens (ts : List (Term α β)) (h : Nat) :
    height h (ts.flatMap Term.tokens) = some (h + ts.length) := by
  induction ts generalizing h with
  | nil => rfl
  | cons t ts ih =>
    rw [List.flatMap_cons, height_tokens_append, ih, List.length_cons]
    congr 1
    omega

/-- An operator in a sequence that can be run stands behind a part that leaves at least two values. -/
theorem height_before_operator {before after : List (Token α β)} {b : β} {h k : Nat}
    (hRun : height h (before ++ .operator b :: after) = some k) : ∃ n, height h before = some (n + 2) := by
  induction before generalizing h with
  | nil =>
    match h, hRun with
    | n + 2, _ => exact ⟨n, rfl⟩
  | cons token before ih =>
    cases token with
    | leaf a => exact ih hRun
    | operator b' =>
      match h, hRun with
      | n + 2, hRun => exact ih (h := n + 1) hRun

end Height

section State
variable {σ ν : Type v} {underflow : StateT σ Option (List ν)} {value : α → StateT σ Option ν}
  {apply : β → ν → ν → StateT σ Option ν}

theorem run_leaf_cons (a : α) (rest : List (Token α β)) (stack : List ν) (s : σ) :
    (run underflow value apply (.leaf a :: rest) stack).run s =
      ((value a).run s).bind fun p => (run underflow value apply rest (p.1 :: stack)).run p.2 := rfl

theorem run_operator_cons (b : β) (rest : List (Token α β)) (lv rv : ν) (stack : List ν) (s : σ) :
    (run underflow value apply (.operator b :: rest) (rv :: lv :: stack)).run s =
      ((apply b lv rv).run s).bind fun p => (run underflow value apply rest (p.1 :: stack)).run p.2 := rfl

theorem height_of_run {tokens : List (Token α β)} {stack stack' : List ν} {s s' : σ} {k : Nat}
    (hHeight : height stack.length tokens = some k)
    (hRun : (run underflow value apply tokens stack).run s = some (stack', s')) : stack'.length = k := by
  induction tokens generalizing stack s with
  | nil =>
    cases hRun
    exact Option.some_inj.mp hHeight
  | cons token tokens ih =>
    cases token with
    | leaf a =>
      rw [run_leaf_cons] at hRun
      obtain ⟨p, -, hRest⟩ := Option.bind_eq_some_iff.mp hRun
      have hNext : height (p.1 :: stack).length tokens = some k := hHeight
      exact ih hNext hRest
    | operator b =>
      match stack, hHeight, hRun with
      | rv :: lv :: stack, hHeight, hRun =>
        rw [run_operator_cons] at hRun
        obtain ⟨p, -, hRest⟩ := Option.bind_eq_some_iff.mp hRun
        have hNext : height (p.1 :: stack).length tokens = some k := hHeight
        exact ih hNext hRest

/-- The run comes to apply `b` to `lv` and `rv`. -/
def Applies (underflow : StateT σ Option (List ν)) (value : α → StateT σ Option ν)
    (apply : β → ν → ν → StateT σ Option ν) (tokens : List (Token α β)) (stack : List ν) (s : σ) (b : β) (lv rv : ν) :
    Prop :=
  ∃ before after rest s', tokens = before ++ .operator b :: after ∧
    (run underflow value apply before stack).run s = some (rv :: lv :: rest, s')

/-- The recursive evaluation comes to apply `b` to `lv` and `rv`. -/
def Term.Applies (value : α → StateT σ Option ν) (apply : β → ν → ν → StateT σ Option ν) :
    Term α β → σ → β → ν → ν → Prop
  | .leaf _, _, _, _, _ => False
  | .node b' left right, s, b, lv, rv =>
    left.Applies value apply s b lv rv ∨
      ∃ lv' t, (left.eval value apply).run s = some (lv', t) ∧
        (right.Applies value apply t b lv rv ∨
          ∃ rv' t', (right.eval value apply).run t = some (rv', t') ∧ b = b' ∧ lv = lv' ∧ rv = rv')

variable {b : β} {lv rv : ν}

theorem not_applies_nil {stack : List ν} {s : σ} : ¬Applies underflow value apply [] stack s b lv rv := by
  rintro ⟨before, after, rest, s', hTokens, -⟩
  exact absurd hTokens.symm (List.append_ne_nil_of_right_ne_nil before (List.cons_ne_nil _ _))

theorem applies_leaf_cons_iff {a : α} {tokens : List (Token α β)} {stack : List ν} {s : σ} :
    Applies underflow value apply (.leaf a :: tokens) stack s b lv rv ↔
      ∃ x t, (value a).run s = some (x, t) ∧ Applies underflow value apply tokens (x :: stack) t b lv rv := by
  constructor
  · rintro ⟨before, after, rest, s', hTokens, hRun⟩
    cases before with
    | nil => cases hTokens
    | cons token before =>
      obtain ⟨rfl, rfl⟩ := List.cons_eq_cons.mp hTokens
      rw [run_leaf_cons] at hRun
      obtain ⟨⟨x, t⟩, hValue, hRest⟩ := Option.bind_eq_some_iff.mp hRun
      exact ⟨x, t, hValue, before, after, rest, s', rfl, hRest⟩
  · rintro ⟨x, t, hValue, before, after, rest, s', rfl, hRun⟩
    refine ⟨.leaf a :: before, after, rest, s', rfl, ?_⟩
    rw [run_leaf_cons, hValue]
    exact hRun

theorem applies_operator_cons_iff {b' : β} {tokens : List (Token α β)} {lv' rv' : ν} {stack : List ν} {s : σ} :
    Applies underflow value apply (.operator b' :: tokens) (rv' :: lv' :: stack) s b lv rv ↔
      (b = b' ∧ lv = lv' ∧ rv = rv') ∨
        ∃ x t, (apply b' lv' rv').run s = some (x, t) ∧
          Applies underflow value apply tokens (x :: stack) t b lv rv := by
  constructor
  · rintro ⟨before, after, rest, s', hTokens, hRun⟩
    cases before with
    | nil =>
      cases hTokens
      cases hRun
      exact Or.inl ⟨rfl, rfl, rfl⟩
    | cons token before =>
      obtain ⟨rfl, rfl⟩ := List.cons_eq_cons.mp hTokens
      rw [run_operator_cons] at hRun
      obtain ⟨⟨x, t⟩, hApply, hRest⟩ := Option.bind_eq_some_iff.mp hRun
      exact Or.inr ⟨x, t, hApply, before, after, rest, s', rfl, hRest⟩
  · rintro (⟨rfl, rfl, rfl⟩ | ⟨x, t, hApply, before, after, rest, s', rfl, hRun⟩)
    · exact ⟨[], tokens, stack, s, rfl, rfl⟩
    · refine ⟨.operator b' :: before, after, rest, s', rfl, ?_⟩
      rw [run_operator_cons, hApply]
      exact hRun

theorem eval_node_eq_some_iff {b' : β} {left right : Term α β} {s t : σ} {x : ν} :
    ((Term.node b' left right).eval value apply).run s = some (x, t) ↔
      ∃ lv' t', (left.eval value apply).run s = some (lv', t') ∧
        ∃ rv' t'', (right.eval value apply).run t' = some (rv', t'') ∧ (apply b' lv' rv').run t'' = some (x, t) := by
  rw [Term.eval, StateT.run_bind, Option.bind_eq_bind, Option.bind_eq_some_iff, Prod.exists]
  refine exists_congr fun lv' => exists_congr fun t' => and_congr_right fun _ => ?_
  rw [StateT.run_bind, Option.bind_eq_bind, Option.bind_eq_some_iff, Prod.exists]

theorem applies_tokens_append_iff (t : Term α β) {rest : List (Token α β)} {stack : List ν} {s : σ} :
    Applies underflow value apply (t.tokens ++ rest) stack s b lv rv ↔
      t.Applies value apply s b lv rv ∨
        ∃ x s', (t.eval value apply).run s = some (x, s') ∧
          Applies underflow value apply rest (x :: stack) s' b lv rv := by
  induction t generalizing rest stack s with
  | leaf a =>
    rw [Term.tokens, List.singleton_append, applies_leaf_cons_iff, Term.Applies, false_or]
    rfl
  | node b' left right ihLeft ihRight =>
    rw [Term.tokens, List.append_assoc, List.append_assoc, List.singleton_append, ihLeft, Term.Applies, or_assoc]
    simp only [ihRight, applies_operator_cons_iff, eval_node_eq_some_iff]
    refine or_congr_right ?_
    constructor
    · rintro ⟨lv', t, hLeft, hInRight | ⟨rv', t', hRight, hHere | ⟨x, t'', hApply, hRest⟩⟩⟩
      · exact Or.inl ⟨lv', t, hLeft, Or.inl hInRight⟩
      · exact Or.inl ⟨lv', t, hLeft, Or.inr ⟨rv', t', hRight, hHere⟩⟩
      · exact Or.inr ⟨x, t'', ⟨lv', t, hLeft, rv', t', hRight, hApply⟩, hRest⟩
    · rintro (⟨lv', t, hLeft, hInRight | ⟨rv', t', hRight, hHere⟩⟩ |
        ⟨x, t'', ⟨lv', t, hLeft, rv', t', hRight, hApply⟩, hRest⟩)
      · exact ⟨lv', t, hLeft, Or.inl hInRight⟩
      · exact ⟨lv', t, hLeft, Or.inr ⟨rv', t', hRight, Or.inl hHere⟩⟩
      · exact ⟨lv', t, hLeft, Or.inr ⟨rv', t', hRight, Or.inr ⟨x, t'', hApply, hRest⟩⟩⟩

/-- The machine applies an operator exactly where the recursive evaluation does. -/
theorem applies_tokens_iff (t : Term α β) {stack : List ν} {s : σ} :
    Applies underflow value apply t.tokens stack s b lv rv ↔ t.Applies value apply s b lv rv := by
  rw [← List.append_nil t.tokens, applies_tokens_append_iff]
  constructor
  · rintro (hTerm | ⟨x, s', -, hNil⟩)
    · exact hTerm
    · exact absurd hNil not_applies_nil
  · exact Or.inl

end State

end CsdWorker.Postfix
