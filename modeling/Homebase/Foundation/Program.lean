import Mathlib

set_option autoImplicit false

/-!
# Programs that ask their environment

A program asks its environment for one operation at a time and goes on with the
reply.  A loop of unknown length is a constructor of its own, so that every program
is finite and unfolding a loop is a step like any other.
-/

namespace Homebase.Foundation

/-- A program over the operations `Op`. -/
inductive Prog {Op : Type} (Reply : Op → Type) : Type → Type 1
  | done {α : Type} (result : α) : Prog Reply α
  | call {α : Type} (op : Op) (next : Reply op → Prog Reply α) : Prog Reply α
  /-- Runs the body until it leaves with `inr`. -/
  | loop {α β γ : Type} (body : β → Prog Reply (β ⊕ γ)) (start : β)
      (rest : γ → Prog Reply α) : Prog Reply α

namespace Prog

variable {Op : Type} {Reply : Op → Type} {α β γ : Type}

/-- One program after another. -/
def bind {α β : Type} : Prog Reply α → (α → Prog Reply β) → Prog Reply β
  | done result, next => next result
  | call op rest, next => call op fun reply => (rest reply).bind next
  | loop body start rest, next => loop body start fun c => (rest c).bind next

/-- A single operation. -/
def perform (op : Op) : Prog Reply (Reply op) := call op done

/-- A loop with nothing after it. -/
def iterate (body : β → Prog Reply (β ⊕ γ)) (start : β) : Prog Reply γ := loop body start done

instance : Monad (Prog Reply) where
  pure := done
  bind := bind

/-- A loop after its body was entered. -/
def unfold (body : β → Prog Reply (β ⊕ γ)) (start : β) (rest : γ → Prog Reply α) :
    Prog Reply α :=
  (body start).bind fun exit => exit.elim (fun b => loop body b rest) rest

@[simp] theorem done_bind (a : α) (next : α → Prog Reply β) : (done a).bind next = next a := rfl

@[simp] theorem perform_bind (op : Op) (next : Reply op → Prog Reply β) :
    (perform op).bind next = call op next := rfl

@[simp] theorem pure_def (a : α) : (pure a : Prog Reply α) = done a := rfl

theorem bind_assoc (program : Prog Reply α) (first : α → Prog Reply β)
    (second : β → Prog Reply γ) :
    (program.bind first).bind second = program.bind fun a => (first a).bind second := by
  induction program with
  | done result => rfl
  | call op next ih => exact congrArg (call op) (funext fun reply => ih reply first)
  | loop body start rest _ ih => exact congrArg (loop body start) (funext fun c => ih c first)

theorem unfold_bind (body : β → Prog Reply (β ⊕ γ)) (start : β) (rest : γ → Prog Reply α)
    {δ : Type} (next : α → Prog Reply δ) :
    unfold body start (fun c => (rest c).bind next) = (unfold body start rest).bind next := by
  rw [unfold, unfold, bind_assoc]
  refine congrArg _ (funext fun exit => ?_)
  cases exit <;> rfl

/-! ### A program on its own -/

section Eval

variable {σ : Type*} {exec : (op : Op) → σ → Reply op → σ → Prop}

/-- The program runs from one state to another, nothing else moving. -/
inductive Eval (exec : (op : Op) → σ → Reply op → σ → Prop) :
    Prog Reply α → σ → α → σ → Prop
  | done (a : α) (s : σ) : Eval exec (.done a) s a s
  | call {op : Op} {next : Reply op → Prog Reply α} {s s₁ s₂ : σ} {reply : Reply op} {a : α}
      (hexec : exec op s reply s₁) (hnext : Eval exec (next reply) s₁ a s₂) :
      Eval exec (.call op next) s a s₂
  | loop {β γ : Type} {body : β → Prog Reply (β ⊕ γ)} {start : β} {rest : γ → Prog Reply α}
      {s s₁ : σ} {a : α} (hunfold : Eval exec (unfold body start rest) s a s₁) :
      Eval exec (.loop body start rest) s a s₁

variable {a : α} {s t : σ}

@[simp] theorem eval_done_iff {b : α} : Eval exec (.done a) s b t ↔ b = a ∧ t = s := by
  constructor
  · rintro ⟨⟩
    exact ⟨rfl, rfl⟩
  · rintro ⟨rfl, rfl⟩
    exact .done _ _

theorem eval_call_iff {op : Op} {next : Reply op → Prog Reply α} :
    Eval exec (.call op next) s a t ↔
      ∃ reply s₁, exec op s reply s₁ ∧ Eval exec (next reply) s₁ a t := by
  constructor
  · rintro ⟨⟩
    exact ⟨_, _, ‹_›, ‹_›⟩
  · rintro ⟨reply, s₁, hexec, hnext⟩
    exact .call hexec hnext

theorem eval_bind_iff {program : Prog Reply α} {next : α → Prog Reply β} {b : β} :
    Eval exec (program.bind next) s b t ↔
      ∃ a s₁, Eval exec program s a s₁ ∧ Eval exec (next a) s₁ b t := by
  constructor
  · intro h
    generalize hp : program.bind next = whole at h
    induction h generalizing program with
    | done b s =>
      cases program with
      | done a =>
        rw [done_bind] at hp
        exact ⟨a, s, .done a s, hp.symm ▸ .done b s⟩
      | call op rest => cases hp
      | loop body start rest => cases hp
    | call hexec hnext ih =>
      cases program with
      | done a =>
        rw [done_bind] at hp
        exact ⟨a, _, .done a _, hp.symm ▸ .call hexec hnext⟩
      | call op rest =>
        cases hp
        obtain ⟨a, s₁, hrest, hafter⟩ := ih rfl
        exact ⟨a, s₁, .call hexec hrest, hafter⟩
      | loop body start rest => cases hp
    | loop hunfold ih =>
      cases program with
      | done a =>
        rw [done_bind] at hp
        exact ⟨a, _, .done a _, hp.symm ▸ .loop hunfold⟩
      | call op rest => cases hp
      | loop body start rest =>
        cases hp
        obtain ⟨a, s₁, hrest, hafter⟩ := ih (unfold_bind _ _ rest next).symm
        exact ⟨a, s₁, .loop hrest, hafter⟩
  · rintro ⟨a, s₁, hfirst, hnext⟩
    induction hfirst with
    | done a s => exact hnext
    | call hexec _ ih => exact .call hexec (ih hnext)
    | loop _ ih =>
      refine .loop ?_
      rw [unfold_bind]
      exact ih hnext

/-- Where every operation has one reply and one effect, a program has one outcome. -/
theorem Eval.iff_of_functional {program : Prog Reply α} (h : Eval exec program s a t)
    (hexec : ∀ {op s reply t reply' t'}, exec op s reply t → exec op s reply' t' →
      reply' = reply ∧ t' = t) (b : α) (u : σ) : Eval exec program s b u ↔ b = a ∧ u = t := by
  constructor
  · intro h'
    induction h with
    | done a s => exact eval_done_iff.mp h'
    | call hfirst _ ih =>
      obtain ⟨reply, s₁, hfirst', hnext⟩ := eval_call_iff.mp h'
      obtain ⟨rfl, rfl⟩ := hexec hfirst hfirst'
      exact ih hnext
    | loop _ ih =>
      cases h' with
      | loop hunfold => exact ih hunfold
  · rintro ⟨rfl, rfl⟩
    exact h

/-- The outcome of a program that ends within `fuel` operations and turns of its loops. -/
def outcome (exec : (op : Op) → σ → Reply op × σ) : Nat → Prog Reply α → σ → Option (α × σ)
  | 0, _, _ => none
  | _ + 1, .done a, s => some (a, s)
  | fuel + 1, .call op next, s => outcome exec fuel (next (exec op s).1) (exec op s).2
  | fuel + 1, .loop body start rest, s => outcome exec fuel (unfold body start rest) s

theorem eval_of_outcome {run : (op : Op) → σ → Reply op × σ}
    (hexec : ∀ op s, exec op s (run op s).1 (run op s).2) {fuel : Nat} {program : Prog Reply α}
    (h : outcome run fuel program s = some (a, t)) : Eval exec program s a t := by
  induction fuel generalizing program s with
  | zero => cases h
  | succ fuel ih =>
    cases program with
    | done b =>
      cases h
      exact .done _ _
    | call op next => exact .call (hexec op s) (ih h)
    | loop body start rest => exact .loop (ih h)

end Eval

end Prog

end Homebase.Foundation
