import Mathlib

/-!
# Programs over a shared state

A program is a tree of atomic operations on a shared state, each answered before the
program goes on. A pool of programs runs by interleaving their operations in any
order; the environment makes a choice at each operation (a fault, an answer the
model does not compute). The trace of a run lists the operations with their answers.

`Spec` is a rely-guarantee triple with one relation `R` for both sides: between two
operations of a thread the others may move the state along `R`, adding only steps of
their own to the trace, and every operation of the thread moves it along `R` too.
`Pool.run_evolves` says that a pool of programs that keep `R` moves the state along
`R` over every run.
-/

namespace CellHive.Concurrent

/-- The operations of a shared state, and what each answers. -/
structure Signature where
  Op : Type
  Reply : Op → Type

/-- A program that performs operations one at a time. -/
inductive Prog (S : Signature) (α : Type) where
  | ret (a : α)
  | call (op : S.Op) (k : S.Reply op → Prog S α)

namespace Prog

variable {S : Signature} {α β : Type}

def bind : Prog S α → (α → Prog S β) → Prog S β
  | ret a, f => f a
  | call op k, f => call op fun r => bind (k r) f

instance : Monad (Prog S) where
  pure := ret
  bind := bind

def perform (op : S.Op) : Prog S (S.Reply op) := call op ret

end Prog

/-- How the shared state executes an operation. The environment's choice may make an
operation impossible now. -/
abbrev Exec (S : Signature) (Choice σ : Type) :=
  (op : S.Op) → Choice → σ → Option (S.Reply op × σ)

structure Step (S : Signature) where
  thread : Nat
  op : S.Op
  reply : S.Reply op

/-- The shared state with the operations that led to it. -/
structure Traced (S : Signature) (σ : Type) where
  shared : σ
  trace : List (Step S)

variable {S : Signature} {Choice σ α β : Type}

/-- The state after an operation. -/
def Traced.push (s : Traced S σ) (i : Nat) (op : S.Op) (r : S.Reply op) (x : σ) : Traced S σ :=
  ⟨x, s.trace ++ [⟨i, op, r⟩]⟩

def Others (i : Nat) (s s' : Traced S σ) : Prop :=
  ∃ steps, s'.trace = s.trace ++ steps ∧ ∀ x ∈ steps, x.thread ≠ i

theorem Others.refl (i : Nat) (s : Traced S σ) : Others i s s := ⟨[], by simp⟩

theorem Others.trans {i : Nat} {s₁ s₂ s₃ : Traced S σ} (h : Others i s₁ s₂) (h' : Others i s₂ s₃) :
    Others i s₁ s₃ := by
  obtain ⟨t, ht, hi⟩ := h
  obtain ⟨t', ht', hi'⟩ := h'
  refine ⟨t ++ t', by rw [ht', ht, List.append_assoc], fun x hx => ?_⟩
  rcases List.mem_append.1 hx with hx | hx
  · exact hi x hx
  · exact hi' x hx

theorem Others.push {i j : Nat} (h : j ≠ i) (s : Traced S σ) (op : S.Op) (r : S.Reply op) (x : σ) :
    Others i s (s.push j op r x) := by
  refine ⟨[⟨j, op, r⟩], rfl, fun y hy => ?_⟩
  rw [List.mem_singleton.1 hy]
  exact h

/-- From state `s` the program of thread `i` keeps `R`, whatever the others do within `R`,
and ends with `Q`. -/
def Spec (exec : Exec S Choice σ) (R : Traced S σ → Traced S σ → Prop) (i : Nat) :
    Prog S α → (α → Traced S σ → Prop) → Traced S σ → Prop
  | .ret a, Q, s => Q a s
  | .call op k, Q, s =>
    ∀ s₁, R s s₁ → Others i s s₁ → ∀ c r x, exec op c s₁.shared = some (r, x) →
      R s₁ (s₁.push i op r x) ∧ Spec exec R i (k r) Q (s₁.push i op r x)

variable {exec : Exec S Choice σ} {R : Traced S σ → Traced S σ → Prop} {i : Nat}
  {p : Prog S α} {s : Traced S σ} {op : S.Op}

theorem Spec.mono {Q Q' : α → Traced S σ → Prop} (h : Spec exec R i p Q s)
    (hQ : ∀ a s, Q a s → Q' a s) : Spec exec R i p Q' s := by
  induction p generalizing s with
  | ret a => exact hQ a s h
  | call op k ih =>
    intro s₁ hs ho c r x hexec
    obtain ⟨hR, hk⟩ := h s₁ hs ho c r x hexec
    exact ⟨hR, ih r hk⟩

/-- Sequencing: the first program's result is what the second starts from. -/
theorem Spec.bind {f : α → Prog S β} {Q : β → Traced S σ → Prop}
    (h : Spec exec R i p (fun a s => Spec exec R i (f a) Q s) s) : Spec exec R i (p >>= f) Q s := by
  induction p generalizing s with
  | ret a => exact h
  | call op k ih =>
    intro s₁ hs ho c r x hexec
    obtain ⟨hR, hk⟩ := h s₁ hs ho c r x hexec
    exact ⟨hR, ih r hk⟩

theorem Spec.seq {f : α → Prog S β} {P : α → Traced S σ → Prop} {Q : β → Traced S σ → Prop}
    (hp : Spec exec R i p P s) (hf : ∀ a s, P a s → Spec exec R i (f a) Q s) :
    Spec exec R i (p >>= f) Q s :=
  Spec.bind (hp.mono hf)

theorem Spec.perform {Q : S.Reply op → Traced S σ → Prop}
    (h : ∀ s₁, R s s₁ → Others i s s₁ → ∀ c r x, exec op c s₁.shared = some (r, x) →
      R s₁ (s₁.push i op r x) ∧ Q r (s₁.push i op r x)) :
    Spec exec R i (Prog.perform op) Q s :=
  h

theorem Spec.perform_bind {f : S.Reply op → Prog S β} {Q : β → Traced S σ → Prop}
    (h : ∀ s₁, R s s₁ → Others i s s₁ → ∀ c r x, exec op c s₁.shared = some (r, x) →
      R s₁ (s₁.push i op r x) ∧ Spec exec R i (f r) Q (s₁.push i op r x)) :
    Spec exec R i (Prog.perform op >>= f) Q s := h

/-- Every operation the program may perform has the property. -/
def Prog.Within (P : S.Op → Prop) : Prog S α → Prop
  | .ret _ => True
  | .call op k => P op ∧ ∀ r, (k r).Within P

theorem Prog.Within.bind {P : S.Op → Prop} {f : α → Prog S β} (hp : p.Within P)
    (hf : ∀ a, (f a).Within P) : (p >>= f).Within P := by
  induction p with
  | ret a => exact hf a
  | call op k ih => exact ⟨hp.1, fun r => ih r (hp.2 r)⟩

theorem Prog.Within.perform_bind {P : S.Op → Prop} {f : S.Reply op → Prog S β} (hop : P op)
    (hf : ∀ r, (f r).Within P) : (Prog.perform op >>= f).Within P := ⟨hop, hf⟩

/-- A program whose operations all keep `R`. -/
theorem Spec.of_within {P : S.Op → Prop} (hp : p.Within P)
    (hop : ∀ op, P op → ∀ s c r x, exec op c s.shared = some (r, x) → R s (s.push i op r x)) :
    Spec exec R i p (fun _ _ => True) s := by
  induction p generalizing s with
  | ret a => trivial
  | call op k ih =>
    intro s₁ _ _ c r x hexec
    exact ⟨hop op hp.1 s₁ c r x hexec, ih r (hp.2 r)⟩

/-- The state a program ends in lies behind the one it started from. -/
theorem Spec.reached (hrefl : ∀ a, R a a) (htrans : ∀ a b c, R a b → R b c → R a c)
    {Q : α → Traced S σ → Prop} (h : Spec exec R i p Q s) :
    Spec exec R i p (fun a s' => R s s' ∧ Q a s') s := by
  induction p generalizing s with
  | ret a => exact ⟨hrefl s, h⟩
  | call op k ih =>
    intro s₁ hs ho c r x hexec
    obtain ⟨hR, hk⟩ := h s₁ hs ho c r x hexec
    refine ⟨hR, (ih r hk).mono fun a s' hQ => ⟨?_, hQ.2⟩⟩
    exact htrans _ _ _ (htrans _ _ _ hs hR) hQ.1

/-- What holds of the rest of a program survives the steps of others. -/
theorem Spec.later (htrans : ∀ a b c, R a b → R b c → R a c) {Q : α → Traced S σ → Prop}
    (hQ : ∀ a s s', Q a s → R s s' → Others i s s' → Q a s') {s' : Traced S σ}
    (h : Spec exec R i p Q s) (hs : R s s') (ho : Others i s s') : Spec exec R i p Q s' := by
  cases p with
  | ret a => exact hQ a s s' h hs ho
  | call op k =>
    intro s₁ hs₁ ho₁
    exact h s₁ (htrans _ _ _ hs hs₁) (ho.trans ho₁)

/-! ## Runs -/

/-- The state and the rest of each thread's program. -/
structure Pool (S : Signature) (σ α : Type) where
  state : Traced S σ
  progs : List (Prog S α)

/-- Thread `i` performs its next operation. -/
def Pool.step (exec : Exec S Choice σ) (pool : Pool S σ α) (i : Nat) (c : Choice) :
    Option (Pool S σ α) :=
  match pool.progs[i]? with
  | some (.call op k) =>
    (exec op c pool.state.shared).map fun r =>
      ⟨pool.state.push i op r.1 r.2, pool.progs.set i (k r.1)⟩
  | _ => none

/-- A run: which thread moves, and the environment's choice. -/
def Pool.run (exec : Exec S Choice σ) : Pool S σ α → List (Nat × Choice) → Option (Pool S σ α)
  | pool, [] => some pool
  | pool, m :: schedule =>
    match pool.step exec m.1 m.2 with
    | none => none
    | some pool' => pool'.run exec schedule

theorem Pool.step_eq_some {pool pool' : Pool S σ α} {i : Nat} {c : Choice}
    (h : pool.step exec i c = some pool') :
    ∃ op k r x, pool.progs[i]? = some (.call op k) ∧
      exec op c pool.state.shared = some (r, x) ∧
      pool' = ⟨pool.state.push i op r x, pool.progs.set i (k r)⟩ := by
  unfold Pool.step at h
  split at h
  · next op k hp =>
    obtain ⟨r, hr, rfl⟩ := Option.map_eq_some_iff.1 h
    exact ⟨op, k, r.1, r.2, hp, hr, rfl⟩
  · cases h

section Results

variable (htrans : ∀ a b c, R a b → R b c → R a c) (hrefl : ∀ a, R a a)
  {Q : Nat → α → Traced S σ → Prop}
  (hQ : ∀ i a s s', Q i a s → R s s' → Others i s s' → Q i a s')
  {pool pool' : Pool S σ α}
  (hall : ∀ i p, pool.progs[i]? = some p → Spec exec R i p (Q i) pool.state)
include htrans hrefl hQ hall

theorem Pool.step_evolves {j : Nat} {c : Choice} (h : pool.step exec j c = some pool') :
    R pool.state pool'.state ∧
      ∀ i p, pool'.progs[i]? = some p → Spec exec R i p (Q i) pool'.state := by
  obtain ⟨op, k, r, x, hp, hexec, rfl⟩ := Pool.step_eq_some h
  obtain ⟨hR, hk⟩ := hall j _ hp _ (hrefl _) (.refl _ _) c r x hexec
  refine ⟨hR, fun i p hi => ?_⟩
  by_cases hij : j = i
  · subst hij
    have hlt : j < pool.progs.length := (List.getElem?_eq_some_iff.1 hp).1
    rw [List.getElem?_set_self hlt, Option.some.injEq] at hi
    subst hi
    exact hk
  · rw [List.getElem?_set_ne hij] at hi
    exact (hall i p hi).later htrans (hQ i) hR (.push hij _ _ _ _)

/-- Over every run of programs that keep `R`, the state moves along `R`, and every program
keeps what it promises of its result. -/
theorem Pool.run_specs {schedule : List (Nat × Choice)}
    (h : pool.run exec schedule = some pool') : R pool.state pool'.state ∧
      ∀ i p, pool'.progs[i]? = some p → Spec exec R i p (Q i) pool'.state := by
  induction schedule generalizing pool with
  | nil =>
    rw [Pool.run, Option.some.injEq] at h
    subst h
    exact ⟨hrefl _, hall⟩
  | cons m schedule ih =>
    rw [Pool.run] at h
    split at h
    · cases h
    next pool₁ hstep =>
    obtain ⟨hR, hall₁⟩ := Pool.step_evolves htrans hrefl hQ hall hstep
    obtain ⟨hR', hall'⟩ := ih hall₁ h
    exact ⟨htrans _ _ _ hR hR', hall'⟩

end Results

theorem Pool.run_evolves (htrans : ∀ a b c, R a b → R b c → R a c) (hrefl : ∀ a, R a a)
    {pool pool' : Pool S σ α} {schedule : List (Nat × Choice)}
    (hall : ∀ i p, pool.progs[i]? = some p → Spec exec R i p (fun _ _ => True) pool.state)
    (h : pool.run exec schedule = some pool') : R pool.state pool'.state :=
  (Pool.run_specs htrans hrefl (fun _ _ _ _ _ _ _ => trivial) hall h).1

end CellHive.Concurrent
