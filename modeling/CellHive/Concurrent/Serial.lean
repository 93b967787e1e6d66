import CellHive.Concurrent.Prog

/-!
# Programs that run alone

`Alone` is the triple of a program that nothing interferes with: every operation keeps an
invariant, also where the program is cut off. In a run in which no thread takes a step between
two steps of another, programs that keep the invariant alone keep it together.
-/

namespace CellHive.Concurrent

variable {S : Signature} {Choice σ α β : Type}

/-- From state `s` the program keeps `I` at every operation and ends with `Q`, where each
operation is made in a state that meets its precondition. -/
def Alone (exec : Exec S Choice σ) (pre : S.Op → σ → Prop) (I : σ → Prop) :
    Prog S α → (α → σ → Prop) → σ → Prop
  | .ret a, Q, s => Q a s
  | .call op k, Q, s =>
    pre op s → ∀ c r x, exec op c s = some (r, x) → I x ∧ Alone exec pre I (k r) Q x

section Rules

variable {exec : Exec S Choice σ} {pre : S.Op → σ → Prop} {I : σ → Prop}

theorem Alone.mono {p : Prog S α} {Q Q' : α → σ → Prop} {s : σ} (h : Alone exec pre I p Q s)
    (hQ : ∀ a s, Q a s → Q' a s) : Alone exec pre I p Q' s := by
  induction p generalizing s with
  | ret a => exact hQ a s h
  | call op k ih =>
    intro hpre c r x hexec
    obtain ⟨hI, hk⟩ := h hpre c r x hexec
    exact ⟨hI, ih r hk⟩

theorem Alone.seq {p : Prog S α} {f : α → Prog S β} {P : α → σ → Prop} {Q : β → σ → Prop} {s : σ}
    (hp : Alone exec pre I p P s) (hf : ∀ a s, P a s → Alone exec pre I (f a) Q s) :
    Alone exec pre I (p >>= f) Q s := by
  induction p generalizing s with
  | ret a => exact hf a s hp
  | call op k ih =>
    intro hpre c r x hexec
    obtain ⟨hI, hk⟩ := hp hpre c r x hexec
    exact ⟨hI, ih r hk⟩

theorem Alone.perform_bind {op : S.Op} {f : S.Reply op → Prog S β} {Q : β → σ → Prop} {s : σ}
    (h : pre op s → ∀ c r x, exec op c s = some (r, x) → I x ∧ Alone exec pre I (f r) Q x) :
    Alone exec pre I (Prog.perform op >>= f) Q s := h

end Rules

/-! ## Serial runs -/

/-- No thread takes a step between two steps of another. -/
def Serial (threads : List Nat) : Prop := ∀ i j, [i, j, i].Sublist threads → j = i

instance (threads : List Nat) : Decidable (Serial threads) :=
  decidable_of_iff (∀ i ∈ threads, ∀ j ∈ threads, [i, j, i].Sublist threads → j = i)
    ⟨fun h i j hsub => h i (hsub.subset (by simp)) j (hsub.subset (by simp)) hsub,
      fun h i _ j _ hsub => h i j hsub⟩

theorem Serial.tail {i : Nat} {threads : List Nat} (h : Serial (i :: threads)) : Serial threads :=
  fun a b hsub => h a b (hsub.cons i)

/-- The thread of the first step moves on, or moves no more. -/
theorem Serial.head {i : Nat} {threads : List Nat} (h : Serial (i :: threads))
    (hi : i ∈ threads) : threads.head? = some i := by
  rcases threads with _ | ⟨j, rest⟩
  · cases hi
  rw [List.head?_cons, Option.some.injEq]
  rcases List.mem_cons.mp hi with rfl | hi
  · rfl
  · apply h i j
    exact ((List.singleton_sublist.mpr hi).cons_cons j).cons_cons i

variable {exec : Exec S Choice σ} {pre : S.Op → σ → Prop} {I : σ → Prop}

/-- The operation thread `i` performs next is made in a state that meets its precondition. -/
def Pool.Meets (pre : S.Op → σ → Prop) (pool : Pool S σ α) (i : Nat) : Prop :=
  match pool.progs[i]? with
  | some (.call op _) => pre op pool.state.shared
  | _ => True

def Pool.RunMeets (exec : Exec S Choice σ) (pre : S.Op → σ → Prop) (pool : Pool S σ α) :
    List (Nat × Choice) → Prop
  | [] => True
  | m :: schedule =>
    pool.Meets pre m.1 ∧
      match pool.step exec m.1 m.2 with
      | some pool' => pool'.RunMeets exec pre schedule
      | none => True

instance [∀ op s, Decidable (pre op s)] (pool : Pool S σ α) (i : Nat) :
    Decidable (pool.Meets pre i) := by
  unfold Pool.Meets
  split <;> infer_instance

instance decidableRunMeets [∀ op s, Decidable (pre op s)] (pool : Pool S σ α) :
    (schedule : List (Nat × Choice)) → Decidable (pool.RunMeets exec pre schedule)
  | [] => isTrue trivial
  | m :: schedule => by
    unfold Pool.RunMeets
    have (pool' : Pool S σ α) := decidableRunMeets pool' schedule
    split <;> infer_instance

theorem Pool.run_serial {pool pool' : Pool S σ α} {schedule : List (Nat × Choice)}
    (hI : I pool.state.shared) (hserial : Serial (schedule.map Prod.fst))
    (hmeets : pool.RunMeets exec pre schedule)
    (hprogs : ∀ i ∈ schedule.map Prod.fst, ∀ p, pool.progs[i]? = some p →
      (∀ s, I s → Alone exec pre I p (fun _ _ => True) s) ∨
        ((schedule.map Prod.fst).head? = some i ∧
          Alone exec pre I p (fun _ _ => True) pool.state.shared))
    (h : pool.run exec schedule = some pool') : I pool'.state.shared := by
  -- A thread that appears in the rest of the schedule has not started, or is the one to move.
  induction schedule generalizing pool with
  | nil =>
    rw [Pool.run, Option.some.injEq] at h
    exact h ▸ hI
  | cons m schedule ih =>
    obtain ⟨i, c⟩ := m
    rw [Pool.run] at h
    split at h
    · cases h
    next pool₁ hstep =>
    obtain ⟨hpre, hrest⟩ := hmeets
    rw [hstep] at hrest
    obtain ⟨op, k, r, x, hp, hexec, rfl⟩ := Pool.step_eq_some hstep
    rw [Pool.Meets, hp] at hpre
    have hlt : i < pool.progs.length := (List.getElem?_eq_some_iff.mp hp).1
    have halone : Alone exec pre I (.call op k) (fun _ _ => True) pool.state.shared := by
      rcases hprogs i List.mem_cons_self _ hp with hfresh | ⟨-, hcur⟩
      · exact hfresh _ hI
      · exact hcur
    obtain ⟨hIx, hk⟩ := halone hpre c r x hexec
    refine ih hIx hserial.tail hrest ?_ h
    intro j hj p hjp
    by_cases hij : i = j
    · subst hij
      rw [List.getElem?_set_self hlt, Option.some.injEq] at hjp
      exact .inr ⟨hserial.head hj, hjp ▸ hk⟩
    · rw [List.getElem?_set_ne hij] at hjp
      rcases hprogs j (List.mem_cons_of_mem _ hj) p hjp with hfresh | ⟨hhead, -⟩
      · exact .inl hfresh
      · rw [List.map_cons, List.head?_cons, Option.some.injEq] at hhead
        exact absurd hhead hij

end CellHive.Concurrent
