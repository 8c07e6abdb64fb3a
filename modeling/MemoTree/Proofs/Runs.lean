import MemoTree.Tree.Basic

/-! # Runs

`Runs m s a s'`: started in `s`, the computation `m` answers `a` and leaves `s'`. It does so whatever the
journal holds, and only appends to it. A run is put together from the runs of its parts (`Runs.bind`). `Says m a` is the
same of a computation without a state, and `Faults m s f`: started in `s`, it ends in the fault `f`. -/

namespace MemoTree

/-- Started in `s`, `m` answers `a` and leaves `s'`, and what it reports does not depend on the journal. -/
def Runs {σ α : Type} (m : StateT σ Journaled α) (s : σ) (a : α) (s' : σ) : Prop :=
  ∃ said : Array Signal, ∀ j : Journal, m s j = .ok ((a, s'), j ++ said)

namespace Runs

section General
variable {σ α β : Type} {s s' s'' : σ} {a : α} {b : β}

theorem pure (a : α) (s : σ) : Runs (pure a : StateT σ Journaled α) s a s := ⟨#[], fun _ => rfl⟩

theorem bind {m : StateT σ Journaled α} {f : α → StateT σ Journaled β} (hm : Runs m s a s')
    (hf : Runs (f a) s' b s'') : Runs (m >>= f) s b s'' := by
  obtain ⟨said, hm⟩ := hm
  obtain ⟨said', hf⟩ := hf
  refine ⟨said ++ said', fun j => ?_⟩
  show (m s j >>= fun x => f x.1.1 x.1.2 x.2) = _
  rw [hm j, ← Array.append_assoc]
  exact hf (j ++ said)

theorem get (s : σ) : Runs (MonadStateOf.get : StateT σ Journaled σ) s s s := ⟨#[], fun _ => rfl⟩

theorem modify (f : σ → σ) (s : σ) : Runs (modify f : StateT σ Journaled Unit) s () (f s) := ⟨#[], fun _ => rfl⟩

theorem lift {e : Except Fault α} (he : e = .ok a) (s : σ) : Runs (liftM e : StateT σ Journaled α) s a s := by
  subst he
  exact ⟨#[], fun _ => rfl⟩

theorem of_pos {c : Prop} [Decidable c] {m m' : StateT σ Journaled α} (hc : c) (h : Runs m s a s') :
    Runs (if c then m else m') s a s' := by rwa [if_pos hc]

theorem of_neg {c : Prop} [Decidable c] {m m' : StateT σ Journaled α} (hc : ¬c) (h : Runs m' s a s') :
    Runs (if c then m else m') s a s' := by rwa [if_neg hc]

/-- What comes after a choice is run after either branch. -/
theorem ite_bind {c : Prop} [Decidable c] {m m' : StateT σ Journaled α} {f : α → StateT σ Journaled β}
    (h : Runs (if c then m else m') s a s') (hf : Runs (f a) s' b s'') :
    Runs (if c then m >>= f else m' >>= f) s b s'' := by
  by_cases hc : c
  · rw [if_pos hc] at h
    exact of_pos hc (bind h hf)
  · rw [if_neg hc] at h
    exact of_neg hc (bind h hf)

theorem report (e : Event) (s : σ) : Runs (liftM (emit e) : StateT σ Journaled Unit) s () s :=
  ⟨#[.event e], fun _ => by rw [← Array.push_eq_append]; rfl⟩

theorem unique {m : StateT σ Journaled α} {a₁ a₂ : α} {s₁ s₂ : σ} (h₁ : Runs m s a₁ s₁) (h₂ : Runs m s a₂ s₂) :
    a₁ = a₂ ∧ s₁ = s₂ := by
  obtain ⟨said₁, h₁⟩ := h₁
  obtain ⟨said₂, h₂⟩ := h₂
  have h := (h₁ #[]).symm.trans (h₂ #[])
  simp only [Except.ok.injEq, Prod.mk.injEq] at h
  exact ⟨h.1.1, h.1.2⟩

/-- What a computation that runs came to, from any journal. -/
theorem of_ok {m : StateT σ Journaled α} {a₁ : α} {s₁ : σ} {j j' : Journal} (h : Runs m s a s')
    (h₁ : m s j = .ok ((a₁, s₁), j')) : a₁ = a ∧ s₁ = s' := by
  obtain ⟨said, h⟩ := h
  rw [h j] at h₁
  simp only [Except.ok.injEq, Prod.mk.injEq] at h₁
  exact ⟨h₁.1.1.symm, h₁.1.2.symm⟩

theorem tellTimer (hooks : Hooks) (o : Operation) (s : σ) :
    Runs (liftM (hooks.tellTimer o) : StateT σ Journaled Unit) s () s := by
  cases ht : hooks.timer with
  | true => exact ⟨#[.timed o], fun _ => by rw [← Array.push_eq_append, Hooks.tellTimer, ht]; rfl⟩
  | false => exact ⟨#[], fun _ => by rw [Hooks.tellTimer, ht]; rfl⟩

theorem tellMonitor (hooks : Hooks) (v : Value) (s : σ) :
    Runs (liftM (hooks.tellMonitor v) : StateT σ Journaled Unit) s () s := by
  cases hm : hooks.monitor with
  | true => exact ⟨#[.visited v], fun _ => by rw [← Array.push_eq_append, Hooks.tellMonitor, hm]; rfl⟩
  | false => exact ⟨#[], fun _ => by rw [Hooks.tellMonitor, hm]; rfl⟩

end General

section Pools
variable {β : Type} {p : Pool β} {h : Handle} {b b' : β}

theorem read (hb : p.block h = .ok b) : Runs (Pool.read h) p b p := bind (get p) (lift hb p)

theorem write (h : Handle) (b : β) (p : Pool β) : Runs (Pool.write h b) p () (p.put h b) := modify _ p

theorem update {f : β → Except Fault β} (hb : p.block h = .ok b) (hf : f b = .ok b') :
    Runs (Pool.update h f) p () (p.put h b') :=
  bind (read hb) (bind (lift hf p) (write h b' p))

end Pools

section Trees
variable {w : Width} {α : Type}

theorem onNodes {action : NodeM α} {t : Tree w} {a : α} {p : NodePool} (h : Runs action t.pool a p) :
    Runs (Tree.onNodes action) t a { t with pool := p } := by
  obtain ⟨said, h⟩ := h
  refine ⟨said, fun j => ?_⟩
  show (action t.pool j >>= fun x => _) = _
  rw [h j]
  rfl

end Trees
end Runs

/-- `m` answers `a`, and what it reports does not depend on the journal. -/
def Says {α : Type} (m : Journaled α) (a : α) : Prop := ∃ said : Array Signal, ∀ j : Journal, m j = .ok (a, j ++ said)

namespace Says
variable {α β σ : Type} {a : α} {b : β}

theorem pure (a : α) : Says (pure a : Journaled α) a := ⟨#[], fun _ => rfl⟩

theorem bind {m : Journaled α} {f : α → Journaled β} (hm : Says m a) (hf : Says (f a) b) : Says (m >>= f) b := by
  obtain ⟨said, hm⟩ := hm
  obtain ⟨said', hf⟩ := hf
  refine ⟨said ++ said', fun j => ?_⟩
  show (m j >>= fun x => f x.1 x.2) = _
  rw [hm j, ← Array.append_assoc]
  exact hf (j ++ said)

theorem lift {e : Except Fault α} (he : e = .ok a) : Says (liftM e : Journaled α) a := by
  subst he
  exact ⟨#[], fun _ => rfl⟩

theorem report (e : Event) : Says (emit e) () := ⟨#[.event e], fun _ => by rw [← Array.push_eq_append]; rfl⟩

theorem of_pos {c : Prop} [Decidable c] {m m' : Journaled α} (hc : c) (h : Says m a) :
    Says (if c then m else m') a := by rwa [if_pos hc]

theorem of_neg {c : Prop} [Decidable c] {m m' : Journaled α} (hc : ¬c) (h : Says m' a) :
    Says (if c then m else m') a := by rwa [if_neg hc]

theorem of_runs {m : StateT σ Journaled α} {s s' : σ} (h : Runs m s a s') : Says (m.run s) (a, s') := h

theorem of_ok {m : Journaled α} {a' : α} {j j' : Journal} (h : Says m a) (h' : m j = .ok (a', j')) : a' = a := by
  obtain ⟨said, h⟩ := h
  rw [h j] at h'
  simp only [Except.ok.injEq, Prod.mk.injEq] at h'
  exact h'.1.symm

/-- A part of the answer, as far as it can be evaluated. -/
theorem of_eval {m : Journaled α} {f : α → β} (h : Says m a) (heval : (m #[]).toOption.map (f ·.1) = some b) :
    f a = b := by
  obtain ⟨said, h⟩ := h
  rw [h #[]] at heval
  cases heval
  rfl

end Says

/-- Started in `s`, `m` ends in the fault `f`. -/
def Faults {σ α : Type} (m : StateT σ Journaled α) (s : σ) (f : Fault) : Prop := ∀ j : Journal, m s j = .error f

namespace Faults
variable {σ α β : Type} {s s' : σ} {a : α} {f : Fault}

theorem lift {e : Except Fault α} (he : e = .error f) (s : σ) : Faults (liftM e : StateT σ Journaled α) s f := by
  subst he
  exact fun _ => rfl

theorem bind {m : StateT σ Journaled α} {k : α → StateT σ Journaled β} (hm : Runs m s a s') (hk : Faults (k a) s' f) :
    Faults (m >>= k) s f := fun j => by
  obtain ⟨said, hm⟩ := hm
  show (m s j >>= fun x => k x.1.1 x.1.2 x.2) = _
  rw [hm j]
  exact hk (j ++ said)

theorem not_runs {m : StateT σ Journaled α} (hm : Faults m s f) : ¬Runs m s a s' := fun ⟨said, h⟩ => by
  have := (hm #[]).symm.trans (h #[])
  cases this

theorem bind_left {m : StateT σ Journaled α} (k : α → StateT σ Journaled β) (hm : Faults m s f) :
    Faults (m >>= k) s f := fun j => by
  show (m s j >>= fun x => k x.1.1 x.1.2 x.2) = _
  rw [hm j]
  rfl

theorem of_pos {c : Prop} [Decidable c] {m m' : StateT σ Journaled α} (hc : c) (h : Faults m s f) :
    Faults (if c then m else m') s f := by rwa [if_pos hc]

theorem of_neg {c : Prop} [Decidable c] {m m' : StateT σ Journaled α} (hc : ¬c) (h : Faults m' s f) :
    Faults (if c then m else m') s f := by rwa [if_neg hc]

theorem onNodes {w : Width} {action : NodeM α} {t : Tree w} (h : Faults action t.pool f) :
    Faults (Tree.onNodes action) t f := fun j => by
  show (action t.pool j >>= fun x => _) = _
  rw [h j]
  rfl

end Faults
end MemoTree
