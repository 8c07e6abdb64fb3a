import MemoTree.Proofs.Runs

/-! # Outcomes

`Ends m s a s'`: started in `s`, from some journal, `m` answered `a` and left `s'`. Where `Runs` puts a run together
from the runs of its parts, `Ends` takes it apart again: from the outcome of a computation follow the outcomes of its
steps. It says what must have happened where an operation is known to have ended in a certain way. -/

namespace MemoTree

/-- Started in `s`, `m` answered `a` and left `s'`. -/
def Ends {σ α : Type} (m : StateT σ Journaled α) (s : σ) (a : α) (s' : σ) : Prop :=
  ∃ j j' : Journal, m s j = .ok ((a, s'), j')

theorem Runs.ends {σ α : Type} {m : StateT σ Journaled α} {s s' : σ} {a : α} (h : Runs m s a s') : Ends m s a s' := by
  obtain ⟨said, h⟩ := h
  exact ⟨#[], _, h #[]⟩

theorem Runs.of_ends {σ α : Type} {m : StateT σ Journaled α} {s s₁ s₂ : σ} {a b : α} (h : Runs m s a s₁)
    (he : Ends m s b s₂) : b = a ∧ s₂ = s₁ := by
  obtain ⟨j, j', he⟩ := he
  exact h.of_ok he

theorem Faults.not_ends {σ α : Type} {m : StateT σ Journaled α} {s s' : σ} {a : α} {f : Fault} (h : Faults m s f) :
    ¬Ends m s a s' := fun ⟨j, j', he⟩ => by
  rw [h j] at he
  cases he

/-- The two steps of a computation, with what is reported. -/
theorem ok_bind {σ α β : Type} {s s' : σ} {b : β} {j j' : Journal} {m : StateT σ Journaled α}
    {f : α → StateT σ Journaled β}
    (h : (m >>= f) s j = .ok ((b, s'), j')) : ∃ a s₁ j₁, m s j = .ok ((a, s₁), j₁) ∧ f a s₁ j₁ = .ok ((b, s'), j') := by
  change (m s j >>= fun x => f x.1.1 x.1.2 x.2) = _ at h
  obtain ⟨⟨⟨a, s₁⟩, j₁⟩, hm, h⟩ := Fault.of_bind h
  exact ⟨a, s₁, j₁, hm, h⟩

theorem ok_onNodes {w : Width} {α : Type} {action : NodeM α} {t t' : Tree w} {a : α} {j j' : Journal}
    (h : Tree.onNodes action t j = .ok ((a, t'), j')) :
    ∃ p, action t.pool j = .ok ((a, p), j') ∧ t' = { t with pool := p } := by
  obtain ⟨⟨⟨a, p⟩, j₁⟩, hm, h⟩ := Fault.of_bind h
  cases h
  exact ⟨p, hm, rfl⟩

namespace Ends
section General
variable {σ α β : Type} {s s' : σ} {a : α} {b : β}

theorem bind {m : StateT σ Journaled α} {f : α → StateT σ Journaled β} (h : Ends (m >>= f) s b s') :
    ∃ a s₁, Ends m s a s₁ ∧ Ends (f a) s₁ b s' := by
  obtain ⟨j, j', h⟩ := h
  obtain ⟨a, s₁, j₁, hm, h⟩ := ok_bind h
  exact ⟨a, s₁, ⟨j, j₁, hm⟩, j₁, j', h⟩

theorem pure {a' : α} (h : Ends (pure a : StateT σ Journaled α) s a' s') : a = a' ∧ s = s' := by
  obtain ⟨j, j', h⟩ := h
  cases h
  exact ⟨rfl, rfl⟩

theorem of_return {m : StateT σ Journaled α} {f : α → β} (h : Ends (do return f (← m)) s b s') :
    ∃ a, Ends m s a s' ∧ b = f a := by
  obtain ⟨a, _, hm, hpure⟩ := h.bind
  obtain ⟨rfl, rfl⟩ := hpure.pure
  exact ⟨a, hm, rfl⟩

theorem returns {m : StateT σ Journaled α} (h : Ends m s a s') (f : α → β) : Ends (do return f (← m)) s (f a) s' := by
  obtain ⟨j, j', h⟩ := h
  refine ⟨j, j', ?_⟩
  change (m s j >>= fun x => _) = _
  rw [h]
  rfl

theorem get {x : σ} (h : Ends (MonadStateOf.get : StateT σ Journaled σ) s x s') : s = x ∧ s = s' :=
  ((Runs.get s).of_ends h).imp Eq.symm Eq.symm

theorem bind_get {f : σ → StateT σ Journaled β} (h : Ends (MonadStateOf.get >>= f) s b s') : Ends (f s) s b s' := by
  obtain ⟨x, _, hget, hf⟩ := h.bind
  obtain ⟨rfl, rfl⟩ := hget.get
  exact hf

theorem modify {f : σ → σ} {u : Unit} (h : Ends (modify f : StateT σ Journaled Unit) s u s') : s' = f s :=
  ((Runs.modify f s).of_ends h).2

theorem lift {e : Except Fault α} (h : Ends (liftM e : StateT σ Journaled α) s a s') : e = .ok a ∧ s = s' := by
  obtain ⟨j, j', h⟩ := h
  cases e with
  | error f => cases h
  | ok x =>
    cases h
    exact ⟨rfl, rfl⟩

theorem bind_lift {e : Except Fault α} {f : α → StateT σ Journaled β} (h : Ends (liftM e >>= f) s b s') :
    ∃ a, e = .ok a ∧ Ends (f a) s b s' := by
  obtain ⟨a, _, he, hf⟩ := h.bind
  obtain ⟨ha, rfl⟩ := he.lift
  exact ⟨a, ha, hf⟩

theorem throw {f : Fault} : ¬Ends (throw f : StateT σ Journaled α) s a s' := fun ⟨j, j', h⟩ => by cases h

theorem report {e : Event} {u : Unit} (h : Ends (liftM (emit e) : StateT σ Journaled Unit) s u s') : s = s' :=
  ((Runs.report e s).of_ends h).2.symm

theorem tellTimer {hooks : Hooks} {o : Operation} {u : Unit}
    (h : Ends (liftM (hooks.tellTimer o) : StateT σ Journaled Unit) s u s') : s = s' :=
  ((Runs.tellTimer hooks o s).of_ends h).2.symm

theorem tellMonitor {hooks : Hooks} {v : Value} {u : Unit}
    (h : Ends (liftM (hooks.tellMonitor v) : StateT σ Journaled Unit) s u s') : s = s' :=
  ((Runs.tellMonitor hooks v s).of_ends h).2.symm

end General

section Pools
variable {β : Type} {p p' : Pool β} {h : Handle} {b : β}

theorem read (he : Ends (Pool.read h) p b p') : p.block h = .ok b ∧ p = p' := by
  obtain ⟨q, p₁, hget, hlift⟩ := he.bind
  obtain ⟨rfl, rfl⟩ := hget.get
  exact hlift.lift

theorem bind_read {γ : Type} {f : β → StateT (Pool β) Journaled γ} {c : γ} (he : Ends (Pool.read h >>= f) p c p') :
    ∃ b, p.block h = .ok b ∧ Ends (f b) p c p' := by
  obtain ⟨b, _, hread, hf⟩ := he.bind
  obtain ⟨hb, rfl⟩ := hread.read
  exact ⟨b, hb, hf⟩

theorem write {u : Unit} (he : Ends (Pool.write h b) p u p') : p' = p.put h b := he.modify

theorem update {f : β → Except Fault β} {u : Unit} (he : Ends (Pool.update h f) p u p') :
    ∃ b b', p.block h = .ok b ∧ f b = .ok b' ∧ p' = p.put h b' := by
  obtain ⟨b, p₁, hread, he⟩ := he.bind
  obtain ⟨b', p₂, hlift, hwrite⟩ := he.bind
  obtain ⟨hb, rfl⟩ := hread.read
  obtain ⟨hf, rfl⟩ := hlift.lift
  exact ⟨b, b', hb, hf, hwrite.write⟩

end Pools

theorem onNodes {w : Width} {α : Type} {action : NodeM α} {t t' : Tree w} {a : α}
    (h : Ends (Tree.onNodes action) t a t') : ∃ p, Ends action t.pool a p ∧ t' = { t with pool := p } := by
  obtain ⟨j, j', h⟩ := h
  obtain ⟨p, hm, rfl⟩ := ok_onNodes h
  exact ⟨p, ⟨j, j', hm⟩, rfl⟩

end Ends
end MemoTree
