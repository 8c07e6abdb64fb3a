import MemoTree.Proofs.Likeness
import MemoTree.Proofs.Outcomes

/-! # Lockstep

Two computations go in lockstep if their outcomes are related wherever both end without a fault (`Lockstep`). For the
same program, started in two states, lockstep is shown step by step: there is one rule for each way in which a program
is put together. -/

namespace MemoTree

/-- Where `m`, started in `s`, and `m'`, started in `s'`, both end, what they answer and leave is related by `Q`. -/
def Lockstep {σ τ α β : Type} (m : StateT σ Journaled α) (s : σ) (m' : StateT τ Journaled β) (s' : τ)
    (Q : α → σ → β → τ → Prop) : Prop :=
  ∀ a s₁ b s₁', Ends m s a s₁ → Ends m' s' b s₁' → Q a s₁ b s₁'

namespace Lockstep

section General
variable {σ τ α β γ δ : Type} {s : σ} {s' : τ} {m : StateT σ Journaled α} {m' : StateT τ Journaled β}
  {k : α → StateT σ Journaled γ} {k' : β → StateT τ Journaled δ} {Q : γ → σ → δ → τ → Prop} {R : α → σ → β → τ → Prop}

theorem bind (h : Lockstep m s m' s' R) (hk : ∀ a t b t', R a t b t' → Lockstep (k a) t (k' b) t' Q) :
    Lockstep (m >>= k) s (m' >>= k') s' Q := fun c u d u' hc hd => by
  obtain ⟨a, t, ha, hc⟩ := hc.bind
  obtain ⟨b, t', hb, hd⟩ := hd.bind
  exact hk a t b t' (h a t b t' ha hb) c u d u' hc hd

theorem mono {R' : α → σ → β → τ → Prop} (h : Lockstep m s m' s' R) (hR : ∀ a t b t', R a t b t' → R' a t b t') :
    Lockstep m s m' s' R' := fun a t b t' ha hb => hR a t b t' (h a t b t' ha hb)

theorem pure {a : α} {b : β} (h : R a s b s') : Lockstep (pure a) s (pure b) s' R := fun _ _ _ _ ha hb => by
  obtain ⟨rfl, rfl⟩ := ha.pure
  obtain ⟨rfl, rfl⟩ := hb.pure
  exact h

theorem pure_bind {a : α} {b : β} (h : Lockstep (k a) s (k' b) s' Q) :
    Lockstep (Pure.pure a >>= k) s (Pure.pure b >>= k') s' Q := fun c u d u' hc hd => by
  obtain ⟨_, _, ha, hc⟩ := hc.bind
  obtain ⟨_, _, hb, hd⟩ := hd.bind
  obtain ⟨rfl, rfl⟩ := ha.pure
  obtain ⟨rfl, rfl⟩ := hb.pure
  exact h c u d u' hc hd

theorem get {k : σ → StateT σ Journaled γ} {k' : τ → StateT τ Journaled δ} (h : Lockstep (k s) s (k' s') s' Q) :
    Lockstep (MonadStateOf.get >>= k) s (MonadStateOf.get >>= k') s' Q := fun c u d u' hc hd => by
  obtain ⟨_, _, ha, hc⟩ := hc.bind
  obtain ⟨_, _, hb, hd⟩ := hd.bind
  obtain ⟨rfl, rfl⟩ := ha.get
  obtain ⟨rfl, rfl⟩ := hb.get
  exact h c u d u' hc hd

theorem modify {f : σ → σ} {f' : τ → τ} {R : Unit → σ → Unit → τ → Prop} (h : R () (f s) () (f' s')) :
    Lockstep (modify f : StateT σ Journaled Unit) s (modify f' : StateT τ Journaled Unit) s' R :=
      fun _ _ _ _ ha hb => by
  obtain rfl := ha.modify
  obtain rfl := hb.modify
  exact h

theorem of_lift {e : Except Fault α} {e' : Except Fault β} {V : α → β → Prop} (h : Agree V e e') :
    Lockstep (liftM e : StateT σ Journaled α) s (liftM e' : StateT τ Journaled β) s'
      fun a t b t' => V a b ∧ t = s ∧ t' = s' := fun a _ b _ ha hb => by
  obtain ⟨he, rfl⟩ := ha.lift
  obtain ⟨he', rfl⟩ := hb.lift
  exact ⟨h a b he he', rfl, rfl⟩

theorem lift {e : Except Fault α} {e' : Except Fault β} {V : α → β → Prop} (h : Agree V e e')
    (hk : ∀ a b, V a b → Lockstep (k a) s (k' b) s' Q) : Lockstep (liftM e >>= k) s (liftM e' >>= k') s' Q :=
  bind (of_lift h) fun a t b t' ⟨hab, ht, ht'⟩ => by
    rw [ht, ht']
    exact hk a b hab

/-- A step that computes the same on both sides. -/
theorem same {k' : α → StateT τ Journaled δ} {e e' : Except Fault α} (h : e' = e)
    (hk : ∀ a, e = .ok a → Lockstep (k a) s (k' a) s' Q) : Lockstep (liftM e >>= k) s (liftM e' >>= k') s' Q :=
  lift (Agree.of_eq h) fun a b hab => by
    obtain ⟨ha, rfl⟩ := hab
    exact hk b ha

theorem of_report {e e' : Event} {R : Unit → σ → Unit → τ → Prop} (h : R () s () s') :
    Lockstep (liftM (emit e) : StateT σ Journaled Unit) s (liftM (emit e') : StateT τ Journaled Unit) s' R :=
  fun _ _ _ _ ha hb => by
    obtain rfl := ha.report
    obtain rfl := hb.report
    exact h

theorem report {e e' : Event} {k : Unit → StateT σ Journaled γ} {k' : Unit → StateT τ Journaled δ}
    (hk : Lockstep (k ()) s (k' ()) s' Q) :
    Lockstep (liftM (emit e) >>= k) s (liftM (emit e') >>= k') s' Q :=
  bind (of_report (R := fun _ t _ t' => t = s ∧ t' = s') ⟨rfl, rfl⟩) fun _ t _ t' ht => by
    rw [ht.1, ht.2]
    exact hk

theorem tellTimer {hooks hooks' : Hooks} {o o' : Operation} {k : Unit → StateT σ Journaled γ}
    {k' : Unit → StateT τ Journaled δ} (hk : Lockstep (k ()) s (k' ()) s' Q) :
    Lockstep (liftM (hooks.tellTimer o) >>= k) s (liftM (hooks'.tellTimer o') >>= k') s' Q := fun c u d u' hc hd => by
  obtain ⟨_, _, ha, hc⟩ := hc.bind
  obtain ⟨_, _, hb, hd⟩ := hd.bind
  obtain rfl := ha.tellTimer
  obtain rfl := hb.tellTimer
  exact hk c u d u' hc hd

theorem ite {c c' : Prop} [Decidable c] [Decidable c'] {m₁ m₂ : StateT σ Journaled α} {m₁' m₂' : StateT τ Journaled β}
    (hc : c' ↔ c) (h₁ : c → Lockstep m₁ s m₁' s' R) (h₂ : ¬c → Lockstep m₂ s m₂' s' R) :
    Lockstep (if c then m₁ else m₂) s (if c' then m₁' else m₂') s' R := by
  by_cases h : c
  · rw [if_pos h, if_pos (hc.mpr h)]
    exact h₁ h
  · rw [if_neg h, if_neg fun h' => h (hc.mp h')]
    exact h₂ h

theorem throw {f : Fault} : Lockstep (throw f) s m' s' R := fun _ _ _ _ ha => absurd ha Ends.throw

/-- One side answers `a`, whatever comes before and whatever the other side does. -/
theorem answers_left {x : StateT σ Journaled γ} {a : α} (h : ∀ t b t', R a t b t') :
    Lockstep (x >>= fun _ => Pure.pure a) s m' s' R := fun _ t b t' ha _ => by
  obtain ⟨_, _, -, ha⟩ := ha.bind
  obtain ⟨rfl, rfl⟩ := ha.pure
  exact h _ b t'

theorem answers_right {x : StateT τ Journaled δ} {b : β} (h : ∀ a t t', R a t b t') :
    Lockstep m s (x >>= fun _ => Pure.pure b) s' R := fun a t _ _ _ hb => by
  obtain ⟨_, _, -, hb⟩ := hb.bind
  obtain ⟨rfl, rfl⟩ := hb.pure
  exact h a t _

theorem pure_left {a : α} (h : ∀ t b t', R a t b t') : Lockstep (Pure.pure a) s m' s' R := fun _ t b t' ha _ => by
  obtain ⟨rfl, rfl⟩ := ha.pure
  exact h _ b t'

theorem pure_right {b : β} (h : ∀ a t t', R a t b t') : Lockstep m s (Pure.pure b) s' R := fun a t _ _ _ hb => by
  obtain ⟨rfl, rfl⟩ := hb.pure
  exact h a t _

/-- A check that the rest takes for granted. -/
theorem guard {c c' : Prop} [Decidable c] [Decidable c'] {f f' : Fault} {jump : Unit → StateT σ Journaled γ}
    {jump' : Unit → StateT τ Journaled δ} (h : ¬c → ¬c' → Lockstep (jump ()) s (jump' ()) s' Q) :
    Lockstep (if c then MonadExcept.throw f >>= jump else jump ()) s
      (if c' then MonadExcept.throw f' >>= jump' else jump' ()) s' Q :=
  fun x u y u' hx hy => by
    split at hx
    · obtain ⟨_, _, ha, -⟩ := hx.bind
      exact absurd ha Ends.throw
    · rename_i hc
      split at hy
      · obtain ⟨_, _, hb, -⟩ := hy.bind
        exact absurd hb Ends.throw
      · rename_i hc'
        exact h hc hc' x u y u' hx hy

end General

section Pools
variable {p p' : NodePool} {γ δ : Type} {k : Node → NodeM γ} {k' : Node → NodeM δ}
    {Q : γ → NodePool → δ → NodePool → Prop}
  {h h' : Handle} {n n' : Node}

theorem read (hn : p.block h = .ok n) (hn' : p'.block h' = .ok n') (hk : Lockstep (k n) p (k' n') p' Q) :
    Lockstep (Pool.read h >>= k) p (Pool.read h' >>= k') p' Q := fun c u d u' hc hd => by
  obtain ⟨a, _, ha, hc⟩ := hc.bind
  obtain ⟨b, _, hb, hd⟩ := hd.bind
  obtain ⟨hx, rfl⟩ := ha.read
  obtain ⟨hx', rfl⟩ := hb.read
  rw [hn] at hx
  rw [hn'] at hx'
  cases hx
  cases hx'
  exact hk c u d u' hc hd

theorem write {R : Unit → NodePool → Unit → NodePool → Prop} (hR : R () (p.put h n) () (p'.put h' n')) :
    Lockstep (Pool.write h n) p (Pool.write h' n') p' R := modify hR

end Pools

section Trees
variable {w : Width} {t u : Tree w} {α β : Type} {x : NodeM α} {x' : NodeM β} {Q : α → NodePool → β → NodePool → Prop}

theorem onNodes (h : Lockstep x t.pool x' u.pool Q) :
    Lockstep (Tree.onNodes x) t (Tree.onNodes x') u fun a t' b u' =>
      ∃ p p', Q a p b p' ∧ t' = { t with pool := p } ∧ u' = { u with pool := p' } := fun a t' b u' ha hb => by
  obtain ⟨p, hx, rfl⟩ := ha.onNodes
  obtain ⟨p', hx', rfl⟩ := hb.onNodes
  exact ⟨p, p', h a p b p' hx hx', rfl, rfl⟩

end Trees
end Lockstep
end MemoTree
