import MemoTree.Proofs.Dissolving

/-! # Joining neighbours

A node that is left short is repaired: if it is empty it is unlinked, and otherwise it is joined with a neighbour that
it fits to. Taking the slot of the node that goes out of the level above is left to that level. -/

namespace MemoTree
open Pool NodePool Rows

/-! ### Unlinking a node whose slot is gone -/

/-- `take` takes a pair out of a node `d` levels below the root, and repairs what falls short. -/
def Takes (w : Width) (take : Tree.Unlinker w) (d : Nat) : Prop :=
  ∀ {t : Tree w} {c : Rows} {r h : Handle} {rest : Handle → Prop} {k : Nat} {A B : Row} {e : Pair} {late : List Handle},
    Taking t c r d rest h k A e B late → 2 ≤ t.pairs → (t.height - d = 1 → e.1 = k) →
    ∃ t', Runs (take (Words.ofNat w.words k) (t.height - d)) t (some e.2) t' ∧
      Left t (Function.update c h (A ++ B)) r d rest late (Slack · t.height rest (Function.update c h (A ++ B)) r d h)
        (Mends t.pairs (t.height - d) (c.trail k r d) (Function.update c h (A ++ B))) t'

/-- The node `h` hangs in the slot `e` of `o`, on the way of `k`, and may be short. -/
structure Hangs {w : Width} (t : Tree w) (c : Rows) (r : Handle) (d : Nat) (rest : Handle → Prop) (late : List Handle)
    (k : Nat) (h o : Handle) (A : Row) (e : Pair) (B : Row) : Prop where
  lacking : Lacking t c r (d + 1) rest h late
  down : c.route k r (d + 1) = some h
  route : c.route k r d = some o
  row : c o = A ++ e :: B
  above : ∀ a ∈ A, k < a.1
  le : e.1 ≤ k
  child : Pair.child e = some h

section Repairs
variable {w : Width} {t t' : Tree w} {c c' : Rows} {r o h q f : Handle} {d k : Nat} {rest : Handle → Prop}
  {late kin : List Handle} {take : Tree.Unlinker w} {A B : Row} {e : Pair} {done done₀ : Remains → Prop}

namespace Lacking

theorem route (hl : Lacking t c r d rest h late) : ∀ i ∈ c.level r d, ∀ e ∈ c i, c.route e.1 r d = some i :=
  hl.sound.routed d (Nat.le_refl d)

theorem nodup (hl : Lacking t c r d rest h late) : (c.level r d).Nodup := hl.sound.nodup_level (Nat.le_refl d)

/-- The level without the node that goes can be taken into the crown. -/
theorem ready (hl : Lacking t c r (d + 1) rest h late) (hd : Dissolves c c' r d q f) (hs : Short t.pairs c h q f) :
    Ready t c' r (d + 1) rest := by
  have hshort : h = q ∨ h = f ∧ c q ≠ [] := by
    cases hs with
    | empty hhq _ => exact Or.inl hhq
    | joined hside _ hcq _ => exact hside.imp id fun hhf => ⟨hhf, hcq⟩
  have hdesc : ∀ i ∈ c.level r (d + 1), (c i).Descending := fun i hi => hl.sound.descending_level (Nat.le_refl _) hi
  refine ⟨(hd.nodup hl.nodup).2, fun i hi hmem => hl.apart i hi (hd.mem hmem), fun i hi =>
    ⟨hd.descending hdesc hl.route hi,
    fun hnil => ?_, fun e he => ?_⟩, fun hm i hi e he => ?_, fun hm i hi => hl.quiet hm i (hd.mem hi)⟩
  · have hiq : i ≠ q := by
      rintro rfl
      exact (hd.nodup hl.nodup).1 hi
    rw [hd.rows i hi] at hnil
    split at hnil
    · rename_i hif
      obtain ⟨hi₀, hq₀⟩ := List.append_eq_nil_iff.mp hnil
      rcases hshort with rfl | ⟨-, hcq⟩
      · exact hl.full i (hd.mem hi) hiq hi₀
      · exact hcq hq₀
    · rename_i hif
      refine hl.full i (hd.mem hi) ?_ hnil
      rintro rfl
      exact hshort.elim hiq fun hf => hif hf.1
  · obtain ⟨⟨j, hj, hej⟩, hroute⟩ := hd.routed hl.nodup hl.route hi he
    exact ⟨hl.sound.small_level (Nat.le_refl _) hj hej, hroute⟩
  · obtain ⟨⟨j, hj, hej⟩, -⟩ := hd.routed hl.nodup hl.route hi he
    exact hl.inner hm j hj e hej

/-- The node that goes is unlinked when its slot has been taken out. -/
theorem dissolved (hl : Lacking t c r (d + 1) rest h late) (hu : Unslots c c' o q f) (ho : o ∈ c.level r d)
    (hf : f ∈ c.level r (d + 1)) (hshort : Short t.pairs c h q f)
    (hleft : Left t c' r d (Aside c' r (d + 1) rest q)
      (q :: late) (Slack · t.height (Aside c' r (d + 1) rest q) c' r d o) done t')
    (hdone : ∀ {s}, done s → done₀ { s with gone := q :: s.gone, kin := kin ++ s.kin }) :
    ∃ p back, Runs (Tree.onNodes (NodePool.unlink q)) t' back ({ t' with pool := p } : Tree w) ∧
      Left t c r (d + 1) rest late (Slack · t.height rest c r (d + 1) h) done₀ ({ t' with pool := p } : Tree w) := by
  have hd := hu.dissolves hl.sound ho hf
  have hq : q ∈ c.level r (d + 1) := hd.level.mem_iff.mpr List.mem_cons_self
  obtain ⟨p, back, hrun, hleft'⟩ := hleft.lift (hl.ready hd hshort) (hd.nodup hl.nodup).1 (fun hr => hl.apart q hr hq)
    hl.below hdone
  refine ⟨p, back, hrun, hleft'.of_base (Alike.refl t) rfl (Fades.refl _) (fun _ => Iff.rfl)
    (fun i hi => hu.other i ?_ ?_) (hd.level_below hl.nodup) (fun x i hr => hd.route_below hr) (hd.pairs hl.nodup)
    (fun hr hk => hl.slack hu ho hf hshort hr hk) fun h => h⟩
  · rintro rfl
    exact hl.upper.apart i (Or.inl hi) (mem_crown.mpr ⟨d, Nat.lt_succ_self d, ho⟩)
  · rintro rfl
    exact hl.apart i hi hf

/-- The node that is short hangs in its parent, found by a lookup. -/
theorem hangs (hl : Lacking t c r (d + 1) rest h late) (hr : c.route k r (d + 1) = some h) :
    ∃ o A e B, Hangs t c r d rest late k h o A e B := by
  obtain ⟨o, ho, hlook⟩ := Option.bind_eq_some_iff.mp hr
  obtain ⟨e, he, heh⟩ := look_eq_some.mp hlook
  obtain ⟨A, B, hrow, hA⟩ := Row.scan_split he
  exact ⟨o, A, e, B, hl, hr, ho, hrow, hA, Row.le_of_scan he, heh⟩

end Lacking

namespace Hangs

theorem parent_level (hh : Hangs t c r d rest late k h o A e B) : o ∈ c.level r d := mem_level_of_route hh.route

theorem ne (hh : Hangs t c r d rest late k h o A e B) : o ≠ h := by
  rintro rfl
  have := level_unique hh.lacking.sound.nodup (by omega) (Nat.le_refl _) hh.parent_level hh.lacking.node
  omega

theorem trail (hh : Hangs t c r d rest late k h o A e B) : c.trail k r (d + 1) = h :: c.trail k r d :=
  trail_succ (land_of_route hh.down)

theorem exists_trail (hh : Hangs t c r d rest late k h o A e B) : ∃ path, c.trail k r d = o :: path :=
  Rows.exists_trail (land_of_route hh.route)

end Hangs

theorem unslots_empty (hrow : c o = A ++ e :: B) (heq : Pair.child e = some q) (hoq : o ≠ q) (hempty : c q = []) :
    Unslots c (Function.update c o (A ++ B)) o q q where
  other i hio _ := Function.update_of_ne hio _ _
  gives := by rw [Function.update_of_ne hoq.symm, hempty, List.append_nil]
  count := by
    rw [count, count, Function.update_self, hrow]
    simp
    omega
  kids := ⟨A.filterMap Pair.child, B.filterMap Pair.child, by
    rw [kids, hrow, List.filterMap_append, List.filterMap_cons_some heq], by
    rw [kids, Function.update_self, List.filterMap_append], fun hne => absurd hempty hne⟩
  look x i hl hiq := by
    obtain ⟨a, ha, hai⟩ := look_eq_some.mp hl
    rw [hrow] at ha
    refine look_eq_some.mpr ⟨a, ?_, hai⟩
    rw [Function.update_self]
    refine Row.scan_erase ha ?_
    rintro rfl
    rw [heq, Option.some.injEq] at hai
    exact hiq hai.symm
  look_self x hne _ := absurd hempty hne

theorem Hangs.unslots (hh : Hangs t c r d rest late k h o A e B) (hempty : c h = []) :
    Unslots c (Function.update c o (A ++ B)) o h h :=
  unslots_empty hh.row hh.child hh.ne hempty

/-- The slot of a node without pairs can be taken out of its parent. -/
theorem Hangs.taking (hh : Hangs t c r d rest late k h o A e B) (hk : k < 2 ^ w.bits) (hempty : c h = []) :
    Taking t c r d (Aside (Function.update c o (A ++ B)) r (d + 1) rest h) o k A e B (h :: late) := by
  have hl := hh.lacking
  have hstand := hl.upper
  rw [((hh.unslots hempty).dissolves hl.sound hh.parent_level hl.node).aside] at hstand
  exact ⟨hstand, hk, land_of_route hh.route, hh.row, hh.above, hh.le,
    (hh.unslots hempty).coherent hl.coherent (Fades.refl _) (Or.inl (Function.update_of_ne hh.ne.symm _ _)) hh.ne⟩

theorem Hangs.repair_empty (hh : Hangs t c r d rest late k h o A e B) (htake : Takes w take d) (hk : k < 2 ^ w.bits)
    (hempty : c h = []) (hpairs : 2 ≤ t.pairs) :
    ∃ t', Runs (Tree.repair take (Words.ofNat w.words k) (t.height - (d + 1)) h 0) t () t' ∧
      Left t c r (d + 1) rest late (Slack · t.height rest c r (d + 1) h)
        (Mends t.pairs (t.height - (d + 1)) (c.trail k r (d + 1)) c) t' := by
  have hl := hh.lacking
  have hbelow := hl.below
  obtain ⟨t', hrun, hleft⟩ := htake (hh.taking hk hempty) hpairs (by omega)
  have hlevel : t.height - d = t.height - (d + 1) + 1 := by omega
  obtain ⟨path, hpath⟩ := hh.exists_trail
  rw [hlevel, hpath] at hleft
  rw [hlevel] at hrun
  rw [hh.trail, hpath]
  have hdone : ∀ {s}, Mends t.pairs (t.height - (d + 1) + 1) (o :: path) (Function.update c o (A ++ B)) s →
      Mends t.pairs (t.height - (d + 1)) (h :: o :: path) c { s with gone := h :: s.gone, kin := [] ++ s.kin } :=
    fun hs => .unlinked hempty hh.row hh.child hs
  obtain ⟨p, back, hrun', hleft'⟩ := hl.dissolved (hh.unslots hempty) hh.parent_level hl.node
    (.empty rfl hempty) hleft hdone
  exact ⟨_, Runs.of_pos rfl (Runs.bind hrun (Runs.bind hrun' (Runs.pure _ _))), hleft'⟩

/-! ### Two neighbours become one -/

/-- The pairs of `q` are appended to those of `f`. -/
theorem append_spec {g : Geometry} {p : NodePool} (hs : Stock g p c) (hf : p.Live f) (hq : p.Live q)
    (hfit : (c f).length + (c q).length ≤ g.pairs) :
    ∃ n p', p.block q = .ok n ∧ n.pairsFrom g (c q).length 0 = .ok ((c q).inWords g) ∧
      Runs (Pool.update f (Node.writePairs g (c f).length ((c q).inWords g))) p () p' ∧
      Stock g p' (Function.update c f (c f ++ c q)) ∧ Edits p p' := by
  obtain ⟨n, hn, hpacks⟩ := hs.node hf
  obtain ⟨n', hn', hpacks'⟩ := hs.node hq
  obtain ⟨words, hwrite, hpacks''⟩ := hpacks.writePairs hfit (fun e he => hpacks'.small he)
    fun e he => hpacks'.used e he
  have hmoved : n'.pairsFrom g (c q).length 0 = .ok ((c q).inWords g) :=
    Packs.pairsFrom (B := []) (by rwa [List.append_nil])
  exact ⟨n', _, hn', hmoved, Runs.update hn hwrite, hs.write hn hpacks'', Edits.of_words hn words⟩

/-- The words in two neighbouring slots are exchanged. -/
theorem exchange_spec {g : Geometry} {p : NodePool} {e₁ e₂ : Pair} (hs : Stock g p c) (ho : p.Live o)
    (hrow : c o = A ++ e₁ :: e₂ :: B) :
    ∃ n p', Runs (Pool.update o fun block => do
        let block ← block.writeValue g A.length e₂.2
        block.writeValue g (A.length + 1) e₁.2) p () p' ∧
      Stock g p' (Function.update c o (A ++ (e₁.1, e₂.2) :: (e₂.1, e₁.2) :: B)) ∧ Edits p p' ∧
      p'.block o = .ok n ∧ n.key g A.length = .ok (Words.ofNat g.keyLength e₁.1) := by
  obtain ⟨n, hn, hpacks⟩ := hs.node ho
  rw [hrow] at hpacks
  have hused₁ : e₁.2 ≠ 0 := hpacks.used e₁ (by simp)
  have hused₂ : e₂.2 ≠ 0 := hpacks.used e₂ (by simp)
  obtain ⟨words, hwrite, hpacks'⟩ := hpacks.writeValue hused₂
  have hsplit : A ++ (e₁.1, e₂.2) :: e₂ :: B = (A ++ [(e₁.1, e₂.2)]) ++ e₂ :: B := by simp
  rw [hsplit] at hpacks'
  obtain ⟨words', hwrite', hpacks''⟩ := Packs.writeValue (b := { n with words := words }) hpacks' hused₁
  rw [List.append_assoc] at hpacks''
  rw [List.length_append, List.length_singleton] at hwrite'
  have hboth : (do
      let block ← n.writeValue g A.length e₂.2
      block.writeValue g (A.length + 1) e₁.2) = .ok { n with words := words' } := by
    rw [hwrite]
    exact hwrite'
  refine ⟨{ n with words := words' }, _, Runs.update hn hboth, hs.write hn hpacks'', Edits.of_words hn words',
    block_put_self hn, ?_⟩
  exact Packs.key_eq (b := { n with words := words' }) (e := (e₁.1, e₂.2)) hpacks'' (by simp)

/-- Two neighbouring pairs become one under the smaller key: a scan that finds one of them finds the new one. -/
theorem Row.scan_joined {e₁ e₂ a : Pair} {x : Nat} (hd : Row.Descending (A ++ e₁ :: e₂ :: B)) (v : Word)
    (ha : Row.scan (A ++ e₁ :: e₂ :: B) x = some a) :
    (a = e₁ ∨ a = e₂ ∧ x < e₁.1) ∧ Row.scan (A ++ (e₂.1, v) :: B) x = some (e₂.1, v) ∨
      a ≠ e₂ ∧ Row.scan (A ++ (e₂.1, v) :: B) x = some a := by
  have hlt : e₂.1 < e₁.1 := (List.pairwise_cons.mp hd.of_append.2.1).1 e₂ List.mem_cons_self
  rw [Row.scan_append] at ha
  cases hA : A.scan x with
  | some a' =>
    rw [hA, Option.some_or, Option.some.injEq] at ha
    subst ha
    refine Or.inr ⟨?_, by rw [Row.scan_append, hA, Option.some_or]⟩
    rintro rfl
    exact Nat.lt_irrefl _ (hd.of_append.2.2 a' (Row.mem_of_scan hA) a' (by simp))
  | none =>
    have habove := Row.scan_eq_none.mp hA
    rw [hA, Option.none_or] at ha
    by_cases hx₁ : e₁.1 ≤ x
    · rw [Row.scan_cons_of_le hx₁, Option.some.injEq] at ha
      exact Or.inl ⟨Or.inl ha.symm, Row.scan_split_eq habove (by simp only; omega)⟩
    rw [Row.scan_cons_of_lt (by omega)] at ha
    by_cases hx₂ : e₂.1 ≤ x
    · rw [Row.scan_cons_of_le hx₂, Option.some.injEq] at ha
      exact Or.inl ⟨Or.inr ⟨ha.symm, by omega⟩, Row.scan_split_eq habove hx₂⟩
    · rw [Row.scan_cons_of_lt (by omega)] at ha
      refine Or.inr ⟨?_, by rw [Row.scan_append, hA, Option.none_or, Row.scan_cons_of_lt (by simpa using hx₂), ha]⟩
      rintro rfl
      exact hx₂ (Row.le_of_scan ha)

/-- The pairs of `q` go to `f`, which stays under the separator of `q`. -/
theorem unslots_join {e₁ e₂ : Pair} (hrow : c o = A ++ e₁ :: e₂ :: B) (hf : Pair.child e₁ = some f)
    (hq : Pair.child e₂ = some q) (hof : o ≠ f) (hd : (c o).Descending) (hn : (c.kids o).Nodup)
    (hsep : ∀ a ∈ c f, e₁.1 ≤ a.1) :
    Unslots c (Function.update (Function.update c f (c f ++ c q)) o (A ++ (e₂.1, e₁.2) :: B)) o q f := by
  obtain ⟨c', hc'⟩ : ∃ c' : Rows, Function.update (Function.update c f (c f ++ c q)) o (A ++ (e₂.1, e₁.2) :: B) = c' :=
    ⟨_, rfl⟩
  have hrow' : c' o = A ++ (e₂.1, e₁.2) :: B := by rw [← hc', Function.update_self]
  have hf' : Pair.child (e₂.1, e₁.2) = some f := hf
  have hkids : c.kids o = A.filterMap Pair.child ++ f :: q :: B.filterMap Pair.child := by
    rw [kids, hrow, List.filterMap_append, List.filterMap_cons_some hf, List.filterMap_cons_some hq]
  have hqe : ∀ e ∈ c o, Pair.child e = some q → e = e₂ := fun e he heq =>
    slot_unique hn he (by rw [hrow]; simp) heq hq
  rw [hrow] at hd
  rw [hc']
  refine ⟨fun i hio hif => ?_, ?_, ?_, ⟨A.filterMap Pair.child ++ [f], B.filterMap Pair.child, by rw [hkids]; simp, ?_,
    fun _ => ⟨_, rfl⟩⟩, fun x i hl hiq => ?_, fun x _ hl => ?_⟩
  · rw [← hc', Function.update_of_ne hio, Function.update_of_ne hif]
  · rw [← hc', Function.update_of_ne hof.symm, Function.update_self]
  · rw [count, hrow', count, hrow]
    simp
    omega
  · rw [kids, hrow', List.filterMap_append, List.filterMap_cons_some hf', List.append_assoc]
    rfl
  · obtain ⟨a, ha, hai⟩ := look_eq_some.mp hl
    rw [hrow] at ha
    rcases Row.scan_joined hd e₁.2 ha with ⟨rfl | ⟨rfl, -⟩, hscan⟩ | ⟨-, hscan⟩
    · exact look_eq_some.mpr ⟨(e₂.1, a.2), by rw [hrow', hscan], hai⟩
    · exact absurd (Option.some.inj (hai.symm.trans hq)) hiq
    · exact look_eq_some.mpr ⟨a, by rw [hrow', hscan], hai⟩
  · -- a key that led to `q` is below the separator of `f`, hence below all keys of `f`
    obtain ⟨a, ha, haq⟩ := look_eq_some.mp hl
    obtain rfl := hqe a (Row.mem_of_scan ha) haq
    rw [hrow] at ha
    rcases Row.scan_joined hd e₁.2 ha with ⟨rfl | ⟨-, hx⟩, hscan⟩ | ⟨hne, -⟩
    · exact absurd ((List.pairwise_cons.mp hd.of_append.2.1).1 a List.mem_cons_self) (Nat.lt_irrefl _)
    · refine ⟨look_eq_some.mpr ⟨_, by rw [hrow', hscan], hf'⟩, fun b hb => ?_⟩
      have := hsep b hb
      omega
    · exact absurd rfl hne

end Repairs

/-! ### Joining two neighbours -/

/-- The neighbours `f` and `q` under `o`, of which `h` is short, have room in one node. -/
structure Joinable {w : Width} (t : Tree w) (c : Rows) (r : Handle) (d : Nat) (rest : Handle → Prop)
    (late : List Handle) (h o f q : Handle) (A : Row) (e₁ e₂ : Pair) (B : Row) : Prop where
  lacking : Lacking t c r (d + 1) rest h late
  parent : o ∈ c.level r d
  row : c o = A ++ e₁ :: e₂ :: B
  front : Pair.child e₁ = some f
  behind : Pair.child e₂ = some q
  side : h = q ∨ h = f
  filled : c h ≠ []
  less : (c h).length < t.pairs / 2
  fit : (c f).length + (c q).length ≤ t.pairs

namespace Joinable
variable {w : Width} {t : Tree w} {c : Rows} {r h o f q : Handle} {d : Nat} {rest : Handle → Prop} {late : List Handle}
  {take : Tree.Unlinker w} {A B : Row} {e₁ e₂ : Pair} {done : Remains → Prop}

theorem mem_front (hj : Joinable t c r d rest late h o f q A e₁ e₂ B) : e₁ ∈ c o := by
  rw [hj.row]
  simp

theorem front_level (hj : Joinable t c r d rest late h o f q A e₁ e₂ B) : f ∈ c.level r (d + 1) :=
  mem_level_succ.mpr ⟨o, hj.parent, mem_kids.mpr ⟨e₁, hj.mem_front, hj.front⟩⟩

theorem behind_level (hj : Joinable t c r d rest late h o f q A e₁ e₂ B) : q ∈ c.level r (d + 1) :=
  mem_level_succ.mpr ⟨o, hj.parent, mem_kids.mpr ⟨e₂, by rw [hj.row]; simp, hj.behind⟩⟩

theorem ne_front (hj : Joinable t c r d rest late h o f q A e₁ e₂ B) : o ≠ f := by
  rintro rfl
  have := level_unique hj.lacking.sound.nodup (by omega) (Nat.le_refl _) hj.parent hj.front_level
  omega

theorem sound (hj : Joinable t c r d rest late h o f q A e₁ e₂ B) : Sound (2 ^ w.bits) c r d :=
  hj.lacking.upper.sound d rfl

theorem descending (hj : Joinable t c r d rest late h o f q A e₁ e₂ B) : (A ++ e₁ :: e₂ :: B).Descending :=
  hj.row ▸ hj.sound.descending_level (Nat.le_refl d) hj.parent

theorem full (hj : Joinable t c r d rest late h o f q A e₁ e₂ B) {i : Handle} (hi : i ∈ c.level r (d + 1)) :
    c i ≠ [] := by
  by_cases hih : i = h
  · rw [hih]
    exact hj.filled
  · exact hj.lacking.full i hi hih

/-- The rows of the upper levels do not depend on `f`. -/
theorem off (hj : Joinable t c r d rest late h o f q A e₁ e₂ B) (row : Row) {i : Handle} (hi : i ∈ c.crown r (d + 1)) :
    Function.update c f row i = c i := by
  refine Function.update_of_ne ?_ _ _
  rintro rfl
  exact hj.lacking.upper.apart i (Or.inr hj.front_level) hi

theorem unslots (hj : Joinable t c r d rest late h o f q A e₁ e₂ B) :
    Unslots c (Function.update (Function.update c f (c f ++ c q)) o (A ++ (e₂.1, e₁.2) :: B)) o q f :=
  unslots_join hj.row hj.front hj.behind hj.ne_front (hj.sound.descending_level (Nat.le_refl d) hj.parent)
    (nodup_kids hj.lacking.nodup hj.parent) fun _ ha =>
      hj.lacking.sound.separator_le (Nat.lt_succ_self d) hj.parent hj.mem_front hj.front ha

theorem joins (hj : Joinable t c r d rest late h o f q A e₁ e₂ B) : Joins t.pairs c o f q
    (Function.update (Function.update c f (c f ++ c q)) o (A ++ (e₂.1, e₁.2) :: B)) := by
  have hdissolves := hj.unslots.dissolves hj.lacking.sound hj.parent hj.front_level
  have hall := hdissolves.descending (fun i hi => hj.lacking.sound.descending_level (Nat.le_refl _) hi) hj.lacking.route
    (hdissolves.home (hj.full hj.behind_level))
  rw [hj.unslots.gives] at hall
  exact .mk hj.row hj.front hj.behind
    ((List.pairwise_cons.mp hj.descending.of_append.2.1).1 e₂ List.mem_cons_self) hj.fit hall

/-- Changes land in the upper levels as before when the rows of the two nodes and of their parent are set. -/
theorem land (hj : Joinable t c r d rest late h o f q A e₁ e₂ B) (row row' : Row) (x : Nat) {i : Nat} (hi : i ≤ d) :
    Rows.land (Function.update (Function.update c f row) o row') x r i = c.land x r i := by
  refine land_congr fun j hlt k hk => ?_
  have hko : k ≠ o := by
    rintro rfl
    have := level_unique hj.sound.nodup (by omega) (Nat.le_refl _) hk hj.parent
    omega
  rw [Function.update_of_ne hko]
  exact hj.off row (mem_crown.mpr ⟨j, by omega, hk⟩)

/-- The pairs of `q` are moved to `f`, and the words of the two are exchanged in their parent: what goes is the slot
that leads to `q`, under the separator of `f`. -/
theorem exchanged (hj : Joinable t c r d rest late h o f q A e₁ e₂ B) :
    ∃ p, Runs (Tree.onNodes do
        let moved ← (← Pool.read q).pairsFrom t.geometry (c q).length 0
        Pool.update f (Node.writePairs t.geometry (c f).length moved)
        if t.height - (d + 1) > 1 then NodePool.invalidate f
        Pool.update o fun block => do
          let block ← block.writeValue t.geometry A.length q.word
          block.writeValue t.geometry (A.length + 1) f.word
        (← Pool.read o).key t.geometry A.length) t (Words.ofNat w.words e₁.1) { t with pool := p } ∧
      Fades t.pool p ∧ (∀ i, p.Live i ↔ t.pool.Live i) ∧
      Taking ({ t with pool := p } : Tree w)
        (Function.update (Function.update c f (c f ++ c q)) o (A ++ (e₁.1, e₂.2) :: (e₂.1, e₁.2) :: B)) r d
        (Aside (Function.update (Function.update c f (c f ++ c q)) o (A ++ (e₂.1, e₁.2) :: B)) r
          (d + 1) rest q) o e₁.1 A
        (e₁.1, e₂.2) ((e₂.1, e₁.2) :: B) (q :: late) := by
  have hl := hj.lacking
  have hu := hj.unslots
  have hd := hu.dissolves hl.sound hj.parent hj.front_level
  have hqw : e₂.2 = q.word := Pair.child_eq_some.mp hj.behind
  have hfw : e₁.2 = f.word := Pair.child_eq_some.mp hj.front
  have hbelow := hl.below
  -- the pairs of `q` are appended to `f`, and the ring of `f` is emptied
  obtain ⟨n, p₁, hn, hmoved, hrun₁, hs₁, hedits₁⟩ :=
    append_spec hl.upper.stock (hl.live hj.front_level) (hl.live hj.behind_level) hj.fit
  obtain ⟨p₂, hs₂, hfades₂, hlive₂, hquiet₂, hrun₂⟩ := hs₁.invalidate ((hedits₁.live f).mpr (hl.live hj.front_level))
    (t.height - (d + 1)) fun hlow => hedits₁.fades.quiet (hl.quiet (by omega) f hj.front_level)
  have hlive₂' : ∀ i, p₂.Live i ↔ t.pool.Live i := fun i => (hlive₂ i).trans (hedits₁.live i)
  have hst₁ := hl.upper.congr hs₂ (hedits₁.fades.trans hfades₂) (fun _ hi => hj.off _ hi)
    (fun i => (hlive₂' i).trans (hl.upper.live i)) hl.upper.apart
  have ho : o ∈ c.crown r (d + 1) := mem_crown.mpr ⟨d, Nat.lt_succ_self d, hj.parent⟩
  have hrow₁ : Function.update c f (c f ++ c q) o = A ++ e₁ :: e₂ :: B := (hj.off _ ho).trans hj.row
  have hlevel₁ : Rows.level (Function.update c f (c f ++ c q)) r d = c.level r d :=
    level_congr fun j hlt i hi => hj.off _ (mem_crown.mpr ⟨j, by omega, hi⟩)
  have ho₁ : o ∈ Rows.level (Function.update c f (c f ++ c q)) r d := by
    rw [hlevel₁]
    exact hj.parent
  -- the words of the two are exchanged in their parent
  obtain ⟨n', p₃, hrun₃, hs₃, hedits₃, hn', hkey⟩ :=
    exchange_spec hs₂ ((hlive₂' o).mpr (hl.upper.live_of_level (Nat.lt_succ_self d) hj.parent)) hrow₁
  have hst₃ := hst₁.update ho₁ hs₃ hedits₃.fades hedits₃.live ((hst₁.sound d rfl).update_keys ho₁ (by rw [hrow₁]; simp))
    (by simp) fun hm e he => by
      have hchild := hl.upper.inner hm o ho
      rw [hj.row] at hchild
      rcases List.mem_append.mp he with he | he
      · exact hchild e (List.mem_append_left _ he)
      · rcases List.mem_cons.mp he with rfl | he
        · exact ⟨q, hj.behind⟩
        rcases List.mem_cons.mp he with rfl | he
        · exact ⟨f, hj.front⟩
        · exact hchild e (List.mem_append_right _ (List.mem_cons_of_mem _ (List.mem_cons_of_mem _ he)))
  have hfades : Fades t.pool p₃ := hedits₁.fades.trans (hfades₂.trans hedits₃.fades)
  rw [hd.aside] at hst₃
  rw [hqw, hfw] at hrun₃
  refine ⟨p₃, Runs.onNodes (Runs.bind (Runs.read hn) (Runs.bind (Runs.lift hmoved _) (Runs.bind hrun₁ (hrun₂
    (Runs.bind hrun₃ (Runs.bind (Runs.read hn') (Runs.lift hkey _))))))), hfades,
    fun i => (hedits₃.live i).trans (hlive₂' i),
    hst₃, hj.sound.small_level (Nat.le_refl d) hj.parent hj.mem_front, ?_, Function.update_self _ _ _,
    fun a ha => hj.descending.of_append.2.2 a ha e₁ List.mem_cons_self, Nat.le_refl _, ?_⟩
  · -- the exchange moved words, not keys, so the separator of `f` is still found where it was
    rw [hj.land _ _ _ (Nat.le_refl d)]
    exact land_of_route (hj.sound.routed d (Nat.le_refl d) o hj.parent e₁ hj.mem_front)
  · rw [Function.update_idem]
    exact hu.coherent hl.coherent hfades (Or.inr (hedits₃.fades.quiet hquiet₂)) hj.ne_front

/-- Two neighbours of which one is short become one. -/
theorem join_spec (hj : Joinable t c r d rest late h o f q A e₁ e₂ B) (kin : List Handle) (htake : Takes w take d)
    (hpairs : 2 ≤ t.pairs)
    (hdone : ∀ {c' s}, Joins t.pairs c o f q c' → Mends t.pairs (t.height - (d + 1) + 1) (c.trail e₁.1 r d) c' s →
      done { s with gone := q :: s.gone, kin := kin ++ s.kin }) :
    ∃ t', Runs (Tree.join take (t.height - (d + 1)) f (c f).length q (c q).length o A.length) t () t' ∧
      Left t c r (d + 1) rest late (Slack · t.height rest c r (d + 1) h) done t' := by
  have hbelow := hj.lacking.below
  obtain ⟨p, hmerge, hfades, hlive, htaking⟩ := hj.exchanged
  have hlevel : ({ t with pool := p } : Tree w).height - d = t.height - (d + 1) + 1 := by
    change t.height - d = _
    omega
  obtain ⟨t', hrun, hleft⟩ := htake htaking hpairs (by change t.height - d = 1 → _; omega)
  rw [Function.update_idem, hlevel, trail_congr fun i hi => hj.land _ _ _ hi] at hleft
  obtain ⟨p', back, hrun', hleft'⟩ := hj.lacking.dissolved hj.unslots hj.parent hj.front_level
    (.joined hj.side (hj.full hj.front_level) (hj.full hj.behind_level) hj.less) (hleft.of_pool (t := t) hfades hlive)
    (hdone hj.joins)
  have hqw : e₂.2 = q.word := Pair.child_eq_some.mp hj.behind
  rw [hlevel] at hrun
  exact ⟨_, Runs.bind (Runs.get _) (Runs.bind hmerge (Runs.bind hrun (Runs.of_neg (by simp [hqw]) (Runs.bind hrun'
    (Runs.report _ _))))), hleft'⟩

end Joinable
end MemoTree
