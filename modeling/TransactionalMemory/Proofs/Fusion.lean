import TransactionalMemory.Proofs.Operations
import TransactionalMemory.Proofs.Recovery
import TransactionalMemory.Scenario.Val

namespace TransactionalMemory

variable {β : Type} [Universe β] {Ω : Type} {W : Ω → Prop}

/-- The code comes to the same in all surroundings of a kind. -/
def Code.Steady {α : Type} (W : Ω → Prop) (m : Code Ω α) : Prop := ∀ ω ω', W ω → W ω' → m ω = m ω'

namespace Tree

def Settles (W : Ω → Prop) (f : FiberId) (env : Any β) (t : Tree β Ω) (j : Journal β) (n : Nat)
    (p : Outcome β × Journal β) : Prop :=
  ∀ l o j', (∀ x ∈ l, W x.world) → (t.Evaluates f env j l o j' ↔ l.length = n ∧ (o, j') = p)

/-- Wherever a run starts and whatever others do meanwhile, the second tree comes to what the first one
comes to in a single step, if that is made when the second one begins. How long the second one takes is
settled by then. -/
def Fuses (W : Ω → Prop) (f : FiberId) (env : Any β) (t u : Tree β Ω) : Prop :=
  ∀ j, ∃ n : Scene β Ω → Nat, ∀ l o j', (∀ x ∈ l, W x.world) →
    (u.Evaluates f env j l o j' ↔
      ∃ x l', l = x :: l' ∧ l'.length = n x ∧ t.Evaluates f env j [x] o j')

variable {f : FiberId} {env : Any β} {j j₁ : Journal β} {t : Tree β Ω} {k : Ω → Any β → Tree β Ω}
  {n m : Nat} {o : Outcome β} {p : Outcome β × Journal β} {v : Any β}

theorem settles_done : (done o).Settles W f env j 1 (o, j) := by
  intro l o' j' _
  rw [evaluates_done_iff, List.length_eq_one_iff, Prod.mk.injEq]

theorem settles_crash {q : Panic} : (crash q).Settles W f env j 0 (.halt (.ofPanic q), j) := by
  intro l o' j' _
  constructor
  · rintro ⟨⟩
    exact ⟨rfl, rfl⟩
  · rintro ⟨hl, ⟨⟩⟩
    rw [List.length_eq_zero_iff.1 hl]
    exact .crash

theorem Settles.notThen (h : t.Settles W f env j n p) (hp : ∀ v, p.1 ≠ .success v) :
    (t.onSuccess k).Settles W f env j n p := by
  intro l o j' hl
  rw [evaluates_onSuccess_iff, h l o j' hl]
  constructor
  · rintro (⟨h, -⟩ | ⟨l₁, x, l₂, v, j₁, rfl, ht, -⟩)
    · exact h
    · obtain ⟨-, rfl⟩ := (h l₁ _ _ fun y hy => hl y (by simp [hy])).1 ht
      exact absurd rfl (hp v)
  · rintro ⟨hn, rfl⟩
    exact .inl ⟨⟨hn, rfl⟩, hp⟩

theorem Settles.andThen (h : t.Settles W f env j n (.success v, j₁))
    (hk : ∀ ω, W ω → (k ω v).Settles W f env j₁ m p) :
    (t.onSuccess k).Settles W f env j (n + (1 + m)) p := by
  intro l o j' hl
  rw [evaluates_onSuccess_iff, h l o j' hl]
  constructor
  · rintro (⟨⟨-, ⟨⟩⟩, hn⟩ | ⟨l₁, x, l₂, w, j₂, rfl, ht, h'⟩)
    · exact absurd rfl (hn v)
    · simp only [List.forall_mem_append, List.forall_mem_cons] at hl
      obtain ⟨hn, ⟨⟩⟩ := (h l₁ _ _ hl.1).1 ht
      obtain ⟨hm, rfl⟩ := (hk x.world hl.2.1 l₂ o j' hl.2.2).1 h'
      refine ⟨?_, rfl⟩
      simp only [List.length_append, List.length_cons, hn, hm]
      omega
  · rintro ⟨hn, rfl⟩
    obtain ⟨l₁, l₂, rfl, hn₁, hn₂⟩ : ∃ l₁ l₂, l = l₁ ++ l₂ ∧ l₁.length = n ∧ l₂.length = 1 + m :=
      ⟨l.take n, l.drop n, (List.take_append_drop n l).symm, by simp; omega, by simp; omega⟩
    obtain ⟨x, l₂, rfl⟩ := List.exists_cons_of_length_pos (l := l₂) (by omega)
    simp only [List.forall_mem_append, List.forall_mem_cons] at hl
    have hm : l₂.length = m := by
      rw [List.length_cons] at hn₂
      omega
    exact .inr ⟨l₁, x, l₂, v, j₁, rfl, (h l₁ _ _ hl.1).2 ⟨hn₁, rfl⟩,
      (hk x.world hl.2.1 l₂ o j' hl.2.2).2 ⟨hm, rfl⟩⟩

theorem evaluates_touch_onSuccess_iff {c : CellId} {g : Any β → Code Ω (Access β)}
    {l : List (Scene β Ω)} {j' : Journal β} :
    ((touch c g).onSuccess k).Evaluates f env j l o j' ↔
      ∃ x l' o₁ j₁, l = x :: l' ∧ (touch c g).Evaluates f env j [x] o₁ j₁ ∧
        ((∀ v, o₁ ≠ .success v) ∧ l' = [] ∧ o = o₁ ∧ j' = j₁ ∨
          ∃ v y l₂, o₁ = .success v ∧ l' = y :: l₂ ∧
            (k y.world v).Evaluates f env j₁ l₂ o j') := by
  rw [evaluates_onSuccess_iff]
  constructor
  · rintro (⟨h, hn⟩ | ⟨l₁, y, l₂, v, j₁, rfl, h, h'⟩)
    · obtain ⟨x, rfl, -⟩ := evaluates_touch_iff.1 h
      exact ⟨x, [], o, j', rfl, h, .inl ⟨hn, rfl, rfl, rfl⟩⟩
    · obtain ⟨x, rfl, -⟩ := evaluates_touch_iff.1 h
      exact ⟨x, _, _, j₁, rfl, h, .inr ⟨v, y, l₂, rfl, rfl, h'⟩⟩
  · rintro ⟨x, l', o₁, j₁, rfl, h, ⟨hn, rfl, rfl, rfl⟩ | ⟨v, y, l₂, rfl, rfl, h'⟩⟩
    · exact .inl ⟨h, hn⟩
    · exact .inr ⟨[x], y, l₂, v, j₁, rfl, h, h'⟩

theorem exists_length_after_touch {c : CellId} {g : Any β → Code Ω (Access β)} {x : Scene β Ω}
    {q : Outcome β × Journal β} (hp : (touch c g).Evaluates f env j [x] p.1 p.2)
    (hpq : (∀ v, p.1 ≠ .success v) ∧ q = p ∨
      ∃ v n, p.1 = .success v ∧ ∀ ω, W ω → (k ω v).Settles W f env p.2 n q) :
    ∃ n, ∀ l o j', (∀ y ∈ l, W y.world) →
      (((touch c g).onSuccess k).Evaluates f env j (x :: l) o j' ↔ l.length = n ∧ (o, j') = q) := by
  -- After a step that comes to `p` there is nothing more to do, or all that is to do comes to `q`.
  obtain ⟨o₁, j₁⟩ := p
  have hfirst {o₂ j₂} (h : (touch c g).Evaluates f env j [x] o₂ j₂) : o₂ = o₁ ∧ j₂ = j₁ :=
    Prod.mk.inj ((evaluates_touch_one.1 h).trans (evaluates_touch_one.1 hp).symm)
  simp only [evaluates_touch_onSuccess_iff]
  obtain ⟨hstop, rfl⟩ | ⟨v, n, ⟨⟩, hk⟩ := hpq
  · refine ⟨0, fun l o j' _ => ⟨?_, ?_⟩⟩
    · rintro ⟨_, _, o₂, j₂, ⟨⟩, h, ⟨-, rfl, rfl, rfl⟩ | ⟨v, y, l₂, rfl, -⟩⟩
      · obtain ⟨rfl, rfl⟩ := hfirst h
        exact ⟨rfl, rfl⟩
      · exact absurd (hfirst h).1.symm (hstop v)
    · rintro ⟨hl, ⟨⟩⟩
      exact ⟨x, l, _, _, rfl, hp, .inl ⟨hstop, List.length_eq_zero_iff.1 hl, rfl, rfl⟩⟩
  · refine ⟨n + 1, fun l o j' hl => ⟨?_, ?_⟩⟩
    · rintro ⟨_, _, o₂, j₂, ⟨⟩, h, ⟨hne, -⟩ | ⟨w, y, l₂, rfl, rfl, h'⟩⟩
      · exact absurd (hfirst h).1 (hne v)
      · obtain ⟨⟨⟩, rfl⟩ := hfirst h
        obtain ⟨hy, hl⟩ := List.forall_mem_cons.1 hl
        obtain ⟨rfl, e⟩ := (hk y.world hy l₂ o j' hl).1 h'
        exact ⟨rfl, e⟩
    · rintro ⟨hn, e⟩
      obtain ⟨y, l, rfl⟩ := List.exists_cons_of_length_eq_add_one hn
      obtain ⟨hy, hl⟩ := List.forall_mem_cons.1 hl
      exact ⟨x, _, _, j₁, rfl, hp,
        .inr ⟨v, y, l, rfl, rfl, (hk y.world hy l o j' hl).2 ⟨Nat.succ.inj hn, e⟩⟩⟩

theorem fuses_of_touch {c d : CellId} {g g' : Any β → Code Ω (Access β)}
    (h : ∀ j x, W x.world → ∃ p q, (touch c g).Evaluates f env j [x] p.1 p.2 ∧
      (touch d g').Evaluates f env j [x] q.1 q.2 ∧
      ((∀ v, p.1 ≠ .success v) ∧ q = p ∨
        ∃ v n, p.1 = .success v ∧ ∀ ω, W ω → (k ω v).Settles W f env p.2 n q)) :
    Fuses W f env (touch d g') ((touch c g).onSuccess k) := by
  intro j
  have hx (x : Scene β Ω) : ∃ n, W x.world → ∀ l o j', (∀ y ∈ l, W y.world) →
      (((touch c g).onSuccess k).Evaluates f env j (x :: l) o j' ↔
        l.length = n ∧ (touch d g').Evaluates f env j [x] o j') := by
    by_cases hw : W x.world
    case neg => exact ⟨0, fun h => absurd h hw⟩
    obtain ⟨p, q, hp, hq, hpq⟩ := h j x hw
    obtain ⟨n, hn⟩ := exists_length_after_touch hp hpq
    simp only [evaluates_touch_one] at hq ⊢
    rw [← hq]
    exact ⟨n, fun _ => hn⟩
  obtain ⟨n, hn⟩ := Classical.skolem.1 hx
  refine ⟨n, fun l o j' hl => ⟨fun h => ?_, ?_⟩⟩
  · obtain ⟨x, l, _, _, rfl, -⟩ := evaluates_touch_onSuccess_iff.1 h
    obtain ⟨hx, hl⟩ := List.forall_mem_cons.1 hl
    exact ⟨x, l, rfl, (hn x hx l o j' hl).1 h⟩
  · rintro ⟨x, l, rfl, hl', h⟩
    obtain ⟨hx, hl⟩ := List.forall_mem_cons.1 hl
    exact (hn x hx l o j' hl).2 ⟨hl', h⟩

end Tree

namespace View

variable {R S E F A B : Ty β} {v : View Ω S E F A B} {f : FiberId} {env : Any β} {j : Journal β}
  {x : Scene β Ω} {s : S.El} {a : A.El}

theorem settles_set (hs : (j.entry x.store v.ref.cell).current = ⟨S, s⟩)
    (hv : Code.Steady W (v.writer.write a s).run) (hx : W x.world) :
    (v.set a : Tx Ω R E .unit).tree.Settles W f env (j.put v.ref.cell (j.entry x.store v.ref.cell)) 1
      (j.touch x.store v.ref.cell fun _ => store .unit <$> (v.writer.write a s).result x.world) := by
  have hset {y : Scene β Ω} {o : Outcome β} {j' : Journal β} (hy : W y.world) :
      (v.set a : Tx Ω R E .unit).tree.Evaluates f env
          (j.put v.ref.cell (j.entry x.store v.ref.cell)) [y] o j' ↔
        (o, j') = j.touch x.store v.ref.cell fun _ =>
          store .unit <$> (v.writer.write a s).result x.world := by
    have hcur : ((j.put v.ref.cell (j.entry x.store v.ref.cell)).entry y.store v.ref.cell).current =
        ⟨S, s⟩ := by
      rw [Journal.entry_put_self, hs]
    rw [evaluates_set_iff hcur, Journal.touch_put_entry]
    rw [show (v.writer.write a s).result y.world = (v.writer.write a s).result x.world from
      hv y.world x.world hy hx]
  intro l o j' hl
  rw [List.length_eq_one_iff]
  constructor
  · intro h
    obtain ⟨y, rfl⟩ := (Performs.set (R := R) v a).exists_scene h
    exact ⟨⟨y, rfl⟩, (hset (hl y List.mem_cons_self)).1 h⟩
  · rintro ⟨⟨y, rfl⟩, h⟩
    exact (hset (hl y List.mem_cons_self)).2 h

theorem touch_store_cases {c : CellId} {s : Store β} (q : Except Panic (Except E.El S.El)) (b : Any β) :
    let p := j.touch s c fun _ => store .unit <$> q
    let p' := j.touch s c fun _ => store b <$> q
    (∀ w, p.1 ≠ .success w) ∧ p' = p ∨ p.1 = .success .unit ∧ p' = (.success b, p.2) := by
  obtain ⟨s', rfl⟩ | ⟨q, rfl⟩ := Conv.value_or_stop q
  · simp only [store_value, Journal.touch_write]
    cases (j.entry s c).set ⟨S, s'⟩ with
    | error d => exact .inl ⟨nofun, rfl⟩
    | ok y => exact .inr ⟨rfl, rfl⟩
  · simp only [store_stop]
    cases q with
    | error p => exact .inl ⟨nofun, trivial⟩
    | ok e => exact .inl ⟨nofun, trivial⟩

theorem settles_set_as (hs : (j.entry x.store v.ref.cell).current = ⟨S, s⟩)
    (hv : Code.Steady W (v.writer.write a s).run) (hx : W x.world) {C : Ty β} (c : C.El) :
    ∃ n, ((v.set a : Tx Ω R E .unit).as c).tree.Settles W f env
      (j.put v.ref.cell (j.entry x.store v.ref.cell)) n
      (j.touch x.store v.ref.cell fun _ => store ⟨C, c⟩ <$> (v.writer.write a s).result x.world) := by
  have hset : (v.set a : Tx Ω R E .unit).tree.Settles W f env _ 1 _ := settles_set hs hv hx
  obtain ⟨hn, e⟩ | ⟨hu, e⟩ := touch_store_cases (j := j) (s := x.store) (c := v.ref.cell)
    ((v.writer.write a s).result x.world) ⟨C, c⟩
  · rw [e]
    exact ⟨1, hset.notThen hn⟩
  · rw [e]
    generalize (j.touch x.store v.ref.cell _) = p at hset hu
    obtain ⟨o, j₁⟩ := p
    cases hu
    refine ⟨1 + (1 + 1), hset.andThen fun ω _ => ?_⟩
    exact Tree.settles_done

end View

namespace View

variable {R S E A B : Ty β} {v : View Ω S E E A A} {f : FiberId} {env : Any β} {j : Journal β}
  {x : Scene β Ω} {s : S.El}

def getThenSet (v : View Ω S E E A A) (g : A.El → Code Ω (B.El × A.El)) : Tx Ω R E B :=
  v.get.bind fun a => (fun p => (v.set p.2).as p.1) <$> g a

theorem cont_getThenSet {g : A.El → Code Ω (B.El × A.El)} {a : A.El} {ω : Ω} :
    Tx.cont A (fun a => Tx.tree <$> (fun p => ((v.set p.2).as p.1 : Tx Ω R E B)) <$> g a) ω ⟨A, a⟩ =
      match g a ω with
      | .ok p => ((v.set p.2).as p.1 : Tx Ω R E B).tree
      | .error p => .crash p := by
  have h : (Tx.tree <$> (fun p => ((v.set p.2).as p.1 : Tx Ω R E B)) <$> g a) ω =
      (g a ω).map fun p => ((v.set p.2).as p.1 : Tx Ω R E B).tree := by
    change ((g a ω).map _).map _ = _
    cases g a ω <;> rfl
  rw [Tx.cont, Any.as_self]
  change Tree.ofCode _ ω = _
  rw [Tree.ofCode, h]
  cases g a ω <;> rfl

theorem fuses_modify {g : A.El → Code Ω (B.El × A.El)} (hg : ∀ a, Code.Steady W (g a))
    (hv : ∀ a s, Code.Steady W (v.writer.write a s).run) :
    Tree.Fuses W f env (v.modify g : Tx Ω R E B).tree (v.getThenSet g : Tx Ω R E B).tree := by
  refine Tree.fuses_of_touch fun j x hx => ?_
  by_cases ht : (j.entry x.store v.ref.cell).current.ty = S
  case neg =>
    exact ⟨(_, _), (_, _), (Ref.evaluates_access_mismatch ht).2 ⟨rfl, rfl⟩,
      (Ref.evaluates_access_mismatch ht).2 ⟨rfl, rfl⟩, .inl ⟨nofun, rfl⟩⟩
  obtain ⟨s, hs⟩ := Any.exists_eq_mk ht
  have hget {o j'} : (v.get : Tx Ω R E A).tree.Evaluates f env j [x] o j' ↔ _ := evaluates_get_iff hs
  have hmodify {o j'} : (v.modify g : Tx Ω R E B).tree.Evaluates f env j [x] o j' ↔ _ :=
    evaluates_modify_iff hs
  obtain ⟨a, ha⟩ | ⟨q, hq⟩ := Conv.value_or_stop ((v.read s).result x.world)
  · simp only [ha] at hget hmodify
    cases hga : g a x.world with
    | error p =>
      simp only [hga] at hmodify
      refine ⟨(_, _), (_, _), hget.2 ⟨rfl, rfl⟩, hmodify.2 rfl, .inr ⟨⟨A, a⟩, 0, rfl, fun ω hω => ?_⟩⟩
      rw [cont_getThenSet, hg a ω x.world hω hx, hga]
      exact Tree.settles_crash
    | ok p =>
      simp only [hga] at hmodify
      obtain ⟨n, hn⟩ : ∃ n, ((v.set p.2 : Tx Ω R E .unit).as p.1).tree.Settles W f env _ n _ :=
        settles_set_as hs (hv p.2 s) hx p.1
      refine ⟨(_, _), (_, _), hget.2 ⟨rfl, rfl⟩, hmodify.2 rfl, .inr ⟨⟨A, a⟩, n, rfl, fun ω hω => ?_⟩⟩
      rw [cont_getThenSet, hg a ω x.world hω hx, hga]
      exact hn
  · simp only [hq] at hget hmodify
    cases q with
    | error p => exact ⟨(_, _), (_, _), hget.2 ⟨rfl, rfl⟩, hmodify.2 rfl, .inl ⟨nofun, rfl⟩⟩
    | ok e => exact ⟨(_, _), (_, _), hget.2 ⟨rfl, rfl⟩, hmodify.2 rfl, .inl ⟨nofun, rfl⟩⟩

end View

section

variable {ε ε' α γ : Type} {m : Conv Ω ε α}

theorem Conv.steady_bind {c : α → Conv Ω ε γ} (hm : Code.Steady W m.run)
    (hc : ∀ a, Code.Steady W (c a).run) : Code.Steady W (m >>= c).run := by
  intro ω ω' h h'
  change (m >>= c).result ω = (m >>= c).result ω'
  rw [result_bind, result_bind, show m.result ω = m.result ω' from hm ω ω' h h']
  cases m.result ω' with
  | error p => rfl
  | ok q =>
    cases q with
    | error e => rfl
    | ok a => exact hc a ω ω' h h'

theorem Conv.steady_mapError {c : ε → Code Ω ε'} (hm : Code.Steady W m.run)
    (hc : ∀ e, Code.Steady W (c e)) : Code.Steady W (m.mapError c).run := by
  intro ω ω' h h'
  change (m.mapError c).result ω = (m.mapError c).result ω'
  rw [result_mapError, result_mapError, show m.result ω = m.result ω' from hm ω ω' h h']
  cases m.result ω' with
  | error p => rfl
  | ok q =>
    cases q with
    | error e => exact congrArg (Except.map Except.error) (hc e ω ω' h h')
    | ok a => rfl

end

section

variable {S : Ty β} {r : Ref S}

def Setter.Steady {k k' : Face β} (W : Ω → Prop) : Setter Ω k k' → Prop
  | blind set => ∀ c, Code.Steady W (set c).run
  | seeing crossError set =>
    (∀ e, Code.Steady W (crossError e)) ∧ ∀ c b, Code.Steady W (set c b).run

structure Layer.Steady {k k' : Face β} (W : Ω → Prop) (l : Layer Ω k k') : Prop where
  writeError : ∀ e, Code.Steady W (l.writeError e)
  readError : ∀ e, Code.Steady W (l.readError e)
  setter : l.setter.Steady W
  get : ∀ b, Code.Steady W (l.get b).run

/-- No conversion of the stack depends on anything but what it is given, in surroundings of a kind. -/
inductive Stack.Steady (W : Ω → Prop) : {k : Face β} → Stack Ω r k → Prop
  | base {k : Face β} {writer : Writer Ω S k.E k.A} {get : S.El → Conv Ω k.F.El k.B.El} :
    (∀ a s, Code.Steady W (writer.write a s).run) → (∀ s, Code.Steady W (get s).run) →
    Steady W (.base writer get)
  | snoc {t : Stack Ω r k} {l : Layer Ω k k'} : Steady W t → l.Steady W → Steady W (t.snoc l)

namespace Stack.Steady

variable {k k' : Face β} {t : Stack Ω r k}

theorem read (h : t.Steady W) (s : S.El) : Code.Steady W (t.read s).run := by
  induction h with
  | base _ h => rw [read_base]; exact h s
  | snoc _ hl ih =>
    rw [read_snoc]
    exact Conv.steady_bind (Conv.steady_mapError ih hl.readError) hl.get

theorem convert {w : Setter Ω k k'} (hw : w.Steady W) {m : Conv Ω k.F.El k.B.El}
    (hm : Code.Steady W m.run) (c : k'.A.El) : Code.Steady W (w.convert m c).run := by
  cases w with
  | blind set => exact hw c
  | seeing crossError set => exact Conv.steady_bind (Conv.steady_mapError hm hw.1) (hw.2 c)

theorem write (h : t.Steady W) (a : k.A.El) (s : S.El) : Code.Steady W (t.write a s).run := by
  induction h with
  | base h _ => rw [write_base]; exact h a s
  | snoc ht hl ih =>
    rw [write_snoc]
    exact Conv.steady_bind (convert hl.setter (ht.read s) a) fun b =>
      Conv.steady_mapError (ih b) hl.writeError

end Stack.Steady

end

section

variable {R E A B : Ty β} {g : A.El → Code Ω (B.El × A.El)}

def Ref.getThenSet (r : Ref A) (g : A.El → Code Ω (B.El × A.El)) : Tx Ω R E B :=
  r.get.bind fun a => (fun p => (r.set p.2).as p.1) <$> g a

theorem Ref.modify_view (r : Ref A) (g : A.El → Code Ω (B.El × A.El)) :
    (r.view.modify g : Tx Ω R E B) = r.modify g := by
  refine congrArg (Tx.mk ∘ r.access) (funext fun a => funext fun ω => ?_)
  change (g a ω).bind _ = (g a ω).map _
  cases g a ω <;> rfl

/-- To change a value in one step comes to what a read and a write come to that follow one another, with
the same journal left behind, whatever others do in between. This needs code that does not see the
difference, since the surroundings are the same or since it does not look at them. -/
theorem modify_fuses (hg : ∀ a, Code.Steady W (g a)) (f : FiberId) (env : Any β) :
    (∀ r : Ref A, Tree.Fuses W f env (r.modify g : Tx Ω R E B).tree (r.getThenSet g : Tx Ω R E B).tree) ∧
    (∀ (S : Ty β) (v : View Ω S E E A A), (∀ a s, Code.Steady W (v.writer.write a s).run) →
      Tree.Fuses W f env (v.modify g : Tx Ω R E B).tree (v.getThenSet g : Tx Ω R E B).tree) ∧
    ∀ (S : Ty β) (r : Ref S) (t : Stack Ω r ⟨E, E, A, A⟩), t.Steady W →
      Tree.Fuses W f env (t.view.modify g : Tx Ω R E B).tree (t.view.getThenSet g : Tx Ω R E B).tree := by
  refine ⟨fun r => ?_, fun S v hv => View.fuses_modify hg hv,
    fun S r t ht => View.fuses_modify hg ht.write⟩
  rw [← Ref.modify_view]
  exact View.fuses_modify (v := r.view) hg fun a s => fun _ _ _ _ => rfl

end

section

open Scenario (Base)

def tally : View Unit (.pair .nat .nat : Ty Base) .never .never .nat .nat :=
  (⟨⟨1⟩⟩ : Ref (.pair .nat .nat)).foldAll (fun (a : Nat) (s : Nat × Nat) => pure (a, s.2))
    fun (s : Nat × Nat) => pure s.1

theorem modify_fuses_republished :
    let s : Store Base := (Store.alloc {} ⟨.pair .nat .nat, ((7, 4) : Nat × Nat)⟩).2
    let t := s.replace ⟨1⟩ ⟨⟨1⟩, 2, ⟨.pair .nat .nat, ((100, 50) : Nat × Nat)⟩⟩
    let next (a : Nat) : Code Unit (Nat × Nat) := pure (a, a + 1)
    let y : Entry Base :=
      { expected := s.version ⟨1⟩, pending := some ⟨.pair .nat .nat, ((8, 4) : Nat × Nat)⟩ }
    let j : Journal Base := ({} : Journal Base).put ⟨1⟩ y
    (tally.modify next : Tx Unit .unit .never .nat).tree.Evaluates ⟨1⟩ .unit {} [⟨s, ()⟩]
      (.success ⟨.nat, (7 : Nat)⟩) j ∧
    ∃ n, (tally.getThenSet next : Tx Unit .unit .never .nat).tree.Evaluates ⟨1⟩ .unit {}
      (⟨s, ()⟩ :: List.replicate n ⟨t, ()⟩) (.success ⟨.nat, (7 : Nat)⟩) j := by
  intro s t next y j
  have hs : (({} : Journal Base).entry s ⟨1⟩).current = ⟨.pair .nat .nat, ((7, 4) : Nat × Nat)⟩ := by
    with_unfolding_all rfl
  have hmodify : (tally.modify next : Tx Unit .unit .never .nat).tree.Evaluates ⟨1⟩ .unit {} [⟨s, ()⟩]
      (.success ⟨.nat, (7 : Nat)⟩) j := by
    refine (View.evaluates_modify_iff (v := tally) hs).2 ?_
    with_unfolding_all rfl
  have hnext (a : Nat) : Code.Steady (fun _ => True) (next a) := fun _ _ _ _ => rfl
  obtain ⟨-, hview, -⟩ := modify_fuses (R := .unit) (E := (.never : Ty Base)) (A := .nat) (B := .nat)
    hnext ⟨1⟩ .unit
  obtain ⟨n, hn⟩ := hview _ tally (fun _ _ _ _ _ _ => rfl) {}
  exact ⟨hmodify, n ⟨s, ()⟩, (hn _ _ _ fun _ _ => trivial).2 ⟨_, _, rfl, List.length_replicate, hmodify⟩⟩

end

end TransactionalMemory
