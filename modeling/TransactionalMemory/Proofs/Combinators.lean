import TransactionalMemory.Promise
import TransactionalMemory.Proofs.Interpretation
import TransactionalMemory.Proofs.TypeSafety
import TransactionalMemory.Semaphore
import TransactionalMemory.Tx.Recover
import TransactionalMemory.Tx.Sequence
import TransactionalMemory.View

namespace TransactionalMemory

variable {β : Type} [Universe β] {Ω : Type} {H : Charter β Ω}

def Typing.Maps {α : Type} (Γ : Typing H) (T : Ty β) (P : α → Prop) (f : T.El → Code Ω α) : Prop :=
  ∀ a, Γ.Holds T a → Γ.Yields P (f a)

/-- The view is one of a cell that has been made for what it stores, and its conversions give what they say. -/
structure View.Sound {S E F A B : Ty β} (Γ : Typing H) (v : View Ω S E F A B) : Prop where
  made : Γ.made v.ref.cell = some S
  read : Γ.Maps S (Γ.Holds (.result F B)) fun s => (v.read s).run
  write : ∀ a, Γ.Holds A a → Γ.Maps S (Γ.Holds (.result E S)) fun s => (v.writer.write a s).run

/-- The transaction is built with the combinators and the operations on references and views, from code that
gives values of the types that it says. -/
inductive Tx.Built (Γ : Typing H) : {R E A : Ty β} → Tx Ω R E A → Prop
  | succeed {a : A.El} : Γ.Holds A a → Built Γ (Tx.succeed a : Tx Ω R E A)
  | perform {f : Ω → Except Panic A.El × Ω} :
    (∀ ω, H.world Γ.toLayout ω → (∀ a, (f ω).1 = .ok a → Γ.Holds A a) ∧ H.world Γ.toLayout (f ω).2) →
    Built Γ (Tx.perform f : Tx Ω R E A)
  | fail {e : E.El} : Γ.Holds E e → Built Γ (Tx.fail e : Tx Ω R E A)
  | failWith {f : Code Ω E.El} : Γ.Yields (Γ.Holds E) f → Built Γ (Tx.failWith f : Tx Ω R E A)
  | halt : H.Owns d → Built Γ (Tx.halt d : Tx Ω R E A)
  | retry : Built Γ (Tx.retry : Tx Ω R E A)
  | interrupt : Built Γ (Tx.interrupt : Tx Ω R E A)
  | fiberId : Built Γ (Tx.fiberId : Tx Ω R E .fiber)
  | delay {f : Code Ω (Tx Ω R E A)} : Γ.Yields (Built Γ) f → Built Γ (.delay f)
  | asks {f : R.El → Code Ω A.El} : Γ.Maps R (Γ.Holds A) f → Built Γ (Tx.asks f : Tx Ω R E A)
  | bind {t : Tx Ω R E A} {f : A.El → Code Ω (Tx Ω R E B)} :
    Built Γ t → Γ.Maps A (Built Γ) f → Built Γ (t.bind f)
  | map {t : Tx Ω R E A} {f : A.El → Code Ω B.El} :
    Built Γ t → Γ.Maps A (Γ.Holds B) f → Built Γ (t.map f)
  | provide {t : Tx Ω R E A} {r : R.El} : Built Γ t → Γ.Holds R r → Built Γ (t.provide r : Tx Ω R' E A)
  | provideFrom {t : Tx Ω R E A} {f : R'.El → Code Ω R.El} :
    Built Γ t → Γ.Maps R' (Γ.Holds R) f → Built Γ (t.provideFrom f)
  | mapError {t : Tx Ω R E A} {f : E.El → Code Ω E'.El} :
    Built Γ t → Γ.Maps E (Γ.Holds E') f → Built Γ (t.mapError f)
  | recover {t : Tx Ω R E A} {f : E.El → Code Ω (Tx Ω R E' A)} :
    Built Γ t → Γ.Maps E (Built Γ) f → Built Γ (t.recover f)
  | orDieWith {t : Tx Ω R E A} {f : E.El → Code Ω Defect} :
    Built Γ t → Γ.Maps E H.Owns f → Built Γ (t.orDieWith f : Tx Ω R E' A)
  | fold {t : Tx Ω R E A} {f : E.El → Code Ω B.El} {g : A.El → Code Ω B.El} :
    Built Γ t → Γ.Maps E (Γ.Holds B) f → Γ.Maps A (Γ.Holds B) g → Built Γ (t.fold f g : Tx Ω R E' B)
  | orElse {t u : Tx Ω R E A} : Built Γ t → Built Γ u → Built Γ (t.orElse u)
  | optionally {t : Tx Ω R E A} : Built Γ t → Built Γ t.optionally
  | someOrRetry {t : Tx Ω R E (.option A)} : Built Γ t → Built Γ t.someOrRetry
  | orTry {t u : Tx Ω R E A} : Built Γ t → Built Γ u → Built Γ (t.orTry u)
  | zipWith {t : Tx Ω R E A} {u : Tx Ω R E B} {f : A.El → B.El → Code Ω C.El} :
    Built Γ t → Built Γ u → (∀ a, Γ.Holds A a → Γ.Maps B (Γ.Holds C) (f a)) → Built Γ (t.zipWith u f)
  | forEach {α : Type} {xs : List α} {f : α → Code Ω (Tx Ω R E A)} :
    (∀ x ∈ xs, Γ.Yields (Built Γ) (f x)) → Built Γ (Tx.forEach xs f)
  | repeatUntil {t : Tx Ω R E A} {p : A.El → Code Ω Bool} : Built Γ t → Built Γ (t.repeatUntil p)
  | makeRef {a : A.El} : Γ.Holds A a → Built Γ (Ref.make a : Tx Ω R E (.ref A))
  | getRef {r : Ref A} : Γ.made r.cell = some A → Built Γ (r.get : Tx Ω R E A)
  | setRef {r : Ref A} {a : A.El} :
    Γ.made r.cell = some A → Γ.Holds A a → Built Γ (r.set a : Tx Ω R E .unit)
  | modifyRef {r : Ref A} {f : A.El → Code Ω (B.El × A.El)} :
    Γ.made r.cell = some A → Γ.Maps A (fun p => Γ.Holds B p.1 ∧ Γ.Holds A p.2) f →
    Built Γ (r.modify f : Tx Ω R E B)
  | getView {v : View Ω S E F A B} : v.Sound Γ → Built Γ (v.get : Tx Ω R F B)
  | setView {v : View Ω S E F A B} {a : A.El} :
    v.Sound Γ → Γ.Holds A a → Built Γ (v.set a : Tx Ω R E .unit)
  | modifyView {v : View Ω S E E A A} {f : A.El → Code Ω (B.El × A.El)} :
    v.Sound Γ → Γ.Maps A (fun p => Γ.Holds B p.1 ∧ Γ.Holds A p.2) f → Built Γ (v.modify f : Tx Ω R E B)

def Tx.Typed {R E A : Ty β} (Γ : Typing H) (t : Tx Ω R E A) : Prop := t.tree.Typed Γ R E A

/-! ### What the combinators make -/

section

variable {Γ : Typing H} {R E E' A B C S T : Ty β} {α : Type}

namespace Tree

theorem typed_ofCode {c : Code Ω (Tree β Ω)} (h : Γ.Yields (·.Typed Γ R E A) c) {ω : Ω}
    (hω : H.world Γ.toLayout ω) : (Tree.ofCode c ω).Typed Γ R E A := by
  unfold Tree.ofCode
  cases hc : c ω with
  | error p => exact .crash
  | ok t => exact h ω hω t hc

theorem asks_cont {f : T.El → Code Ω (Tree β Ω)} (ω : Ω) : Asks T (.done (mismatch T)) (Tx.cont T f ω) :=
  asks_of_none fun v hv => by simp only [Tx.cont, hv]

theorem typed_cont {f : T.El → Code Ω (Tree β Ω)} (hf : Γ.Maps T (·.Typed Γ R E A) f) (ω : Ω) (v : Any β)
    (hω : H.world Γ.toLayout ω) (hv : Γ.Has T v) : (Tx.cont T f ω v).Typed Γ R E A := by
  obtain ⟨a, rfl, ha⟩ := hv
  simp only [Tx.cont, Any.as_self]
  exact typed_ofCode (hf a ha) hω

theorem typed_onSuccess {t : Tree β Ω} {f : A.El → Code Ω (Tree β Ω)} (ht : t.Typed Γ R E A)
    (hf : Γ.Maps A (·.Typed Γ R E B) f) : (t.onSuccess (Tx.cont A f)).Typed Γ R E B :=
  .onSuccess ht asks_cont (typed_cont hf)

theorem typed_onFailure {t : Tree β Ω} {f : E.El → Code Ω (Tree β Ω)} (ht : t.Typed Γ R E A)
    (hf : Γ.Maps E (·.Typed Γ R E' A) f) : (t.onFailure (Tx.cont E f)).Typed Γ R E' A :=
  .onFailure ht asks_cont (typed_cont hf)

theorem typed_access {r : Ref S} {f : S.El → Code Ω (Access β)} (hr : Γ.made r.cell = some S)
    (hf : Γ.Maps S (Γ.Does S E A) f) : (r.access f).Typed Γ R E A := by
  refine .touch hr (asks_of_none fun v hv => ?_) ?_
  · simp only [hv]
  · rintro _ ⟨a, rfl, ha⟩
    simp only [Any.as_self]
    exact hf a ha

end Tree

theorem Typing.Maps.map {α α' : Type} {P : α → Prop} {P' : α' → Prop} {f : T.El → Code Ω α} {g : α → α'}
    (hf : Γ.Maps T P f) (hg : ∀ a, P a → P' (g a)) : Γ.Maps T P' fun a => g <$> f a :=
  fun a ha => (hf a ha).map hg

theorem Typing.Yields.comes {c : Code Ω T.El} {g : T.El → Outcome β} {ω : Ω} (h : Γ.Yields (Γ.Holds T) c)
    (hg : ∀ a, Γ.Holds T a → Γ.Comes E A (g a)) (hω : H.world Γ.toLayout ω) :
    ∀ o, (c ω).map g = .ok o → Γ.Comes E A o :=
  h.map hg ω hω

namespace Tx

variable {t : Tx Ω R E A}

theorem typed_perform {f : Ω → Except Panic A.El × Ω}
    (hf : ∀ ω, H.world Γ.toLayout ω → (∀ a, (f ω).1 = .ok a → Γ.Holds A a) ∧ H.world Γ.toLayout (f ω).2) :
    (perform f : Tx Ω R E A).Typed Γ := by
  have hv : Γ.Yields (Γ.Holds A) fun ω => (f ω).1 := fun ω hω => (hf ω hω).1
  exact Tree.typed_effect fun ω _ hω => ⟨hv.comes (fun _ ha => ha.has) hω, (hf ω hω).2⟩

theorem typed_failWith {f : Code Ω E.El} (hf : Γ.Yields (Γ.Holds E) f) :
    (failWith f : Tx Ω R E A).Typed Γ :=
  Tree.typed_effect fun _ _ hω => ⟨hf.comes (fun _ he => he.has) hω, hω⟩

theorem typed_asks {f : R.El → Code Ω A.El} (hf : Γ.Maps R (Γ.Holds A) f) :
    (asks f : Tx Ω R E A).Typed Γ := by
  refine .effect (fun _ _ => asks_of_none fun v hv => by simp only [hv]) ?_
  rintro ω x _ hω ⟨r, rfl, hr⟩
  simp only [Any.as_self]
  exact ⟨(hf r hr).comes (fun _ ha => ha.has) hω, hω⟩

theorem typed_delay {f : Code Ω (Tx Ω R E A)} (hf : Γ.Yields (Typed Γ) f) : (delay f).Typed Γ := by
  refine .onSuccess (Tree.typed_done Typing.has_unit) (fun ω => .inr ⟨_, rfl⟩) fun ω v hω hv => ?_
  exact Tree.typed_ofCode (hf.map fun _ h => h) hω

theorem typed_bind {f : A.El → Code Ω (Tx Ω R E B)} (ht : t.Typed Γ) (hf : Γ.Maps A (Typed Γ) f) :
    (t.bind f).Typed Γ :=
  Tree.typed_onSuccess ht (hf.map fun _ h => h)

theorem typed_map {f : A.El → Code Ω B.El} (ht : t.Typed Γ) (hf : Γ.Maps A (Γ.Holds B) f) :
    (t.map f).Typed Γ :=
  Tree.typed_onSuccess ht (hf.map fun _ hb => Tree.typed_done hb.has)

theorem typed_recover {f : E.El → Code Ω (Tx Ω R E' A)} (ht : t.Typed Γ) (hf : Γ.Maps E (Typed Γ) f) :
    (t.recover f).Typed Γ :=
  Tree.typed_onFailure ht (hf.map fun _ h => h)

theorem typed_orTry {u : Tx Ω R E A} (ht : t.Typed Γ) (hu : u.Typed Γ) : (t.orTry u).Typed Γ := by
  have hr : (t.toResult : Tx Ω R E (.result E A)).Typed Γ :=
    Tree.typed_onFailure (typed_map ht fun _ ha => Typing.yields_pure ha) fun _ he =>
      Typing.yields_pure (Tree.typed_done (Typing.Holds.has (t := .result E A) he))
  refine typed_bind (.orElse hr (typed_map hu fun _ ha => Typing.yields_pure ha)) fun r hr => ?_
  cases r with
  | error e => exact Typing.yields_pure hu
  | ok a => exact Typing.yields_pure (.once (Typing.Holds.has (t := A) hr))

theorem typed_zipWith {u : Tx Ω R E B} {f : A.El → B.El → Code Ω C.El} (ht : t.Typed Γ) (hu : u.Typed Γ)
    (hf : ∀ a, Γ.Holds A a → Γ.Maps B (Γ.Holds C) (f a)) : (t.zipWith u f).Typed Γ := by
  refine typed_bind ht fun a ha => Typing.yields_pure (.onSuccessOnce (typed_bind hu fun b hb => ?_))
  exact (hf a ha b hb).map fun c hc => .once hc.has

theorem typed_forEachFrom {f : α → Code Ω (Tx Ω R E A)} {xs : List α} {vs : List A.El}
    (hf : ∀ x ∈ xs, Γ.Yields (Typed Γ) (f x)) (hvs : ∀ v ∈ vs, Γ.Holds A v) :
    Γ.Yields (Typed Γ) (forEachFrom f xs vs) := by
  induction xs generalizing vs with
  | nil =>
    have hvs' : Γ.Holds (.list A) vs.reverse := fun v hv => hvs v (List.mem_reverse.1 hv)
    exact Typing.yields_pure (.once hvs'.has)
  | cons x xs ih =>
    obtain ⟨hx, hxs⟩ := List.forall_mem_cons.1 hf
    refine hx.map fun t ht => .onSuccessOnce (typed_bind ht fun v hv => ?_)
    exact ih hxs (List.forall_mem_cons.2 ⟨hv, hvs⟩)

theorem typed_provideFrom {f : S.El → Code Ω R.El} (ht : t.Typed Γ) (hf : Γ.Maps S (Γ.Holds R) f) :
    (t.provideFrom f).Typed Γ := by
  refine .provide ht (asks_of_none fun v hv => by simp only [hv]) ?_
  rintro _ ⟨r, rfl, hr⟩
  simp only [Any.as_self]
  exact (hf r hr).map fun r' hr' => ⟨_, rfl, hr'.has⟩

theorem typed_optionally (ht : t.Typed Γ) : t.optionally.Typed Γ := by
  refine .onRetry (typed_map ht fun a ha => ?_) fun ω _ => ?_
  · refine Typing.yields_pure ?_
    rintro _ ⟨⟩
    exact ha
  · exact Tree.typed_done (Typing.Holds.has (t := .option A) nofun)

theorem typed_someOrRetry {t : Tx Ω R E (.option A)} (ht : t.Typed Γ) : t.someOrRetry.Typed Γ := by
  refine Tree.typed_onSuccess ht ?_
  intro a ha
  cases a with
  | none => exact Typing.yields_pure (Tree.typed_done trivial)
  | some a => exact Typing.yields_pure (Tree.typed_done (ha a rfl).has)

theorem typed_repeatUntil {p : A.El → Code Ω Bool} (ht : t.Typed Γ) : (t.repeatUntil p).Typed Γ := by
  refine .loop ht (asks_of_none fun v hv => by simp only [Tx.judge, hv]) ?_
  rintro _ ⟨a, rfl, ha⟩
  simp only [Tx.judge, Any.as_self]
  refine (Typing.yields_true (p a)).map fun ok _ o ho => ?_
  cases ok with
  | false => cases ho
  | true =>
    cases ho
    exact ha.has

end Tx

namespace View

variable {F : Ty β}

theorem does_store {r : Except E.El S.El} {answer : Any β} (hr : Γ.Holds (.result E S) r)
    (ha : Γ.Has A answer) : Γ.Does S E A (store answer r) := by
  cases r with
  | ok s => exact ⟨Typing.Holds.has (t := S) hr, ha⟩
  | error e => exact Typing.Holds.has (t := E) hr

theorem typed_get {v : View Ω S E F A B} (hv : v.Sound Γ) : (v.get : Tx Ω R F B).Typed Γ := by
  refine Tree.typed_access hv.made (hv.read.map fun r hr => ?_)
  cases r with
  | ok b => exact Typing.Holds.has hr
  | error e => exact Typing.Holds.has hr

theorem typed_set {v : View Ω S E F A B} {a : A.El} (hv : v.Sound Γ) (ha : Γ.Holds A a) :
    (v.set a : Tx Ω R E .unit).Typed Γ := by
  have hw : Γ.Maps S (Γ.Holds (.result E S)) fun s => (v.writer.write a s).run := hv.write a ha
  have hstore {c : Code Ω (Except E.El S.El)} (hc : Γ.Yields (Γ.Holds (.result E S)) c) :
      Γ.Yields (Γ.Does S E .unit) (store .unit <$> c) :=
    hc.map fun r hr => does_store hr Typing.has_unit
  simp only [Tx.Typed, View.set]
  cases hf : v.writer with
  | replace f =>
    rw [hf] at hw
    refine .touch hv.made (.inr ⟨_, rfl⟩) ?_
    rintro _ ⟨s, rfl, hs⟩
    exact hstore (hw s hs)
  | amend f =>
    rw [hf] at hw
    exact Tree.typed_access hv.made fun s hs => hstore (hw s hs)

theorem typed_modify {v : View Ω S E E A A} {f : A.El → Code Ω (B.El × A.El)} (hv : v.Sound Γ)
    (hf : Γ.Maps A (fun p => Γ.Holds B p.1 ∧ Γ.Holds A p.2) f) : (v.modify f : Tx Ω R E B).Typed Γ := by
  refine Tree.typed_access hv.made fun s hs => (hv.read s hs).bind fun r hr => ?_
  cases r with
  | error e => exact Typing.yields_pure (Typing.Holds.has hr)
  | ok a =>
    refine (hf a hr).bind fun p hp => ?_
    exact (hv.write p.2 hp.2 s hs).map fun r hr => does_store hr hp.1.has

end View

namespace Tx.Built

/-- What is built at types that fit together is well typed as a tree. -/
theorem typed {t : Tx Ω R E A} (h : t.Built Γ) : t.Typed Γ := by
  induction h with
  | succeed ha => exact Tree.typed_done ha.has
  | perform hf => exact Tx.typed_perform hf
  | fail he => exact Tree.typed_done he.has
  | failWith hf => exact Tx.typed_failWith hf
  | halt hd => exact Tree.typed_done hd
  | retry => exact Tree.typed_done trivial
  | interrupt =>
    refine Tree.typed_effect fun ω f hω => ⟨?_, hω⟩
    rintro _ ⟨⟩
    trivial
  | fiberId =>
    refine Tree.typed_effect fun ω f hω => ⟨?_, hω⟩
    rintro _ ⟨⟩
    exact ⟨_, rfl, trivial⟩
  | delay hf ih => exact Tx.typed_delay ih
  | asks hf => exact Tx.typed_asks hf
  | bind ht hf iht ihf => exact Tx.typed_bind iht ihf
  | map ht hf iht => exact Tx.typed_map iht hf
  | provide ht hr iht => exact .provide iht (.inr ⟨_, rfl⟩) fun env _ => Typing.yields_pure ⟨_, rfl, hr.has⟩
  | provideFrom ht hf iht => exact Tx.typed_provideFrom iht hf
  | mapError ht hf iht => exact Tree.typed_onFailure iht (hf.map fun e he => Tree.typed_done he.has)
  | recover ht hf iht ihf => exact Tx.typed_recover iht ihf
  | orDieWith ht hf iht => exact Tree.typed_onFailure iht (hf.map fun d hd => Tree.typed_done hd)
  | fold ht hf hg iht =>
    exact Tree.typed_onFailure (Tx.typed_map iht hg) (hf.map fun b hb => Tree.typed_done hb.has)
  | orElse ht hu iht ihu => exact .orElse iht ihu
  | optionally ht iht => exact Tx.typed_optionally iht
  | someOrRetry ht iht => exact Tx.typed_someOrRetry iht
  | orTry ht hu iht ihu => exact Tx.typed_orTry iht ihu
  | zipWith ht hu hf iht ihu => exact Tx.typed_zipWith iht ihu hf
  | forEach hf ih => exact Tx.typed_delay (Tx.typed_forEachFrom ih nofun)
  | repeatUntil ht iht => exact Tx.typed_repeatUntil iht
  | makeRef ha => exact .make ha.has fun c hc => ⟨_, rfl, hc⟩
  | getRef hr => exact Tree.typed_access hr fun a ha => Typing.yields_pure ha.has
  | setRef hr ha => exact .touch hr (.inr ⟨_, rfl⟩) fun v hv => Typing.yields_pure ⟨ha.has, Typing.has_unit⟩
  | modifyRef hr hf => exact Tree.typed_access hr (hf.map fun p hp => ⟨hp.2.has, hp.1.has⟩)
  | getView hv => exact View.typed_get hv
  | setView hv ha => exact View.typed_set hv ha
  | modifyView hv hf => exact View.typed_modify hv hf

/-- What is there once is made by a continuation, so that a transaction can be run any number of times. -/
theorem reusable {t : Tx Ω R E A} (h : t.Built Γ) : t.tree.Reusable := by
  induction h with
  | bind ht hf ih | recover ht hf ih => exact fun p => ih p.inner
  | map ht hf ih | mapError ht hf ih | orDieWith ht hf ih | provideFrom ht hf ih => exact fun p => ih p.inner
  | provide ht hr ih => exact fun p => ih p.inner
  | zipWith ht hu hf ih => exact fun p => ih p.inner
  | someOrRetry ht ih | repeatUntil ht ih => exact fun p => ih p.inner
  | fold ht hf hg ih => exact fun p => ih p.inner.inner
  | optionally ht ih => exact fun p => ih p.inner.inner
  | orElse ht hu iht ihu => exact fun p => List.append_eq_nil_iff.2 ⟨iht p.inner, ihu p.right⟩
  | orTry ht hu iht ihu =>
    exact fun p => List.append_eq_nil_iff.2 ⟨iht p.inner.inner.inner.inner, ihu p.inner.right.inner⟩
  | @setView _ _ _ _ _ _ v =>
    intro p
    simp only [View.set]
    cases v.writer <;> rfl
  | succeed | perform | fail | failWith | halt | retry | interrupt | fiberId | delay | asks | forEach
  | makeRef | getRef | setRef | modifyRef | getView | modifyView => exact fun _ => rfl

/-! ### Combinators that are made of others -/

variable {t u : Tx Ω R E A}

theorem haltMessage (m : String) : (Tx.haltMessage m : Tx Ω R E A).Built Γ := .halt nofun

theorem succeedWith {f : Code Ω A.El} (hf : Γ.Yields (Γ.Holds A) f) : (Tx.succeedWith f : Tx Ω R E A).Built Γ :=
  .perform fun ω hω => ⟨hf ω hω, hω⟩

theorem asksTx {f : R.El → Code Ω (Tx Ω R E A)} (hf : Γ.Maps R (Tx.Built Γ) f) : (Tx.asksTx f).Built Γ :=
  .bind (.asks fun _ hr => Typing.yields_pure hr) hf

theorem as {b : B.El} (ht : t.Built Γ) (hb : Γ.Holds B b) : (t.as b).Built Γ :=
  .map ht fun _ _ => Typing.yields_pure hb

theorem check (c : Bool) : (Tx.check c : Tx Ω R E .unit).Built Γ := by
  cases c with
  | false => exact .retry
  | true => exact .succeed trivial

theorem checkWith (f : Code Ω Bool) : (Tx.checkWith f : Tx Ω R E .unit).Built Γ :=
  .delay ((Typing.yields_true f).map fun c _ => check c)

theorem onlyIf (ht : t.Built Γ) (c : Bool) : (t.onlyIf c).Built Γ := by
  cases c with
  | false => exact .succeed trivial
  | true => exact ht.as trivial

theorem orDie (ht : t.Built Γ) (text : E.El → String) : (t.orDie text : Tx Ω R E' A).Built Γ :=
  .orDieWith ht fun _ _ => Typing.yields_pure nofun

theorem toResult (ht : t.Built Γ) : (t.toResult : Tx Ω R E' (.result E A)).Built Γ :=
  .fold ht (fun _ he => Typing.yields_pure he) fun _ ha => Typing.yields_pure ha

theorem foldTx {f : E.El → Code Ω (Tx Ω R E' B)} {g : A.El → Code Ω (Tx Ω R E' B)} (ht : t.Built Γ)
    (hf : Γ.Maps E (Tx.Built Γ) f) (hg : Γ.Maps A (Tx.Built Γ) g) : (t.foldTx f g).Built Γ := by
  refine .bind ht.toResult fun r hr => ?_
  cases r with
  | error e => exact hf e hr
  | ok a => exact hg a hr

theorem orElseEither {u : Tx Ω R E B} (ht : t.Built Γ) (hu : u.Built Γ) : (t.orElseEither u).Built Γ :=
  .orElse (.map ht fun _ ha => Typing.yields_pure ha) (.map hu fun _ hb => Typing.yields_pure hb)

theorem getOrRetry {a : Option A.El} (ha : Γ.Holds (.option A) a) :
    (Tx.getOrRetry a : Tx Ω R E A).Built Γ := by
  cases a with
  | none => exact .retry
  | some a => exact .succeed (ha a rfl)

theorem zip {u : Tx Ω R E B} (ht : t.Built Γ) (hu : u.Built Γ) : (t.zip u).Built Γ :=
  .zipWith ht hu fun _ ha _ hb => Typing.yields_pure ⟨ha, hb⟩

theorem zipLeft {u : Tx Ω R E B} (ht : t.Built Γ) (hu : u.Built Γ) : (t.zipLeft u).Built Γ :=
  .zipWith ht hu fun _ ha _ _ => Typing.yields_pure ha

theorem zipRight {u : Tx Ω R E B} (ht : t.Built Γ) (hu : u.Built Γ) : (t.zipRight u).Built Γ :=
  .bind ht fun _ _ => Typing.yields_pure hu

theorem collect {ts : List (Tx Ω R E A)} (h : ∀ t ∈ ts, t.Built Γ) : (Tx.collect ts).Built Γ :=
  .forEach fun t ht => Typing.yields_pure (h t ht)

end Tx.Built

/-! ### Operations that are made of others -/

section

variable {F F' B' D : Ty β}

theorem Typing.Yields.mapError {m : Conv Ω E.El A.El} {f : E.El → Code Ω E'.El}
    (hm : Γ.Yields (Γ.Holds (.result E A)) m.run) (hf : Γ.Maps E (Γ.Holds E') f) :
    Γ.Yields (Γ.Holds (.result E' A)) (m.mapError f).run := by
  refine hm.bind fun r hr => ?_
  cases r with
  | error e => exact (hf e hr).map fun _ he => he
  | ok a => exact Typing.yields_pure hr

theorem Typing.Yields.andThen {m : Conv Ω E.El A.El} {f : A.El → Conv Ω E.El B.El}
    (hm : Γ.Yields (Γ.Holds (.result E A)) m.run)
    (hf : Γ.Maps A (Γ.Holds (.result E B)) fun a => (f a).run) :
    Γ.Yields (Γ.Holds (.result E B)) (m >>= f).run := by
  refine hm.bind fun r hr => ?_
  cases r with
  | error e => exact Typing.yields_pure hr
  | ok a => exact hf a hr

theorem Writer.write_after (w : Writer Ω S E A) (ea : E.El → Code Ω E'.El) (set : T.El → Conv Ω E'.El A.El)
    (c : T.El) (s : S.El) :
    (w.after ea set).write c s = set c >>= fun a => Conv.mapError (w.write a s) ea := by
  cases w <;> rfl

namespace View

theorem Sound.fold {v : View Ω S E F A B} {ea : E.El → Code Ω E'.El} {eb : F.El → Code Ω F'.El}
    {set : T.El → Conv Ω E'.El A.El} {get : B.El → Conv Ω F'.El D.El} (hv : v.Sound Γ)
    (hea : Γ.Maps E (Γ.Holds E') ea) (heb : Γ.Maps F (Γ.Holds F') eb)
    (hset : Γ.Maps T (Γ.Holds (.result E' A)) fun c => (set c).run)
    (hget : Γ.Maps B (Γ.Holds (.result F' D)) fun b => (get b).run) : (v.fold ea eb set get).Sound Γ where
  made := hv.made
  read s hs := ((hv.read s hs).mapError heb).andThen hget
  write c hc s hs := by
    simp only [View.fold, Writer.write_after]
    exact (hset c hc).andThen fun a ha => (hv.write a ha s hs).mapError hea

theorem Sound.foldAll {v : View Ω S E F A B} {ea : E.El → Code Ω E'.El} {eb : F.El → Code Ω F'.El}
    {ec : F.El → Code Ω E'.El} {set : T.El → B.El → Conv Ω E'.El A.El} {get : B.El → Conv Ω F'.El D.El}
    (hv : v.Sound Γ) (hea : Γ.Maps E (Γ.Holds E') ea) (heb : Γ.Maps F (Γ.Holds F') eb)
    (hec : Γ.Maps F (Γ.Holds E') ec)
    (hset : ∀ c, Γ.Holds T c → Γ.Maps B (Γ.Holds (.result E' A)) fun b => (set c b).run)
    (hget : Γ.Maps B (Γ.Holds (.result F' D)) fun b => (get b).run) :
    (v.foldAll ea eb ec set get).Sound Γ where
  made := hv.made
  read s hs := ((hv.read s hs).mapError heb).andThen hget
  write c hc s hs := ((hv.read s hs).mapError hec).andThen fun b hb =>
    ((hset c hc b hb).andThen fun a ha => (hv.write a ha s hs).mapError hea)

end View

namespace Ref

theorem sound_fold {r : Ref S} {set : A.El → Conv Ω E.El S.El} {get : S.El → Conv Ω F.El B.El}
    (hr : Γ.made r.cell = some S) (hset : Γ.Maps A (Γ.Holds (.result E S)) fun a => (set a).run)
    (hget : Γ.Maps S (Γ.Holds (.result F B)) fun s => (get s).run) : (r.fold set get).Sound Γ :=
  ⟨hr, hget, fun a ha _ _ => hset a ha⟩

theorem sound_foldAll {r : Ref S} {set : A.El → S.El → Conv Ω E.El S.El} {get : S.El → Conv Ω F.El B.El}
    (hr : Γ.made r.cell = some S)
    (hset : ∀ a, Γ.Holds A a → Γ.Maps S (Γ.Holds (.result E S)) fun s => (set a s).run)
    (hget : Γ.Maps S (Γ.Holds (.result F B)) fun s => (get s).run) : (r.foldAll set get).Sound Γ :=
  ⟨hr, hget, hset⟩

theorem built_modifySome {r : Ref A} {d : B.El} {f : A.El → Code Ω (Option (B.El × A.El))}
    (hr : Γ.made r.cell = some A) (hd : Γ.Holds B d)
    (hf : Γ.Maps A (fun p => ∀ q ∈ p, Γ.Holds B q.1 ∧ Γ.Holds A q.2) f) :
    (r.modifySome d f : Tx Ω R E B).Built Γ := by
  refine .modifyRef hr fun a ha => (hf a ha).map fun p hp => ?_
  cases p with
  | none => exact ⟨hd, ha⟩
  | some q => exact hp q rfl

end Ref

namespace Promise

variable {p : Promise E A}

theorem built_make : (Promise.make : Tx Ω R E' (.promise E A)).Built Γ :=
  .map (.makeRef nofun) fun _ hr => Typing.yields_pure hr

theorem built_await (hp : Γ.Holds (.promise E A) p) : (p.await : Tx Ω R E A).Built Γ := by
  refine .bind (.getRef hp) fun r hr => Typing.yields_pure ?_
  cases r with
  | none => exact .retry
  | some r =>
    cases r with
    | error e => exact .fail (hr _ rfl)
    | ok a => exact .succeed (hr _ rfl)

theorem built_complete {r : Except E.El A.El} (hp : Γ.Holds (.promise E A) p)
    (hr : Γ.Holds (.result E A) r) : (p.complete r : Tx Ω R E' .bool).Built Γ := by
  refine .modifyRef hp fun old ho => Typing.yields_pure ?_
  cases old with
  | none =>
    refine ⟨trivial, ?_⟩
    rintro _ ⟨⟩
    exact hr
  | some old => exact ⟨trivial, ho⟩

end Promise

namespace Semaphore

variable {sem : Semaphore}

theorem built_make (n : Nat) : (Semaphore.make n : Tx Ω R E .semaphore).Built Γ :=
  .map (.makeRef trivial) fun _ hr => Typing.yields_pure hr

theorem built_available (hs : Γ.Holds .semaphore sem) : (sem.available : Tx Ω R E .nat).Built Γ := .getRef hs

theorem built_acquire (hs : Γ.Holds .semaphore sem) (n : Nat) : (sem.acquire n : Tx Ω R E .unit).Built Γ := by
  refine .bind (built_available hs) fun free _ => Typing.yields_pure ?_
  split
  · exact .setRef hs trivial
  · exact .retry

theorem built_release (hs : Γ.Holds .semaphore sem) (n : Nat) : (sem.release n : Tx Ω R E .unit).Built Γ := by
  refine .bind (built_available hs) fun free _ => Typing.yields_pure ?_
  split
  · exact .setRef hs trivial
  · exact .haltMessage _

end Semaphore

end

end

/-! ### Runs -/

section

variable {Γ Δ : Typing H} {R E A : Ty β} {t : Tx Ω R E A} {env : Any β} {j : Journal β} {m : Machine β Ω}

theorem Tx.typed_run (ht : ∀ Θ, Γ ≤ Θ → t.Built Θ) (henv : Γ.Has R env) (hj : j.Respects Γ) (Θ : Typing H)
    (hΘ : Γ ≤ Θ) : Machine.Typed Θ E A { focus := .run t.tree, env, journal := j } :=
  .run .nil (ht Θ hΘ).typed (henv.mono hΘ) (hj.mono hΘ)

end

end TransactionalMemory
