import Mathlib.Logic.Function.Basic
import TransactionalMemory.Proofs.Interpretation
import TransactionalMemory.Proofs.Meaning

/-! Runs that go on side by side, any number of them and of the same tree. They share what is left of the nodes
of their trees. A tree that shows nothing that is there once is run as the machine runs it, every time. -/

namespace TransactionalMemory

variable {β : Type} [Universe β] {Ω : Type}

section Draws

variable {ps qs : List Place} {n n' : Shots} {p q : Place}

theorem Draws.builds_le (h : Draws ps n n' qs) : n.builds ≤ n'.builds := by
  induction h with
  | keep | spend => exact Nat.le_refl _
  | build _ _ _ ih => exact Nat.le_succ_of_le ih

theorem Draws.spent (h : Draws ps n n' qs) (hp : p ∈ n'.spent) : p ∈ n.spent ∨ p ∈ ps := by
  induction h with
  | keep => exact .inl hp
  | spend hs =>
    obtain rfl | h := List.mem_cons.1 hp
    · exact .inr (hs.subset (List.mem_cons_self ..))
    · exact .inl h
  | build _ _ _ ih => exact ih hp

theorem Draws.mem (h : Draws ps n n' qs) (hq : q ∈ qs) :
    q ∈ ps ∨ n.builds ≤ q.build ∧ q.build < n'.builds := by
  induction h with
  | keep hs => exact .inl (hs.subset hq)
  | spend hs => exact .inl (hs.subset (List.mem_cons_of_mem _ hq))
  | build h _ hr ih =>
    obtain hq | hq := List.mem_append.1 hq
    · rw [hr q hq]
      exact .inr ⟨h.builds_le, Nat.lt_succ_self _⟩
    · exact (ih hq).imp_right fun h => ⟨h.1, Nat.lt_succ_of_lt h.2⟩

def Shots.Knows (n : Shots) (ps : List Place) : Prop := ∀ p ∈ ps, p.build < n.builds

theorem Draws.knows (h : Draws ps n n' qs) (hn : n.Knows ps) : n'.Knows qs := by
  intro q hq
  obtain hp | hp := h.mem hq
  · exact Nat.lt_of_lt_of_le (hn q hp) h.builds_le
  · exact hp.2

structure Shots.Offers (n : Shots) (ps : List Place) : Prop where
  nodup : ps.Nodup
  unspent : ∀ p ∈ ps, p ∉ n.spent

theorem Draws.offers (h : Draws ps n n' qs) (hn : n.Knows ps) (hs : ∀ p ∈ n.spent, p.build < n.builds)
    (ho : n.Offers ps) : n'.Offers qs := by
  induction h with
  | keep h => exact ⟨ho.nodup.sublist h, fun p hp => ho.unspent p (h.subset hp)⟩
  | @spend p qs h =>
    obtain ⟨hp, hq⟩ := List.nodup_cons.1 (ho.nodup.sublist h)
    refine ⟨hq, fun q hq hm => ?_⟩
    obtain rfl | hm := List.mem_cons.1 hm
    · exact hp hq
    · exact ho.unspent q (h.subset (List.mem_cons_of_mem _ hq)) hm
  | @build n' qs rs h hrs hr ih =>
    have hq : n'.Knows qs := h.knows hn
    refine ⟨List.nodup_append'.2 ⟨hrs, ih.nodup, fun q hq' hq'' => ?_⟩, fun q hq' hm => ?_⟩
    · exact absurd (hr q hq') (Nat.ne_of_lt (hq q hq''))
    · obtain hq' | hq' := List.mem_append.1 hq'
      · have hb : q.build < n'.builds := by
          obtain h' | h' := h.spent hm
          · exact Nat.lt_of_lt_of_le (hs q h') h.builds_le
          · exact Nat.lt_of_lt_of_le (hn q h') h.builds_le
        exact absurd (hr q hq') (Nat.ne_of_lt hb)
      · exact ih.unspent q hq' hm

end Draws

def Interpreter.looks (x : Interpreter β Ω) : Bool :=
  match x.focus, x.frames with
  | .run (.effect _) _, _ | .run (.touch _ _) _, _ | .run (.make _ _) _, _ | .run (.once _) _, _
  | .run (.provide _ _) _, _ => true
  | .exit (.success _), .onSuccess _ _ :: _ => true
  | .exit (.failure _), .onFailure _ :: _ => true
  | .exit .retry, .onRetry _ :: _ => true
  | _, _ => false

theorem Interpreter.Mirrors.looks_eq {x : Interpreter β Ω} {m : Machine β Ω} (h : x.Mirrors m) :
    x.looks = m.looks := by
  obtain ⟨focus, env, saved, frames, j⟩ := x
  obtain ⟨_, _, gs, _⟩ := m
  obtain ⟨rfl, rfl, hp, rfl⟩ := h
  cases focus with
  | run t p => cases t <;> rfl
  | exit o => cases hp <;> cases o <;> rfl

/-- A run of a tree: what it has begun with, what it has looked at and where it is. -/
structure Attempt (β : Type) [Universe β] (Ω : Type) where
  tree : Tree β Ω
  fiber : FiberId
  env : Any β
  journal : Journal β
  looks : List (Scene β Ω) := []
  now : Interpreter β Ω

namespace Attempt

def start (t : Tree β Ω) (p : Place) (f : FiberId) (env : Any β) (j : Journal β) : Attempt β Ω :=
  { tree := t, fiber := f, env, journal := j, now := .start t p env j }

def step (a : Attempt β Ω) (n : Shots) (x : Scene β Ω) : Attempt β Ω × Shots :=
  if a.now.outcome?.isSome then (a, n)
  else
    let (y, _, _, n) := a.now.step a.fiber x.store x.world n
    ({ a with looks := if a.now.looks then a.looks ++ [x] else a.looks, now := y }, n)

def IsAt (a : Attempt β Ω) (m : Machine β Ω) : Prop :=
  a.now.Mirrors m ∧
    Machine.Reaches { focus := .run a.tree, env := a.env, journal := a.journal } a.fiber a.looks m

variable {a : Attempt β Ω} {n : Shots} {x : Scene β Ω} {m : Machine β Ω}

theorem draws : Draws a.now.shots n (a.step n x).2 (a.step n x).1.now.shots := by
  unfold step
  split
  · exact .keep (List.Sublist.refl _)
  · exact Interpreter.draws_step

theorem tree_step : (a.step n x).1.tree = a.tree := by
  unfold step
  split <;> rfl

theorem fiber_step : (a.step n x).1.fiber = a.fiber := by
  unfold step
  split <;> rfl

theorem IsAt.step (h : a.IsAt m) (ho : m.outcome? = none) (hn : n.Offers a.now.shots) :
    (a.step n x).1.IsAt (m.step a.fiber x.store x.world).1 := by
  obtain ⟨hm, hr⟩ := h
  have he : ¬a.now.outcome?.isSome := by simp [hm.outcome?_eq, ho]
  simp only [Attempt.step, if_neg he, hm.looks_eq]
  exact ⟨(hm.step hn.unspent).mirrors, hr.step ho x⟩

theorem IsAt.step_of_outcome (h : a.IsAt m) (ho : m.outcome?.isSome) : a.step n x = (a, n) := by
  rw [← h.1.outcome?_eq] at ho
  exact if_pos ho

end Attempt

structure Pool (β : Type) [Universe β] (Ω : Type) where
  shots : Shots := {}
  roots : Nat → Option (Place × Tree β Ω) := fun _ => none
  attempts : Nat → Option (Attempt β Ω) := fun _ => none

namespace Pool

def build (P : Pool β Ω) (k : Nat) (t : Tree β Ω) : Pool β Ω :=
  { P with shots := P.shots.build, roots := Function.update P.roots k (some (P.shots.next, t)) }

def launch (P : Pool β Ω) (i k : Nat) (f : FiberId) (env : Any β) (j : Journal β) : Pool β Ω :=
  match P.roots k with
  | some (p, t) => { P with attempts := Function.update P.attempts i (some (.start t p f env j)) }
  | none => P

def step (P : Pool β Ω) (i : Nat) (x : Scene β Ω) : Pool β Ω :=
  match P.attempts i with
  | some a =>
    { P with
      shots := (a.step P.shots x).2
      attempts := Function.update P.attempts i (some (a.step P.shots x).1) }
  | none => P

/-- The pools that come of an empty one. -/
inductive Reached : Pool β Ω → Prop
  | empty : Reached {}
  | build (k : Nat) (t : Tree β Ω) : Reached P → Reached (P.build k t)
  | launch (i k : Nat) (f : FiberId) (env : Any β) (j : Journal β) :
    Reached P → Reached (P.launch i k f env j)
  | step (i : Nat) (x : Scene β Ω) : Reached P → Reached (P.step i x)

structure Sound (P : Pool β Ω) : Prop where
  spent : ∀ p ∈ P.shots.spent, p.build < P.shots.builds
  roots : ∀ k r, P.roots k = some r → r.1.build < P.shots.builds
  attempts : ∀ i a, P.attempts i = some a → P.shots.Knows a.now.shots

/-- Nobody else has what a run has before it. -/
structure Apart (P : Pool β Ω) (i : Nat) (a : Attempt β Ω) : Prop where
  offers : P.shots.Offers a.now.shots
  roots : ∀ k r, P.roots k = some r → ∀ p ∈ a.now.shots, p.build ≠ r.1.build
  others : ∀ k b, k ≠ i → P.attempts k = some b → ∀ p ∈ a.now.shots, p ∉ b.now.shots

theorem update_eq_some {α : Type} {g : Nat → Option α} {k k' : Nat} {v w : α}
    (h : Function.update g k (some v) k' = some w) : k' = k ∧ v = w ∨ k' ≠ k ∧ g k' = some w := by
  obtain rfl | hk := eq_or_ne k' k
  · rw [Function.update_self] at h
    exact .inl ⟨rfl, Option.some.inj h⟩
  · rw [Function.update_of_ne hk] at h
    exact .inr ⟨hk, h⟩

variable {P : Pool β Ω} {i k k' : Nat} {a b : Attempt β Ω} {t : Tree β Ω} {f : FiberId} {env : Any β}
  {j : Journal β} {x : Scene β Ω}

theorem Sound.build (h : P.Sound) : (P.build k t).Sound where
  spent p hp := Nat.lt_succ_of_lt (h.spent p hp)
  roots k' r hr := by
    obtain ⟨-, rfl⟩ | ⟨-, hr⟩ := update_eq_some hr
    · exact Nat.lt_succ_self _
    · exact Nat.lt_succ_of_lt (h.roots k' r hr)
  attempts i a ha p hp := Nat.lt_succ_of_lt (h.attempts i a ha p hp)

theorem Apart.build (h : P.Apart i a) (hk : P.shots.Knows a.now.shots) : (P.build k t).Apart i a where
  offers := ⟨h.offers.nodup, h.offers.unspent⟩
  roots k' r hr p hp := by
    obtain ⟨-, rfl⟩ | ⟨-, hr⟩ := update_eq_some hr
    · exact Nat.ne_of_lt (hk p hp)
    · exact h.roots k' r hr p hp
  others := h.others

theorem shots_start {p : Place} : (Attempt.start t p f env j).now.shots = t.shots p := List.append_nil _

theorem Sound.launch (h : P.Sound) : (P.launch i k f env j).Sound := by
  unfold Pool.launch
  split
  · rename_i p t hr
    refine ⟨h.spent, h.roots, fun i' a ha q hq => ?_⟩
    obtain ⟨-, rfl⟩ | ⟨-, ha⟩ := update_eq_some ha
    · rw [shots_start] at hq
      rw [(Tree.above_of_mem_shots hq).1]
      exact h.roots k _ hr
    · exact h.attempts i' a ha q hq
  · exact h

theorem Apart.launch (h : P.Apart i a) {i' : Nat} : (P.launch i' k f env j).Apart i a := by
  unfold Pool.launch
  split
  · rename_i p t hr
    refine ⟨h.offers, h.roots, fun k' b hk hb q hq hq' => ?_⟩
    obtain ⟨-, rfl⟩ | ⟨-, hb⟩ := update_eq_some hb
    · rw [shots_start] at hq'
      exact h.roots k _ hr q hq (Tree.above_of_mem_shots hq').1
    · exact h.others k' b hk hb q hq hq'
  · exact h

theorem apart_of_reusable (ht : t.Reusable) (p : Place) : P.Apart i (.start t p f env j) := by
  have hs : (Attempt.start t p f env j).now.shots = [] := shots_start.trans (ht p)
  refine ⟨⟨?_, fun q hq => ?_⟩, fun k r hr q hq => ?_, fun k b hk hb q hq => ?_⟩
  · rw [hs]
    exact List.nodup_nil
  all_goals
    rw [hs] at hq
    cases hq

theorem Sound.step (h : P.Sound) : (P.step i x).Sound := by
  unfold Pool.step
  split
  · rename_i a ha
    have hk := h.attempts i a ha
    refine ⟨fun p hp => ?_, fun k r hr => ?_, fun i' b hb p hp => ?_⟩
    · obtain hp | hp := a.draws.spent hp
      · exact Nat.lt_of_lt_of_le (h.spent p hp) a.draws.builds_le
      · exact Nat.lt_of_lt_of_le (hk p hp) a.draws.builds_le
    · exact Nat.lt_of_lt_of_le (h.roots k r hr) a.draws.builds_le
    · obtain ⟨-, rfl⟩ | ⟨-, hb⟩ := update_eq_some hb
      · exact a.draws.knows hk p hp
      · exact Nat.lt_of_lt_of_le (h.attempts i' b hb p hp) a.draws.builds_le
  · exact h

theorem Apart.step (h : P.Apart i a) (hP : P.Sound) (ha : P.attempts i = some a) {i' : Nat} (hi : i ≠ i') :
    (P.step i' x).Apart i a := by
  unfold Pool.step
  split
  · rename_i b hb
    refine ⟨⟨h.offers.nodup, fun p hp hs => ?_⟩, h.roots, fun k c hk hc p hp hp' => ?_⟩
    · obtain hs | hs := b.draws.spent hs
      · exact h.offers.unspent p hp hs
      · exact h.others i' b hi.symm hb p hp hs
    · obtain ⟨-, rfl⟩ | ⟨-, hc⟩ := update_eq_some hc
      · obtain hp' | ⟨hp', -⟩ := b.draws.mem hp'
        · exact h.others i' b hi.symm hb p hp hp'
        · exact Nat.not_lt.2 hp' (hP.attempts i a ha p hp)
      · exact h.others k c hk hc p hp hp'
  · exact h

theorem step_eq (ha : P.attempts i = some a) : P.step i x = { P with
    shots := (a.step P.shots x).2
    attempts := Function.update P.attempts i (some (a.step P.shots x).1) } := by
  simp only [Pool.step, ha]

theorem Apart.step_self (h : P.Apart i a) (hP : P.Sound) (ha : P.attempts i = some a) :
    (P.step i x).Apart i (a.step P.shots x).1 := by
  rw [step_eq ha]
  refine ⟨a.draws.offers (hP.attempts i a ha) hP.spent h.offers, fun k r hr p hp => ?_,
    fun k b hk hb p hp hp' => ?_⟩
  · obtain hp | ⟨hp, -⟩ := a.draws.mem hp
    · exact h.roots k r hr p hp
    · exact Nat.ne_of_gt (Nat.lt_of_lt_of_le (hP.roots k r hr) hp)
  · obtain ⟨rfl, -⟩ | ⟨-, hb⟩ := update_eq_some hb
    · exact hk rfl
    · obtain hp | ⟨hp, -⟩ := a.draws.mem hp
      · exact h.others k b hk hb p hp hp'
      · exact Nat.not_lt.2 hp (hP.attempts k b hb p hp')

theorem attempts_launch (ha : (P.launch i k f env j).attempts k' = some a) :
    (∃ p t, P.roots k = some (p, t) ∧ k' = i ∧ a = .start t p f env j) ∨ P.attempts k' = some a := by
  unfold Pool.launch at ha
  split at ha
  · rename_i p t hr
    obtain ⟨hk, rfl⟩ | ⟨-, ha⟩ := update_eq_some ha
    · exact .inl ⟨p, t, hr, hk, rfl⟩
    · exact .inr ha
  · exact .inr ha

theorem attempts_step (ha : (P.step i x).attempts k = some a) :
    (∃ b, P.attempts i = some b ∧ k = i ∧ a = (b.step P.shots x).1) ∨ k ≠ i ∧ P.attempts k = some a := by
  cases hb : P.attempts i with
  | none =>
    simp only [Pool.step, hb] at ha
    refine .inr ⟨fun hk => ?_, ha⟩
    rw [hk, hb] at ha
    cases ha
  | some b =>
    rw [step_eq hb] at ha
    obtain ⟨hk, rfl⟩ | ha := update_eq_some ha
    · exact .inl ⟨b, rfl, hk, rfl⟩
    · exact .inr ha

theorem Reached.sound (h : P.Reached) : P.Sound := by
  induction h with
  | empty => exact ⟨nofun, nofun, nofun⟩
  | build k t _ ih => exact ih.build
  | launch i k f env j _ ih => exact ih.launch
  | step i x _ ih => exact ih.step

/-- Whatever else is run, and however often: nobody has what a run of the tree has before it, and the run is
where the machine is. -/
theorem Reached.runs (h : P.Reached) (ha : P.attempts i = some a) (ht : a.tree.Reusable) :
    P.Apart i a ∧ ∃ m, a.IsAt m := by
  induction h generalizing i a with
  | empty => cases ha
  | build k t h ih =>
    obtain ⟨hs, hm⟩ := ih ha ht
    exact ⟨hs.build (h.sound.attempts i a ha), hm⟩
  | launch i' k f env j h ih =>
    obtain ⟨p, t, -, rfl, rfl⟩ | ha := attempts_launch ha
    · exact ⟨apart_of_reusable ht p, _, .start, .start⟩
    · obtain ⟨hs, hm⟩ := ih ha ht
      exact ⟨hs.launch, hm⟩
  | step i' x h ih =>
    obtain ⟨b, hb, rfl, rfl⟩ | ⟨hi, ha⟩ := attempts_step ha
    · rw [Attempt.tree_step] at ht
      obtain ⟨hs, m, hm⟩ := ih hb ht
      refine ⟨hs.step_self h.sound hb, ?_⟩
      cases ho : m.outcome? with
      | none => exact ⟨_, hm.step ho hs.offers⟩
      | some o =>
        rw [hm.step_of_outcome (by rw [ho]; rfl)]
        exact ⟨m, hm⟩
    · obtain ⟨hs, hm⟩ := ih ha ht
      exact ⟨hs.step h.sound ha hi, hm⟩

theorem Reached.evaluates [Inhabited Ω] (h : P.Reached) (ha : P.attempts i = some a) (ht : a.tree.Reusable)
    {o : Outcome β} (ho : a.now.outcome? = some o) :
    a.tree.Evaluates a.fiber a.env a.journal a.looks o a.now.journal := by
  obtain ⟨-, m, hm⟩ := h.runs ha ht
  rw [hm.1.outcome?_eq] at ho
  rw [hm.1.journal]
  exact hm.2.evaluates ho

end Pool

/-- The pool that goes along with an engine. Every tree that is committed is handed in, under the number of its
commit, and every attempt is a run under that number. -/
def History.pool : History β Ω → Pool β Ω
  | [] => {}
  | (e, .commit t _ _ _) :: h => (pool h).build e.nextCommit.number t
  | (e, .advance i) :: h =>
    match e.commits[i]? with
    | some c =>
      match c.phase with
      | .busy _ .launching => (pool h).launch i.number i.number c.fiber .unit {}
      | .busy _ (.running _) => (pool h).step i.number ⟨e.store, e.world⟩
      | _ => pool h
    | none => pool h
  | _ :: h => pool h

section

variable {h : History β Ω} {e : Engine β Ω} {i : CommitId} {c : Commit β Ω} {m : Machine β Ω} {x : Move β Ω}

theorem History.reached_pool (h : History β Ω) : h.pool.Reached := by
  induction h with
  | nil => exact .empty
  | cons y h ih =>
    obtain ⟨e, x⟩ := y
    cases x with
    | commit t => exact ih.build _ t
    | advance i =>
      simp only [pool]
      split
      · split
        · exact ih.launch ..
        · exact ih.step ..
        · exact ih
      · exact ih
    | _ => exact ih

theorem Pool.roots_launch {P : Pool β Ω} {i k : Nat} {f : FiberId} {env : Any β} {j : Journal β} :
    (P.launch i k f env j).roots = P.roots := by
  unfold launch
  split <;> rfl

theorem Pool.roots_step {P : Pool β Ω} {i : Nat} {y : Scene β Ω} : (P.step i y).roots = P.roots := by
  unfold step
  split <;> rfl

theorem Run.roots_pool (r : Run h e) (hc : e.commits[i]? = some c) (x : Move β Ω) :
    (History.pool ((e, x) :: h)).roots i.number = h.pool.roots i.number := by
  cases x with
  | commit t =>
    have hi : i ∈ e.commits := Std.ExtTreeMap.mem_iff_isSome_getElem?.2 (by simp [hc])
    exact Function.update_of_ne (Nat.ne_of_lt (r.tracked.made i hi)) ..
  | advance k =>
    simp only [History.pool]
    split
    · split
      · rw [Pool.roots_launch]
      · rw [Pool.roots_step]
      · rfl
    · rfl
  | _ => rfl

theorem Run.root (r : Run h e) (hc : e.commits[i]? = some c) :
    ∃ p, h.pool.roots i.number = some (p, c.tree) := by
  refine r.each (P := fun h _ i c => ∃ p, h.pool.roots i.number = some (p, c.tree)) ?_ ?_ (fun _ h => h) hc
  · intro h e t E A f s _
    exact ⟨_, Function.update_self ..⟩
  · intro h e x i c c' r _ hc ih hmv
    rwa [r.roots_pool hc x, hmv.frame.1]

theorem History.attempts_pool_of_ne (hx : x ≠ .advance i) :
    (pool ((e, x) :: h)).attempts i.number = h.pool.attempts i.number := by
  cases x with
  | advance k =>
    have hk : i.number ≠ k.number := fun hk => hx (congrArg Move.advance (congrArg Serial.mk hk.symm))
    simp only [pool]
    split
    · split
      · unfold Pool.launch
        split
        · exact Function.update_of_ne hk ..
        · rfl
      · unfold Pool.step
        split
        · exact Function.update_of_ne hk ..
        · rfl
      · rfl
    · rfl
  | _ => rfl

/-- The run of a tree is where the machine is, and makes the step next that the machine makes. -/
def Pool.Carries (P : Pool β Ω) (i : Nat) (t : Tree β Ω) (f : FiberId) (m : Machine β Ω) : Prop :=
  ∃ a, P.attempts i = some a ∧ a.tree = t ∧ a.fiber = f ∧ a.now.Mirrors m ∧
    ∀ s ω, Interpreter.Agrees (a.now.step f s ω P.shots) (m.step f s ω)

theorem Pool.Reached.carries {P : Pool β Ω} {i : Nat} {a : Attempt β Ω} (h : P.Reached)
    (ha : P.attempts i = some a) (ht : a.tree.Reusable) (hm : a.now.Mirrors m) :
    P.Carries i a.tree a.fiber m :=
  ⟨a, ha, rfl, rfl, hm, fun _ _ => hm.step (h.runs ha ht).1.offers.unspent⟩

/-- The attempt of a commit is a run by the interpreter, which shares what is left of the nodes with all other
attempts there have been. -/
theorem Run.interpreted (r : Run h e) (hc : e.commits[i]? = some c) (ht : c.tree.Reusable)
    (hm : c.phase.attempt? = some m) : h.pool.Carries i.number c.tree c.fiber m := by
  refine r.each_attempt (P := fun h _ i t f m => t.Reusable → h.pool.Carries i.number t f m)
    ?_ ?_ ?_ hc hm ht
  · intro h e i c call r hc hp ht
    obtain ⟨p, hr⟩ := r.root hc
    refine (History.reached_pool _).carries (a := .start c.tree p c.fiber .unit {}) ?_ ht .start
    simp only [History.pool, hc, hp, Pool.launch, hr]
    exact Function.update_self ..
  · intro h e i c call m r hc hp ho ih ht
    obtain ⟨a, ha, hat, hf, hm, hs⟩ := ih ht
    have he : ¬a.now.outcome?.isSome := by simp [hm.outcome?_eq, ho]
    have ha' : (History.pool ((e, .advance i) :: h)).attempts i.number =
        some (a.step h.pool.shots ⟨e.store, e.world⟩).1 := by
      simp only [History.pool, hc, hp, Pool.step_eq ha]
      exact Function.update_self ..
    have hm' : (a.step h.pool.shots ⟨e.store, e.world⟩).1.now.Mirrors (m.step c.fiber e.store e.world).1 := by
      simp only [Attempt.step, if_neg he, hf]
      exact (hs e.store e.world).mirrors
    have hc := (History.reached_pool _).carries ha' (by rwa [Attempt.tree_step, hat]) hm'
    rwa [Attempt.tree_step, Attempt.fiber_step, hat, hf] at hc
  · intro h e i c m x _ _ hx _ _ ih ht
    obtain ⟨a, ha, hat, hf, hm, -⟩ := ih ht
    rw [← History.attempts_pool_of_ne hx] at ha
    have hc := (History.reached_pool _).carries ha (hat ▸ ht) hm
    rwa [hat, hf] at hc

end

end TransactionalMemory
