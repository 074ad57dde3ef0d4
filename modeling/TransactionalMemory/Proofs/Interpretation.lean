import Mathlib.Data.List.Infix
import Mathlib.Data.List.Nodup
import TransactionalMemory.Interpreter

/-! The interpreter does what the machine does. It keeps the environments that wait on a stack of their own,
and it may find that nothing is left of a node. It does not as long as the nodes that are there once, and that
it still has before it, are all different and have not been come by yet. -/

namespace TransactionalMemory

variable {β : Type} [Universe β] {Ω : Type}

namespace Place

/-- The one place is that of the other or further down in the same tree. -/
def Above (p q : Place) : Prop := q.build = p.build ∧ p.path <:+ q.path

variable {p q : Place}

theorem Above.refl : p.Above p := ⟨rfl, List.suffix_rfl⟩

theorem Above.of_inner (h : p.inner.Above q) : p.Above q := ⟨h.1, (List.suffix_cons ..).trans h.2⟩

theorem Above.of_right (h : p.right.Above q) : p.Above q := ⟨h.1, (List.suffix_cons ..).trans h.2⟩

theorem not_above_inner : ¬p.inner.Above p := fun h => Nat.lt_irrefl _ h.2.length_le

theorem Above.left_ne_right (h : p.inner.Above q) (h' : p.right.Above q) : False := by
  have hs : p.inner.path <:+ p.right.path := List.suffix_of_suffix_length_le h.2 h'.2 (Nat.le_refl _)
  exact Bool.false_ne_true (List.cons.inj (hs.eq_of_length rfl)).1

end Place

namespace Tree

/-- The places of the nodes that the tree shows and that are there once. -/
def shots : Tree β Ω → Place → List Place
  | .once _, p => [p]
  | .onSuccessOnce t _, p => t.shots p.inner ++ [p]
  | .onSuccess t _, p | .onFailure t _, p | .onRetry t _, p | .provide t _, p | .loop t _, p =>
    t.shots p.inner
  | .orElse l r, p => l.shots p.inner ++ r.shots p.right
  | .effect _, _ | .touch _ _, _ | .make _ _, _ | .crash _, _ => []

/-- Nothing that the tree shows is used up by a run. -/
def Reusable (t : Tree β Ω) : Prop := ∀ p, t.shots p = []

theorem above_of_mem_shots {t : Tree β Ω} {p q : Place} (h : q ∈ t.shots p) : p.Above q := by
  induction t generalizing p with
  | effect | touch | make | crash => cases h
  | once =>
    rw [List.mem_singleton.1 h]
    exact .refl
  | onSuccess t k ih | onFailure t k ih | onRetry t k ih | provide t g ih | loop t judge ih =>
    exact (ih h).of_inner
  | onSuccessOnce t k ih =>
    obtain h | h := List.mem_append.1 h
    · exact (ih h).of_inner
    · rw [List.mem_singleton.1 h]
      exact .refl
  | orElse l r ihl ihr =>
    obtain h | h := List.mem_append.1 h
    · exact (ihl h).of_inner
    · exact (ihr h).of_right

theorem nodup_shots (t : Tree β Ω) (p : Place) : (t.shots p).Nodup := by
  induction t generalizing p with
  | effect | touch | make | crash => exact List.nodup_nil
  | once => exact List.nodup_singleton p
  | onSuccess t k ih | onFailure t k ih | onRetry t k ih | provide t g ih | loop t judge ih => exact ih p.inner
  | onSuccessOnce t k ih =>
    refine List.nodup_append'.2 ⟨ih p.inner, List.nodup_singleton p, fun q hq hp => ?_⟩
    rw [List.mem_singleton.1 hp] at hq
    exact Place.not_above_inner (above_of_mem_shots hq)
  | orElse l r ihl ihr =>
    exact List.nodup_append'.2 ⟨ihl p.inner, ihr p.right, fun q hl hr =>
      (above_of_mem_shots hl).left_ne_right (above_of_mem_shots hr)⟩

end Tree

namespace Interpreter

def Frame.shots : Interpreter.Frame β Ω → List Place
  | .onSuccess (some p) _ => [p]
  | .orElse _ r p => r.shots p
  | _ => []

def Focus.shots : Interpreter.Focus β Ω → List Place
  | .run t p => t.shots p
  | .exit _ => []

/-- The places of what is there once and that the run still has before it. -/
def shots (x : Interpreter β Ω) : List Place := x.focus.shots ++ x.frames.flatMap (·.shots)

def Focus.plain : Interpreter.Focus β Ω → TransactionalMemory.Focus β Ω
  | .run t _ => .run t
  | .exit o => .exit o

end Interpreter

/-- The frames of the machine are those of the interpreter, and each environment that waits is in its place
among them. -/
inductive Paired : List (Any β) → List (Interpreter.Frame β Ω) → List (Frame β Ω) → Prop
  | nil : Paired [] [] []
  | onSuccess : Paired es fs gs → Paired es (.onSuccess p k :: fs) (.onSuccess k :: gs)
  | onFailure : Paired es fs gs → Paired es (.onFailure k :: fs) (.onFailure k :: gs)
  | onRetry : Paired es fs gs → Paired es (.onRetry k :: fs) (.onRetry k :: gs)
  | orElse : Paired es fs gs → Paired es (.orElse saved r p :: fs) (.orElse saved r :: gs)
  | restore : Paired es fs gs → Paired (env :: es) (.restoreEnv :: fs) (.restore env :: gs)

structure Interpreter.Mirrors (x : Interpreter β Ω) (m : Machine β Ω) : Prop where
  focus : x.focus.plain = m.focus
  env : x.env = m.env
  frames : Paired x.saved x.frames m.frames
  journal : x.journal = m.journal

/-- What a step of a run draws on. It uses up what was before it, if anything, and goes on with some of the
rest, and with what is in a tree that has been built for it. -/
inductive Draws (ps : List Place) (n : Shots) : Shots → List Place → Prop
  | keep : qs.Sublist ps → Draws ps n n qs
  | spend : (p :: qs).Sublist ps → Draws ps n (n.spend p) qs
  | build : Draws ps n n' qs → rs.Nodup → (∀ r ∈ rs, r.build = n'.builds) →
    Draws ps n n'.build (rs ++ qs)

namespace Interpreter

variable {x : Interpreter β Ω} {m : Machine β Ω} {f : FiberId} {s : Store β} {ω : Ω} {n : Shots}
  {o : Outcome β} {t : Tree β Ω} {p : Place}

section Draws

variable {n' : Shots} {ps qs : List Place} {q : Place}

theorem draws_resume (h : Draws ps n n' (x.frames.flatMap (·.shots))) :
    Draws ps n (x.resume t n').2 (x.resume t n').1.shots :=
  h.build (t.nodup_shots _) fun _ hr => (Tree.above_of_mem_shots hr).1

theorem draws_enter (hf : x.focus = .run t p) :
    Draws x.shots n (x.enter f s ω n p t).2.2.2 (x.enter f s ω n p t).1.shots := by
  obtain ⟨focus, env, saved, frames, j⟩ := x
  obtain rfl : focus = .run t p := hf
  have leave : (frames.flatMap (·.shots)).Sublist (t.shots p ++ frames.flatMap (·.shots)) :=
    List.sublist_append_right ..
  cases t with
  | effect | touch | make | crash => exact .keep leave
  | once v =>
    simp only [enter]
    split
    · exact .keep leave
    · exact .spend (List.Sublist.refl _)
  | onSuccess | onFailure | onRetry | loop => exact .keep (List.Sublist.refl _)
  | onSuccessOnce t k =>
    have move : (t.shots p.inner ++ ([p] ++ frames.flatMap (·.shots))).Sublist
        (t.shots p.inner ++ [p] ++ frames.flatMap (·.shots)) := by
      rw [List.append_assoc]
    exact .keep move
  | orElse l r =>
    have move : (l.shots p.inner ++ (r.shots p.right ++ frames.flatMap (·.shots))).Sublist
        (l.shots p.inner ++ r.shots p.right ++ frames.flatMap (·.shots)) := by
      rw [List.append_assoc]
    exact .keep move
  | provide t g =>
    simp only [enter]
    cases g env ω with
    | error q => exact .keep leave
    | ok r =>
      cases r with
      | error d => exact .keep leave
      | ok env => exact .keep (List.Sublist.refl _)

theorem draws_unwind (hf : x.focus = .exit o) :
    Draws x.shots n (x.unwind ω n o x.frames).2 (x.unwind ω n o x.frames).1.shots := by
  obtain ⟨focus, env, saved, frames, j⟩ := x
  obtain rfl : focus = .exit o := hf
  cases frames with
  | nil => cases o <;> exact .keep (List.Sublist.refl _)
  | cons g fs =>
    have drop : (fs.flatMap (·.shots)).Sublist (g.shots ++ fs.flatMap (·.shots)) :=
      List.sublist_append_right ..
    cases o with
    | success v =>
      cases g with
      | onSuccess q k =>
        cases q with
        | none => exact draws_resume (.keep (List.Sublist.refl _))
        | some q =>
          simp only [unwind]
          split
          · exact .keep drop
          · exact draws_resume (.spend (List.Sublist.refl _))
      | onFailure | onRetry | orElse | restoreEnv => exact .keep drop
    | failure e =>
      cases g with
      | onFailure k => exact draws_resume (.keep (List.Sublist.refl _))
      | onSuccess | onRetry | orElse | restoreEnv => exact .keep drop
    | retry =>
      cases g with
      | onRetry k => exact draws_resume (.keep (List.Sublist.refl _))
      | orElse => exact .keep (List.Sublist.refl _)
      | onSuccess | onFailure | restoreEnv => exact .keep drop
    | halt | interrupt => cases g <;> exact .keep drop

theorem draws_step : Draws x.shots n (x.step f s ω n).2.2.2 (x.step f s ω n).1.shots := by
  unfold step
  cases hf : x.focus with
  | run t p => exact draws_enter hf
  | exit o => exact draws_unwind hf

end Draws

structure Agrees (y : Interpreter β Ω × Store β × Ω × Shots) (z : Machine β Ω × Store β × Ω) : Prop where
  mirrors : y.1.Mirrors z.1
  store : y.2.1 = z.2.1
  world : y.2.2.1 = z.2.2

theorem Mirrors.start {env : Any β} {j : Journal β} :
    (start t p env j).Mirrors { focus := .run t, env, journal := j } :=
  ⟨rfl, rfl, .nil, rfl⟩

theorem Mirrors.outcome?_eq (h : x.Mirrors m) : x.outcome? = m.outcome? := by
  obtain ⟨focus, env, saved, frames, j⟩ := x
  obtain ⟨_, _, gs, _⟩ := m
  obtain ⟨rfl, rfl, hp, rfl⟩ := h
  cases focus with
  | run t p => rfl
  | exit o => cases hp <;> cases o <;> rfl

theorem Mirrors.enter (h : x.Mirrors m) (hf : x.focus = .run t p) (hn : ∀ q ∈ x.shots, q ∉ n.spent) :
    Agrees (x.enter f s ω n p t) (m.enter f s ω t) := by
  obtain ⟨focus, env, saved, frames, j⟩ := x
  obtain ⟨_, _, gs, _⟩ := m
  obtain ⟨rfl, rfl, hp, rfl⟩ := h
  obtain rfl : focus = .run t p := hf
  cases t with
  | effect | touch | make | crash => exact ⟨⟨rfl, rfl, hp, rfl⟩, rfl, rfl⟩
  | once v =>
    have hp' : p ∉ n.spent := hn p (List.mem_append_left _ (List.mem_singleton_self p))
    simp only [Interpreter.enter, Machine.enter, if_neg hp']
    exact ⟨⟨rfl, rfl, hp, rfl⟩, rfl, rfl⟩
  | onSuccess | onSuccessOnce | loop => exact ⟨⟨rfl, rfl, hp.onSuccess, rfl⟩, rfl, rfl⟩
  | onFailure => exact ⟨⟨rfl, rfl, hp.onFailure, rfl⟩, rfl, rfl⟩
  | onRetry => exact ⟨⟨rfl, rfl, hp.onRetry, rfl⟩, rfl, rfl⟩
  | orElse => exact ⟨⟨rfl, rfl, hp.orElse, rfl⟩, rfl, rfl⟩
  | provide t g =>
    simp only [Interpreter.enter, Machine.enter]
    cases g env ω with
    | error q => exact ⟨⟨rfl, rfl, hp, rfl⟩, rfl, rfl⟩
    | ok r =>
      cases r with
      | error d => exact ⟨⟨rfl, rfl, hp, rfl⟩, rfl, rfl⟩
      | ok env => exact ⟨⟨rfl, rfl, hp.restore, rfl⟩, rfl, rfl⟩

theorem Mirrors.unwind (h : x.Mirrors m) (hn : ∀ q ∈ x.shots, q ∉ n.spent) :
    (x.unwind ω n o x.frames).1.Mirrors (m.unwind ω o m.frames) := by
  obtain ⟨focus, env, saved, frames, j⟩ := x
  obtain ⟨_, _, gs, _⟩ := m
  obtain ⟨rfl, rfl, hp, rfl⟩ := h
  cases hp with
  | nil => cases o <;> exact ⟨rfl, rfl, .nil, rfl⟩
  | @onSuccess _ _ _ q k hp =>
    cases o with
    | success v =>
      cases q with
      | none => exact ⟨rfl, rfl, hp, rfl⟩
      | some q =>
        have hq : q ∉ n.spent := hn q (List.mem_append_right _ (List.mem_cons_self ..))
        simp only [Interpreter.unwind, if_neg hq]
        exact ⟨rfl, rfl, hp, rfl⟩
    | failure | halt | interrupt | retry => exact ⟨rfl, rfl, hp, rfl⟩
  | onFailure hp | onRetry hp | orElse hp | restore hp => cases o <;> exact ⟨rfl, rfl, hp, rfl⟩

/-- A step of the interpreter is the step of the machine, as long as nothing is used up that it has before
it. -/
theorem Mirrors.step (h : x.Mirrors m) (hn : ∀ q ∈ x.shots, q ∉ n.spent) :
    Agrees (x.step f s ω n) (m.step f s ω) := by
  have hm : m.focus = x.focus.plain := h.focus.symm
  unfold Interpreter.step Machine.step
  cases hf : x.focus with
  | run t p =>
    rw [hf] at hm
    rw [hm]
    exact h.enter hf hn
  | exit o =>
    rw [hf] at hm
    rw [hm]
    exact ⟨h.unwind hn, rfl, rfl⟩

end Interpreter
end TransactionalMemory
