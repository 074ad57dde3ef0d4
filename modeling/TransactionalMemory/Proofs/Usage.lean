import TransactionalMemory.Proofs.Journals

namespace TransactionalMemory

variable {β : Type} [Universe β] {Ω : Type}

def Tree.Touches (P : CellId → (Any β → Code Ω (Access β)) → Prop) : Tree β Ω → Prop
  | .touch c g => P c g
  | .effect _ | .make _ _ | .crash _ | .once _ => True
  | .onSuccess t k | .onSuccessOnce t k | .onFailure t k => t.Touches P ∧ ∀ ω v, (k ω v).Touches P
  | .onRetry t k => t.Touches P ∧ ∀ ω, (k ω).Touches P
  | .orElse l r => l.Touches P ∧ r.Touches P
  | .provide t _ | .loop t _ => t.Touches P

def Frame.Touches (P : CellId → (Any β → Code Ω (Access β)) → Prop) : Frame β Ω → Prop
  | .onSuccess k | .onFailure k => ∀ ω v, (k ω v).Touches P
  | .onRetry k => ∀ ω, (k ω).Touches P
  | .orElse _ t => t.Touches P
  | .restore _ => True

section

variable {P : CellId → (Any β → Code Ω (Access β)) → Prop} {t : Tree β Ω}
  {judge : Any β → Code Ω (Option (Outcome β))} {ω : Ω} {v : Any β}

theorem Tree.touches_again (ht : t.Touches P) : (t.again judge ω v).Touches P := by
  unfold again
  split
  · exact ht
  · trivial
  · trivial
  · trivial

end

namespace Machine

structure Touches (P : CellId → (Any β → Code Ω (Access β)) → Prop) (m : Machine β Ω) : Prop where
  focus : ∀ t, m.focus = .run t → t.Touches P
  frames : ∀ g ∈ m.frames, g.Touches P

variable {P : CellId → (Any β → Code Ω (Access β)) → Prop} {m : Machine β Ω} {f : FiberId}
  {s : Store β} {ω : Ω} {fs : List (Frame β Ω)} {env : Any β} {j : Journal β}

theorem Touches.exit {o : Outcome β} (h : ∀ g ∈ fs, g.Touches P) :
    Touches P ⟨.exit o, env, fs, j⟩ :=
  ⟨nofun, h⟩

theorem Touches.run {t : Tree β Ω} (ht : t.Touches P) (h : ∀ g ∈ fs, g.Touches P) :
    Touches P ⟨.run t, env, fs, j⟩ where
  focus u hu := by
    cases hu
    exact ht
  frames := h

theorem Touches.enter (h : m.Touches P) {t : Tree β Ω} (ht : t.Touches P) :
    (m.enter f s ω t).1.Touches P := by
  have push {g : Frame β Ω} (hg : g.Touches P) : ∀ x ∈ g :: m.frames, x.Touches P :=
    List.forall_mem_cons.2 ⟨hg, h.frames⟩
  cases t with
  | effect | touch | make | crash | once => exact .exit h.frames
  | onSuccess t k | onSuccessOnce t k | onFailure t k | onRetry t k => exact .run ht.1 (push ht.2)
  | orElse l r => exact .run ht.1 (push ht.2)
  | loop t judge => exact .run ht (push fun _ _ => Tree.touches_again ht)
  | provide t g =>
    simp only [Machine.enter]
    cases g m.env ω with
    | error p => exact .exit h.frames
    | ok r =>
      cases r with
      | error d => exact .exit h.frames
      | ok env => exact .run ht (push trivial)

theorem Touches.unwind (h : m.Touches P) (o : Outcome β) (hfs : ∀ g ∈ fs, g.Touches P) :
    (m.unwind ω o fs).Touches P := by
  cases fs with
  | nil => cases o <;> exact .exit h.frames
  | cons g fs =>
    obtain ⟨hg, hrest⟩ := List.forall_mem_cons.1 hfs
    cases o with
    | success v =>
      cases g with
      | onSuccess k => exact .run (hg ω v) hrest
      | onFailure | onRetry | orElse | restore => exact .exit hrest
    | failure x =>
      cases g with
      | onFailure k => exact .run (hg ω x) hrest
      | onSuccess | onRetry | orElse | restore => exact .exit hrest
    | retry =>
      cases g with
      | onRetry k => exact .run (hg ω) hrest
      | orElse saved r => exact .run hg hrest
      | onSuccess | onFailure | restore => exact .exit hrest
    | halt | interrupt => cases g <;> exact .exit hrest

theorem Touches.step (h : m.Touches P) : (m.step f s ω).1.Touches P := by
  unfold Machine.step
  cases hf : m.focus with
  | run t => exact h.enter (h.focus t hf)
  | exit o => exact h.unwind o h.frames

end Machine

section

variable {P : CellId → (Any β → Code Ω (Access β)) → Prop} {h : History β Ω} {e : Engine β Ω}
  {i : CommitId} {c : Commit β Ω} {m : Machine β Ω}

theorem Run.tree_touches (r : Run h e)
    (hP : ∀ x ∈ h, ∀ t E A s, x.2 = .commit t E A s → t.Touches P) (hc : e.commits[i]? = some c) :
    c.tree.Touches P := by
  refine r.each (P := fun h _ _ c =>
    (∀ x ∈ h, ∀ t E A s, x.2 = .commit t E A s → t.Touches P) → c.tree.Touches P) ?_ ?_
    (fun _ h => h) hc hP
  · intro h e t E A f s _ hP
    exact hP _ List.mem_cons_self t E A s rfl
  · intro h e m i c c' _ _ _ ih hmv hP
    rw [hmv.frame.1]
    exact ih fun x hx => hP x (List.mem_cons_of_mem _ hx)

theorem Run.touches (r : Run h e)
    (hP : ∀ x ∈ h, ∀ t E A s, x.2 = .commit t E A s → t.Touches P) (hc : e.commits[i]? = some c)
    (hm : c.phase.attempt? = some m) : m.Touches P := by
  refine r.each_attempt (P := fun h _ _ _ _ m =>
    (∀ x ∈ h, ∀ t E A s, x.2 = .commit t E A s → t.Touches P) → m.Touches P) ?_ ?_ ?_ hc hm hP
  · intro h e i c call r hc _ hP
    exact .run (r.tree_touches (fun x hx => hP x (List.mem_cons_of_mem _ hx)) hc) nofun
  · intro h e i c call m _ _ _ _ ih hP
    exact (ih fun x hx => hP x (List.mem_cons_of_mem _ hx)).step
  · intro h e i c m x _ _ _ _ _ ih hP
    exact ih fun x hx => hP x (List.mem_cons_of_mem _ hx)

end

end TransactionalMemory
