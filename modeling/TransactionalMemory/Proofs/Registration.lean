import TransactionalMemory.Proofs.Waiting
import TransactionalMemory.Ref
import TransactionalMemory.Scenario.Val

namespace TransactionalMemory

variable {β : Type} [Universe β] {Ω : Type}

abbrev Watches (β : Type) [Universe β] := CommitId → Option (FiberId × Journal β)

def Commit.watch? (c : Commit β Ω) : Option (FiberId × Journal β) := c.watching.map (c.fiber, ·)

def Engine.watches (e : Engine β Ω) : Watches β := fun id => (e.commits[id]?).bind (·.watch?)

theorem Entry.isValid_congr {x : Entry β} {d : CellId} {s t : Store β}
    (h : t.version d = s.version d) : x.isValid d t = x.isValid d s := by
  rw [isValid, isValid, h]

theorem Journal.mem_untracked (j : Journal β) (d : CellId) (k : Journal β) :
    d ∈ j.untracked k ↔ d ∈ j.awaited ∧ d ∉ k.entries := by
  rw [untracked, Std.ExtTreeMap.mem_filter]
  simp [← Std.ExtTreeMap.contains_iff_mem]

namespace Store

def Exact (s : Store β) (W : Watches β) : Prop :=
  ∀ (d : CellId) (f : FiberId) (id : CommitId), (s.waiting d)[f]? = some id ↔
    ∃ j x, W id = some (f, j) ∧ j.entries[d]? = some x ∧ x.created = false ∧ x.isValid d s

variable {s t : Store β} {W W' : Watches β} {id : CommitId} {f : FiberId} {j : Journal β}

theorem Exact.watches (h : s.Exact W) {d : CellId} (hd : (s.waiting d)[f]? = some id) :
    ∃ j x, W id = some (f, j) ∧ j.entries[d]? = some x ∧ x.created = false := by
  obtain ⟨j, x, hw, hx, hc, -⟩ := (h d f id).1 hd
  exact ⟨j, x, hw, hx, hc⟩

theorem Exact.congr (h : s.Exact W) (hw : ∀ d, t.waiting d = s.waiting d)
    (hv : ∀ i f j d, W i = some (f, j) → d ∈ j.entries → t.version d = s.version d) : t.Exact W := by
  intro d f id
  rw [hw, h]
  constructor
  · rintro ⟨j, x, hj, hx, hc, hx'⟩
    refine ⟨j, x, hj, hx, hc, ?_⟩
    rwa [Entry.isValid_congr (hv id f j d hj (Std.ExtTreeMap.mem_iff_isSome_getElem?.2 (by simp [hx])))]
  · rintro ⟨j, x, hj, hx, hc, hx'⟩
    refine ⟨j, x, hj, hx, hc, ?_⟩
    rwa [← Entry.isValid_congr
      (hv id f j d hj (Std.ExtTreeMap.mem_iff_isSome_getElem?.2 (by simp [hx])))]

theorem Exact.alloc (h : s.Exact W) (hs : s.Sound) (hk : ∀ i f j, W i = some (f, j) → j.Known s)
    (v : Any β) : (s.alloc v).2.Exact W := by
  apply h.congr
  · intro d
    exact waiting_alloc v hs
  · intro i f j d hj hd
    rw [version_alloc, if_neg]
    rintro rfl
    exact hs.nextCell_notMem ((hk i f j hj).mem hd)

theorem Exact.publish (h : s.Exact W) (hs : s.Sound) (hk : ∀ i f j, W i = some (f, j) → j.Known s)
    {w : Waiting} {k : Journal β} (hp : j.publish s = .ok (w, t, k)) : t.Exact W := by
  intro d f id
  rcases Journal.cell_publish hp d with ⟨y, v, -, -, e⟩ | ⟨-, e⟩
  · have hw : t.waiting d = ∅ := by simp only [waiting, e]
    have hv : (t.version d).time = s.now := by simp only [version, e]
    rw [hw]
    constructor
    · intro hd
      simp at hd
    · rintro ⟨j', x, hj, hx, -, hx'⟩
      have hkx := hk id f j' hj d x hx
      have hpast := hs.past d
      rw [Entry.isValid, Version.same_iff, hv] at hx'
      rcases hkx.time with ht | ht
      · rw [ht] at hx'
        omega
      · omega
  · have hw : t.waiting d = s.waiting d := by simp only [waiting, e]
    have hv : t.version d = s.version d := by simp only [version, e]
    rw [hw, h]
    simp only [Entry.isValid_congr hv]

theorem version_leave (d : CellId) (cells : Std.ExtTreeMap CellId (Entry β)) :
    (Journal.leave s f cells).version d = s.version d := by
  rw [version, Journal.cell_leave]
  split <;> rfl

theorem getElem?_waiting_leave (d : CellId) (g : FiberId) (cells : Std.ExtTreeMap CellId (Entry β)) :
    ((Journal.leave s f cells).waiting d)[g]? =
      if d ∈ cells ∧ f = g then none else (s.waiting d)[g]? := by
  rw [waiting, Journal.cell_leave]
  by_cases hd : d ∈ cells
  · simp [hd, Std.ExtTreeMap.getElem?_erase]
  · simp only [hd, if_false, false_and]
    rfl

theorem version_watch (d : CellId) : (j.watch s f id).2.version d = s.version d := by
  rw [version, Journal.cell_watch]
  split <;> rfl

theorem getElem?_waiting_watch (d : CellId) (g : FiberId) :
    ((j.watch s f id).2.waiting d)[g]? =
      if d ∈ j.awaited ∧ f = g then some (((s.waiting d)[g]?).getD id) else (s.waiting d)[g]? := by
  rw [waiting, Journal.cell_watch]
  by_cases hd : d ∈ j.awaited
  · by_cases hf : f = g
    · subst hf
      rw [if_pos hd, if_pos ⟨hd, rfl⟩, Std.ExtTreeMap.getElem?_insertIfNew]
      by_cases hf : f ∈ s.waiting d
      · simp [hf]
      · simp [hf]
    · simp [hd, hf, Std.ExtTreeMap.getElem?_insertIfNew]
  · simp only [hd, if_false, false_and]
    rfl

theorem Exact.unwatch (h : s.Exact W) (hw : W id = some (f, j))
    (alone : ∀ i j', W i = some (f, j') → i = id) (hw' : W' id = none)
    (others : ∀ i, i ≠ id → W' i = W i) : (j.unwatch s f).Exact W' := by
  intro d g i
  simp only [Journal.unwatch, Entry.isValid_congr (version_leave d _), getElem?_waiting_leave]
  by_cases hi : i = id
  · subst hi
    simp only [hw', reduceCtorEq, false_and, exists_false, iff_false]
    split
    · exact nofun
    · rename_i hn
      intro hd
      obtain ⟨j', x, hj, hx, -⟩ := h.watches hd
      rw [hw] at hj
      cases hj
      exact hn ⟨Std.ExtTreeMap.mem_iff_isSome_getElem?.2 (by simp [hx]), rfl⟩
  · rw [others i hi, ← h]
    split
    · rename_i hd
      obtain ⟨-, rfl⟩ := hd
      refine ⟨nofun, fun hd => ?_⟩
      obtain ⟨j', x, hj, -⟩ := h.watches hd
      exact absurd (alone i j' hj) hi
    · rfl

theorem follow_eq (c : Commit β Ω) (id : CommitId) (s : Store β) (j : Journal β) :
    ∃ t, c.follow id s j = j.watch t c.fiber id ∧ (∀ d, t.version d = s.version d) ∧
      ∀ (d : CellId) (g : FiberId), (t.waiting d)[g]? =
        if (∃ k, c.suspended = some k ∧ d ∈ k.untracked j) ∧ c.fiber = g then none
        else (s.waiting d)[g]? := by
  -- A commit that turns to another journal first leaves the cells it no longer waits for.
  unfold Commit.follow
  cases c.suspended with
  | none => exact ⟨s, rfl, fun _ => rfl, by simp⟩
  | some k =>
    refine ⟨_, rfl, fun d => version_leave d _, fun d g => ?_⟩
    simp [getElem?_waiting_leave]

theorem Exact.untracked {c : Commit β Ω} {d : CellId} (h : s.Exact W)
    (hw : W id = c.suspended.map (c.fiber, ·))
    (hcr : ∀ k d, c.suspended = some k → j.Creates d → k.entries[d]? = none)
    (hd : d ∉ j.awaited) (hn : (s.waiting d)[c.fiber]? = some id) :
    ∃ k, c.suspended = some k ∧ d ∈ k.untracked j := by
  -- A cell that the commit is on the list of, and is not to wait for next, is one that it leaves. The other
  -- journal cannot have made it.
  obtain ⟨k, x, hkw, hx, hx'⟩ := h.watches hn
  rw [hw, Option.map_eq_some_iff] at hkw
  obtain ⟨k', hk', heq⟩ := hkw
  cases heq
  refine ⟨k, hk', (Journal.mem_untracked k d j).2 ⟨(Journal.mem_awaited k d).2 ⟨x, hx, hx'⟩, ?_⟩⟩
  intro hmem
  have hy := Std.ExtTreeMap.getElem?_eq_some_getElem hmem
  cases hc : (j.entries[d]).created with
  | false => exact hd ((Journal.mem_awaited j d).2 ⟨_, hy, hc⟩)
  | true =>
    have hnone := hcr k d hk' ⟨_, hy, hc⟩
    rw [hx] at hnone
    cases hnone

/-- The commit turns from what it has waited for, if anything, to the cells of another journal. -/
theorem Exact.follow {c : Commit β Ω} (h : s.Exact W)
    (hw : W id = c.suspended.map (c.fiber, ·)) (hj : j.isValid s)
    (hcr : ∀ k d, c.suspended = some k → j.Creates d → k.entries[d]? = none)
    (alone : ∀ i j', W i = some (c.fiber, j') → i = id) (hw' : W' id = some (c.fiber, j))
    (others : ∀ i, i ≠ id → W' i = W i) : (c.follow id s j).2.Exact W' := by
  obtain ⟨t, ht, hv, hwait⟩ := follow_eq c id s j
  intro d g i
  rw [ht]
  simp only [Entry.isValid_congr ((version_watch d).trans (hv d)), getElem?_waiting_watch]
  by_cases hg : c.fiber = g
  · subst hg
    -- Whoever was on a list under this fiber was this commit, and nobody else comes to be.
    have own {k : CommitId} (hd : (s.waiting d)[c.fiber]? = some k) : k = id := by
      obtain ⟨j', x, hj', -⟩ := h.watches hd
      exact alone k j' hj'
    have own' {k : CommitId} {j' : Journal β} (hk : W' k = some (c.fiber, j')) :
        k = id ∧ j' = j := by
      by_cases hi : k = id
      · subst hi
        rw [hw'] at hk
        cases hk
        exact ⟨rfl, rfl⟩
      · rw [others k hi] at hk
        exact absurd (alone k j' hk) hi
    by_cases hd : d ∈ j.awaited
    · rw [if_pos ⟨hd, rfl⟩]
      obtain ⟨x, hx, hx'⟩ := (Journal.mem_awaited j d).1 hd
      have hget : ((t.waiting d)[c.fiber]?).getD id = id := by
        rw [hwait]
        split
        · rfl
        · cases hs : (s.waiting d)[c.fiber]? with
          | none => rfl
          | some k => exact own hs
      rw [hget, Option.some.injEq]
      constructor
      · rintro rfl
        exact ⟨j, x, hw', hx, hx', (Journal.isValid_iff j s).1 hj d x hx⟩
      · rintro ⟨j', y, hj', -⟩
        exact (own' hj').1.symm
    · rw [if_neg fun hn => hd hn.1, hwait]
      constructor
      · intro hn
        split at hn
        · cases hn
        · rename_i hk
          obtain rfl := own hn
          exact absurd ⟨h.untracked hw hcr hd hn, rfl⟩ hk
      · rintro ⟨j', y, hj', hy, hy', -⟩
        obtain ⟨rfl, rfl⟩ := own' hj'
        exact absurd ((Journal.mem_awaited _ d).2 ⟨y, hy, hy'⟩) hd
  · rw [if_neg fun hn => hg hn.2, hwait, if_neg fun hn => hg hn.2, h]
    by_cases hi : i = id
    · -- The commit is on lists under its own fiber only, before and after.
      subst hi
      constructor
      · rintro ⟨j', y, hj', -⟩
        rw [hw, Option.map_eq_some_iff] at hj'
        obtain ⟨k, -, heq⟩ := hj'
        cases heq
        exact absurd rfl hg
      · rintro ⟨j', y, hj', -⟩
        rw [hw'] at hj'
        cases hj'
        exact absurd rfl hg
    · rw [others i hi]

theorem watches_ext (h : W' id = W id) (others : ∀ i, i ≠ id → W' i = W i) : W' = W := by
  funext i
  by_cases hi : i = id
  · rw [hi, h]
  · exact others i hi

theorem Exact.release {c : Commit β Ω} (h : s.Exact W)
    (hw : W id = c.suspended.map (c.fiber, ·))
    (alone : c.suspended.isSome → ∀ i j', W i = some (c.fiber, j') → i = id) (hw' : W' id = none)
    (others : ∀ i, i ≠ id → W' i = W i) : (c.release s).2.Exact W' := by
  unfold Commit.release
  cases hs : c.suspended with
  | none =>
    rw [hs, Option.map_none] at hw
    rw [watches_ext (hw'.trans hw.symm) others]
    exact h
  | some j =>
    rw [hs, Option.map_some] at hw
    exact h.unwatch hw (alone (by rw [hs]; rfl)) hw' others

end Store

namespace Commit

variable {id : CommitId} {c c' : Commit β Ω} {s s' : Store β} {ω : Ω} {call : Call} {p : Point β Ω}
  {woken : List CommitId} {W W' : Watches β}

theorem drop_snd (c : Commit β Ω) (s : Store β) : (c.drop s).2 = (c.release s).2 := rfl

theorem finish_snd (c : Commit β Ω) (s : Store β) (call : Call) (r : Result β) :
    (c.finish call s r).2 = (c.release s).2 := by
  cases call <;> rfl

theorem watch?_eq (h : c.phase.isParking = false) : c.watch? = c.suspended.map (c.fiber, ·) := by
  rw [watch?, watching_eq h]

theorem Transition.exact (h : c.Transition id s ω call p c' s' woken) (hx : s.Exact W)
    (ht : c.Tidy) (hp : c.phase = .busy call p) (hs : s.Sound)
    (hk : ∀ i f j, W i = some (f, j) → j.Known s) (hw : W id = c.watch?)
    (alone : c.isLive → ∀ i j', W i = some (c.fiber, j') → i = id) (hw' : W' id = c'.watch?)
    (others : ∀ i, i ≠ id → W' i = W i) : s'.Exact W' := by
  have same (hc : c'.watch? = c.watch?) : W' = W := Store.watches_ext (by rw [hw', hc, hw]) others
  have released (hn : c.phase.isParking = false) (hc' : c'.watch? = none) :
      (c.release s).2.Exact W' := by
    refine hx.release (hw.trans (watch?_eq hn)) ?_ (hw'.trans hc') others
    intro hsus
    apply alone
    apply ht.live
    rwa [watching_eq hn]
  cases h with
  | stop | resume | sleep | begin | giveUp | attempt | launch | rerun | discard | lose | conclude
  | skip | tell | wake =>
    rw [same (watch?_eq (c := c) (by rw [hp]; rfl)).symm]
    exact hx
  | stall =>
    rw [same rfl]
    exact hx
  | leave | finish =>
    rw [finish_snd]
    apply released (by rw [hp]; rfl)
    rw [finish_fst]
    rfl
  | refuse =>
    rw [drop_snd]
    apply released (by rw [hp]; rfl)
    rw [drop_fst]
    rfl
  | @step _ m ho =>
    rw [same (watch?_eq (c := c) (by rw [hp]; rfl)).symm]
    rcases (Machine.logged (m := m) (f := c.fiber) (s := s) (ω := ω)).store with e | ⟨v, e⟩
    · rw [e]
      exact hx
    · rw [e]
      exact hx.alloc hs hk v
  | publish ho hr hc hst hpub =>
    rw [same (watch?_eq (c := c) (by rw [hp]; rfl)).symm]
    exact hx.publish hs hk hpub
  | @park w m ho hv =>
    have hl : c.isLive := by
      simp only [isLive, ht.held (by rw [hp]; rfl), ht.polled w _ hp]
      rfl
    refine hx.follow (hw.trans (watch?_eq (by rw [hp]; rfl))) hv ?_ (alone hl) hw' others
    intro k d hsus hd
    exact ht.fresh m k d (by rw [hp]; rfl) hsus hd
  | @rest _ j hv =>
    have hj : c.watching = some j := by simp only [Commit.watching, hp]
    rw [same (by rw [watch?, watch?, hj]; rfl)]
    exact hx
  | @stir _ j seen hv =>
    have hj : c.watching = some j := by simp only [Commit.watching, hp]
    rw [same (by rw [watch?, watch?, hj]; rfl)]
    exact hx

end Commit

namespace Engine

variable {e : Engine β Ω} {m : Move β Ω} {id : CommitId} {c : Commit β Ω}

def Distinct (e : Engine β Ω) : Prop :=
  ∀ p ∈ e.commits.toList, ∀ q ∈ e.commits.toList,
    p.2.isLive → q.2.isLive → p.2.fiber = q.2.fiber → p.1 = q.1

instance : Decidable e.Distinct := inferInstanceAs (Decidable (∀ p ∈ _, ∀ q ∈ _, _ → _ → _ → _))

theorem Distinct.eq {i : CommitId} {d : Commit β Ω} (h : e.Distinct) (hc : e.commits[id]? = some c)
    (hd : e.commits[i]? = some d) (hl : c.isLive) (hl' : d.isLive) (hf : d.fiber = c.fiber) :
    i = id :=
  h (i, d) (Std.ExtTreeMap.mem_toList_iff_getElem?_eq_some.2 hd) (id, c)
    (Std.ExtTreeMap.mem_toList_iff_getElem?_eq_some.2 hc) hl' hl hf

theorem watches_eq {d : Commit β Ω} (hd : c.Hears d) (h : e.commits[id]? = some d) :
    e.watches id = c.watch? := by
  obtain ⟨g, rfl, -⟩ := hd.frame
  rw [watches, h]
  rfl

theorem watches_act (he : e.Tracked) (hm : e.admits m) (h : ∀ c c', e.commits[id]? = some c →
    Moved e id m c c' → c'.watch? = c.watch?) : (e.act m).watches id = e.watches id := by
  cases hc : e.commits[id]? with
  | none =>
    have hn : e.watches id = none := by simp only [watches, hc, Option.bind_none]
    rw [hn]
    cases hc' : (e.act m).commits[id]? with
    | none => simp only [watches, hc', Option.bind_none]
    | some c =>
      obtain ⟨_, _, _, _, rfl, rfl, rfl⟩ := fresh_of_act hm hc hc'
      rw [watches_eq .calm hc']
      rfl
  | some c =>
    obtain ⟨c', d, hmv, hd, hc'⟩ := moved hm hc (he.ne_nextCommit hc)
    rw [watches_eq hd hc', watches_eq .calm hc, h c c' hc hmv]

theorem Moved.watch?_eq {c' : Commit β Ω} (h : Moved e id m c c') (ht : m ≠ .advance id)
    (hd : m ≠ .drop id) (hf : ∀ f, m ≠ .setFiber id f) : c'.watch? = c.watch? := by
  cases h with
  | keep | setScheduler | setWatched | interrupt => rfl
  | setFiber => exact absurd rfl (hf _)
  | poll _ hi | refuse _ hi | runSync _ hi =>
    exact (Commit.watch?_eq (by rw [hi]; rfl)).symm
  | settle ha => exact (Commit.watch?_eq (by rw [ha]; rfl)).symm
  | drop => exact absurd rfl hd
  | turn => exact absurd rfl ht

theorem store_act (hm : e.admits m) (ha : ∀ v, m ≠ .alloc v) (hd : ∀ i, m ≠ .drop i)
    (ht : ∀ i, m ≠ .advance i) : (e.act m).store = e.store := by
  have h := reshaped hm
  generalize (e.act m).store = t at h
  cases h with
  | keep => rfl
  | alloc => exact absurd rfl (ha _)
  | drop => exact absurd rfl (hd _)
  | turn => exact absurd rfl (ht _)

theorem Distinct.alone (hd : e.Distinct) (ht : e.Tidy) (hc : e.commits[id]? = some c)
    (hl : c.isLive) {i : CommitId} {j : Journal β} (hw : e.watches i = some (c.fiber, j)) :
    i = id := by
  obtain ⟨d, hi, hd'⟩ := Option.bind_eq_some_iff.1 hw
  obtain ⟨k, hk, heq⟩ := Option.map_eq_some_iff.1 hd'
  have hl' : d.isLive := (ht hi).live (by rw [hk]; rfl)
  exact hd.eq hc hi hl hl' (congrArg Prod.fst heq)

theorem Tracked.known_of_watches (he : e.Tracked) {f : FiberId} {j : Journal β}
    (hw : e.watches id = some (f, j)) : j.Known e.store := by
  obtain ⟨c, hc, hd⟩ := Option.bind_eq_some_iff.1 hw
  obtain ⟨k, hk, heq⟩ := Option.map_eq_some_iff.1 hd
  cases heq
  have hkn := he.known id c hc
  unfold Commit.watching at hk
  split at hk
  · rename_i hp
    cases hk
    exact hkn.2 j (by rw [hp]; rfl)
  · exact hkn.1 j hk

theorem exact_advance (he : e.Tracked) (ht : e.Tidy) (hd : e.Distinct)
    (hx : e.store.Exact e.watches) (hm : e.admits (.advance id)) :
    (e.act (.advance id)).store.Exact (e.act (.advance id)).watches := by
  obtain ⟨c, hc⟩ := exists_of_advance hm
  obtain ⟨c', b, hmv, hb, hc'⟩ := moved hm hc (he.ne_nextCommit hc)
  cases hmv with
  | keep hn => exact absurd rfl hn
  | turn hp htr =>
    refine htr.exact hx (ht hc) hp he.sound (fun _ _ _ => he.known_of_watches)
      (watches_eq .calm hc) (fun hl i j => hd.alone ht hc hl) (watches_eq hb hc') fun i hi => ?_
    apply watches_act he hm
    intro d d' _ hmv
    exact hmv.watch?_eq (fun h => hi (Move.advance.inj h).symm) nofun nofun

theorem exact_drop (he : e.Tracked) (ht : e.Tidy) (hd : e.Distinct)
    (hx : e.store.Exact e.watches) (hm : e.admits (.drop id)) :
    (e.act (.drop id)).store.Exact (e.act (.drop id)).watches := by
  obtain ⟨c, hc⟩ := exists_of_isFree hm
  obtain ⟨-, hi⟩ := held_of_isFree hm hc
  have hst : (e.act (.drop id)).store = (c.release e.store).2 := by
    simp only [act, Engine.drop, hc]
    rfl
  have hc' : (e.act (.drop id)).commits[id]? = some (c.drop e.store).1 := by
    simp only [act, Engine.drop, hc, getElem?_put, if_true]
  rw [hst]
  refine hx.release ((watches_eq .calm hc).trans ?_) ?_ ((watches_eq .calm hc').trans ?_)
    fun i hi' => ?_
  · exact Commit.watch?_eq (by rw [hi]; rfl)
  · intro hsus i j hw
    refine hd.alone ht hc ((ht hc).live ?_) hw
    rwa [Commit.watching_of_idle hi]
  · rw [Commit.drop_fst, Commit.watch?_eq (by rw [hi]; rfl)]
    rfl
  · apply watches_act he hm
    intro d d' _ hmv
    refine hmv.watch?_eq ?_ (fun h => hi' (Move.drop.inj h).symm) ?_
    · rintro ⟨⟩
    · rintro f ⟨⟩

end Engine

def Move.renames? : Move β Ω → Option CommitId
  | .setFiber id _ => some id
  | _ => none

namespace History

/-- Commits that are live at one time have different fibers, and none is given another fiber once it
has been called. -/
def Orderly : History β Ω → Engine β Ω → Prop
  | [], e => e.Distinct
  | (e', m) :: h, e => e.Distinct ∧ (∀ id ∈ m.renames?, ¬ Called h id) ∧ Orderly h e'

instance Orderly.decide : (h : History β Ω) → (e : Engine β Ω) → Decidable (Orderly h e)
  | [], e => inferInstanceAs (Decidable e.Distinct)
  | (e', _) :: h, _ =>
    have := Orderly.decide h e'
    inferInstanceAs (Decidable (_ ∧ _ ∧ _))

theorem Orderly.distinct {h : History β Ω} {e : Engine β Ω} (ho : h.Orderly e) : e.Distinct := by
  cases h with
  | nil => exact ho
  | cons x h => exact ho.1

end History

theorem Run.exact {h : History β Ω} {e : Engine β Ω} (r : Run h e) (ho : h.Orderly e) :
    e.store.Exact e.watches := by
  induction r with
  | start ω =>
    intro d f id
    constructor
    · intro hd
      rw [Store.waiting_of_notMem (by simp)] at hd
      simp at hd
    · rintro ⟨j, x, hw, -⟩
      simp [Engine.watches] at hw
  | @next h e m r hm ih =>
    obtain ⟨-, hset, ho⟩ := ho
    have hx := ih ho
    have he := r.tracked
    have same (hst : (e.act m).store = e.store) (hw : (e.act m).watches = e.watches) :
        (e.act m).store.Exact (e.act m).watches := by
      rw [hst, hw]
      exact hx
    cases m with
    | advance id => exact Engine.exact_advance he r.tidy ho.distinct hx hm
    | drop id => exact Engine.exact_drop he r.tidy ho.distinct hx hm
    | alloc v =>
      have hw : (e.act (.alloc v)).watches = e.watches := rfl
      rw [hw]
      exact hx.alloc he.sound (fun _ _ _ => he.known_of_watches) v
    | setFiber id f =>
      refine same rfl (funext fun i => Engine.watches_act he hm ?_)
      intro c c' hc hmv
      cases hmv with
      | keep => rfl
      | setFiber _ hi =>
        have hn := (r.idle_of_not_called hc (hset _ rfl)).2
        rw [Commit.watch?_eq (by rw [hi]; rfl), hn,
          Commit.watch?_eq (by exact hi ▸ rfl), hn]
        rfl
    | change | takeFiber | addScheduler | commit | setScheduler | setWatched | poll | runSync | settle
    | interrupt | runTasks | runTask | wake | park =>
      refine same (Engine.store_act hm nofun nofun nofun) (funext fun i => ?_)
      exact Engine.watches_act he hm fun _ _ _ hmv => hmv.watch?_eq nofun nofun nofun

/-- The commit is there, was last answered that it has to wait, and the last attempt of it that
retried has seen the cell as it still is, and has not made it. -/
def History.Awaits (h : History β Ω) (e : Engine β Ω) (id : CommitId) (d : CellId) : Prop :=
  (∃ c, e.commits[id]? = some c ∧ c.held) ∧ h.lastAnswer e id = some .pending ∧
    ∃ j x, h.lastRetry id = some j ∧ j.entries[d]? = some x ∧ x.created = false ∧
      x.isValid d e.store

section

variable {h : History β Ω} {e : Engine β Ω} {id : CommitId} {c : Commit β Ω}

theorem Run.awaits_iff (r : Run h e) (hc : e.commits[id]? = some c) (hp : c.phase.isBusy = false)
    (d : CellId) : h.Awaits e id d ↔ ∃ j x, e.watches id = some (c.fiber, j) ∧
      j.entries[d]? = some x ∧ x.created = false ∧ x.isValid d e.store := by
  have hw : e.watches id = c.suspended.map (c.fiber, ·) := by
    rw [Engine.watches_eq .calm hc, Commit.watch?_eq (Phase.isParking_of_not_busy hp)]
  have hn : c.watching = c.suspended := Commit.watching_eq (Phase.isParking_of_not_busy hp)
  have hr : c.phase.isAtRest := Phase.isAtRest_of_not_busy hp
  have hs := r.suspended_iff hc hp
  constructor
  · rintro ⟨⟨c', hc', hh⟩, ha, j, x, hj, hx, hcr, hv⟩
    obtain rfl : c = c' := Option.some.inj (hc.symm.trans hc')
    obtain ⟨k, hk⟩ := Option.isSome_iff_exists.1 (hs.2 ⟨hh, ha⟩)
    have hjk := r.lastRetry_of_watching hc hr (hn.trans hk)
    rw [hj] at hjk
    cases hjk
    exact ⟨j, x, by rw [hw, hk, Option.map_some], hx, hcr, hv⟩
  · rintro ⟨j, x, hj, hx, hcr, hv⟩
    rw [hw, Option.map_eq_some_iff] at hj
    obtain ⟨k, hk, heq⟩ := hj
    cases heq
    obtain ⟨hh, ha⟩ := hs.1 (by rw [hk]; rfl)
    exact ⟨⟨c, hc, hh⟩, ha, j, x, r.lastRetry_of_watching hc hr (hn.trans hk), hx, hcr, hv⟩

/-- Between its calls a commit is on the list of a cell if and only if it awaits the cell, under its
own fiber and no other. Nobody else is there under the fiber of a live commit, and a commit that has
completed or is gone is on no list. -/
theorem Run.registered_iff (r : Run h e) (ho : h.Orderly e) (hc : e.commits[id]? = some c)
    (hp : c.phase.isBusy = false) (d : CellId) :
    ((e.store.waiting d)[c.fiber]? = some id ↔ h.Awaits e id d) ∧
    (c.isLive ∨ (∀ k b, e.commits[k]? = some b → b.isLive → b.fiber = c.fiber → k = id) →
      (c.fiber ∈ e.store.waiting d ↔ h.Awaits e id d)) ∧
    (∀ f : FiberId, (e.store.waiting d)[f]? = some id → f = c.fiber) ∧
    (c.completed ∨ c.held = false → ∀ f : FiberId, (e.store.waiting d)[f]? ≠ some id) := by
  have hx := r.exact ho
  have hown : (e.store.waiting d)[c.fiber]? = some id ↔ h.Awaits e id d := by
    rw [hx, r.awaits_iff hc hp]
  have watch {i : CommitId} {f : FiberId} (hd : (e.store.waiting d)[f]? = some i) :
      ∃ b, e.commits[i]? = some b ∧ b.isLive ∧ b.fiber = f := by
    obtain ⟨j, x, hw, -⟩ := hx.watches hd
    obtain ⟨b, hb, hw⟩ := Option.bind_eq_some_iff.1 hw
    obtain ⟨k, hk, heq⟩ := Option.map_eq_some_iff.1 hw
    exact ⟨b, hb, (r.tidy hb).live (by rw [hk]; rfl), congrArg Prod.fst heq⟩
  refine ⟨hown, ?_, ?_, ?_⟩
  · intro halone
    rw [← hown]
    constructor
    · intro hd
      have hd' := Std.ExtTreeMap.getElem?_eq_some_getElem hd
      obtain ⟨b, hb, hl, hf⟩ := watch hd'
      have hi : (e.store.waiting d)[c.fiber] = id := by
        rcases halone with hl' | halone
        · exact ho.distinct.eq hc hb hl' hl hf
        · exact halone _ b hb hl hf
      rw [hd', hi]
    · intro hd
      exact Std.ExtTreeMap.mem_iff_isSome_getElem?.2 (by rw [hd]; rfl)
  · intro f hd
    obtain ⟨b, hb, -, hf⟩ := watch hd
    obtain rfl : c = b := Option.some.inj (hc.symm.trans hb)
    exact hf.symm
  · intro hgone f hd
    obtain ⟨b, hb, hl, -⟩ := watch hd
    obtain rfl : c = b := Option.some.inj (hc.symm.trans hb)
    simp only [Commit.isLive, Bool.and_eq_true, Bool.not_eq_true'] at hl
    rcases hgone with hd | hn
    · rw [hd] at hl
      cases hl.2
    · rw [hn] at hl
      cases hl.1

end

/-- One commit waits for two cells until the first of them is written. Polled again, it waits for that
one and for a third. -/
def twoWaits : List (Move Scenario.Base Unit) :=
  let wait i (t : Tree Scenario.Base Unit) : Tree Scenario.Base Unit := .onSuccess
    (.touch ⟨i⟩ fun v _ => .ok (.leave (.success v))) fun _ v =>
      if v.same ⟨.nat, (0 : Nat)⟩ then t else .touch ⟨3⟩ fun _ _ => .ok (.leave .retry)
  let write := (Ref.set (R := .unit) (E := .never) (Ω := Unit)
    (⟨⟨1⟩⟩ : Ref (.nat : Ty Scenario.Base)) (1 : Nat)).tree
  let turns n i := List.replicate n (Move.advance ⟨i⟩)
  [.alloc ⟨.nat, (0 : Nat)⟩, .alloc ⟨.nat, (0 : Nat)⟩, .alloc ⟨.nat, (0 : Nat)⟩,
    .commit (wait 1 (.touch ⟨2⟩ fun _ _ => .ok (.leave .retry))) .never .unit none,
    .commit write .never .unit none, .setFiber ⟨1⟩ ⟨7⟩, .poll ⟨1⟩ (.task ⟨1⟩)] ++ turns 9 1 ++
  [.settle ⟨1⟩, .runSync ⟨2⟩] ++ turns 7 2 ++ [.settle ⟨2⟩, .poll ⟨1⟩ (.task ⟨2⟩)] ++ turns 9 1

theorem registered_twoWaits :
    let p := Engine.play { world := () } [] twoWaits
    (⟨7⟩ : FiberId) ∈ p.2.store.waiting ⟨3⟩ ∧ p.1.Awaits p.2 ⟨1⟩ ⟨3⟩ ∧
      ¬ p.1.Awaits p.2 ⟨1⟩ ⟨2⟩ := by
  intro p
  have r : Run p.1 p.2 := (Run.start ()).play (by decide +kernel)
  have ho : p.1.Orderly p.2 := by decide +kernel
  obtain ⟨c, hc⟩ : ∃ c, p.2.commits[(⟨1⟩ : CommitId)]? = some c :=
    Option.isSome_iff_exists.1 (by decide +kernel)
  have hp : (p.2.commits[(⟨1⟩ : CommitId)]?).map
    (fun c => (c.phase.isBusy, c.isLive, c.fiber)) = some (false, true, ⟨7⟩) := by decide +kernel
  simp only [hc, Option.map_some, Option.some.injEq, Prod.mk.injEq] at hp
  obtain ⟨hb, hl, hf⟩ := hp
  obtain ⟨-, h₃, -⟩ := r.registered_iff ho hc hb ⟨3⟩
  obtain ⟨-, h₂, -⟩ := r.registered_iff ho hc hb ⟨2⟩
  have hin : c.fiber ∈ p.2.store.waiting ⟨3⟩ := by
    rw [hf]
    decide +kernel
  have hout : c.fiber ∉ p.2.store.waiting ⟨2⟩ := by
    rw [hf]
    decide +kernel
  exact ⟨hf ▸ hin, (h₃ (.inl hl)).1 hin, fun h => hout ((h₂ (.inl hl)).2 h)⟩

end TransactionalMemory
