import TransactionalMemory.Proofs.Exclusion
import TransactionalMemory.Proofs.Serializability
import TransactionalMemory.Proofs.Waiting
import TransactionalMemory.Proofs.Writes

namespace TransactionalMemory

variable {β : Type} [Universe β] {Ω : Type}

namespace Phase

def isLaunching : Phase β Ω → Bool
  | .busy _ .launching => true
  | _ => false

def isReady : Phase β Ω → Bool
  | .busy _ .starting | .busy _ .launching => true
  | _ => false

def isTop : Phase β Ω → Bool
  | .busy _ .top => true
  | _ => false

theorem isReady_of_isLaunching {p : Phase β Ω} (h : p.isLaunching) : p.isReady := by
  unfold isLaunching at h
  split at h
  · rfl
  · cases h

theorem isTop_of_isReady {p : Phase β Ω} (h : p.isReady) : p.isTop = false := by
  unfold isReady at h
  split at h <;> first | rfl | cases h

end Phase

namespace Engine

def overwrites (i : CommitId) (d : CellId) (x : Engine β Ω × Move β Ω) : Bool :=
  match x.2 with
  | .advance k => k ≠ i && !((x.1.act x.2).store.version d).same (x.1.store.version d)
  | _ => false

def disturbs (i : CommitId) (x : Engine β Ω × Move β Ω) : Bool :=
  x.1.store.cells.toList.any fun p => overwrites i p.1 x

/-- Another commit publishes a version of a cell that the attempt of `i` has touched. -/
def collides (i : CommitId) (d : CellId) (x : Engine β Ω × Move β Ω) : Bool :=
  overwrites i d x && ((x.1.commits[i]?).bind (·.phase.journal?)).any (·.entries.contains d)

def launches (i : CommitId) (x : Engine β Ω × Move β Ω) : Bool :=
  match x.2 with
  | .advance k => k = i && (x.1.commits[i]?).any (·.phase.isLaunching)
  | _ => false

end Engine

namespace History

def sinceCalled (i : CommitId) (h : History β Ω) : History β Ω := h.takeWhile (!·.2.calls i)

def sinceLaunched (i : CommitId) (h : History β Ω) : History β Ω :=
  h.takeWhile (!Engine.launches i ·)

end History

variable {h : History β Ω} {e : Engine β Ω} {m : Move β Ω} {i : CommitId} {d : CellId}
  {c c' : Commit β Ω} {s t : Store β} {ω : Ω} {call : Call} {p : Point β Ω} {woken : List CommitId}

theorem Entry.Known.isValid_later {x : Entry β} (hx : x.Known d s) (l : s.Later t) :
    x.isValid d t = (x.isValid d s && (t.version d).same (s.version d)) := by
  rw [Bool.eq_iff_iff, Bool.and_eq_true, (hx.later l).isValid_iff, hx.isValid_iff, Version.same_iff]
  rcases l.version d hx.cell with hv | hv
  · simp [hv]
  · constructor
    · intro he
      rcases hx.time with ht | ht <;> rw [he] at ht
      · rw [ht] at hv
        exact absurd hv (Nat.lt_irrefl _)
      · exact absurd ht (Nat.lt_asymm hv)
    · rintro ⟨-, -, ht⟩
      omega

theorem Machine.Logged.fresh {m : Machine β Ω} {j : Journal β} (h : Machine.Logged m s j t)
    (hn : m.journal.entries[d]? = none) {x : Entry β} (hx : j.entries[d]? = some x) :
    x.expected = t.version d := by
  cases h with
  | keep =>
    rw [hn] at hx
    cases hx
  | @touch c g f hf =>
    obtain ⟨p, e⟩ := Journal.touch_eq_put (j := m.journal) (s := s) (c := c) f
    rw [e, Journal.getElem?_put] at hx
    split at hx
    · rename_i hd
      subst hd
      cases hx
      simp only [Journal.entry, hn]
      rfl
    · rw [hn] at hx
      cases hx
  | make hf =>
    rw [Journal.insertNew, Journal.getElem?_put] at hx
    split at hx
    · rename_i hd
      cases hx
      rw [hd]
    · rw [hn] at hx
      cases hx
  | rollback k =>
    rw [Journal.getElem?_rollback, hn] at hx
    cases hx

theorem Machine.Logged.version_eq {m : Machine β Ω} {j : Journal β} (h : Machine.Logged m s j t)
    (hs : s.Sound) (hd : d ∈ s.cells) : t.version d = s.version d := by
  rcases h.store with rfl | ⟨v, rfl⟩
  · rfl
  · rw [Store.version_alloc, if_neg]
    rintro rfl
    exact hs.nextCell_notMem hd

namespace Engine

theorem overwrites_of_ne (r : Run h e) (hm : e.admits m) (hne : m ≠ .advance i)
    (hd : d ∈ e.store.cells) :
    overwrites i d (e, m) = !((e.act m).store.version d).same (e.store.version d) := by
  cases hv : ((e.act m).store.version d).same (e.store.version d) with
  | true =>
    unfold overwrites
    split
    · rw [hv]
      exact Bool.and_false _
    · rfl
  | false =>
    obtain ⟨k, _, _, _, _, _, rfl, -⟩ := r.news_of_version hm hd (by
      intro he
      rw [he] at hv
      simp [Version.same] at hv)
    have hk : k ≠ i := fun hk => hne (congrArg _ hk)
    simp [overwrites, hk, hv]

@[simp] theorem overwrites_advance : overwrites i d (e, .advance i) = false := by
  simp [overwrites]

theorem launches_of_ne (hne : m ≠ .advance i) : launches i (e, m) = false := by
  unfold launches
  split
  · rename_i k hk
    have hki : k ≠ i := by
      rintro rfl
      exact hne hk
    simp [hki]
  · rfl

theorem launches_advance (hc : e.commits[i]? = some c) :
    launches i (e, .advance i) = c.phase.isLaunching := by
  simp [launches, hc]

end Engine

theorem History.sinceLaunched_cons {y : Engine β Ω × Move β Ω} (hy : Engine.launches i y = false) :
    sinceLaunched i (y :: h) = y :: h.sinceLaunched i := by
  simp [sinceLaunched, hy]

structure Journal.Explained (j : Journal β) (i : CommitId) (h : History β Ω) (s : Store β) : Prop where
  stale : ∀ (d : CellId) (x : Entry β), j.entries[d]? = some x →
    (x.isValid d s = false ↔ ∃ y ∈ h.sinceLaunched i, Engine.collides i d y)
  touched : ∀ d, ∀ y ∈ h.sinceLaunched i, Engine.collides i d y → d ∈ j.entries

namespace Journal.Explained

variable {j k : Journal β}

theorem other (hj : j.Explained i h e.store) (r : Run h e) (hm : e.admits m) (hne : m ≠ .advance i)
    (hc : e.commits[i]? = some c) (hp : c.phase.journal? = some j) :
    j.Explained i ((e, m) :: h) (e.act m).store := by
  have hk : j.Known e.store := (r.tracked.known i c hc).2 j hp
  have hcol (d : CellId) : Engine.collides i d (e, m) =
      (Engine.overwrites i d (e, m) && j.entries.contains d) := by
    simp [Engine.collides, hc, hp]
  have hs := History.sinceLaunched_cons (h := h) (Engine.launches_of_ne (e := e) hne)
  constructor
  · intro d x hx
    have hd : d ∈ j.entries := Std.ExtTreeMap.mem_iff_isSome_getElem?.2 (by simp [hx])
    have hval := (hk d x hx).isValid_later ((Engine.reshaped hm).later r.tracked)
    have hover := Engine.overwrites_of_ne r hm hne (hk d x hx).cell
    rw [hval, Bool.and_eq_false_iff]
    simp only [hs, List.mem_cons, exists_eq_or_imp, hcol, hover, ← hj.stale d x hx]
    simp [hd, or_comm]
  · intro d y hy hyc
    rw [hs] at hy
    rcases List.mem_cons.1 hy with rfl | hy
    · rw [hcol] at hyc
      simp only [Bool.and_eq_true, Std.ExtTreeMap.contains_iff_mem] at hyc
      exact hyc.2
    · exact hj.touched d y hy hyc

theorem own (hj : j.Explained i h e.store) (hl : Engine.launches i (e, .advance i) = false)
    (hjk : j.Extends k)
    (old : ∀ (d : CellId) (x : Entry β), j.entries[d]? = some x → s.version d = e.store.version d)
    (new : ∀ (d : CellId) (x : Entry β), j.entries[d]? = none → k.entries[d]? = some x →
      x.expected = s.version d) : k.Explained i ((e, .advance i) :: h) s := by
  have hcol (d : CellId) : Engine.collides i d (e, .advance i) = false := by
    simp [Engine.collides]
  have hs := History.sinceLaunched_cons (h := h) hl
  constructor
  · intro d x hx
    simp only [hs, List.mem_cons, exists_eq_or_imp, hcol, Bool.false_eq_true, false_or]
    cases hy : j.entries[d]? with
    | some y =>
      obtain ⟨p, hp⟩ := hjk d y hy
      rw [hx] at hp
      cases hp
      rw [← hj.stale d y hy, Entry.isValid, Entry.isValid, old d y hy]
    | none =>
      have hv : x.isValid d s = true := by simp [Entry.isValid, Version.same, new d x hy hx]
      rw [hv]
      simp only [Bool.true_eq_false, false_iff, not_exists, not_and]
      intro y hy' hyc
      have := hj.touched d y hy' hyc
      simp [Std.ExtTreeMap.mem_iff_isSome_getElem?, hy] at this
  · intro d y hy hyc
    rw [hs] at hy
    rcases List.mem_cons.1 hy with rfl | hy
    · rw [hcol] at hyc
      cases hyc
    · have hd := hj.touched d y hy hyc
      obtain ⟨x, hx⟩ := Option.isSome_iff_exists.1 (Std.ExtTreeMap.mem_iff_isSome_getElem?.1 hd)
      obtain ⟨p, hp⟩ := hjk d x hx
      exact Std.ExtTreeMap.mem_iff_isSome_getElem?.2 (by simp [hp])

end Journal.Explained

theorem Run.explained (r : Run h e) (hc : e.commits[i]? = some c) {j : Journal β}
    (hj : c.phase.journal? = some j) : j.Explained i h e.store := by
  refine r.each (P := fun h e i c => ∀ j, c.phase.journal? = some j → j.Explained i h e.store)
    ?_ ?_ (fun _ h => h) hc j hj
  · intro h e t E A f s _ j hj
    cases hj
  · intro h e m i c c' r hm hc ih hmv
    have hk := r.tracked.known i c hc
    cases hmv with
    | keep hne => exact fun j hj => (ih j hj).other r hm hne hc hj
    | setScheduler | setWatched | interrupt => exact fun j hj => (ih j hj).other r hm nofun hc hj
    | poll | refuse | runSync | settle => exact nofun
    | setFiber _ hi =>
      intro j hj
      rw [hi] at hj
      cases hj
    | drop _ hi =>
      intro j hj
      rw [Commit.drop_fst, hi] at hj
      cases hj
    | turn hp ht =>
      have hl := Engine.launches_advance hc
      generalize (e.act (.advance i)).store = s at ht
      cases ht with
      | stop | resume | sleep | begin | giveUp | attempt | rerun | discard | lose | conclude
      | publish | skip | tell | wake | rest | stir => exact nofun
      | stall =>
        rw [hp]
        exact nofun
      | leave | finish =>
        rw [Commit.finish_fst]
        exact nofun
      | refuse =>
        rw [Commit.drop_fst]
        exact nofun
      | launch =>
        rintro j ⟨⟩
        rw [hp] at hl
        constructor
        · intro d x hx
          simp [Machine.start] at hx
        · intro d y hy
          have hn : History.sinceLaunched i ((e, .advance i) :: h) = [] := by
            simp [History.sinceLaunched, hl, Phase.isLaunching]
          rw [hn] at hy
          cases hy
      | @step _ m ho =>
        rintro j ⟨⟩
        have hm : m.journal.Known e.store := hk.2 m.journal (by rw [hp]; rfl)
        have hs := r.tracked.sound
        have hlog := Machine.logged (m := m) (f := c.fiber) (s := e.store) (ω := e.world)
        exact (ih m.journal (by rw [hp]; rfl)).own (by rw [hl, hp]; rfl) (hlog.extends hs hm)
          (fun d x hx => hlog.version_eq hs (hm d x hx).cell) fun d x hn hx => hlog.fresh hn hx
      | @park w m ho hv =>
        rintro j ⟨⟩
        have hm : m.journal.Known e.store := hk.2 m.journal (by rw [hp]; rfl)
        refine (ih m.journal (by rw [hp]; rfl)).own (by rw [hl, hp]; rfl) .refl ?_ ?_
        · intro d x _
          exact (hk.sameVersions_follow hm).version d
        · intro d x hx hx'
          rw [hx] at hx'
          cases hx'

theorem Journal.isValid_eq_false_iff {j : Journal β} : j.isValid s = false ↔
    ∃ (d : CellId) (x : Entry β), j.entries[d]? = some x ∧ x.isValid d s = false := by
  simp [isValid]

theorem Run.isValid_eq_false_iff (r : Run h e) (hc : e.commits[i]? = some c) {j : Journal β}
    (hj : c.phase.journal? = some j) : j.isValid e.store = false ↔
      ∃ d ∈ j.entries, ∃ y ∈ h.sinceLaunched i, Engine.collides i d y := by
  have hx := r.explained hc hj
  rw [Journal.isValid_eq_false_iff]
  constructor
  · rintro ⟨d, x, hd, hv⟩
    exact ⟨d, Std.ExtTreeMap.mem_iff_isSome_getElem?.2 (by simp [hd]), (hx.stale d x hd).1 hv⟩
  · rintro ⟨d, hd, hy⟩
    obtain ⟨x, hd⟩ := Option.isSome_iff_exists.1 (Std.ExtTreeMap.mem_iff_isSome_getElem?.1 hd)
    exact ⟨d, x, hd, (hx.stale d x hd).2 hy⟩

theorem Run.disturbs_of_collides (r : Run h e) {y : Engine β Ω × Move β Ω} (hy : y ∈ h)
    (hd : Engine.collides i d y) : Engine.disturbs i y := by
  obtain ⟨⟨h', r'⟩, -⟩ := r.of_mem hy
  simp only [Engine.collides, Bool.and_eq_true, Option.any_eq_true, Option.bind_eq_some_iff] at hd
  obtain ⟨ho, j, ⟨c, hc, hj⟩, hd⟩ := hd
  have hk : j.Known y.1.store := (r'.tracked.known i c hc).2 j hj
  have hmem : d ∈ y.1.store.cells := hk.mem (Std.ExtTreeMap.contains_iff_mem.1 hd)
  simp only [Engine.disturbs, List.any_eq_true]
  refine ⟨(d, y.1.store.cells[d]), ?_, ho⟩
  simp [Std.ExtTreeMap.mem_toList_iff_getElem?_eq_some]

namespace Commit

def Settled (c : Commit β Ω) : Prop :=
  c.signals.state = .done → c.completed ∨ c.phase.result?.isSome

structure Provoked (c : Commit β Ω) (again hit : Prop) : Prop where
  polled : ∀ call, c.phase = .busy call .top → ∃ w, call = .poll w
  waited : c.phase.isTop → again →
    c.suspended.isSome ∧ (c.rerun → hit) ∧ (c.rerun = false → c.signals.state ≠ .running)
  ready : c.phase.isReady → again → hit
  parked : ∀ call j seen, c.phase = .busy call (.parking j seen) → seen ≠ .running →
    c.signals.state ≠ .running

variable {again again' hit hit' : Prop}

theorem Provoked.mono (hc : c.Provoked again hit) (ha : again' → again) (hh : hit → hit') :
    c.Provoked again' hit' where
  polled := hc.polled
  waited hp hag :=
    let ⟨hs, hr, hn⟩ := hc.waited hp (ha hag)
    ⟨hs, fun h => hh (hr h), hn⟩
  ready hp hag := hh (hc.ready hp (ha hag))
  parked := hc.parked

theorem Provoked.of_not_ready (ht : c.phase.isTop = false) (hr : c.phase.isReady = false)
    (hn : c.phase.isParking = false) : c.Provoked again hit where
  polled call hp := by
    rw [hp] at ht
    cases ht
  waited hp := by
    rw [hp] at ht
    cases ht
  ready hp := by
    rw [hp] at hr
    cases hr
  parked call j seen hp := by
    rw [hp] at hn
    cases hn

theorem Provoked.of_ready (hp : c.phase.isReady) (hh : again → hit) : c.Provoked again hit where
  polled call hp' := by
    rw [hp'] at hp
    cases hp
  waited hp' := by
    rw [Phase.isTop_of_isReady hp] at hp'
    cases hp'
  ready _ := hh
  parked call j seen hp' := by
    rw [hp'] at hp
    cases hp

theorem Transition.provoked (h : c.Transition i s ω call p c' t woken) (hp : c.phase = .busy call p)
    (hc : c.Provoked again hit) (ht : c.Tidy) (hs : c.Settled)
    (stale : ∀ j, c.phase.journal? = some j → j.isValid s = false → hit) :
    c'.Provoked again hit := by
  cases h with
  | stop | giveUp | lose | conclude | publish | skip | tell | wake | launch | step | sleep | rest =>
    exact .of_not_ready rfl rfl rfl
  | stall => exact ⟨hc.polled, hc.waited, hc.ready, hc.parked⟩
  | leave | finish =>
    rw [finish_fst]
    exact .of_not_ready rfl rfl rfl
  | refuse =>
    rw [drop_fst]
    exact .of_not_ready rfl rfl rfl
  | attempt => exact .of_ready rfl (hc.ready (by rw [hp]; rfl))
  | rerun _ hv => exact .of_ready rfl fun _ => stale _ (by rw [hp]; rfl) hv
  | discard _ _ hv => exact .of_ready rfl fun _ => stale _ (by rw [hp]; rfl) hv
  | resume hr _ hn =>
    refine .of_ready rfl fun hag => ?_
    exact absurd hr ((hc.waited (by rw [hp]; rfl) hag).2.2 hn)
  | begin hi hb =>
    refine .of_ready rfl fun hag => ?_
    obtain ⟨w, rfl⟩ := hc.polled _ hp
    obtain ⟨hsus, hrerun, hn⟩ := hc.waited (by rw [hp]; rfl) hag
    cases hr : c.rerun with
    | true => exact hrerun hr
    | false =>
      -- A commit that is neither running nor interrupted is done, and would not be polled.
      cases hstate : c.signals.state with
      | running => exact absurd hstate (hn hr)
      | interrupted => exact absurd hstate hi
      | done =>
        have := hs hstate
        simp [hp, Phase.result?, ht.polled _ _ hp] at this
  | @park w m ho hv =>
    refine ⟨nofun, nofun, nofun, ?_⟩
    rintro call j seen ⟨⟩
    exact id
  | @stir _ j seen hv =>
    refine ⟨?_, fun _ _ => ⟨rfl, fun hr => ?_, fun hr => ?_⟩, nofun, nofun⟩
    · rintro call ⟨⟩
      exact ht.called _ _ _ hp
    · have hr : (!j.isValid s) = true := hr
      exact stale j (by rw [hp]; rfl) (by simpa using hr)
    · have hr : (!j.isValid s) = false := hr
      rcases hv with hv | hv
      · simp [hv] at hr
      · exact hc.parked _ _ _ hp hv

theorem Transition.of_launching (h : c.Transition i s ω call .launching c' t woken) :
    c' = c.goto call (.running (.start c.tree .unit)) := by
  cases h
  rfl

theorem Transition.settled (h : c.Transition i s ω call p c' t woken) (hp : c.phase = .busy call p)
    (hc : c.Settled) : c'.Settled := by
  intro hs
  cases h with
  | stop | resume | sleep | begin | giveUp | attempt | launch | step | park | rerun | discard
  | lose | rest | stir =>
    rcases hc hs with hd | hd
    · exact .inl hd
    · rw [hp] at hd
      cases hd
  | stall => exact hc hs
  | leave | finish =>
    rw [finish_fst]
    exact .inl rfl
  | refuse =>
    rw [drop_fst] at hs ⊢
    rcases hc hs with hd | hd
    · exact .inl hd
    · rw [hp] at hd
      cases hd
  | conclude | publish | skip | tell | wake => exact .inr rfl

end Commit

theorem Run.settled (r : Run h e) (hc : e.commits[i]? = some c) : c.Settled := by
  refine r.each (P := fun _ _ _ c => c.Settled) ?_ ?_ ?_ hc
  · intro h e t E A f s _ hs
    cases hs
  · intro h e m i c c' r hm hc ih hmv
    have idle (hi : c.phase = .idle) (hs : c.signals.state = .done) : c.completed := by
      simpa [hi, Phase.result?] using ih hs
    cases hmv with
    | keep | setScheduler | setWatched => exact ih
    | setFiber _ hi | poll _ hi | refuse _ hi | runSync _ hi => exact fun hs => .inl (idle hi hs)
    | @settle _ a ha =>
      intro hs
      refine .inl ((ih hs).elim id fun hr => ?_)
      have hd := r.decided hc
      cases a with
      | ready => simpa [Commit.Decided, ha] using hd
      | pending | wouldSuspend => simp [ha, Phase.result?] at hr
    | interrupt => rintro ⟨⟩
    | drop _ hi =>
      rw [Commit.drop_fst]
      exact fun hs => .inl (idle hi hs)
    | turn hp ht => exact ht.settled hp ih
  · intro h e i c g hg hs hd
    exact hs (hg.symm.trans hd)

namespace History

def Again (h : History β Ω) (i : CommitId) : Prop := ∃ y ∈ h.sinceCalled i, Engine.launches i y

def Hit (h : History β Ω) (i : CommitId) : Prop :=
  ∃ d, ∃ y ∈ h.sinceLaunched i, Engine.collides i d y

theorem sinceCalled_cons (hm : m.calls i = false) :
    sinceCalled i ((e, m) :: h) = (e, m) :: h.sinceCalled i := by
  simp [sinceCalled, hm]

theorem Again.of_cons (hm : m.calls i = false) (hl : Engine.launches i (e, m) = false)
    (ha : Again ((e, m) :: h) i) : h.Again i := by
  obtain ⟨y, hy, hyl⟩ := ha
  rw [sinceCalled_cons hm] at hy
  rcases List.mem_cons.1 hy with rfl | hy
  · rw [hl] at hyl
    cases hyl
  · exact ⟨y, hy, hyl⟩

theorem not_again_of_calls (hm : m.calls i) : ¬ Again ((e, m) :: h) i := by
  rintro ⟨y, hy, -⟩
  simp [sinceCalled, hm] at hy

theorem Hit.cons (hl : Engine.launches i (e, m) = false) (hh : h.Hit i) : Hit ((e, m) :: h) i := by
  obtain ⟨d, y, hy, hc⟩ := hh
  exact ⟨d, y, by rw [sinceLaunched_cons hl]; exact List.mem_cons_of_mem _ hy, hc⟩

end History

theorem Run.provoked (r : Run h e) (hc : e.commits[i]? = some c) :
    c.Provoked (h.Again i) (h.Hit i) := by
  refine r.each (P := fun h _ i c => c.Provoked (h.Again i) (h.Hit i)) ?_ ?_ ?_ hc
  · intros
    exact .of_not_ready rfl rfl rfl
  · intro h e m i c c' r hm hc ih hmv
    -- A move of somebody else leaves a call where it is.
    have same (hne : m ≠ .advance i) (hcalls : m.calls i = false) :
        c.Provoked (History.Again ((e, m) :: h) i) (History.Hit ((e, m) :: h) i) :=
      have hl := Engine.launches_of_ne hne
      ih.mono (.of_cons hcalls hl) (.cons hl)
    cases hmv with
    | keep hne hcalls => exact same hne hcalls
    | setScheduler | setWatched =>
      obtain ⟨hp, hw, hr, hk⟩ := same nofun rfl
      exact ⟨hp, hw, hr, hk⟩
    | setFiber _ hi => exact .of_not_ready (by rw [hi]; rfl) (by rw [hi]; rfl) (by rw [hi]; rfl)
    | drop _ hi =>
      rw [Commit.drop_fst]
      exact .of_not_ready (by rw [hi]; rfl) (by rw [hi]; rfl) (by rw [hi]; rfl)
    | refuse | settle => exact .of_not_ready rfl rfl rfl
    | runSync => exact .of_ready rfl fun ha => absurd ha (History.not_again_of_calls (by simp [Move.calls]))
    | @poll _ w =>
      refine ⟨?_, fun _ ha => absurd ha (History.not_again_of_calls (by simp [Move.calls])), nofun, nofun⟩
      rintro call ⟨⟩
      exact ⟨w, rfl⟩
    | interrupt =>
      obtain ⟨hp, hw, hr, hk⟩ := same nofun rfl
      exact ⟨hp, fun ht ha => ⟨(hw ht ha).1, (hw ht ha).2.1, fun _ => nofun⟩, hr, fun _ _ _ _ _ => nofun⟩
    | turn hp ht =>
      have hl := Engine.launches_advance hc
      cases hlaunch : c.phase.isLaunching with
      | true =>
        unfold Phase.isLaunching at hlaunch
        split at hlaunch
        · rename_i hp'
          cases hp.symm.trans hp'
          rw [ht.of_launching]
          exact .of_not_ready rfl rfl rfl
        · cases hlaunch
      | false =>
        rw [hlaunch] at hl
        refine (ht.provoked hp ih (r.tidy hc) (r.settled hc) fun j hj hv => ?_).mono
          (.of_cons rfl hl) (.cons hl)
        obtain ⟨d, -, y, hy⟩ := (r.isValid_eq_false_iff hc hj).1 hv
        exact ⟨d, y, hy⟩
  · intro h e i c g hg ⟨hp, hw, hr, hk⟩
    refine ⟨hp, fun ht ha => ?_, hr, fun call j seen hq hs => ?_⟩
    · rw [hg]
      exact hw ht ha
    · rw [hg]
      exact hk call j seen hq hs

theorem Run.hit_of_launches (r : Run h e) (hl : Engine.launches i (e, m)) (ha : h.Again i) :
    h.Hit i := by
  unfold Engine.launches at hl
  split at hl
  · simp only [Bool.and_eq_true, Option.any_eq_true] at hl
    obtain ⟨-, c, hc, hp⟩ := hl
    exact (r.provoked hc).ready (Phase.isReady_of_isLaunching hp) ha
  · cases hl

theorem Run.isValid_act (r : Run h e) (hm : e.admits m) (hne : m ≠ .advance i)
    (hc : e.commits[i]? = some c) {j : Journal β} (hj : c.phase.journal? = some j)
    (hd : ∀ d ∈ j.entries, Engine.overwrites i d (e, m) = false) :
    j.isValid (e.act m).store = j.isValid e.store := by
  have hk : j.Known e.store := (r.tracked.known i c hc).2 j hj
  have entry (d : CellId) (x : Entry β) (hx : j.entries[d]? = some x) :
      x.isValid d (e.act m).store = x.isValid d e.store := by
    have hmem : d ∈ j.entries := Std.ExtTreeMap.mem_iff_isSome_getElem?.2 (by simp [hx])
    have ho := Engine.overwrites_of_ne r hm hne (hk d x hx).cell
    rw [hd d hmem, eq_comm, Bool.not_eq_false'] at ho
    rw [(hk d x hx).isValid_later ((Engine.reshaped hm).later r.tracked), ho, Bool.and_true]
  rw [Bool.eq_iff_iff, Journal.isValid_iff, Journal.isValid_iff]
  constructor <;> intro h d x hx
  · rw [← entry d x hx]
    exact h d x hx
  · rw [entry d x hx]
    exact h d x hx

theorem Run.disturbed_of_hit (r : Run h e) (hh : h.Hit i) :
    0 < (h.sinceLaunched i).countP (Engine.disturbs i) := by
  obtain ⟨d, y, hy, hc⟩ := hh
  have hmem : y ∈ h := (List.takeWhile_prefix _).subset hy
  exact List.countP_pos_iff.2 ⟨y, hy, r.disturbs_of_collides hmem hc⟩

theorem Run.countP_launches (r : Run h e) (i : CommitId)
    (ha : 0 < (h.sinceCalled i).countP (Engine.launches i)) :
    (h.sinceCalled i).countP (Engine.launches i) + (h.sinceLaunched i).countP (Engine.disturbs i) ≤
      (h.sinceCalled i).countP (Engine.disturbs i) + 1 := by
  induction r with
  | start ω => simp [History.sinceCalled] at ha
  | @next h e m r hm ih =>
    cases hc : m.calls i with
    | true => simp [History.sinceCalled, hc] at ha
    | false =>
      rw [History.sinceCalled_cons hc] at ha ⊢
      cases hl : Engine.launches i (e, m) with
      | false =>
        rw [History.sinceLaunched_cons hl]
        simp only [List.countP_cons, hl, Bool.false_eq_true, if_false, Nat.add_zero] at ha ⊢
        have := ih ha
        omega
      | true =>
        have hnil : History.sinceLaunched i ((e, m) :: h) = [] := by simp [History.sinceLaunched, hl]
        rw [hnil]
        simp only [List.countP_cons, List.countP_nil, hl, if_true]
        rcases Nat.eq_zero_or_pos ((h.sinceCalled i).countP (Engine.launches i)) with h0 | hpos
        · omega
        · have hhit := r.hit_of_launches hl (List.countP_pos_iff.1 hpos)
          have := r.disturbed_of_hit hhit
          have := ih hpos
          omega

/-- An attempt is found stale exactly if another commit has published a cell of it that it had touched
before. Nothing but a write of something else than its attempt has first seen gives a cell a version,
and what leaves the cells of an attempt alone leaves the attempt valid. So a call runs its tree again
only if the attempt before has been hit, and at most once for each publication of others that has
happened since the call was made. -/
theorem Run.conflicts (r : Run h e) (hc : e.commits[i]? = some c) :
    (∀ j, c.phase.journal? = some j → (j.isValid e.store = false ↔
      ∃ d ∈ j.entries, ∃ y ∈ h.sinceLaunched i, Engine.collides i d y)) ∧
    (∀ m j, e.admits m → m ≠ .advance i → c.phase.journal? = some j →
      (∀ d ∈ j.entries, Engine.overwrites i d (e, m) = false) →
        j.isValid (e.act m).store = j.isValid e.store) ∧
    (∀ m, ∀ d ∈ e.store.cells, e.admits m → (e.act m).store.version d ≠ e.store.version d →
      ∃ k b call x y v, m = .advance k ∧ e.commits[k]? = some b ∧ b.phase = .busy call (.running x) ∧
        x.journal.entries[d]? = some y ∧ y.pending = some v ∧ y.expected.value.same v = false) ∧
    (c.phase.isLaunching → (∃ y ∈ h.sinceCalled i, Engine.launches i y) →
      ∃ d, ∃ y ∈ h.sinceLaunched i, Engine.collides i d y) ∧
    (h.sinceCalled i).countP (Engine.launches i) ≤
      (h.sinceCalled i).countP (Engine.disturbs i) + 1 := by
  refine ⟨fun j hj => r.isValid_eq_false_iff hc hj, fun m j hm hne hj => r.isValid_act hm hne hc hj,
    fun m d hd hm hv => r.news_of_version hm hd hv,
    fun hp => (r.provoked hc).ready (Phase.isReady_of_isLaunching hp), ?_⟩
  rcases Nat.eq_zero_or_pos ((h.sinceCalled i).countP (Engine.launches i)) with h0 | hpos
  · omega
  · have := r.countP_launches i hpos
    omega

theorem conflicts_interference :
    let p := Engine.play { world := () } [] (interference.take 18)
    (∃ d, ∃ y ∈ p.1.sinceLaunched ⟨1⟩, Engine.collides ⟨1⟩ d y) ∧
      (p.1.sinceCalled ⟨1⟩).countP (Engine.launches ⟨1⟩) ≤
        (p.1.sinceCalled ⟨1⟩).countP (Engine.disturbs ⟨1⟩) + 1 ∧
      (p.1.sinceCalled ⟨1⟩).countP (Engine.launches ⟨1⟩) = 1 ∧
      (p.1.sinceCalled ⟨1⟩).countP (Engine.disturbs ⟨1⟩) = 1 := by
  intro p
  have r : Run p.1 p.2 := (Run.start ()).play (by decide +kernel)
  obtain ⟨c, hc⟩ : ∃ c, p.2.commits[(⟨1⟩ : CommitId)]? = some c :=
    Option.isSome_iff_exists.1 (by decide +kernel)
  have hp : (p.2.commits[(⟨1⟩ : CommitId)]?).map (·.phase.isLaunching) = some true := by
    decide +kernel
  rw [hc, Option.map_some, Option.some.injEq] at hp
  have ha : ∃ y ∈ p.1.sinceCalled ⟨1⟩, Engine.launches ⟨1⟩ y := by
    rw [← List.any_eq_true]
    decide +kernel
  obtain ⟨-, -, -, hhit, hle⟩ := r.conflicts hc
  exact ⟨hhit hp ha, hle, by decide +kernel, by decide +kernel⟩

end TransactionalMemory
