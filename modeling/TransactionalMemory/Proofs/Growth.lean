import TransactionalMemory.Journal.Basic

namespace TransactionalMemory

variable {β : Type} [Universe β] {Ω : Type}

namespace Store

structure Sound (s : Store β) : Prop where
  made : ∀ c ∈ s.cells, c.number < s.nextCell.number
  place : ∀ c, (s.version c).cell = c
  past : ∀ c, (s.version c).time < s.now

structure Later (s t : Store β) : Prop where
  cells : ∀ c ∈ s.cells, c ∈ t.cells
  version : ∀ c ∈ s.cells, t.version c = s.version c ∨ (s.version c).time < (t.version c).time

structure SameVersions (s t : Store β) : Prop where
  cells : ∀ c, c ∈ t.cells ↔ c ∈ s.cells
  version : ∀ c, t.version c = s.version c
  nextCell : t.nextCell = s.nextCell
  now : t.now = s.now

variable {s t u : Store β} {c : CellId}

theorem Later.refl : Later s s := ⟨fun _ h => h, fun _ _ => .inl rfl⟩

theorem SameVersions.refl : SameVersions s s := ⟨fun _ => .rfl, fun _ => rfl, rfl, rfl⟩

theorem SameVersions.trans (h : SameVersions s t) (h' : SameVersions t u) : SameVersions s u where
  cells c := (h'.cells c).trans (h.cells c)
  version c := (h'.version c).trans (h.version c)
  nextCell := h'.nextCell.trans h.nextCell
  now := h'.now.trans h.now

theorem SameVersions.later (h : SameVersions s t) : Later s t :=
  ⟨fun c hc => (h.cells c).2 hc, fun c _ => .inl (h.version c)⟩

theorem SameVersions.sound (h : SameVersions s t) (hs : s.Sound) : t.Sound where
  made c hc := by
    rw [h.nextCell]
    exact hs.made c ((h.cells c).1 hc)
  place c := by rw [h.version, hs.place]
  past c := by
    rw [h.version, h.now]
    exact hs.past c

theorem version_of_notMem (h : c ∉ s.cells) : s.version c = .blank c := by
  simp only [version, cell, Std.ExtTreeMap.getElem?_eq_none h]
  rfl

theorem waiting_of_notMem (h : c ∉ s.cells) : s.waiting c = ∅ := by
  simp only [waiting, cell, Std.ExtTreeMap.getElem?_eq_none h]
  rfl

theorem Sound.nextCell_notMem (h : s.Sound) : s.nextCell ∉ s.cells :=
  fun hc => Nat.lt_irrefl _ (h.made _ hc)

theorem sound_empty : ({} : Store β).Sound where
  made c hc := by simp at hc
  place c := by rw [version_of_notMem (by simp)]; rfl
  past c := by rw [version_of_notMem (by simp)]; exact Nat.one_pos

variable (v : Any β)

theorem version_alloc :
    (s.alloc v).2.version c = if s.nextCell = c then ⟨s.nextCell, s.now, v⟩ else s.version c := by
  simp only [version, cell_alloc]
  split <;> rfl

theorem waiting_alloc (h : s.Sound) : (s.alloc v).2.waiting c = s.waiting c := by
  simp only [waiting, cell_alloc]
  split
  · rename_i hc
    subst hc
    exact (waiting_of_notMem h.nextCell_notMem).symm
  · rfl

theorem mem_alloc : c ∈ (s.alloc v).2.cells ↔ s.nextCell = c ∨ c ∈ s.cells := by
  simp [alloc]

theorem Sound.alloc (h : s.Sound) : (s.alloc v).2.Sound where
  made c hc := by
    rcases (mem_alloc v).1 hc with rfl | hc
    · exact Nat.lt_succ_self _
    · exact Nat.lt_succ_of_lt (h.made c hc)
  place c := by
    rw [version_alloc]
    split
    · rename_i e; exact e
    · exact h.place c
  past c := by
    rw [version_alloc]
    split
    · exact Nat.lt_succ_self _
    · exact Nat.lt_succ_of_lt (h.past c)

theorem Sound.later_alloc (h : s.Sound) : Later s (s.alloc v).2 where
  cells c hc := (mem_alloc v).2 (.inr hc)
  version c hc := by
    rw [version_alloc, if_neg]
    · exact .inl rfl
    · rintro rfl
      exact h.nextCell_notMem hc

theorem sameVersions_overlay {cells : Std.ExtTreeMap CellId (Cell β)}
    (h : ∀ (c : CellId) (d : Cell β), cells[c]? = some d → c ∈ s.cells ∧ d.version = s.version c) :
    SameVersions s (s.overlay cells) where
  cells c := by
    simp only [overlay, Std.ExtTreeMap.mem_union_iff]
    constructor
    · rintro (hc | hc)
      · exact hc
      · exact (h c _ (Std.ExtTreeMap.getElem?_eq_some_getElem hc)).1
    · exact .inl
  version c := by
    simp only [version, cell_overlay]
    cases hc : cells[c]? with
    | none => rfl
    | some d => exact (h c d hc).2
  nextCell := rfl
  now := rfl

end Store

namespace Entry

/-- The entry was made from a version that its cell had once, and has again only as long as no later
one has come. -/
structure Known (x : Entry β) (c : CellId) (s : Store β) : Prop where
  cell : c ∈ s.cells
  place : x.expected.cell = c
  time : x.expected = s.version c ∨ x.expected.time < (s.version c).time

variable {x : Entry β} {c : CellId} {s t : Store β}

theorem Known.later (h : x.Known c s) (l : s.Later t) : x.Known c t where
  cell := l.cells c h.cell
  place := h.place
  time := by
    rcases h.time with e | lt <;> rcases l.version c h.cell with e' | lt'
    · exact .inl (e.trans e'.symm)
    · exact .inr (e ▸ lt')
    · exact .inr (e' ▸ lt)
    · exact .inr (Nat.lt_trans lt lt')

theorem Known.isValid_iff (h : x.Known c s) : x.isValid c s ↔ x.expected = s.version c := by
  unfold isValid
  rw [Version.same_iff]
  constructor
  · rintro ⟨-, ht⟩
    rcases h.time with e | lt
    · exact e
    · omega
  · intro e
    rw [e]
    exact ⟨rfl, rfl⟩

theorem eq_of_set {v : Any β} {y : Entry β} (h : x.set v = .ok y) :
    ∃ p, y = { x with pending := p } := by
  unfold set at h
  split at h
  · split at h
    · exact ⟨x.pending, by cases h; rfl⟩
    · split at h
      · exact ⟨none, by cases h; rfl⟩
      · exact ⟨some v, by cases h; rfl⟩
  · cases h

end Entry

namespace Journal

def Known (j : Journal β) (s : Store β) : Prop :=
  ∀ (c : CellId) (x : Entry β), j.entries[c]? = some x → x.Known c s

/-- What operations do to a journal: entries are added, and the others change in their pending
writes only. -/
def Extends (j k : Journal β) : Prop :=
  ∀ (c : CellId) (x : Entry β), j.entries[c]? = some x →
    ∃ p, k.entries[c]? = some { x with pending := p }

def Creates (j : Journal β) (c : CellId) : Prop :=
  ∃ x, j.entries[c]? = some x ∧ x.created = true

variable {j k : Journal β} {s t : Store β} {c : CellId}

theorem Known.later (h : j.Known s) (l : s.Later t) : j.Known t := fun c x hx => (h c x hx).later l

theorem Known.mem (h : j.Known s) (hc : c ∈ j.entries) : c ∈ s.cells :=
  (h c _ (Std.ExtTreeMap.getElem?_eq_some_getElem hc)).cell

theorem Known.getElem?_eq_none (h : j.Known s) (hc : c ∉ s.cells) : j.entries[c]? = none :=
  Std.ExtTreeMap.getElem?_eq_none fun hm => hc (h.mem hm)

theorem known_empty : ({} : Journal β).Known s := by
  intro c x hx
  simp at hx

theorem Extends.refl : Extends j j := fun _ x hx => ⟨x.pending, hx⟩

theorem Extends.trans {l : Journal β} (h : Extends j k) (h' : Extends k l) : Extends j l := by
  intro c x hx
  obtain ⟨p, hp⟩ := h c x hx
  obtain ⟨q, hq⟩ := h' c _ hp
  exact ⟨q, hq⟩

theorem Extends.getElem?_eq_none (h : j.Extends k) (hc : k.entries[c]? = none) :
    j.entries[c]? = none := by
  cases hx : j.entries[c]? with
  | none => rfl
  | some x =>
    obtain ⟨p, hp⟩ := h c x hx
    rw [hc] at hp
    cases hp

theorem Creates.of_extends (h : j.Creates c) (he : j.Extends k) : k.Creates c := by
  obtain ⟨x, hx, hc⟩ := h
  obtain ⟨p, hp⟩ := he c x hx
  exact ⟨_, hp, hc⟩

theorem extends_put {x : Entry β} (h : ∀ y, j.entries[c]? = some y → ∃ p, x = { y with pending := p }) :
    Extends j (j.put c x) := by
  intro d y hy
  rw [getElem?_put]
  split
  · rename_i e
    subst e
    obtain ⟨p, rfl⟩ := h y hy
    exact ⟨p, rfl⟩
  · exact ⟨y.pending, hy⟩

theorem extends_rollback (k : Checkpoint β) : Extends j (j.rollback k) := by
  intro c x hx
  rw [getElem?_rollback, hx]
  exact ⟨_, rfl⟩

theorem known_put {x : Entry β} (h : j.Known s) (hx : x.Known c s) : (j.put c x).Known s := by
  intro d y hy
  rw [getElem?_put] at hy
  split at hy
  · rename_i e
    cases hy
    exact e ▸ hx
  · exact h d y hy

theorem known_rollback (h : j.Known s) (k : Checkpoint β) : (j.rollback k).Known s := by
  intro c x hx
  rw [getElem?_rollback, Option.map_eq_some_iff] at hx
  obtain ⟨y, hy, rfl⟩ := hx
  exact ⟨(h c y hy).cell, (h c y hy).place, (h c y hy).time⟩

theorem touch_put_cases (f : Any β → Except Panic (Access β)) :
    (∃ v x, (j.entry s c).set v = .ok x ∧ (j.touch s c f).2 = j.put c x) ∨
      (j.touch s c f).2 = j.put c (j.entry s c) := by
  unfold touch
  generalize j.entry s c = x
  cases hf : f x.current with
  | error p => exact .inr (by simp only [hf])
  | ok a =>
    cases a with
    | leave o => exact .inr (by simp only [hf])
    | write v r =>
      cases hv : x.set v with
      | error d => exact .inr (by simp only [hf, hv])
      | ok y => exact .inl ⟨v, y, hv, by simp only [hf, hv]⟩

theorem touch_eq_put (f : Any β → Except Panic (Access β)) :
    ∃ p, (j.touch s c f).2 = j.put c { j.entry s c with pending := p } := by
  rcases touch_put_cases (j := j) (s := s) (c := c) f with ⟨v, x, hx, e⟩ | e
  · obtain ⟨p, rfl⟩ := Entry.eq_of_set hx
    exact ⟨p, e⟩
  · exact ⟨(j.entry s c).pending, e⟩

theorem entry_eq_of_getElem? {x : Entry β} (h : j.entries[c]? = some x) : j.entry s c = x := by
  simp [entry, h]

theorem known_entry (h : j.Known s) (hs : s.Sound) (hc : c ∈ s.cells) : (j.entry s c).Known c s := by
  cases hx : j.entries[c]? with
  | none =>
    simp only [entry, hx]
    exact ⟨hc, hs.place c, .inl rfl⟩
  | some x =>
    rw [entry_eq_of_getElem? hx]
    exact h c x hx

theorem known_touch (h : j.Known s) (hs : s.Sound) (hc : c ∈ s.cells)
    (f : Any β → Except Panic (Access β)) : (j.touch s c f).2.Known s := by
  obtain ⟨p, e⟩ := touch_eq_put (j := j) (s := s) (c := c) f
  have hx := known_entry h hs hc
  rw [e]
  exact known_put h ⟨hx.cell, hx.place, hx.time⟩

theorem extends_touch (f : Any β → Except Panic (Access β)) : Extends j (j.touch s c f).2 := by
  obtain ⟨p, e⟩ := touch_eq_put (j := j) (s := s) (c := c) f
  rw [e]
  apply extends_put
  intro y hy
  rw [entry_eq_of_getElem? hy]
  exact ⟨p, rfl⟩

end Journal
end TransactionalMemory
