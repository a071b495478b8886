import Xv6.Cache.Machine

/-!
# The life of one buffer

What the processes and the disk do with a single buffer of the cache, whatever else they do
meanwhile.  A buffer is free or belongs to one process, and the rules say to whom it belongs
after each of the things that can happen to it.
-/

namespace Xv6.Cache

/-- What a process in `bio.c` is doing with a buffer. -/
inductive Stage where
  | asleep (k : Key)
  | got (k : Key)
  | reading (k : Key)
  | writing

/-- The process is no longer asleep. -/
def Stage.rouse : Option Stage → Option Stage
  | some (.asleep _) => none
  | x => x

/-- What the owner of a buffer is doing with it. -/
inductive Role where
  /-- `bget` has returned it. -/
  | got (k : Key)
  /-- The owner waits until it has been read. -/
  | reading (k : Key)
  /-- `bread` has returned it. -/
  | inUse
  /-- The owner waits until it has been written. -/
  | writing

def Role.stage : Role → Option Stage
  | .got k => some (.got k)
  | .reading k => some (.reading k)
  | .inUse => none
  | .writing => some .writing

/-- `bread` has returned the buffer. -/
def Role.has : Role → Bool
  | .inUse | .writing => true
  | _ => false

/-- All that concerns one buffer. -/
structure View (ι : Type) where
  buf : Buf
  stage : ι → Option Stage
  holds : ι → Prop
  queued : Prop
  changed : Prop

namespace View

variable {ι : Type} {v : View ι} {p q : ι} {r : Role} {k : Key} {d : Block}

/-- The process does nothing with the buffer, or sleeps because somebody else does. -/
def Aside (v : View ι) (q : ι) : Prop :=
  ∀ x, v.stage q = some x → ∃ k, x = .asleep k ∧ v.buf.key = some k

/-- Nobody has the buffer, and nobody waits for it. -/
structure Free (v : View ι) : Prop where
  busy : v.buf.busy = false
  holds : ∀ q, ¬v.holds q
  stage : ∀ q, v.stage q = none
  valid : v.buf.key ≠ none → v.buf.valid = true
  dirty : v.buf.dirty = true → v.buf.valid = true
  queued : ¬v.queued
  changed : ¬v.changed

/-- The flags and the place in the queue, for each role of the owner. -/
def Fits (v : View ι) : Role → Prop
  | .got k => v.buf.key = some k ∧ (v.buf.dirty = true → v.buf.valid = true) ∧
      ¬v.queued ∧ ¬v.changed
  | .reading k => v.buf.key = some k ∧ v.buf.dirty = false ∧ (v.queued ↔ v.buf.valid = false) ∧
      ¬v.changed
  | .inUse => v.buf.key ≠ none ∧ v.buf.valid = true ∧ ¬v.queued
  | .writing => v.buf.key ≠ none ∧ v.buf.valid = true ∧ (v.queued ↔ v.buf.dirty = true) ∧
      ¬v.changed

/-- The buffer belongs to process `p`. -/
structure Owned (v : View ι) (p : ι) (r : Role) : Prop where
  busy : v.buf.busy = true
  holds : ∀ q, v.holds q ↔ q = p ∧ r.has = true
  self : r ≠ .inUse → v.stage p = r.stage
  aside : ∀ q, q ≠ p ∨ r = .inUse → v.Aside q
  fits : v.Fits r

/-- The buffer is free or belongs to somebody. -/
def Sound (v : View ι) : Prop :=
  v.Free ∨ ∃ p r, v.Owned p r

theorem Owned.owner_of_holds (h : v.Owned p r) (hq : v.holds q) : q = p :=
  ((h.holds q).mp hq).1

/-- The role of a process that does something with the buffer. -/
theorem Sound.owned_of_stage (h : v.Sound) (hp : v.stage p = r.stage) (hr : r ≠ .inUse) :
    v.Owned p r := by
  obtain ⟨x, hx⟩ : ∃ x, r.stage = some x := by
    cases r with
    | inUse => exact absurd rfl hr
    | got k | reading k | writing => exact ⟨_, rfl⟩
  have hawake : ∀ k, x ≠ .asleep k := by
    rintro k rfl
    cases r <;> cases hx
  rcases h with hfree | ⟨q, r', howned⟩
  · cases (hfree.stage p).symm.trans (hp.trans hx)
  · have hself : ¬(p ≠ q ∨ r' = .inUse) := fun haside => by
      obtain ⟨k, hk, -⟩ := howned.aside p haside x (hp.trans hx)
      exact hawake k hk
    push Not at hself
    obtain ⟨rfl, hr'⟩ := hself
    have hstage : r'.stage = r.stage := (howned.self hr').symm.trans hp
    have hsame : r' = r := by
      cases r' <;> cases r <;> cases hstage <;> rfl
    rwa [hsame] at howned

theorem Owned.unique {r' : Role} (h : v.Owned p r) (h' : v.Owned q r') : p = q := by
  by_contra hne
  have haside := h'.aside p (.inl hne)
  cases r with
  | got k | reading k =>
      obtain ⟨k', hk', -⟩ := haside _ (h.self (by simp))
      cases hk'
  | inUse | writing => exact hne (h'.owner_of_holds ((h.holds p).mpr ⟨rfl, rfl⟩))

/-- A process that sleeps on the buffer waits for its owner. -/
theorem Sound.owned_of_asleep (h : v.Sound) (hq : v.stage q = some (.asleep k)) :
    v.buf.key = some k ∧ ∃ p r, v.Owned p r := by
  rcases h with hfree | ⟨p, r, howned⟩
  · cases (hfree.stage q).symm.trans hq
  · refine ⟨?_, p, r, howned⟩
    have haside : q ≠ p ∨ r = .inUse := by
      by_contra hself
      push Not at hself
      obtain ⟨rfl, hr⟩ := hself
      have hstage := (howned.self hr).symm.trans hq
      cases r <;> cases hstage
    obtain ⟨k', hk', hkey⟩ := howned.aside q haside _ hq
    cases hk'
    exact hkey

/-- The role of a process that has the buffer. -/
theorem Sound.owned_of_holds (h : v.Sound) (hp : v.holds p) (hwriting : v.stage p ≠ some .writing) :
    v.Owned p .inUse := by
  rcases h with hfree | ⟨q, r, howned⟩
  · exact absurd hp (hfree.holds p)
  · obtain ⟨rfl, hhas⟩ := (howned.holds p).mp hp
    cases r with
    | got k | reading k => cases hhas
    | inUse => exact howned
    | writing => exact absurd (howned.self (by simp)) hwriting

theorem Sound.free_of_not_busy (h : v.Sound) (hbusy : v.buf.busy = false) : v.Free := by
  rcases h with hfree | ⟨q, r, howned⟩
  · exact hfree
  · cases hbusy.symm.trans howned.busy

theorem Sound.owned_of_queued (h : v.Sound) (hqueued : v.queued) :
    ∃ p r, v.Owned p r ∧ (r = .writing ∨ ∃ k, r = .reading k) := by
  rcases h with hfree | ⟨p, r, howned⟩
  · exact absurd hqueued hfree.queued
  · refine ⟨p, r, howned, ?_⟩
    cases r with
    | got k => exact absurd hqueued howned.fits.2.2.1
    | reading k => exact .inr ⟨k, rfl⟩
    | inUse => exact absurd hqueued howned.fits.2.2
    | writing => exact .inl rfl

def modify (v : View ι) (d : Block) : View ι :=
  { v with buf := { v.buf with data := d }, changed := True }

def mark (v : View ι) : View ι :=
  { v with buf := { v.buf with dirty := true }, changed := False }

def complete (v : View ι) (d : Block) : View ι :=
  { v with buf := { v.buf with valid := true, dirty := false, data := d }, queued := False }

theorem Owned.modify (h : v.Owned p .inUse) (d : Block) : (v.modify d).Owned p .inUse :=
  ⟨h.busy, h.holds, h.self, h.aside, h.fits⟩

theorem Owned.mark (h : v.Owned p .inUse) : v.mark.Owned p .inUse :=
  ⟨h.busy, h.holds, h.self, h.aside, h.fits⟩

theorem Owned.complete (h : v.Owned p r) (hqueued : v.queued) (d : Block) :
    (v.complete d).Owned p r := by
  refine ⟨h.busy, h.holds, h.self, h.aside, ?_⟩
  have hfits := h.fits
  cases r with
  | got k => exact absurd hqueued hfits.2.2.1
  | reading k => exact ⟨hfits.1, rfl, by simp [View.complete], hfits.2.2.2⟩
  | inUse => exact absurd hqueued hfits.2.2
  | writing => exact ⟨hfits.1, rfl, by simp [View.complete], hfits.2.2.2⟩

section

variable [DecidableEq ι]

/-- The process does something else. -/
def move (v : View ι) (p : ι) (c : Option Stage) : View ι :=
  { v with stage := Function.update v.stage p c }

def take (v : View ι) (p : ι) (k : Key) : View ι :=
  { v with buf := { v.buf with busy := true } }.move p (some (.got k))

def recycle (v : View ι) (p : ι) (k : Key) : View ι :=
  { v with buf := { v.buf with key := some k, busy := true, valid := false, dirty := false } }.move
    p (some (.got k))

def fetch (v : View ι) (p : ι) (k : Key) : View ι :=
  { v with queued := True }.move p (some (.reading k))

def deliver (v : View ι) (p : ι) : View ι :=
  { v with holds := Function.update v.holds p True }.move p none

def write (v : View ι) (p : ι) : View ι :=
  { v.mark with queued := True }.move p (some .writing)

def release (v : View ι) (p : ι) : View ι :=
  { v with
    buf := { v.buf with busy := false }
    stage := fun q => Stage.rouse (v.stage q)
    holds := Function.update v.holds p False }

theorem move_self (v : View ι) (p : ι) (c : Option Stage) : (v.move p c).stage p = c := by
  simp [move]

theorem move_of_ne (c : Option Stage) (h : q ≠ p) : (v.move p c).stage q = v.stage q := by
  simp [move, h]

/-- What the others do is not affected when the owner does something else. -/
theorem aside_of_ne (h : v.Owned p r) (c : Option Stage) (hq : q ≠ p) : (v.move p c).Aside q := by
  intro x hx
  rw [move_of_ne c hq] at hx
  exact h.aside q (.inl hq) x hx

theorem aside_none (v : View ι) (p : ι) : (v.move p none).Aside p := by
  intro x hx
  rw [move_self] at hx
  cases hx

namespace Free

theorem aside_of_ne (h : v.Free) (c : Option Stage) (hq : q ≠ p) : (v.move p c).Aside q := by
  intro x hx
  rw [move_of_ne c hq, h.stage q] at hx
  cases hx

theorem take (h : v.Free) (hk : v.buf.key = some k) : (v.take p k).Owned p (.got k) := by
  constructor
  · rfl
  · exact fun q => iff_of_false (h.holds q) (by simp [Role.has])
  · exact fun _ => move_self _ p _
  · intro q hq
    exact h.aside_of_ne _ (hq.resolve_right (by simp))
  · exact ⟨hk, h.dirty, h.queued, h.changed⟩

theorem recycle (h : v.Free) : (v.recycle p k).Owned p (.got k) := by
  constructor
  · rfl
  · exact fun q => iff_of_false (h.holds q) (by simp [Role.has])
  · exact fun _ => move_self _ p _
  · intro q hq x hx
    rw [View.recycle, move_of_ne _ (hq.resolve_right (by simp))] at hx
    cases (h.stage q).symm.trans hx
  · exact ⟨rfl, (fun hd => by cases hd), h.queued, h.changed⟩

end Free

namespace Owned

/-- Somebody who wants the same sector has to wait. -/
theorem sleep (h : v.Owned p r) (hk : v.buf.key = some k) (hq : v.stage q = none) :
    (v.move q (some (.asleep k))).Owned p r := by
  have hself : r ≠ .inUse → q ≠ p := by
    rintro hr rfl
    have hstage := (h.self hr).symm.trans hq
    cases r with
    | inUse => exact hr rfl
    | got k | reading k | writing => cases hstage
  constructor
  · exact h.busy
  · exact h.holds
  · exact fun hr => (move_of_ne _ (hself hr).symm).trans (h.self hr)
  · intro q' hq' x hx
    rcases eq_or_ne q' q with rfl | hne
    · rw [move_self] at hx
      exact ⟨k, (Option.some.inj hx).symm, hk⟩
    · rw [move_of_ne _ hne] at hx
      exact h.aside q' hq' x hx
  · cases r <;> exact h.fits

theorem wake (h : v.Owned p r) (q : ι) : (v.move q (Stage.rouse (v.stage q))).Owned p r := by
  constructor
  · exact h.busy
  · exact h.holds
  · intro hr
    rcases eq_or_ne p q with rfl | hne
    · rw [move_self, h.self hr]
      cases r <;> rfl
    · exact (move_of_ne _ hne).trans (h.self hr)
  · intro q' hq' x hx
    rcases eq_or_ne q' q with rfl | hne
    · rw [move_self] at hx
      cases hstage : v.stage q' with
      | none =>
          rw [hstage] at hx
          cases hx
      | some y =>
          obtain ⟨k, rfl, -⟩ := h.aside q' hq' y hstage
          rw [hstage] at hx
          cases hx
    · rw [move_of_ne _ hne] at hx
      exact h.aside q' hq' x hx
  · cases r <;> exact h.fits

theorem fetch (h : v.Owned p (.got k)) (hvalid : v.buf.valid = false) :
    (v.fetch p k).Owned p (.reading k) := by
  obtain ⟨hkey, hdirty, -, hchanged⟩ := h.fits
  constructor
  · exact h.busy
  · exact h.holds
  · exact fun _ => move_self _ p _
  · intro q hq
    exact aside_of_ne h _ (hq.resolve_right (by simp))
  · refine ⟨hkey, ?_, iff_of_true trivial hvalid, hchanged⟩
    rw [Bool.eq_false_iff]
    intro hd
    cases hvalid.symm.trans (hdirty hd)

theorem deliver (h : v.Owned p r) (hr : ∃ k, r = .got k ∨ r = .reading k)
    (hvalid : v.buf.valid = true) : (v.deliver p).Owned p .inUse := by
  have hfits : v.buf.key ≠ none ∧ ¬v.queued ∧ r.has = false := by
    obtain ⟨k, rfl | rfl⟩ := hr
    · obtain ⟨hkey, -, hqueued, -⟩ := h.fits
      exact ⟨by simp [hkey], hqueued, rfl⟩
    · obtain ⟨hkey, -, hqueued, -⟩ := h.fits
      exact ⟨by simp [hkey], by simp [hqueued, hvalid], rfl⟩
  constructor
  · exact h.busy
  · intro q
    show Function.update v.holds p True q ↔ _
    rcases eq_or_ne q p with rfl | hne
    · simp [Role.has]
    · simp [h.holds q, hne]
  · exact fun hne => absurd rfl hne
  · intro q _
    rcases eq_or_ne q p with rfl | hne
    · exact aside_none _ q
    · exact aside_of_ne h none hne
  · exact ⟨hfits.1, hvalid, hfits.2.1⟩

theorem write (h : v.Owned p .inUse) : (v.write p).Owned p .writing := by
  obtain ⟨hkey, hvalid, -⟩ := h.fits
  constructor
  · exact h.busy
  · exact h.holds
  · exact fun _ => move_self _ p _
  · intro q hq
    exact aside_of_ne h _ (hq.resolve_right (by simp))
  · exact ⟨hkey, hvalid, iff_of_true trivial rfl, not_false⟩

/-- `iderw` returns in `bwrite`. -/
theorem written (h : v.Owned p .writing) (hdirty : v.buf.dirty = false) :
    (v.move p none).Owned p .inUse := by
  obtain ⟨hkey, hvalid, hqueued, -⟩ := h.fits
  constructor
  · exact h.busy
  · exact h.holds
  · exact fun hne => absurd rfl hne
  · intro q _
    rcases eq_or_ne q p with rfl | hne
    · exact aside_none v q
    · exact aside_of_ne h none hne
  · exact ⟨hkey, hvalid, fun hq => by cases hdirty.symm.trans (hqueued.mp hq)⟩

theorem release (h : v.Owned p .inUse) (hchanged : ¬v.changed) : (v.release p).Free := by
  obtain ⟨hkey, hvalid, hqueued⟩ := h.fits
  constructor
  · rfl
  · intro q hq
    rcases eq_or_ne q p with rfl | hne
    · exact (Function.update_self q False v.holds ▸ hq : False)
    · have hholds : v.holds q := Function.update_of_ne hne False v.holds ▸ hq
      exact hne (h.owner_of_holds hholds)
  · intro q
    show Stage.rouse (v.stage q) = none
    cases hstage : v.stage q with
    | none => rfl
    | some x =>
        obtain ⟨k, rfl, -⟩ := h.aside q (.inr rfl) x hstage
        rfl
  · exact fun _ => hvalid
  · exact fun _ => hvalid
  · exact hqueued
  · exact hchanged

end Owned

end

end View

end Xv6.Cache
