import Mathlib.Data.Fintype.Card
import Xv6.Cache.Buffer

/-!
# The buffer cache keeps its buffers apart

The invariant of `bio.c` over any interleaving: the buffers form a doubly linked circle, no
sector is cached twice, and each buffer is free or belongs to one process.  A step changes
at most one buffer, in one of the ways that the rules for single buffers allow.
-/

namespace Xv6.Cache

open Support

/-- What the process is doing with the buffer. -/
def Pc.stage : Pc → Fin nbuf → Option Stage
  | .asleep b k, b' => if b = b' then some (.asleep k) else none
  | .got b k, b' => if b = b' then some (.got k) else none
  | .reading b k, b' => if b = b' then some (.reading k) else none
  | .writing b, b' => if b = b' then some .writing else none
  | _, _ => none

/-- The buffer that the process deals with. -/
def Pc.about : Pc → Option (Fin nbuf)
  | .asleep b _ | .got b _ | .reading b _ | .writing b => some b
  | _ => none

theorem Pc.stage_of_about {c : Pc} {b : Fin nbuf} (h : c.about ≠ some b) : c.stage b = none := by
  cases c with
  | out | bget k => rfl
  | asleep b' k | got b' k | reading b' k | writing b' =>
      exact if_neg fun heq => h (congrArg some heq)

variable {ι : Type}

/-- No buffer is left for the sector. -/
def State.Full (s : State ι) (k : Key) : Prop :=
  ∀ b, (s.buf b).key ≠ some k ∧ ((s.buf b).busy = true ∨ (s.buf b).dirty = true)

/-- The process has the buffer, or `bread` is about to return it. -/
def State.Owns (s : State ι) (p : ι) (b : Fin nbuf) : Prop :=
  b ∈ s.held p ∨ ∃ k, s.pc p = .got b k ∨ s.pc p = .reading b k

/-- The part of the state that concerns one buffer. -/
def State.view (s : State ι) (b : Fin nbuf) : View ι where
  buf := s.buf b
  stage q := (s.pc q).stage b
  holds q := b ∈ s.held q
  queued := b ∈ s.queue
  changed := b ∈ s.changed

/-- The invariant. -/
structure Sound (s : State ι) : Prop where
  circle : ∃ l, s.links.Circle l ∧ l.Nodup ∧ ∀ b, b ∈ l
  unique : ∀ b b' k, (s.buf b).key = some k → (s.buf b').key = some k → b = b'
  nodup : s.queue.Nodup
  buffers : ∀ b, (s.view b).Sound

variable {s s' : State ι} {p : ι} {b b' : Fin nbuf} {k : Key}

/-- Only one buffer has to be looked at again. -/
theorem Sound.other (h : Sound s) (hother : ∀ b', b' ≠ b → s'.view b' = s.view b')
    (hself : (s'.view b).Sound) (b' : Fin nbuf) : (s'.view b').Sound := by
  rcases eq_or_ne b' b with rfl | hne
  · exact hself
  · rw [hother b' hne]
    exact h.buffers b'

/-- A step that changes one buffer, and neither the links nor a key. -/
theorem Sound.of_view (h : Sound s) (hlinks : s'.links = s.links)
    (hkey : ∀ b', (s'.buf b').key = (s.buf b').key) (hnodup : s'.queue.Nodup)
    (hother : ∀ b', b' ≠ b → s'.view b' = s.view b') (hself : (s'.view b).Sound) : Sound s' := by
  constructor
  · rw [hlinks]
    exact h.circle
  · intro b₁ b₂ k h₁ h₂
    rw [hkey] at h₁ h₂
    exact h.unique b₁ b₂ k h₁ h₂
  · exact hnodup
  · exact h.other hother hself

/-! ## What a step changes of a buffer -/

namespace State

theorem view_setBuf_self (s : State ι) (b : Fin nbuf) (x : Buf) :
    (s.setBuf b x).view b = { s.view b with buf := x } := by
  simp [view, setBuf]

theorem view_setBuf_of_ne (s : State ι) (x : Buf) (h : b' ≠ b) :
    (s.setBuf b x).view b' = s.view b' := by
  simp [view, setBuf, h]

theorem view_enqueue_self (s : State ι) (b : Fin nbuf) :
    (s.enqueue b).view b = { s.view b with queued := True } := by
  simp [view, enqueue]

theorem view_enqueue_of_ne (s : State ι) (h : b' ≠ b) : (s.enqueue b).view b' = s.view b' := by
  simp [view, enqueue, h]

theorem view_modify_self (s : State ι) (b : Fin nbuf) (d : Block) :
    (s.modify b d).view b = (s.view b).modify d := by
  simp [view, modify, setBuf, View.modify]

theorem view_modify_of_ne (s : State ι) (d : Block) (h : b' ≠ b) :
    (s.modify b d).view b' = s.view b' := by
  simp [view, modify, setBuf, h]

theorem view_mark_self (s : State ι) (b : Fin nbuf) : (s.mark b).view b = (s.view b).mark := by
  simp [view, mark, setBuf, View.mark]

theorem view_mark_of_ne (s : State ι) (h : b' ≠ b) : (s.mark b).view b' = s.view b' := by
  simp [view, mark, setBuf, h]

theorem complete_links (s : State ι) (b : Fin nbuf) (queue : List (Fin nbuf)) (ok : Bool) :
    (s.complete b queue ok).links = s.links := by
  unfold complete
  split <;> rfl

theorem view_complete_of_ne (s : State ι) {queue : List (Fin nbuf)} (hq : s.queue = b :: queue)
    (ok : Bool) (h : b' ≠ b) : (s.complete b queue ok).view b' = s.view b' := by
  unfold complete
  split <;> simp [view, setBuf, h, hq]

theorem view_complete_self (s : State ι) {queue : List (Fin nbuf)} (hn : b ∉ queue) (ok : Bool) :
    (s.complete b queue ok).view b = (s.view b).complete
      (if (s.buf b).dirty then (s.buf b).data
      else if ok then (s.buf b).key.elim (s.buf b).data s.disk else (s.buf b).data) := by
  unfold complete
  split
  · simp [view, setBuf, View.complete, hn]
  · rename_i hdirty
    simp [view, setBuf, View.complete, hn, hdirty]

end State

theorem Pc.stage_wakenBy_self (c : Pc) (b : Fin nbuf) :
    (c.wakenBy b).stage b = Stage.rouse (c.stage b) := by
  cases c with
  | out | bget k => rfl
  | asleep b' k =>
      by_cases hb : b' = b
      · simp [wakenBy, stage, hb, Stage.rouse]
      · simp [wakenBy, stage, hb, Stage.rouse]
  | got b' k | reading b' k | writing b' =>
      by_cases hb : b' = b
      · simp [wakenBy, stage, hb, Stage.rouse]
      · simp [wakenBy, stage, hb, Stage.rouse]

theorem Pc.stage_wakenBy_of_ne (c : Pc) (h : b' ≠ b) : (c.wakenBy b).stage b' = c.stage b' := by
  cases c with
  | asleep b₁ k =>
      by_cases hb : b₁ = b
      · have hne : b₁ ≠ b' := fun heq => h (heq.symm.trans hb)
        simp [wakenBy, stage, hb, h.symm]
      · simp [wakenBy, hb]
  | out | bget k | got b₁ k | reading b₁ k | writing b₁ => rfl

theorem State.key_setBuf (s : State ι) (b : Fin nbuf) (x : Buf) (hx : x.key = (s.buf b).key) (b' : Fin nbuf) :
    ((s.setBuf b x).buf b').key = (s.buf b').key := by
  rcases eq_or_ne b' b with rfl | hne
  · simp [setBuf, hx]
  · simp [setBuf, hne]

theorem Sound.unique_setBuf (h : Sound s) {x : Buf} (hx : x.key = (s.buf b).key)
    (b₁ b₂ : Fin nbuf) (k : Key) (h₁ : ((s.setBuf b x).buf b₁).key = some k)
    (h₂ : ((s.setBuf b x).buf b₂).key = some k) : b₁ = b₂ := by
  rw [s.key_setBuf b x hx] at h₁ h₂
  exact h.unique b₁ b₂ k h₁ h₂

/-- A process that uses a buffer has it for itself. -/
theorem Sound.owned_of_uses (h : Sound s) (huses : s.Uses p b) : (s.view b).Owned p .inUse := by
  apply (h.buffers b).owned_of_holds huses.2
  intro hwriting
  have hout := huses.1
  cases hpc : s.pc p <;> simp [State.view, hpc, Pc.stage, Pc.isOut] at hwriting hout

theorem Sound.modify (h : Sound s) (huses : s.Uses p b) (d : Block) : Sound (s.modify b d) := by
  refine h.of_view (b := b) rfl (s.key_setBuf b _ rfl) h.nodup ?_ ?_
  · exact fun b' hne => State.view_modify_of_ne s d hne
  · rw [State.view_modify_self]
    exact .inr ⟨p, .inUse, (h.owned_of_uses huses).modify d⟩

theorem Sound.mark (h : Sound s) (huses : s.Uses p b) : Sound (s.mark b) := by
  refine h.of_view (b := b) rfl (s.key_setBuf b _ rfl) h.nodup ?_ ?_
  · exact fun b' hne => State.view_mark_of_ne s hne
  · rw [State.view_mark_self]
    exact .inr ⟨p, .inUse, (h.owned_of_uses huses).mark⟩

theorem Sound.complete (h : Sound s) {queue : List (Fin nbuf)} (hq : s.queue = b :: queue)
    (ok : Bool) : Sound (s.complete b queue ok) := by
  have hnodup := h.nodup
  rw [hq] at hnodup
  obtain ⟨hb, hnodup⟩ := List.nodup_cons.mp hnodup
  have hqueue : (s.complete b queue ok).queue = queue := by
    unfold State.complete
    split <;> rfl
  have hkey : ∀ b', ((s.complete b queue ok).buf b').key = (s.buf b').key := by
    unfold State.complete
    split
    · exact s.key_setBuf b _ rfl
    · exact s.key_setBuf b _ rfl
  refine h.of_view (b := b) (s.complete_links b queue ok) hkey (by rw [hqueue]; exact hnodup) ?_ ?_
  · exact fun b' hne => State.view_complete_of_ne s hq ok hne
  · have hqueued : (s.view b).queued := by simp [State.view, hq]
    obtain ⟨p, r, howned, -⟩ := (h.buffers b).owned_of_queued hqueued
    rw [State.view_complete_self s hb ok]
    exact .inr ⟨p, r, howned.complete hqueued _⟩

/-- The owner of a buffer, in the sense of the rules for one buffer. -/
theorem Sound.owned_of_owns (h : Sound s) (howns : s.Owns p b) : ∃ r, (s.view b).Owned p r := by
  have hstage : ∀ r : Role, (s.pc p).stage b = r.stage → r ≠ .inUse → (s.view b).Owned p r :=
    fun r hr hne => (h.buffers b).owned_of_stage hr hne
  rcases howns with hheld | ⟨k, hpc | hpc⟩
  · rcases h.buffers b with hfree | ⟨q, r, howned⟩
    · exact absurd hheld (hfree.holds p)
    · obtain rfl := howned.owner_of_holds hheld
      exact ⟨r, howned⟩
  · exact ⟨.got k, hstage _ (by simp [hpc, Pc.stage, Role.stage]) (by simp)⟩
  · exact ⟨.reading k, hstage _ (by simp [hpc, Pc.stage, Role.stage]) (by simp)⟩

theorem Pc.eq_of_stage {c : Pc} {r : Role} (h : c.stage b = r.stage) :
    (∀ k, r = .got k → c = .got b k) ∧ ∀ k, r = .reading k → c = .reading b k := by
  constructor
  · rintro k rfl
    cases c <;> simp_all [Pc.stage, Role.stage]
  · rintro k rfl
    cases c <;> simp_all [Pc.stage, Role.stage]

theorem State.owns_of_owned {r : Role} (h : (s.view b).Owned p r) : s.Owns p b := by
  cases r with
  | got k => exact .inr ⟨k, .inl ((Pc.eq_of_stage (h.self (by simp))).1 k rfl)⟩
  | reading k => exact .inr ⟨k, .inr ((Pc.eq_of_stage (h.self (by simp))).2 k rfl)⟩
  | inUse | writing => exact .inl ((h.holds p).mpr ⟨rfl, rfl⟩)

/-- The two searches of `bget`. -/
theorem Sound.searches (h : Sound s) : ∃ l : List (Fin nbuf), s.links.Circle l ∧ (∀ b, b ∈ l) ∧
    (∀ k, s.cached k = l.find? fun b => (s.buf b).key = some k) ∧
    s.victim = l.reverse.find? fun b => !(s.buf b).busy && !(s.buf b).dirty := by
  obtain ⟨l, hl, hnodup, hall⟩ := h.circle
  have hlength : l.length ≤ nbuf := by
    have hcard := List.Nodup.length_le_card hnodup
    rwa [Fintype.card_fin] at hcard
  exact ⟨l, hl, hall, fun k => hl.search_next _ hlength, hl.search_prev _ hlength⟩

theorem Sound.cached_some (h : Sound s) (hb : s.cached k = some b) : (s.buf b).key = some k := by
  obtain ⟨l, -, -, hcached, -⟩ := h.searches
  rw [hcached] at hb
  simpa using List.find?_some hb

theorem Sound.cached_none (h : Sound s) (hb : s.cached k = none) (b : Fin nbuf) :
    (s.buf b).key ≠ some k := by
  obtain ⟨l, -, hall, hcached, -⟩ := h.searches
  rw [hcached] at hb
  simpa using List.find?_eq_none.mp hb b (hall b)

theorem Sound.victim_some (h : Sound s) (hb : s.victim = some b) :
    (s.buf b).busy = false ∧ (s.buf b).dirty = false := by
  obtain ⟨l, -, -, -, hvictim⟩ := h.searches
  rw [hvictim] at hb
  simpa using List.find?_some hb

theorem Sound.victim_none (h : Sound s) (hb : s.victim = none) (b : Fin nbuf) :
    (s.buf b).busy = true ∨ (s.buf b).dirty = true := by
  obtain ⟨l, -, hall, -, hvictim⟩ := h.searches
  rw [hvictim] at hb
  have hnot := List.find?_eq_none.mp hb b (List.mem_reverse.mpr (hall b))
  by_cases hbusy : (s.buf b).busy = true
  · exact .inl hbusy
  · exact .inr (by simpa [hbusy] using hnot)

/-- The circle of `binit`. -/
theorem boot_circle (disk : Key → Block) :
    (boot disk : State ι).links.Circle (List.finRange nbuf).reverse := by
  have hempty : Links.Circle (⟨fun _ => none, fun _ => none⟩ : Links (Fin nbuf)) [] := ⟨rfl, rfl⟩
  have hpushed := hempty.pushes (m := List.finRange nbuf) (by simp [List.nodup_finRange])
  rwa [List.append_nil] at hpushed

theorem boot_sound (disk : Key → Block) : Sound (boot disk : State ι) := by
  constructor
  · exact ⟨_, boot_circle disk, by simp [List.nodup_finRange], by simp⟩
  · intro b b' k hb
    cases hb
  · exact List.nodup_nil
  · intro b
    left
    constructor
    · rfl
    · simp [State.view, boot]
    · exact fun q => rfl
    · intro hk
      exact absurd rfl hk
    · intro hd
      cases hd
    · simp [State.view, boot]
    · simp [State.view, boot]

variable [DecidableEq ι]

namespace State

theorem view_goto (s : State ι) (p : ι) (c : Pc) (b : Fin nbuf) :
    (s.goto p c).view b = (s.view b).move p (c.stage b) := by
  unfold view goto View.move
  congr 1
  funext q
  rcases eq_or_ne q p with rfl | hne
  · simp
  · simp [hne]

theorem view_goto_of_about {c : Pc} (hold : (s.pc p).about ≠ some b) (hnew : c.about ≠ some b) :
    (s.goto p c).view b = s.view b := by
  have hstage : (s.view b).stage p = none := Pc.stage_of_about hold
  rw [view_goto, Pc.stage_of_about hnew, ← hstage]
  unfold View.move
  rw [Function.update_eq_self]

theorem view_release_self (s : State ι) (p : ι) (b : Fin nbuf) :
    (s.release p b).view b = (s.view b).release p := by
  unfold view release wakeup View.release
  congr 1
  · simp [setBuf]
  · funext q
    exact Pc.stage_wakenBy_self (s.pc q) b
  · funext q
    rcases eq_or_ne q p with rfl | hne
    · simp
    · simp [hne]

theorem view_release_of_ne (s : State ι) (p : ι) (h : b' ≠ b) :
    (s.release p b).view b' = s.view b' := by
  unfold view release wakeup
  congr 1
  · simp [setBuf, h]
  · funext q
    exact Pc.stage_wakenBy_of_ne (s.pc q) h
  · funext q
    rcases eq_or_ne q p with rfl | hne
    · simp [h]
    · simp [hne]

end State

/-! ## The steps -/

namespace Sound

open State

theorem sleep (h : Sound s) (hpc : s.pc p = .bget k) (hk : (s.buf b).key = some k)
    (hbusy : (s.buf b).busy = true) : Sound (s.goto p (.asleep b k)) := by
  refine h.of_view (b := b) rfl (fun _ => rfl) h.nodup ?_ ?_
  · intro b' hne
    apply view_goto_of_about
    · simp [hpc, Pc.about]
    · simp [Pc.about, hne.symm]
  · have hstage : (s.view b).stage p = none := by simp [view, hpc, Pc.stage]
    have hself : (Pc.asleep b k).stage b = some (.asleep k) := if_pos rfl
    rw [view_goto, hself]
    rcases h.buffers b with hfree | ⟨q, r, howned⟩
    · cases hbusy.symm.trans hfree.busy
    · exact .inr ⟨q, r, howned.sleep hk hstage⟩

theorem wake (h : Sound s) (hpc : s.pc p = .asleep b k) : Sound (s.goto p (.bget k)) := by
  refine h.of_view (b := b) rfl (fun _ => rfl) h.nodup ?_ ?_
  · intro b' hne
    apply view_goto_of_about
    · simp [hpc, Pc.about, hne.symm]
    · simp [Pc.about]
  · have hstage : (s.view b).stage p = some (.asleep k) := by simp [view, hpc, Pc.stage]
    have hself : (Pc.bget k).stage b = Stage.rouse ((s.view b).stage p) := by rw [hstage]; rfl
    rw [view_goto, hself]
    rcases h.buffers b with hfree | ⟨q, r, howned⟩
    · cases (hfree.stage p).symm.trans hstage
    · exact .inr ⟨q, r, howned.wake p⟩

/-- A buffer that nobody has is taken. -/
theorem grab (h : Sound s) (hpc : s.pc p = .bget k) {x : Buf}
    (hkeys : ∀ b₁ b₂ k, ((s.setBuf b x).buf b₁).key = some k →
      ((s.setBuf b x).buf b₂).key = some k → b₁ = b₂)
    (howned : View.Owned (View.move { s.view b with buf := x } p (some (.got k))) p (.got k)) :
    Sound ((s.setBuf b x).goto p (.got b k)) := by
  constructor
  · exact h.circle
  · exact hkeys
  · exact h.nodup
  · refine h.other (b := b) ?_ ?_
    · intro b' hne
      have habout : ((s.setBuf b x).pc p).about ≠ some b' := by
        show (s.pc p).about ≠ some b'
        simp [hpc, Pc.about]
      rw [view_goto_of_about habout (by simp [Pc.about, hne.symm])]
      exact view_setBuf_of_ne s x hne
    · have hself : (Pc.got b k).stage b = some (.got k) := if_pos rfl
      rw [view_goto, hself, view_setBuf_self]
      exact .inr ⟨p, .got k, howned⟩

theorem take (h : Sound s) (hpc : s.pc p = .bget k) (hk : (s.buf b).key = some k)
    (hbusy : (s.buf b).busy = false) : Sound (s.take p k b) := by
  apply h.grab hpc
  · exact h.unique_setBuf rfl
  · exact ((h.buffers b).free_of_not_busy hbusy).take hk

theorem recycle (h : Sound s) (hpc : s.pc p = .bget k) (hk : ∀ b', (s.buf b').key ≠ some k)
    (hbusy : (s.buf b).busy = false) : Sound (s.recycle p k b) := by
  apply h.grab hpc
  · intro b₁ b₂ k' h₁ h₂
    rcases eq_or_ne b₁ b with rfl | hne₁
    · rcases eq_or_ne b₂ b₁ with rfl | hne₂
      · rfl
      · have hsame : k = k' := by simpa [setBuf] using h₁
        exact absurd (by simpa [setBuf, hne₂, hsame] using h₂) (hk b₂)
    · have hold : (s.buf b₁).key = some k' := by simpa [setBuf, hne₁] using h₁
      rcases eq_or_ne b₂ b with rfl | hne₂
      · have hsame : k = k' := by simpa [setBuf] using h₂
        exact absurd (hsame ▸ hold) (hk b₁)
      · exact h.unique b₁ b₂ k' hold (by simpa [setBuf, hne₂] using h₂)
  · exact ((h.buffers b).free_of_not_busy hbusy).recycle

/-- A process appends a request to the queue. -/
theorem enqueue (h : Sound s) {c : Pc} (hold : ∀ b', b' ≠ b → (s.pc p).about ≠ some b')
    (hnew : ∀ b', b' ≠ b → c.about ≠ some b') (hqueued : b ∉ s.queue)
    (hself : (View.move { s.view b with queued := True } p (c.stage b)).Sound) :
    Sound ((s.enqueue b).goto p c) := by
  refine h.of_view (b := b) rfl (fun _ => rfl) ?_ ?_ ?_
  · show (s.queue ++ [b]).Nodup
    exact List.nodup_append.mpr ⟨h.nodup, List.nodup_singleton b, by
      intro x hx y hy
      rw [List.mem_singleton] at hy
      rintro rfl
      exact hqueued (hy ▸ hx)⟩
  · intro b' hne
    rw [view_goto_of_about (s := s.enqueue b) (hold b' hne) (hnew b' hne)]
    exact view_enqueue_of_ne s hne
  · rw [view_goto, view_enqueue_self]
    exact hself

theorem fetch (h : Sound s) (hpc : s.pc p = .got b k) (hvalid : (s.buf b).valid = false) :
    Sound ((s.enqueue b).goto p (.reading b k)) := by
  have howned : (s.view b).Owned p (.got k) := by
    refine (h.buffers b).owned_of_stage ?_ (by simp)
    simp [view, hpc, Pc.stage, Role.stage]
  have hself : (Pc.reading b k).stage b = some (.reading k) := if_pos rfl
  apply h.enqueue
  · intro b' hne
    simp [hpc, Pc.about, hne.symm]
  · intro b' hne
    simp [Pc.about, hne.symm]
  · exact howned.fits.2.2.1
  · rw [hself]
    exact .inr ⟨p, .reading k, howned.fetch hvalid⟩

theorem write (h : Sound s) (huses : s.Uses p b) :
    Sound (((s.mark b).enqueue b).goto p (.writing b)) := by
  have howned := h.owned_of_uses huses
  have hself : (Pc.writing b).stage b = some .writing := if_pos rfl
  have hout : ∀ b', (s.pc p).about ≠ some b' := by
    intro b' habout
    have hisOut := huses.1
    cases hpc : s.pc p <;> simp [hpc, Pc.about, Pc.isOut] at habout hisOut
  apply (h.mark huses).enqueue
  · exact fun b' _ => hout b'
  · intro b' hne
    simp [Pc.about, hne.symm]
  · exact howned.fits.2.2
  · rw [hself, view_mark_self]
    exact .inr ⟨p, .writing, howned.write⟩

theorem written (h : Sound s) (hpc : s.pc p = .writing b) (hdirty : (s.buf b).dirty = false) :
    Sound (s.goto p .out) := by
  have howned : (s.view b).Owned p .writing := by
    refine (h.buffers b).owned_of_stage ?_ (by simp)
    simp [view, hpc, Pc.stage, Role.stage]
  refine h.of_view (b := b) rfl (fun _ => rfl) h.nodup ?_ ?_
  · intro b' hne
    apply view_goto_of_about
    · simp [hpc, Pc.about, hne.symm]
    · simp [Pc.about]
  · rw [view_goto]
    exact .inr ⟨p, .inUse, howned.written hdirty⟩

theorem deliver (h : Sound s) (hpc : s.pc p = .got b k ∨ s.pc p = .reading b k)
    (hvalid : (s.buf b).valid = true) : Sound (s.deliver p b) := by
  obtain ⟨r, hr, howned⟩ : ∃ r, (∃ k, r = .got k ∨ r = .reading k) ∧ (s.view b).Owned p r := by
    rcases hpc with hpc | hpc
    · refine ⟨.got k, ⟨k, .inl rfl⟩, (h.buffers b).owned_of_stage ?_ (by simp)⟩
      simp [view, hpc, Pc.stage, Role.stage]
    · refine ⟨.reading k, ⟨k, .inr rfl⟩, (h.buffers b).owned_of_stage ?_ (by simp)⟩
      simp [view, hpc, Pc.stage, Role.stage]
  have habout : (s.pc p).about = some b := by
    rcases hpc with hpc | hpc
    · simp [hpc, Pc.about]
    · simp [hpc, Pc.about]
  refine h.of_view (b := b) rfl (fun _ => rfl) h.nodup ?_ ?_
  · intro b' hne
    rw [State.deliver, view_goto_of_about (by simp [habout, hne.symm]) (by simp [Pc.about])]
    unfold view
    congr 1
    funext q
    rcases eq_or_ne q p with rfl | hq
    · simp [hne]
    · simp [hq]
  · have hview : (s.deliver p b).view b = (s.view b).deliver p := by
      rw [State.deliver, view_goto]
      unfold view View.deliver
      congr 1
      congr 1
      funext q
      rcases eq_or_ne q p with rfl | hq
      · simp
      · simp [hq]
    rw [hview]
    exact .inr ⟨p, .inUse, howned.deliver hr hvalid⟩

theorem release (h : Sound s) (huses : s.Uses p b) (hchanged : b ∉ s.changed) :
    Sound (s.release p b) := by
  constructor
  · obtain ⟨l, hl, hnodup, hall⟩ := h.circle
    obtain ⟨l₁, l₂, rfl⟩ := List.append_of_mem (hall b)
    obtain ⟨hb, hrest⟩ := List.nodup_middle.mp hnodup |> List.nodup_cons.mp
    refine ⟨b :: (l₁ ++ l₂), (hl.unlink hnodup).push hrest hb, List.nodup_cons.mpr ⟨hb, hrest⟩, ?_⟩
    intro b'
    have hmem := hall b'
    simp only [List.mem_append, List.mem_cons] at hmem ⊢
    tauto
  · exact h.unique_setBuf (x := { s.buf b with busy := false }) rfl
  · exact h.nodup
  · refine h.other (b := b) ?_ ?_
    · exact fun b' hne => view_release_of_ne s p hne
    · rw [view_release_self]
      exact .inl ((h.owned_of_uses huses).release hchanged)

end Sound

/-! ## Runs -/

/-- What a step can do. -/
inductive Effect (s : State ι) : Event → State ι → Prop
  | call {p : ι} {k : Key} (hpc : s.pc p = .out) : Effect s .silent (s.goto p (.bget k))
  | sleep {p : ι} {b : Fin nbuf} {k : Key} (hpc : s.pc p = .bget k) (hk : (s.buf b).key = some k)
      (hbusy : (s.buf b).busy = true) : Effect s .silent (s.goto p (.asleep b k))
  | wake {p : ι} {b : Fin nbuf} {k : Key} (hpc : s.pc p = .asleep b k) :
      Effect s .silent (s.goto p (.bget k))
  | take {p : ι} {b : Fin nbuf} {k : Key} (hpc : s.pc p = .bget k) (hk : (s.buf b).key = some k)
      (hbusy : (s.buf b).busy = false) : Effect s .silent (s.take p k b)
  | recycle {p : ι} {b : Fin nbuf} {k : Key} (hpc : s.pc p = .bget k)
      (hk : ∀ b', (s.buf b').key ≠ some k) (hb : s.victim = some b)
      (hbusy : (s.buf b).busy = false) (hdirty : (s.buf b).dirty = false) :
      Effect s (.recycled b) (s.recycle p k b)
  | fetch {p : ι} {b : Fin nbuf} {k : Key} (hpc : s.pc p = .got b k)
      (hvalid : (s.buf b).valid = false) : Effect s .silent ((s.enqueue b).goto p (.reading b k))
  | deliver {p : ι} {b : Fin nbuf} {k : Key} (hpc : s.pc p = .got b k ∨ s.pc p = .reading b k)
      (hvalid : (s.buf b).valid = true) : Effect s (.got k (s.buf b).data) (s.deliver p b)
  | modify {p : ι} {b : Fin nbuf} {d : Block} (huses : s.Uses p b) :
      Effect s .silent (s.modify b d)
  | mark {p : ι} {b : Fin nbuf} (huses : s.Uses p b) :
      Effect s (.put (s.buf b).key (s.buf b).data) (s.mark b)
  | write {p : ι} {b : Fin nbuf} (huses : s.Uses p b) :
      Effect s (.put (s.buf b).key (s.buf b).data) (((s.mark b).enqueue b).goto p (.writing b))
  | written {p : ι} {b : Fin nbuf} (hpc : s.pc p = .writing b)
      (hdirty : (s.buf b).dirty = false) : Effect s .silent (s.goto p .out)
  | release {p : ι} {b : Fin nbuf} (huses : s.Uses p b) (hchanged : b ∉ s.changed) :
      Effect s (.released b) (s.release p b)
  | complete {b : Fin nbuf} {queue : List (Fin nbuf)} (hq : s.queue = b :: queue) (ok : Bool) :
      Effect s (if ok then .silent else .failed (s.buf b).key) (s.complete b queue ok)

namespace Sound

theorem effect {e : Event} (h : Sound s) (heffect : Effect s e s') : Sound s' := by
  cases heffect with
  | call hpc =>
      rename_i p k
      refine h.of_view (b := ⟨0, by decide⟩) rfl (fun _ => rfl) h.nodup (fun b' _ => ?_) ?_
      · exact State.view_goto_of_about (by simp [hpc, Pc.about]) (by simp [Pc.about])
      · rw [State.view_goto_of_about (by simp [hpc, Pc.about]) (by simp [Pc.about])]
        exact h.buffers _
  | sleep hpc hk hbusy => exact h.sleep hpc hk hbusy
  | wake hpc => exact h.wake hpc
  | take hpc hk hbusy => exact h.take hpc hk hbusy
  | recycle hpc hk _ hbusy _ => exact h.recycle hpc hk hbusy
  | fetch hpc hvalid => exact h.fetch hpc hvalid
  | deliver hpc hvalid => exact h.deliver hpc hvalid
  | modify huses => exact h.modify huses _
  | mark huses => exact h.mark huses
  | write huses => exact h.write huses
  | written hpc hdirty => exact h.written hpc hdirty
  | release huses hchanged => exact h.release huses hchanged
  | complete hq ok => exact h.complete hq ok

theorem bget_of_full (h : Sound s) (hfull : s.Full k) : s.bget p k = .panic .bgetNoBuffers := by
  unfold State.bget
  cases hcached : s.cached k with
  | some b => exact absurd (h.cached_some hcached) (hfull b).1
  | none =>
      cases hvictim : s.victim with
      | none => rfl
      | some b =>
          obtain ⟨hbusy, hdirty⟩ := h.victim_some hvictim
          rcases (hfull b).2 with hb | hb
          · cases hbusy.symm.trans hb
          · cases hdirty.symm.trans hb

theorem bget_cases (h : Sound s) (hpc : s.pc p = .bget k) :
    (∃ e s', s.bget p k = .next e s' ∧ Effect s e s') ∨
      s.bget p k = .panic .bgetNoBuffers ∧ s.Full k := by
  unfold State.bget
  cases hcached : s.cached k with
  | some b =>
      have hk := h.cached_some hcached
      cases hbusy : (s.buf b).busy with
      | true => exact .inl ⟨_, _, if_pos hbusy, .sleep hpc hk hbusy⟩
      | false => exact .inl ⟨_, _, if_neg (by simp [hbusy]), .take hpc hk hbusy⟩
  | none =>
      have hk := h.cached_none hcached
      cases hvictim : s.victim with
      | some b =>
          obtain ⟨hbusy, hdirty⟩ := h.victim_some hvictim
          exact .inl ⟨_, _, rfl, .recycle hpc hk hvictim hbusy hdirty⟩
      | none => exact .inr ⟨rfl, fun b => ⟨hk b, h.victim_none hvictim b⟩⟩

theorem run_cases (h : Sound s) (p : ι) :
    s.run p = .stuck ∨ (∃ e s', s.run p = .next e s' ∧ Effect s e s') ∨
      ∃ k, s.pc p = .bget k ∧ s.run p = .panic .bgetNoBuffers ∧ s.Full k := by
  unfold State.run
  cases hpc : s.pc p with
  | out | asleep b k => exact .inl rfl
  | bget k =>
      rcases h.bget_cases hpc with hnext | hpanic
      · exact .inr (.inl hnext)
      · exact .inr (.inr ⟨k, rfl, hpanic⟩)
  | got b k =>
      cases hvalid : (s.buf b).valid with
      | true => exact .inr (.inl ⟨_, _, if_pos hvalid, .deliver (.inl hpc) hvalid⟩)
      | false =>
          have howned : (s.view b).Owned p (.got k) := by
            refine (h.buffers b).owned_of_stage ?_ (by simp)
            simp [State.view, hpc, Pc.stage, Role.stage]
          have hbusy : (s.buf b).busy = true := howned.busy
          refine .inr (.inl ⟨_, _, ?_, .fetch hpc hvalid⟩)
          simp [State.iderw, hbusy, hvalid]
  | reading b k =>
      by_cases hdone : (s.buf b).valid = true ∧ (s.buf b).dirty = false
      · exact .inr (.inl ⟨_, _, if_pos hdone, .deliver (.inr hpc) hdone.1⟩)
      · exact .inl (if_neg hdone)
  | writing b =>
      by_cases hdone : (s.buf b).valid = true ∧ (s.buf b).dirty = false
      · exact .inr (.inl ⟨_, _, if_pos hdone, .written hpc hdone.2⟩)
      · exact .inl (if_neg hdone)

/-- Every step is one of the effects, or the panic of `bget`. -/
theorem step_cases (h : Sound s) (a : Action ι) :
    s.step a = .stuck ∨ (∃ e s', s.step a = .next e s' ∧ Effect s e s') ∨
      s.step a = .panic .bgetNoBuffers ∧ ∃ p k, a = .run p ∧ s.pc p = .bget k ∧ s.Full k := by
  cases a with
  | bread p k =>
      cases hpc : s.pc p with
      | out => exact .inr (.inl ⟨_, _, by simp only [State.step, hpc]; rfl, .call hpc⟩)
      | _ => exact .inl (by simp only [State.step, hpc])
  | run p =>
      rcases h.run_cases p with hstuck | hnext | ⟨k, hpanic⟩
      · exact .inl hstuck
      · exact .inr (.inl hnext)
      · exact .inr (.inr ⟨hpanic.2.1, p, k, rfl, hpanic.1, hpanic.2.2⟩)
  | wake p =>
      cases hpc : s.pc p with
      | asleep b k => exact .inr (.inl ⟨_, _, by simp only [State.step, hpc], .wake hpc⟩)
      | _ => exact .inl (by simp only [State.step, hpc])
  | modify p b d =>
      by_cases huses : s.Uses p b
      · exact .inr (.inl ⟨_, _, if_pos huses, .modify huses⟩)
      · exact .inl (if_neg huses)
  | bwrite p b =>
      by_cases huses : s.Uses p b
      · have howned := (h.owned_of_uses huses).mark
        have hbusy : (s.buf b).busy = true := howned.busy
        refine .inr (.inl ⟨_, _, ?_, .write huses⟩)
        simp [State.step, huses, hbusy, State.iderw, State.mark, State.setBuf]
      · exact .inl (if_neg huses)
  | logWrite p b =>
      by_cases huses : s.Uses p b
      · exact .inr (.inl ⟨_, _, if_pos huses, .mark huses⟩)
      · exact .inl (if_neg huses)
  | brelse p b =>
      by_cases huses : s.Uses p b ∧ b ∉ s.changed
      · have hbusy : (s.buf b).busy = true := (h.owned_of_uses huses.1).busy
        refine .inr (.inl ⟨_, _, ?_, .release huses.1 huses.2⟩)
        simp [State.step, huses, hbusy]
      · exact .inl (if_neg huses)
  | ideintr ok =>
      cases hq : s.queue with
      | nil => exact .inl (by simp only [State.step, hq])
      | cons b queue => exact .inr (.inl ⟨_, _, by simp only [State.step, hq], .complete hq ok⟩)

theorem panic_iff (h : Sound s) (a : Action ι) (x : Panic) :
    s.step a = .panic x ↔
      x = .bgetNoBuffers ∧ ∃ p k, a = .run p ∧ s.pc p = .bget k ∧ s.Full k := by
  constructor
  · intro ha
    rcases h.step_cases a with hstuck | ⟨e, s', hnext, -⟩ | ⟨hpanic, hfull⟩
    · cases hstuck.symm.trans ha
    · cases hnext.symm.trans ha
    · cases hpanic.symm.trans ha
      exact ⟨rfl, hfull⟩
  · rintro ⟨rfl, p, k, rfl, hpc, hfull⟩
    simp only [State.step, State.run, hpc]
    exact h.bget_of_full hfull

end Sound

theorem Step.effect {e : Event} (h : Sound s) (hstep : Step s e s') : Effect s e s' := by
  obtain ⟨a, ha⟩ := hstep
  rcases h.step_cases a with hstuck | ⟨e', s₁, hnext, heffect⟩ | ⟨hpanic, -⟩
  · cases hstuck.symm.trans ha
  · cases hnext.symm.trans ha
    exact heffect
  · cases hpanic.symm.trans ha

end Xv6.Cache
