import Xv6.Cache.Sound

/-!
# What `bread` returns

Whatever the processes and the disk do in between, `bread` returns the data for which
`bwrite` or `log_write` was last called, or what the disk held at first, as long as the disk
has reported no error for the sector.  A dirty buffer is
not taken for another sector, so that this also holds of data that has only been logged.
When `bget` takes a buffer, it takes the one that has been released least recently.
-/

namespace Xv6.Cache

open Support

/-- What a call of `bwrite` or `log_write` makes of the contents of the sectors. -/
def Event.store (m : Key → Block) : Event → Key → Block
  | .put (some k) d => Function.update m k d
  | _ => m

/-- The data for which `bwrite` or `log_write` was last called. -/
def latest (disk : Key → Block) (es : List Event) : Key → Block :=
  es.foldl Event.store disk

theorem latest_append (disk : Key → Block) (es : List Event) (e : Event) :
    latest disk (es ++ [e]) = e.store (latest disk es) := by
  rw [latest, List.foldl_append]
  rfl

/-- The buffers, the one released last at the front. -/
def Event.touch (l : List (Fin nbuf)) : Event → List (Fin nbuf)
  | .released b => b :: l.erase b
  | _ => l

/-- The buffers in the order of their last release, after `binit` and some steps. -/
def recency (es : List Event) : List (Fin nbuf) :=
  es.foldl Event.touch (List.finRange nbuf).reverse

theorem recency_append (es : List Event) (e : Event) :
    recency (es ++ [e]) = e.touch (recency es) := by
  rw [recency, List.foldl_append]
  rfl

/-- All of a buffer but `B_BUSY`. -/
def Buf.contents (x : Buf) : Option Key × Bool × Bool × Block :=
  (x.key, x.valid, x.dirty, x.data)

variable {ι : Type}

/-- The disk and the buffers hold what has been written to the sectors in `good`. -/
structure Coherent (good : Key → Prop) (m : Key → Block) (s : State ι) : Prop where
  disk : ∀ k, good k → (∀ b, (s.buf b).key = some k → (s.buf b).dirty = false) → s.disk k = m k
  data : ∀ b k, good k → (s.buf b).key = some k → (s.buf b).valid = true → b ∉ s.changed →
    (s.buf b).data = m k

variable {s s' : State ι} {good : Key → Prop} {m : Key → Block} {p : ι} {b : Fin nbuf} {k : Key}

namespace Coherent

theorem mono {good' : Key → Prop} (h : Coherent good m s) (himp : ∀ k, good' k → good k) :
    Coherent good' m s :=
  ⟨fun k hk => h.disk k (himp k hk), fun b k hk => h.data b k (himp k hk)⟩

theorem congr (h : Coherent good m s) (hbuf : ∀ b, (s'.buf b).contents = (s.buf b).contents)
    (hdisk : s'.disk = s.disk) (hchanged : s'.changed = s.changed) : Coherent good m s' := by
  simp only [Buf.contents, Prod.mk.injEq] at hbuf
  constructor
  · intro k hgood hclean
    rw [hdisk]
    apply h.disk k hgood
    intro b hb
    rw [← (hbuf b).2.2.1]
    exact hclean b ((hbuf b).1.trans hb)
  · intro b k hgood hb hvalid hout
    rw [(hbuf b).2.2.2]
    rw [(hbuf b).1] at hb
    rw [(hbuf b).2.1] at hvalid
    rw [hchanged] at hout
    exact h.data b k hgood hb hvalid hout

theorem contents_setBuf (s : State ι) (b : Fin nbuf) {x : Buf}
    (hx : x.contents = (s.buf b).contents) (b' : Fin nbuf) :
    ((s.setBuf b x).buf b').contents = (s.buf b').contents := by
  rcases eq_or_ne b' b with rfl | hne
  · simpa [State.setBuf] using hx
  · simp [State.setBuf, hne]

theorem modify (h : Coherent good m s) (d : Block) : Coherent good m (s.modify b d) := by
  constructor
  · intro k hgood hclean
    apply h.disk k hgood
    intro b' hb'
    rcases eq_or_ne b' b with rfl | hne
    · simpa [State.modify, State.setBuf, hb'] using hclean b'
    · simpa [State.modify, State.setBuf, hne, hb'] using hclean b'
  · intro b' k hgood hb' hvalid hout
    have hne : b' ≠ b := by
      rintro rfl
      exact hout (Finset.mem_insert_self _ _)
    have hout' : b' ∉ s.changed := fun hmem => hout (Finset.mem_insert_of_mem hmem)
    simp only [State.modify, State.setBuf, Function.update_of_ne hne] at hb' hvalid ⊢
    exact h.data b' k hgood hb' hvalid hout'

/-- The data of the buffer is now the latest. -/
theorem mark (h : Coherent good m s) (hsound : Sound s) (hk : (s.buf b).key = some k) :
    Coherent good (Function.update m k (s.buf b).data) (s.mark b) := by
  constructor
  · intro k' hgood hclean
    have hne : k' ≠ k := by
      rintro rfl
      have hdirty := hclean b (by simpa [State.mark, State.setBuf] using hk)
      simp [State.mark, State.setBuf] at hdirty
    rw [Function.update_of_ne hne]
    apply h.disk k' hgood
    intro b' hb'
    have hb : b' ≠ b := by
      rintro rfl
      exact hne (Option.some.inj (hb'.symm.trans hk))
    simpa [State.mark, State.setBuf, hb, hb'] using hclean b'
  · intro b' k' hgood hb' hvalid hout
    rcases eq_or_ne b' b with rfl | hne
    · have hk' : k = k' := by simpa [State.mark, State.setBuf, hk] using hb'
      simp [State.mark, State.setBuf, ← hk']
    · simp only [State.mark, State.setBuf, Function.update_of_ne hne] at hb' hvalid ⊢
      have hkk : k' ≠ k := by
        rintro rfl
        exact hne (hsound.unique b' b k' hb' hk)
      rw [Function.update_of_ne hkk]
      apply h.data b' k' hgood hb' hvalid
      exact fun hmem => hout (Finset.mem_erase.mpr ⟨hne, hmem⟩)

/-- The data of the buffer goes to the disk. -/
theorem flush (h : Coherent good m s) (hk : (s.buf b).key = some k)
    (hvalid : (s.buf b).valid = true) (hdirty : (s.buf b).dirty = true) (hout : b ∉ s.changed)
    (queue : List (Fin nbuf)) {ok : Bool} (hok : good k → ok = true) :
    Coherent good m (s.complete b queue ok) := by
  rw [State.complete, if_pos hdirty, hk]
  constructor
  · intro k' hgood hclean
    rcases eq_or_ne k' k with rfl | hne
    · simpa [hok hgood] using h.data b k' hgood hk hvalid hout
    · have hdisk : s.disk k' = m k' := h.disk k' hgood fun b' hb' => by
        have hb : b' ≠ b := by
          rintro rfl
          exact hne (Option.some.inj (hb'.symm.trans hk))
        simpa [State.setBuf, hb, hb'] using hclean b'
      cases ok with
      | true => exact (Function.update_of_ne hne _ _).trans hdisk
      | false => exact hdisk
  · intro b' k' hgood hb' hvalid' hout'
    rcases eq_or_ne b' b with rfl | hne
    · obtain rfl : k = k' := by simpa [State.setBuf, hk] using hb'
      simpa [State.setBuf] using h.data b' k hgood hk hvalid hout
    · simp only [State.setBuf, Function.update_of_ne hne] at hb' hvalid' ⊢
      exact h.data b' k' hgood hb' hvalid' hout'

/-- The data of the buffer comes from the disk. -/
theorem fill (h : Coherent good m s) (hsound : Sound s) (hk : (s.buf b).key = some k)
    (hdirty : (s.buf b).dirty = false) (queue : List (Fin nbuf)) {ok : Bool}
    (hok : good k → ok = true) : Coherent good m (s.complete b queue ok) := by
  have hdisk : good k → s.disk k = m k := by
    intro hgood
    apply h.disk k hgood
    intro b' hb'
    rwa [hsound.unique b' b k hb' hk]
  rw [State.complete, if_neg (by simp [hdirty]), hk]
  constructor
  · intro k' hgood hclean
    apply h.disk k' hgood
    intro b' hb'
    rcases eq_or_ne b' b with rfl | hne
    · exact hdirty
    · simpa [State.setBuf, hne, hb'] using hclean b'
  · intro b' k' hgood hb' hvalid' hout'
    rcases eq_or_ne b' b with rfl | hne
    · obtain rfl : k = k' := by simpa [State.setBuf, hk] using hb'
      simpa [State.setBuf, hok hgood] using hdisk hgood
    · simp only [State.setBuf, Function.update_of_ne hne] at hb' hvalid' ⊢
      exact h.data b' k' hgood hb' hvalid' hout'

theorem complete (h : Coherent good m s) (hsound : Sound s) {queue : List (Fin nbuf)}
    (hq : s.queue = b :: queue) {ok : Bool}
    (hok : ∀ k, (s.buf b).key = some k → good k → ok = true) :
    Coherent good m (s.complete b queue ok) := by
  have hqueued : (s.view b).queued := by simp [State.view, hq]
  obtain ⟨p, r, howned, hr⟩ := (hsound.buffers b).owned_of_queued hqueued
  rcases hr with rfl | ⟨k, rfl⟩
  · obtain ⟨hkey, hvalid, hdirty, hout⟩ := howned.fits
    obtain ⟨k, hk⟩ := Option.ne_none_iff_exists'.mp hkey
    exact h.flush hk hvalid (hdirty.mp hqueued) hout queue (hok k hk)
  · obtain ⟨hk, hdirty, -, -⟩ := howned.fits
    exact h.fill hsound hk hdirty queue (hok k hk)

variable [DecidableEq ι]

theorem recycle (h : Coherent good m s) (hdirty : (s.buf b).dirty = false) :
    Coherent good m (s.recycle p k b) := by
  constructor
  · intro k' hgood hclean
    apply h.disk k' hgood
    intro b' hb'
    rcases eq_or_ne b' b with rfl | hne
    · exact hdirty
    · simpa [State.recycle, State.goto, State.setBuf, hne, hb'] using hclean b'
  · intro b' k' hgood hb' hvalid hout
    have hne : b' ≠ b := by
      rintro rfl
      simp [State.recycle, State.goto, State.setBuf] at hvalid
    simp only [State.recycle, State.goto, State.setBuf, Function.update_of_ne hne]
      at hb' hvalid ⊢
    exact h.data b' k' hgood hb' hvalid hout

theorem effect {e : Event} (h : Coherent good m s) (hsound : Sound s) (heffect : Effect s e s')
    (hgood : ∀ k, good k → e ≠ .failed (some k)) : Coherent good (e.store m) s' := by
  cases heffect with
  | call hpc | sleep hpc hk hbusy | wake hpc | written hpc hdirty | fetch hpc hvalid =>
      exact h.congr (fun _ => rfl) rfl rfl
  | deliver hpc hvalid => exact h.congr (fun _ => rfl) rfl rfl
  | take hpc hk hbusy => exact h.congr (contents_setBuf s _ rfl) rfl rfl
  | recycle hpc hk hb hbusy hdirty => exact h.recycle hdirty
  | modify huses => exact h.modify _
  | mark huses =>
      obtain ⟨k, hk⟩ := Option.ne_none_iff_exists'.mp (hsound.owned_of_uses huses).fits.1
      have hmarked := h.mark hsound hk
      simp only [State.view] at hk
      rw [hk]
      exact hmarked
  | write huses =>
      obtain ⟨k, hk⟩ := Option.ne_none_iff_exists'.mp (hsound.owned_of_uses huses).fits.1
      have hmarked := h.mark hsound hk
      simp only [State.view] at hk
      rw [hk]
      exact hmarked.congr (fun _ => rfl) rfl rfl
  | release huses hchanged => exact h.congr (contents_setBuf s _ rfl) rfl rfl
  | complete hq ok =>
      cases ok with
      | true => exact h.complete hsound hq fun _ _ _ => rfl
      | false =>
          refine h.complete hsound hq fun k hk hk' => absurd ?_ (hgood k hk')
          rw [if_neg Bool.false_ne_true, hk]

end Coherent

/-- The circle, in the order of the last releases. -/
def Ordered (l : List (Fin nbuf)) (s : State ι) : Prop :=
  s.links.Circle l ∧ l.Nodup ∧ ∀ b, b ∈ l

section

variable [DecidableEq ι] {disk : Key → Block} {es : List Event}

theorem Ordered.release {l : List (Fin nbuf)} (h : Ordered l s) (p : ι) (b : Fin nbuf) :
    Ordered (b :: l.erase b) (s.release p b) := by
  obtain ⟨hl, hnodup, hall⟩ := h
  obtain ⟨l₁, l₂, rfl⟩ := List.append_of_mem (hall b)
  obtain ⟨hb, hrest⟩ := List.nodup_cons.mp (List.nodup_middle.mp hnodup)
  have hb₁ : b ∉ l₁ := fun hmem => hb (List.mem_append_left _ hmem)
  have herase : (l₁ ++ b :: l₂).erase b = l₁ ++ l₂ := by
    rw [List.erase_append_right _ hb₁, List.erase_cons_head]
  rw [herase]
  refine ⟨(hl.unlink hnodup).push hrest hb, List.nodup_cons.mpr ⟨hb, hrest⟩, fun b' => ?_⟩
  have hmem := hall b'
  simp only [List.mem_append, List.mem_cons] at hmem ⊢
  tauto

theorem Ordered.effect {l : List (Fin nbuf)} {e : Event} (h : Ordered l s)
    (heffect : Effect s e s') : Ordered (e.touch l) s' := by
  cases heffect with
  | release huses hchanged => exact h.release _ _
  | complete hq ok =>
      rename_i b queue
      have htouch : (if ok then Event.silent else .failed (s.buf b).key).touch l = l := by
        cases ok <;> rfl
      unfold Ordered
      rw [s.complete_links, htouch]
      exact h
  | _ => exact h

/-- All that is known after some steps. -/
theorem run_invariants (hrun : Run Step (fun _ => True) (boot disk : State ι) es s) :
    Sound s ∧ Coherent (fun k => .failed (some k) ∉ es) (latest disk es) s ∧
      Ordered (recency es) s := by
  apply hrun.history (J := fun es s => Sound s ∧
    Coherent (fun k => .failed (some k) ∉ es) (latest disk es) s ∧ Ordered (recency es) s)
  · rintro gs t e u - - ⟨hsound, hcoherent, hordered⟩ hstep
    have heffect := hstep.effect hsound
    have hbefore : Coherent (fun k => .failed (some k) ∉ gs ++ [e]) (latest disk gs) t :=
      hcoherent.mono fun k hk hin => hk (List.mem_append_left _ hin)
    rw [latest_append, recency_append]
    refine ⟨hsound.effect heffect, hbefore.effect hsound heffect fun k hk heq => ?_,
      hordered.effect heffect⟩
    exact hk (heq ▸ List.mem_append_right _ (List.mem_singleton_self _))
  · refine ⟨boot_sound disk, ⟨fun _ _ _ => rfl, fun b k _ hb => by cases hb⟩, boot_circle disk,
      ?_, ?_⟩
    · simp [recency, List.nodup_finRange]
    · simp [recency]

/-- A process that `bread` is about to serve finds the latest data in the buffer. -/
theorem Coherent.got {d : Block} (h : Coherent good m s) (hsound : Sound s) (hgood : good k)
    (heffect : Effect s (.got k d) s') : d = m k := by
  generalize he : Event.got k d = e at heffect
  cases heffect with
  | deliver hpc hvalid =>
      rename_i p b k'
      obtain ⟨rfl, rfl⟩ := Event.got.inj he
      obtain ⟨r, hk, hout⟩ : ∃ r : Role, (s.buf b).key = some k ∧ b ∉ s.changed := by
        rcases hpc with hpc | hpc
        · have howned : (s.view b).Owned p (.got k) := by
            refine (hsound.buffers b).owned_of_stage ?_ (by simp)
            simp [State.view, hpc, Pc.stage, Role.stage]
          exact ⟨.got k, howned.fits.1, howned.fits.2.2.2⟩
        · have howned : (s.view b).Owned p (.reading k) := by
            refine (hsound.buffers b).owned_of_stage ?_ (by simp)
            simp [State.view, hpc, Pc.stage, Role.stage]
          exact ⟨.reading k, howned.fits.1, howned.fits.2.2.2⟩
      exact h.data b k hgood hk hvalid hout
  | complete hq ok => cases ok <;> cases he
  | _ => cases he

/-- In every run `bread` returns what was last passed to `bwrite` or `log_write`, and the
disk holds that for every sector that no dirty buffer holds; both for the sectors for which
the disk has reported no error. -/
theorem bread_returns_latest (hrun : Run Step (fun _ => True) (boot disk : State ι) es s) :
    (∀ gs hs k d, es = gs ++ .got k d :: hs → .failed (some k) ∉ gs → d = latest disk gs k) ∧
      ∀ k, .failed (some k) ∉ es →
        (∀ b, (s.buf b).key = some k → (s.buf b).dirty = false) → s.disk k = latest disk es k := by
  refine ⟨?_, (run_invariants hrun).2.1.disk⟩
  rintro gs hs k d rfl hgood
  obtain ⟨t, t', hbefore, hstep, -⟩ := hrun.at_label
  obtain ⟨hsound, hcoherent, -⟩ := run_invariants hbefore
  exact hcoherent.got hsound hgood (hstep.effect hsound)

theorem bread_returns_latest_logged : ∃ (gs : List Event) (s : State Bool),
    Run Step (fun _ => True) (boot fun _ => Block.zero) (gs ++ [.got (1, 7) fun _ => 1]) s ∧
      .failed (some (1, 8)) ∈ gs ∧ (fun _ => 1) = latest (fun _ => Block.zero) gs (1, 7) := by
  obtain ⟨s, hs⟩ : ∃ s, (boot (fun _ => Block.zero) : State Bool).play
      [.bread true (1, 8), .run true, .run true, .ideintr false, .run true, .brelse true 0,
        .bread true (1, 7), .run true, .run true, .ideintr true, .run true,
        .modify true 1 fun _ => 1, .logWrite true 1, .brelse true 1,
        .bread false (1, 7), .run false, .run false] =
      some ([.silent, .recycled 0, .silent, .failed (some (1, 8)), .got (1, 8) Block.zero,
        .released 0, .silent, .recycled 1, .silent, .silent, .got (1, 7) Block.zero, .silent,
        .put (some (1, 7)) fun _ => 1, .released 1, .silent, .silent] ++
          [.got (1, 7) fun _ => 1], s) := ⟨_, rfl⟩
  have hrun := run_of_play hs
  exact ⟨_, s, hrun, by simp, (bread_returns_latest hrun).1 _ [] _ _ rfl (by simp)⟩

/-- No sector is cached twice, no buffer has two owners, and a process that sleeps in `bget`
waits for the owner of the buffer of its sector. -/
theorem buffers_apart (hrun : Run Step (fun _ => True) (boot disk : State ι) es s) :
    (∀ b b' k, (s.buf b).key = some k → (s.buf b').key = some k → b = b') ∧
      (∀ p q b, s.Owns p b → s.Owns q b → p = q) ∧
      ∀ p b k, s.pc p = .asleep b k → (s.buf b).key = some k ∧ ∃ q, s.Owns q b := by
  obtain ⟨hsound, -, -⟩ := run_invariants hrun
  refine ⟨hsound.unique, fun p q b hp hq => ?_, fun p b k hpc => ?_⟩
  · obtain ⟨r, howned⟩ := hsound.owned_of_owns hp
    obtain ⟨r', howned'⟩ := hsound.owned_of_owns hq
    exact howned.unique howned'
  · have hstage : (s.view b).stage p = some (.asleep k) := by simp [State.view, hpc, Pc.stage]
    obtain ⟨hk, q, r, howned⟩ := (hsound.buffers b).owned_of_asleep hstage
    exact ⟨hk, q, State.owns_of_owned howned⟩

theorem buffers_apart_waiting : ∃ (es : List Event) (s : State Bool),
    Run Step (fun _ => True) (boot fun _ => Block.zero) es s ∧
      s.pc false = .asleep 0 (1, 7) ∧ ∃ q, s.Owns q 0 := by
  obtain ⟨es, s, hs, hpc⟩ : ∃ es s, (boot (fun _ => Block.zero) : State Bool).play
      [.bread true (1, 7), .run true, .bread false (1, 7), .run false] = some (es, s) ∧
        s.pc false = .asleep 0 (1, 7) := ⟨_, _, rfl, rfl⟩
  have hrun := run_of_play hs
  exact ⟨es, s, hrun, hpc, ((buffers_apart hrun).2.2 _ _ _ hpc).2⟩

/-- The only panic is that of `bget`, when each buffer is in use or dirty and none has the
sector. -/
theorem panics_without_buffers (hrun : Run Step (fun _ => True) (boot disk : State ι) es s)
    (a : Action ι) (x : Panic) :
    s.step a = .panic x ↔
      x = .bgetNoBuffers ∧ ∃ p k, a = .run p ∧ s.pc p = .bget k ∧ s.Full k :=
  (run_invariants hrun).1.panic_iff a x

theorem panics_without_buffers_full : ∃ (es : List Event) (s : State Unit),
    Run Step (fun _ => True) (boot fun _ => Block.zero) es s ∧ ∃ k, s.Full k := by
  obtain ⟨es, s, hs, hpanic⟩ : ∃ es s, (boot (fun _ => Block.zero) : State Unit).play
      (((List.finRange nbuf).flatMap fun b =>
        [.bread () (1, b.val), .run (), .run (), .ideintr true, .run ()]) ++ [.bread () (2, 0)]) =
          some (es, s) ∧ s.step (.run ()) = .panic .bgetNoBuffers := ⟨_, _, rfl, rfl⟩
  have hrun := run_of_play hs
  obtain ⟨-, p, k, -, -, hfull⟩ := (panics_without_buffers hrun _ _).mp hpanic
  exact ⟨es, s, hrun, k, hfull⟩

/-- The buffer that `bget` takes for another sector is clean, and all that have been released
before it are in use or dirty. -/
theorem eviction_least_recent {b : Fin nbuf}
    (hrun : Run Step (fun _ => True) (boot disk : State ι) es s)
    (hstep : Step s (.recycled b) s') :
    (s.buf b).busy = false ∧ (s.buf b).dirty = false ∧
      ∃ newer older, recency es = newer ++ b :: older ∧
        ∀ b' ∈ older, (s.buf b').busy = true ∨ (s.buf b').dirty = true := by
  obtain ⟨hsound, -, hl, hnodup, hall⟩ := run_invariants hrun
  have heffect := hstep.effect hsound
  generalize he : Event.recycled b = e at heffect
  cases heffect with
  | recycle hpc hk hvictim hbusy hdirty =>
      obtain rfl := Event.recycled.inj he
      refine ⟨hbusy, hdirty, ?_⟩
      have hlength : (recency es).length ≤ nbuf := by
        have hcard := List.Nodup.length_le_card hnodup
        rwa [Fintype.card_fin] at hcard
      have hfind := (hl.search_prev _ hlength).symm.trans hvictim
      obtain ⟨-, before, after, hsplit, hbefore⟩ := List.find?_eq_some_iff_append.mp hfind
      refine ⟨after.reverse, before.reverse, ?_, fun b' hb' => ?_⟩
      · rw [← List.reverse_reverse (recency es), hsplit]
        simp
      · have hnot := hbefore b' (List.mem_reverse.mp hb')
        by_cases hb : (s.buf b').busy = true
        · exact .inl hb
        · exact .inr (by simpa [hb] using hnot)
  | complete hq ok => cases ok <;> cases he
  | _ => cases he

theorem eviction_least_recent_second : ∃ (es : List Event) (s s' : State Bool),
    Run Step (fun _ => True) (boot fun _ => Block.zero) es s ∧ Step s (.recycled 1) s' ∧
      ∃ newer older, recency es = newer ++ 1 :: older ∧
        ∀ b ∈ older, (s.buf b).busy = true ∨ (s.buf b).dirty = true := by
  obtain ⟨es, s, s', hs, hstep⟩ : ∃ es s s', (boot (fun _ => Block.zero) : State Bool).play
      [.bread true (1, 7), .run true, .bread false (1, 8)] = some (es, s) ∧
        s.step (.run false) = .next (.recycled 1) s' := ⟨_, _, _, rfl, rfl⟩
  have hrun := run_of_play hs
  have hrecycled : Step s (.recycled 1) s' := ⟨_, hstep⟩
  exact ⟨es, s, s', hrun, hrecycled, (eviction_least_recent hrun hrecycled).2.2⟩

end

end Xv6.Cache
