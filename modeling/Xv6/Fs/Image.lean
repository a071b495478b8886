import Xv6.Fs.Append
import Xv6.Fs.Resolve

/-!
# The image agrees with the kernel

What `mkfs` builds is a list of inodes: the root directory and the files, in the order of
the command line.  The kernel finds all of them, unless the entries of the root directory
fill its last block: then the size that `mkfs` gives to the directory asks for one block
more than it has.
-/

namespace Xv6.Fs

open Support

namespace Mkfs

/-- The contents of a file on the host. -/
def HostFile.bytes (f : HostFile) : List UInt8 :=
  f.chunks.flatten

/-- The entries of the root directory. -/
def rootEntries (files : List HostFile) : List (List UInt8 × ℕ) :=
  ([46], 1) :: ([46, 46], 1) :: files.mapIdx fun j f => (skipUnderscore f.name, j + 2)

/-- The bytes of the root directory, as they have been appended. -/
def rootBytes (files : List HostFile) : List UInt8 :=
  (rootEntries files).flatMap fun e => direntBytes e.1 e.2

/-- The inodes of the image, from number 1 on: their types and contents. -/
def contentsOf (files : List HostFile) : List (ℤ × List UInt8) :=
  (tDir, rootBytes files) :: files.map fun f => (tFile, f.bytes)

/-- The image holds the inodes `fs`. -/
structure Holding (fs : List (ℤ × List UInt8)) (s : Image) : Prop where
  next : s.freeinode = fs.length + 1
  counted : s.usedblocks = s.freeblock
  few : fs.length < geometry.ninodes
  types : ∀ f ∈ fs, f.1 = tFile ∨ f.1 = tDir
  unused : ∀ i, fs.length < i → s.dinode i = Dinode.zero
  sound : s.Fits → s.Sound
  stores : s.Fits → ∀ j t bs, fs[j]? = some (t, bs) → Stores s (j + 1) t bs

section

variable {s : Image} {fs gs : List (ℤ × List UInt8)} {type : ℤ} {bs p : List UInt8}

theorem Holding.allocated (h : Holding fs s) (hf : s.Fits) {j : ℕ} :
    s.disk.Allocated (j + 1) ↔ j < fs.length := by
  constructor
  · rintro ⟨-, -, htype⟩
    by_contra hj
    refine htype ?_
    change (s.dinode (j + 1)).type = 0
    rw [h.unused _ (by omega)]
    rfl
  · intro hj
    have hget : fs[j]? = some (fs[j].1, fs[j].2) := List.getElem?_eq_getElem hj
    have hfew := h.few
    refine ⟨Nat.succ_pos j, by change j + 1 < geometry.ninodes; omega, ?_⟩
    change (s.dinode (j + 1)).type ≠ 0
    rw [(h.stores hf j _ _ hget).type]
    rcases h.types _ (List.getElem_mem hj) with ht | ht <;> rw [ht] <;> decide

/-- `ialloc` adds an inode at the end. -/
theorem ialloc_spec (h : Holding fs s) (hfew : fs.length + 1 < geometry.ninodes)
    (htype : type = tFile ∨ type = tDir) :
    Exec.wlp (ialloc type) (fun i s' => i = fs.length + 1 ∧ Holding (fs ++ [(type, [])]) s') s := by
  unfold ialloc winode
  simp only [Exec.wp_bind, Exec.wp_gets, Exec.wp_modify, Exec.wp_pure]
  have hnone : s.dinode (fs.length + 1) = Dinode.zero := h.unused _ (Nat.lt_succ_self _)
  have hself : Function.update s.dinode (fs.length + 1)
      { Dinode.zero with type := type, nlink := 1 } (fs.length + 1) =
      { Dinode.zero with type := type, nlink := 1 } := Function.update_self _ _ _
  have hother {i : ℕ} (hi : i ≠ fs.length + 1) : Function.update s.dinode (fs.length + 1)
      { Dinode.zero with type := type, nlink := 1 } i = s.dinode i := Function.update_of_ne hi _ _
  rw [h.next]
  refine ⟨rfl, ?_, h.counted, ?_, ?_, fun i hi => ?_, fun hf => ?_, fun hf j t bs hj => ?_⟩
  · rw [List.length_append]
    rfl
  · rw [List.length_append]
    exact hfew
  · intro f hf
    rw [List.mem_append, List.mem_singleton] at hf
    rcases hf with hf | rfl
    · exact h.types f hf
    · exact htype
  · rw [List.length_append, List.length_singleton] at hi
    change Function.update s.dinode _ _ i = _
    rw [hother (by omega), h.unused i (by omega)]
  · have hs := h.sound hf
    refine ⟨⟨hs.clear.low, hs.clear.zero⟩, hs.owned.born (fun hi => ?_) rfl rfl rfl fun _ _ => rfl⟩
    exact lt_irrefl _ ((h.allocated hf).mp hi)
  · by_cases hlt : j < fs.length
    · rw [List.getElem?_append_left hlt] at hj
      have hst := h.stores hf j t bs hj
      have hkeep := hother (show j + 1 ≠ fs.length + 1 by omega)
      constructor
      · exact (congrArg Dinode.type hkeep).trans hst.type
      · exact (congrArg Dinode.nlink hkeep).trans hst.nlink
      · exact (congrArg Dinode.size hkeep).trans hst.size
      · intro x hx
        change fileByte (Function.update s.dinode _ _ _).addrs s.block x = _
        rw [hkeep]
        exact hst.byte x hx
    · obtain ⟨hlast, htype', hbs⟩ : j = fs.length ∧ type = t ∧ [] = bs := by
        rw [List.getElem?_append_right (not_lt.mp hlt), List.getElem?_singleton] at hj
        split at hj
        · cases hj
          exact ⟨by omega, rfl, rfl⟩
        · cases hj
      subst hlast htype' hbs
      constructor
      · exact congrArg Dinode.type hself
      · exact congrArg Dinode.nlink hself
      · exact congrArg Dinode.size hself
      · intro x _
        change fileByte (Function.update s.dinode _ _ _).addrs s.block x = _
        rw [hself]
        refine if_pos ?_
        by_cases ha : place (x / 512) ≤ 12
        · rw [refAt_of_le ha]
          rfl
        · exact (refAt_of_gt (not_le.mp ha)).trans (if_pos rfl)

/-- `iappend` to the inode after those of `fs`. -/
theorem iappend_holding (h : Holding (fs ++ (type, bs) :: gs) s) :
    Exec.wlp (iappend (fs.length + 1) p)
      (fun _ s' => Holding (fs ++ (type, bs ++ p) :: gs) s') s := by
  have hlen : (fs ++ (type, bs ++ p) :: gs).length = (fs ++ (type, bs) :: gs).length := by
    simp only [List.length_append, List.length_cons]
  have hself : (fs ++ (type, bs) :: gs)[fs.length]? = some (type, bs) := by
    rw [List.getElem?_append_right le_rfl, Nat.sub_self]
    rfl
  have hother {j : ℕ} (hj : j ≠ fs.length) :
      (fs ++ (type, bs ++ p) :: gs)[j]? = (fs ++ (type, bs) :: gs)[j]? := by
    by_cases hlt : j < fs.length
    · rw [List.getElem?_append_left hlt, List.getElem?_append_left hlt]
    · obtain ⟨n, hn⟩ : ∃ n, j - fs.length = n + 1 := ⟨j - fs.length - 1, by omega⟩
      rw [List.getElem?_append_right (by omega), List.getElem?_append_right (by omega), hn]
      rfl
  have hin : fs.length < (fs ++ (type, bs) :: gs).length := by
    rw [List.length_append, List.length_cons]
    omega
  have htype : type = tFile ∨ type = tDir := h.types (type, bs) (by simp)
  have hfew := h.few
  apply Exec.wlp_mono (iappend_spec h.sound (fun hf => h.stores hf _ _ _ hself) htype
    ⟨Nat.succ_pos _, by omega⟩)
  intro _ s' hext
  have hfits (hf : s'.Fits) : s.Fits := hext.grows.trans hf
  refine ⟨?_, ?_, ?_, ?_, fun i hi => ?_, fun hf => ⟨hext.clear hf, (hext.grown hf).owned⟩,
    fun hf j t bs' hj => ?_⟩
  · rw [hext.freeinode, h.next, hlen]
  · have h₁ := hext.counted
    have h₂ := h.counted
    omega
  · rw [hlen]
    exact hfew
  · intro f hf
    rw [List.mem_append, List.mem_cons] at hf
    rcases hf with hf | rfl | hf
    · exact h.types f (by simp [hf])
    · exact htype
    · exact h.types f (by simp [hf])
  · rw [hlen] at hi
    rw [hext.other i (by omega)]
    exact h.unused i hi
  · by_cases hjn : j = fs.length
    · have hnew : (fs ++ (type, bs ++ p) :: gs)[fs.length]? = some (type, bs ++ p) := by
        rw [List.getElem?_append_right le_rfl, Nat.sub_self]
        rfl
      subst hjn
      rw [hnew] at hj
      cases hj
      exact (hext.grown hf).stores
    · rw [hother hjn] at hj
      have hst := h.stores (hfits hf) j t bs' hj
      have hne : j + 1 ≠ fs.length + 1 := by omega
      have hkeep := hext.other (j + 1) hne
      have halloc := (h.allocated (hfits hf)).mpr (List.getElem?_eq_some_iff.mp hj).1
      constructor
      · rw [hkeep]
        exact hst.type
      · rw [hkeep]
        exact hst.nlink
      · rw [hkeep]
        exact hst.size
      · intro x hx
        rw [(hext.grown hf).kept (j + 1) hne halloc x hx]
        exact hst.byte x hx

end

section

variable {s : Image} {files : List HostFile}

theorem rootEntries_append (files : List HostFile) (f : HostFile) :
    rootEntries (files ++ [f]) = rootEntries files ++ [(skipUnderscore f.name, files.length + 2)] := by
  unfold rootEntries
  rw [List.mapIdx_concat]
  rfl

theorem rootBytes_append (files : List HostFile) (f : HostFile) :
    rootBytes (files ++ [f]) =
      rootBytes files ++ direntBytes (skipUnderscore f.name) (files.length + 2) := by
  unfold rootBytes
  rw [rootEntries_append, List.flatMap_append, List.flatMap_singleton]

/-- One round of the loop of `main` adds one file. -/
theorem addFile_spec {f : HostFile} (h : Holding (contentsOf files) s)
    (hfew : files.length + 2 < geometry.ninodes) :
    Exec.wlp (addFile f) (fun _ s' => Holding (contentsOf (files ++ [f])) s') s := by
  have hlen : (contentsOf files).length = files.length + 1 := by
    simp [contentsOf]
  unfold addFile
  split
  · exact Exec.wlp_throw
  · apply Exec.wlp_seq (ialloc_spec h (by omega) (Or.inl rfl))
    rintro _ s₁ ⟨rfl, h₁⟩
    rw [hlen]
    have hfirst : Holding ([] ++ (tDir, rootBytes files) ::
        (files.map (fun f => (tFile, f.bytes)) ++ [(tFile, [])])) s₁ := h₁
    have hroot : Exec.wlp
        (iappend rootino (direntBytes (skipUnderscore f.name) (files.length + 2)))
        (fun _ s' => Holding ([] ++ (tDir, rootBytes files ++
          direntBytes (skipUnderscore f.name) (files.length + 2)) ::
            (files.map (fun f => (tFile, f.bytes)) ++ [(tFile, [])])) s') s₁ :=
      iappend_holding hfirst
    apply Exec.wlp_seq hroot
    intro _ s₂ h₂
    rw [← rootBytes_append] at h₂
    set fs := (tDir, rootBytes (files ++ [f])) :: files.map fun f => (tFile, f.bytes) with hfs
    have hlast : fs.length + 1 = files.length + 2 := by
      simp [hfs]
    have hloop : Exec.wlp (Exec.each (fun buf => iappend (files.length + 2) buf) f.chunks)
        (fun _ s' => Holding (fs ++ [(tFile, f.chunks.flatten)]) s') s₂ := by
      apply Exec.wp_each (I := fun done t => Holding (fs ++ [(tFile, done.flatten)]) t) _ h₂
      intro done buf rest t _ ht
      rw [List.flatten_append, List.flatten_singleton, ← hlast]
      exact iappend_holding ht
    apply Exec.wlp_mono hloop
    intro _ s' h'
    have hall : contentsOf (files ++ [f]) = fs ++ [(tFile, f.chunks.flatten)] := by
      simp [contentsOf, hfs, HostFile.bytes]
    rw [hall]
    exact h'

theorem holding_empty : Holding [] Image.empty := by
  refine ⟨rfl, rfl, by decide, nofun, fun _ _ => rfl, fun _ => ⟨⟨le_rfl, fun _ _ => rfl⟩, ?_⟩,
    fun _ j t bs h => by cases h⟩
  have hnone : ∀ i, ¬Image.empty.disk.Allocated i := fun i hi => hi.2.2 rfl
  refine ⟨by decide, by decide, fun i j hi => absurd hi (hnone i), fun b => ?_,
    fun i hi => absurd hi (hnone i), fun i hi => absurd hi (hnone i),
    fun i hi => absurd hi (hnone i)⟩
  change decide (b < geometry.usedblocks) = true ↔ _
  rw [decide_eq_true_iff]
  constructor
  · exact fun hb => Or.inl hb
  · rintro (hb | ⟨i, hi, -⟩)
    · exact hb
    · exact absurd hi (hnone i)

/-- The size that `main` gives to the root directory in the end. -/
def rootSize (files : List HostFile) : ℕ :=
  ((rootBytes files).length / bsize + 1) * bsize

/-- What `mkfs` leaves on the disk. -/
def Formatted (files : List HostFile) (img : Image) : Prop :=
  ∃ s, Holding (contentsOf files) s ∧ s.usedblocks < 4096 ∧
    img.block = s.block ∧ img.bits = bitmap geometry s.usedblocks ∧
    img.dinode = Function.update s.dinode rootino
      { s.dinode rootino with size := rootSize files }

theorem main_spec (hcount : files.length ≤ geometry.ninodes - 2) :
    Exec.wlp (main files) (fun _ img => Formatted files img) Image.empty := by
  have hfew : geometry.ninodes = 200 := rfl
  unfold main
  apply Exec.wlp_seq (ialloc_spec holding_empty (by decide) (Or.inr rfl))
  rintro root s₀ ⟨hroot, h₀⟩
  obtain rfl : root = rootino := hroot
  rw [if_neg (not_not.mpr rfl)]
  have hdot : Exec.wlp (iappend rootino (direntBytes [46] rootino))
      (fun _ s' => Holding ([] ++ [(tDir, [] ++ direntBytes [46] rootino)]) s') s₀ :=
    iappend_holding h₀
  apply Exec.wlp_seq hdot
  intro _ s₁ h₁
  have hdotdot : Exec.wlp (iappend rootino (direntBytes [46, 46] rootino))
      (fun _ s' => Holding ([] ++ [(tDir, [] ++ direntBytes [46] rootino ++
        direntBytes [46, 46] rootino)]) s') s₁ :=
    iappend_holding h₁
  apply Exec.wlp_seq hdotdot
  intro _ s₂ h₂
  have hstart : Holding (contentsOf []) s₂ := by
    have heq : contentsOf [] = [] ++ [(tDir, [] ++ direntBytes [46] rootino ++
        direntBytes [46, 46] rootino)] := by
      simp [contentsOf, rootBytes, rootEntries]
    rw [heq]
    exact h₂
  have hloop : Exec.wlp (Exec.each addFile files)
      (fun _ s' => Holding (contentsOf files) s') s₂ := by
    apply Exec.wp_each (I := fun done t => Holding (contentsOf done) t) _ hstart
    intro done f rest t hsplit ht
    have hlen := congrArg List.length hsplit
    rw [List.length_append, List.length_cons] at hlen
    exact addFile_spec ht (by omega)
  apply Exec.wlp_seq hloop
  intro _ s h
  unfold winode balloc
  simp only [Exec.wp_bind, Exec.wp_gets, Exec.wp_modify]
  split
  · exact Exec.wlp_throw
  · rename_i hused
    have hlow : s.usedblocks < 4096 := not_le.mp hused
    have hcounted := h.counted
    have hfits : s.Fits := by
      change s.freeblock ≤ 25035
      omega
    have hst := h.stores hfits 0 tDir (rootBytes files) rfl
    refine Exec.wp_modify.mpr ⟨s, h, hlow, rfl, rfl, ?_⟩
    unfold rootSize
    rw [← hst.size]
    rfl

end

/-! ## The mounted image -/

/-- Inode `i` on disk has the given type and bytes, and a block for each of them. -/
structure OnDisk (v : Volume) (i : ℕ) (type : ℤ) (bs : List UInt8) : Prop where
  type : (v.dinode i).type = type
  nlink : (v.dinode i).nlink = 1
  length : bs.length ≤ 71680
  byte : ∀ x < 71680, fileByte (v.dinode i).addrs v.block x = bs.getD x 0
  present : ∀ bn < 140, v.dref i (place bn) ≠ 0 ↔ 512 * bn < bs.length

/-- The disk that the kernel finds. -/
structure Mounted (files : List HostFile) (v : Volume) : Prop where
  cache : ∀ k, (v.inode k).ref = 0
  count : files.length ≤ 198
  allocated : ∀ i, v.Allocated i ↔ 1 ≤ i ∧ i ≤ files.length + 1
  once : ∀ i j, v.Allocated i → v.Allocated j → ∀ a < 141, ∀ b < 141,
    v.dref i a ≠ 0 → v.dref i a = v.dref j b → i = j ∧ a = b
  inside : ∀ i, v.Allocated i → ∀ a < 141, v.dref i a ≠ 0 →
    v.dref i a ∈ dataBlocks geometry ∧ v.used (v.dref i a) = true
  root : OnDisk v rootino tDir (rootBytes files)
  padded : (v.dinode rootino).size = rootSize files
  file : ∀ j f, files[j]? = some f →
    OnDisk v (j + 2) tFile f.bytes ∧ (v.dinode (j + 2)).size = f.bytes.length

theorem Formatted.mounted {files : List HostFile} {img : Image} (h : Formatted files img)
    (hcount : files.length ≤ geometry.ninodes - 2) : Mounted files img.mount := by
  obtain ⟨s, hh, hused, hblock, hbits, hdinode⟩ := h
  have hfits : s.Fits := by
    have := hh.counted
    change s.freeblock ≤ 25035
    omega
  have hs := hh.sound hfits
  have hlen : (contentsOf files).length = files.length + 1 := by
    simp [contentsOf]
  have halloc' (i : ℕ) : s.disk.Allocated i ↔ 1 ≤ i ∧ i ≤ files.length + 1 := by
    constructor
    · intro hi
      obtain ⟨j, rfl⟩ : ∃ j, i = j + 1 := ⟨i - 1, by have := hi.1; omega⟩
      have := (hh.allocated hfits).mp hi
      omega
    · rintro ⟨hlow, hhigh⟩
      obtain ⟨j, rfl⟩ : ∃ j, i = j + 1 := ⟨i - 1, by omega⟩
      exact (hh.allocated hfits).mpr (by omega)
  have hother {i : ℕ} (hi : i ≠ rootino) : img.mount.dinode i = s.dinode i := by
    change img.dinode i = _
    rw [hdinode, Function.update_of_ne hi]
  have hroot : img.mount.dinode rootino = { s.dinode rootino with size := rootSize files } := by
    change img.dinode rootino = _
    rw [hdinode, Function.update_self]
  have haddrs (i : ℕ) : (img.mount.dinode i).addrs = (s.dinode i).addrs := by
    by_cases hi : i = rootino
    · rw [hi, hroot]
    · rw [hother hi]
  have htypes (i : ℕ) : (img.mount.dinode i).type = (s.dinode i).type := by
    by_cases hi : i = rootino
    · rw [hi, hroot]
    · rw [hother hi]
  have hdref (i a : ℕ) : img.mount.dref i a = s.disk.dref i a := by
    unfold Volume.dref
    rw [haddrs]
    change refAt _ img.block a = _
    rw [hblock]
    rfl
  have halloc (i : ℕ) : img.mount.Allocated i ↔ s.disk.Allocated i := by
    unfold Volume.Allocated
    rw [htypes]
    rfl
  have hdisk {j : ℕ} {t : ℤ} {bs : List UInt8} (hj : (contentsOf files)[j]? = some (t, bs)) :
      OnDisk img.mount (j + 1) t bs := by
    have hst := hh.stores hfits j t bs hj
    have hi := (hh.allocated hfits).mpr (List.getElem?_eq_some_iff.mp hj).1
    have ht := hh.types (t, bs) (List.mem_of_getElem? hj)
    refine ⟨(htypes _).trans hst.type, ?_, ?_, fun x hx => ?_, fun bn hbn => ?_⟩
    · by_cases hr : j + 1 = rootino
      · rw [hr, hroot]
        exact hr ▸ hst.nlink
      · rw [hother hr]
        exact hst.nlink
    · rw [← hst.size]
      exact hs.owned.sizes _ hi
    · rw [haddrs]
      change fileByte _ img.block x = _
      rw [hblock]
      exact hst.byte x hx
    · have hfull := hs.owned.full _ hi (hst.type.symm ▸ ht) bn hbn
      rw [hdref, hfull]
      change 512 * bn < (s.dinode (j + 1)).size ↔ _
      rw [hst.size]
  refine ⟨fun _ => rfl, hcount, fun i => (halloc i).trans (halloc' i), ?_, ?_, hdisk rfl, ?_,
    fun j f hj => ⟨hdisk ?_, ?_⟩⟩
  · intro i j hi hj a ha b hb h0 hab
    rw [hdref] at h0 hab
    rw [hdref] at hab
    exact hs.owned.once i j ((halloc i).mp hi) ((halloc j).mp hj) a ha b hb h0 hab
  · intro i hi a ha h0
    rw [hdref] at h0 ⊢
    have hi' := (halloc i).mp hi
    refine ⟨hs.owned.inside i hi' a ha h0, ?_⟩
    change (img.bits _).bit _ = true
    rw [hbits, bit_bitmap hused, hh.counted]
    exact hs.owned.dref_used hi' ha
  · rw [hroot]
  · change ((files.map fun f => (tFile, f.bytes))[j]?) = _
    rw [List.getElem?_map, hj]
    rfl
  · rw [hother (by unfold rootino; omega)]
    have hget : (contentsOf files)[j + 1]? = some (tFile, f.bytes) := by
      change ((files.map fun f => (tFile, f.bytes))[j]?) = _
      rw [List.getElem?_map, hj]
      rfl
    exact (hh.stores hfits (j + 1) tFile f.bytes hget).size

end Mkfs

end Xv6.Fs
