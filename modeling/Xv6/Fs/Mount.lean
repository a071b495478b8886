import Xv6.Fs.Image

/-!
# Mounting the image

The kernel on a disk that `mkfs` has written: which blocks it finds, and what a lookup in
the root directory followed by a read returns.
-/

namespace Xv6.Fs

open Support

/-- Every block that the size of an inode asks for is there, belongs to no other place, lies
in the data region and is marked used. -/
structure WellFormed (v : Volume) : Prop where
  present : ∀ i, v.Allocated i → ∀ bn, 512 * bn < (v.dinode i).size → v.dref i (place bn) ≠ 0
  distinct : ∀ i j, v.Allocated i → v.Allocated j → ∀ bn bm, 512 * bn < (v.dinode i).size →
    512 * bm < (v.dinode j).size → v.dref i (place bn) = v.dref j (place bm) → i = j ∧ bn = bm
  inside : ∀ i, v.Allocated i → ∀ bn, 512 * bn < (v.dinode i).size →
    v.dref i (place bn) ∈ dataBlocks Mkfs.geometry
  used : ∀ i, v.Allocated i → ∀ bn, 512 * bn < (v.dinode i).size →
    v.used (v.dref i (place bn)) = true

/-- Look up a name in the root directory, and read the whole file. -/
def readNamed (name : Chars) : FsM (Option (List UInt8)) := do
  let dp ← iget rootino
  ilock dp
  let found ← dirlookup dp name
  match found with
  | none => pure none
  | some (ip, _) => do
      iunlockput dp
      ilock ip
      let st ← getInode ip
      readi ip 0 st.size

namespace Mkfs

/-! ## The entries of the root directory -/

/-- A byte of a row of 16-byte entries. -/
theorem getD_flatMap {α : Type} {g : α → List UInt8} (hg : ∀ e, (g e).length = 16) (es : List α)
    (m : ℕ) {x : ℕ} (hx : x < 16) :
    (es.flatMap g).getD (16 * m + x) 0 = (es[m]?.map fun e => (g e).getD x 0).getD 0 := by
  induction es generalizing m with
  | nil => simp
  | cons e es ih =>
      rw [List.flatMap_cons]
      cases m with
      | zero =>
          rw [Nat.mul_zero, Nat.zero_add, List.getD_append _ _ _ _ (by rw [hg]; exact hx)]
          rfl
      | succ m =>
          have hsub : 16 * (m + 1) + x - (g e).length = 16 * m + x := by
            rw [hg]
            omega
          rw [List.getD_append_right _ _ _ _ (by rw [hg]; omega), hsub, ih]
          rfl

theorem length_direntBytes (name : List UInt8) (inum : ℕ) :
    (direntBytes name inum).length = 16 := by
  simp [direntBytes]

theorem length_rootEntries (files : List HostFile) :
    (rootEntries files).length = files.length + 2 := by
  simp [rootEntries]

theorem length_rootBytes (files : List HostFile) :
    (rootBytes files).length = 16 * (files.length + 2) := by
  unfold rootBytes
  rw [List.length_flatMap]
  simp only [length_direntBytes]
  rw [List.map_const', List.sum_replicate_nat, length_rootEntries, Nat.mul_comm]

/-- The root directory refers to its own inode and to those of the files. -/
theorem rootEntries_inum {files : List HostFile} {e : List UInt8 × ℕ} (he : e ∈ rootEntries files) :
    1 ≤ e.2 ∧ e.2 ≤ files.length + 1 := by
  unfold rootEntries at he
  rw [List.mem_cons, List.mem_cons, List.mem_mapIdx] at he
  rcases he with rfl | rfl | ⟨j, hj, rfl⟩
  · exact ⟨le_rfl, Nat.le_add_left 1 _⟩
  · exact ⟨le_rfl, Nat.le_add_left 1 _⟩
  · exact ⟨Nat.le_add_left 1 _, by omega⟩

section

variable {files : List HostFile} {v : Volume} {m : ℕ}

theorem Mounted.slot (h : Mounted files v) (hm : 16 * m + 16 ≤ 71680) :
    v.dslot rootino (16 * m) = Dirent.ofBytes ((List.range dirsize).map fun x =>
      ((rootEntries files)[m]?.map fun e => (direntBytes e.1 e.2).getD x 0).getD 0) := by
  unfold Volume.dslot
  congr 1
  apply List.map_congr_left
  intro x hx
  have hlt : x < 16 := List.mem_range.mp hx
  rw [h.root.byte _ (by omega)]
  exact getD_flatMap (fun e : List UInt8 × ℕ => length_direntBytes e.1 e.2) _ m hlt

theorem Mounted.slot_entry (h : Mounted files v) {e : List UInt8 × ℕ}
    (he : (rootEntries files)[m]? = some e) :
    v.dslot rootino (16 * m) = (newDirent (Chars.ofList e.1) e.2).stored := by
  have hlt := (List.getElem?_eq_some_iff.mp he).1
  rw [length_rootEntries] at hlt
  have hcount := h.count
  rw [h.slot (by omega), he]
  rfl

theorem Mounted.slot_past (h : Mounted files v) (hm : 16 * m + 16 ≤ 71680)
    (hpast : files.length + 2 ≤ m) : (v.dslot rootino (16 * m)).inum = 0 := by
  rw [h.slot hm, List.getElem?_eq_none (by rw [length_rootEntries]; exact hpast)]
  rfl

/-- The name of an entry, as `dirlookup` compares it. -/
def nameOf (e : List UInt8 × ℕ) : List UInt8 :=
  text (Chars.ofList e.1) dirsiz

theorem Mounted.holds_entry (h : Mounted files v) {e : List UInt8 × ℕ}
    (he : (rootEntries files)[m]? = some e) {t : List UInt8} :
    (v.dslot rootino (16 * m)).inum = e.2 ∧ (v.DiskHolds rootino t (16 * m) ↔ nameOf e = t) := by
  obtain ⟨hlow, hhigh⟩ := rootEntries_inum (List.mem_of_getElem? he)
  have hcount := h.count
  obtain ⟨hinum, hname⟩ : (newDirent (Chars.ofList e.1) e.2).stored.inum = e.2 ∧
      text (newDirent (Chars.ofList e.1) e.2).stored.name dirsiz =
        text (Chars.ofList e.1) dirsiz := newDirent_stored (by omega)
  have hslot := h.slot_entry he
  refine ⟨by rw [hslot, hinum], ?_⟩
  unfold Volume.DiskHolds nameOf
  rw [hslot, hinum, hname]
  exact and_iff_right (by omega)

/-- The number of slots of the root directory. -/
theorem Mounted.offsets_root (h : Mounted files v) : ∃ n, files.length + 2 ≤ n ∧ 16 * n ≤ 71680 ∧
    offsets (v.dinode rootino).size = (List.range n).map (dirsize * ·) := by
  have hcount := h.count
  have hlen := length_rootBytes files
  refine ⟨(rootSize files + 15) / 16, ?_, ?_, ?_⟩
  · unfold rootSize bsize
    omega
  · unfold rootSize bsize
    omega
  · rw [h.padded]
    rfl

/-- A lookup finds the first entry that has the name. -/
theorem Mounted.child_entry (h : Mounted files v) {e : List UInt8 × ℕ} {t : List UInt8}
    (he : (rootEntries files)[m]? = some e) (hname : nameOf e = t)
    (hfirst : ∀ m' < m, ∀ e', (rootEntries files)[m']? = some e' → nameOf e' ≠ t) :
    v.child rootino t = some e.2 := by
  obtain ⟨n, hn, -, hoffsets⟩ := h.offsets_root
  have hlt := (List.getElem?_eq_some_iff.mp he).1
  rw [length_rootEntries] at hlt
  have hrange : (List.range n).find? ((fun off => decide (v.DiskHolds rootino t off)) ∘
      (dirsize * ·)) = some m := by
    rw [List.find?_range_eq_some]
    refine ⟨decide_eq_true ((h.holds_entry he).2.mpr hname), List.mem_range.mpr (by omega),
      fun m' hm' => ?_⟩
    have hlt' : m' < (rootEntries files).length := by
      rw [length_rootEntries]
      omega
    have hget := List.getElem?_eq_getElem hlt'
    have hnot := mt (h.holds_entry hget).2.mp (hfirst m' hm' _ hget)
    exact congrArg not (decide_eq_false hnot)
  have hinum := (h.holds_entry (t := t) he).1
  unfold Volume.child
  rw [if_pos h.root.type, hoffsets, List.find?_map, hrange, Option.map_some, Option.map_some]
  exact congrArg some hinum

theorem Mounted.child_mem (h : Mounted files v) {t : List UInt8} {i : ℕ}
    (hchild : v.child rootino t = some i) : 1 ≤ i ∧ i ≤ files.length + 1 := by
  obtain ⟨n, -, hmax, hoffsets⟩ := h.offsets_root
  unfold Volume.child at hchild
  rw [if_pos h.root.type, hoffsets, Option.map_eq_some_iff] at hchild
  obtain ⟨off, hfind, rfl⟩ := hchild
  have hfound := List.find?_some hfind
  have hholds : v.DiskHolds rootino t off := of_decide_eq_true hfound
  obtain ⟨m, hm, rfl⟩ := List.mem_map.mp (List.mem_of_find?_eq_some hfind)
  have hlt := List.mem_range.mp hm
  by_cases hpast : files.length + 2 ≤ m
  · exact absurd (h.slot_past (by omega) hpast) hholds.1
  · have hlt' : m < (rootEntries files).length := by
      rw [length_rootEntries]
      omega
    have hget := List.getElem?_eq_getElem hlt'
    have hinum := (h.holds_entry (t := t) hget).1
    have hbound := rootEntries_inum (List.mem_of_getElem? hget)
    rw [← hinum] at hbound
    exact hbound

/-! ## The blocks -/

theorem Mounted.cases (h : Mounted files v) {i : ℕ} (hi : v.Allocated i) :
    i = rootino ∨ ∃ j f, i = j + 2 ∧ files[j]? = some f := by
  obtain ⟨hlow, hhigh⟩ := (h.allocated i).mp hi
  by_cases hroot : i = rootino
  · exact Or.inl hroot
  · have hne : i ≠ 1 := hroot
    have hlt : i - 2 < files.length := by omega
    exact Or.inr ⟨i - 2, files[i - 2], by omega, List.getElem?_eq_getElem hlt⟩

/-- The root directory has all its blocks unless its entries fill the last one. -/
theorem Mounted.present (h : Mounted files v) (hn : (files.length + 2) % 32 ≠ 0) {i : ℕ}
    (hi : v.Allocated i) {bn : ℕ} (hbn : 512 * bn < (v.dinode i).size) :
    bn < 140 ∧ v.dref i (place bn) ≠ 0 := by
  have hcount := h.count
  rcases h.cases hi with rfl | ⟨j, f, rfl, hj⟩
  · have hlen := length_rootBytes files
    rw [h.padded, rootSize, bsize, hlen] at hbn
    have hlt : bn < 140 := by omega
    refine ⟨hlt, (h.root.present bn hlt).mpr ?_⟩
    rw [hlen]
    omega
  · obtain ⟨hdisk, hsize⟩ := h.file j f hj
    rw [hsize] at hbn
    have hmax := hdisk.length
    have hlt : bn < 140 := by omega
    exact ⟨hlt, (hdisk.present bn hlt).mpr hbn⟩

theorem Mounted.wellFormed_iff (h : Mounted files v) :
    WellFormed v ↔ (files.length + 2) % 32 ≠ 0 := by
  constructor
  · intro hw hn
    have hroot : v.Allocated rootino := (h.allocated rootino).mpr ⟨le_rfl, Nat.le_add_left 1 _⟩
    have hlen := length_rootBytes files
    have hcount := h.count
    have hbn : 512 * ((files.length + 2) / 32) < (v.dinode rootino).size := by
      rw [h.padded, rootSize, bsize, hlen]
      omega
    have hpresent := hw.present rootino hroot _ hbn
    rw [h.root.present _ (by omega), hlen] at hpresent
    omega
  · intro hn
    refine ⟨fun i hi bn hbn => (h.present hn hi hbn).2, ?_, fun i hi bn hbn => ?_,
      fun i hi bn hbn => ?_⟩
    · intro i j hi hj bn bm hbn hbm heq
      obtain ⟨hlt, hne⟩ := h.present hn hi hbn
      obtain ⟨hlt', -⟩ := h.present hn hj hbm
      obtain ⟨hij, hplace⟩ := h.once i j hi hj _ (place_lt hlt) _ (place_lt hlt') hne heq
      exact ⟨hij, place_injective hplace⟩
    · obtain ⟨hlt, hne⟩ := h.present hn hi hbn
      exact (h.inside i hi _ (place_lt hlt) hne).1
    · obtain ⟨hlt, hne⟩ := h.present hn hi hbn
      exact (h.inside i hi _ (place_lt hlt) hne).2

/-! ## Reading -/

/-- The inodes of the image are the ones that names lead to. -/
theorem Mounted.tree (h : Mounted files v) (hn : (files.length + 2) % 32 ≠ 0) :
    Tree v {i | v.Allocated i} := by
  have hcount := h.count
  have hdir {i : ℕ} (hi : v.Allocated i) (htype : (v.dinode i).type = tDir) : i = rootino := by
    rcases h.cases hi with hroot | ⟨j, f, rfl, hj⟩
    · exact hroot
    · rw [(h.file j f hj).1.type] at htype
      exact absurd htype (by decide)
  refine ⟨?_, ?_, ?_, ?_, fun i hi => hi.2.2, fun i hi => Or.inl ?_, ?_, ?_, ?_⟩
  · intro k hk
    rw [h.cache k] at hk
    exact absurd hk (lt_irrefl 0)
  · intro j k hj
    rw [h.cache j] at hj
    exact absurd hj (lt_irrefl 0)
  · intro k hk
    rw [h.cache k] at hk
    exact absurd hk (lt_irrefl 0)
  · exact (h.allocated rootino).mpr ⟨le_rfl, Nat.le_add_left 1 _⟩
  · rcases h.cases hi with rfl | ⟨j, f, rfl, hj⟩
    · rw [h.root.nlink]
      decide
    · rw [(h.file j f hj).1.nlink]
      decide
  · intro i hi htype
    have hlen := length_rootBytes files
    rw [hdir hi htype, h.padded, rootSize, bsize, hlen]
    omega
  · intro i hi _ bn _ hlt
    exact (h.present hn hi hlt).2
  · intro i hi t i' hchild
    have htype : (v.dinode i).type = tDir := by
      by_contra hne
      rw [Volume.child, if_neg hne] at hchild
      cases hchild
    rw [hdir hi htype] at hchild
    exact (h.allocated i').mpr (h.child_mem hchild)

end

end Mkfs

section

variable {v s : Volume} {T : Set ℕ} {i : ℕ} {j : Fin ninode}

/-- One entry of the cache is not needed by the two references that a lookup holds. -/
theorem Borrowed.vacant {lock : Fin ninode → Bool} (h : Borrowed v (hold noRef j) lock s)
    (hcache : ∀ k, (v.inode k).ref = 0) (i : ℕ) : s.Vacant i := by
  obtain ⟨k, hk⟩ := exists_ne j
  refine ⟨k, Or.inl ?_⟩
  rw [h.ref, hcache]
  simp [hold, noRef, hk]

theorem total_iget (h : s.Vacant i) :
    ∃ j s', iget i s = (.ok j, s') ∧ Got i s j s' := by
  have hspec : given (fun _ => True) (iget i) (fun j s' => Got i s j s') s := iget_spec fun _ => h
  exact Exec.wp_total (hspec.total fun _ => trivial)

/-- Look up a name in the root directory and read what it leads to. -/
theorem readNamed_run (ht : Tree v T) (hcache : ∀ k, (v.inode k).ref = 0) {name : Chars}
    (hroot : (v.dinode rootino).type = tDir)
    (hchild : v.child rootino (text name dirsiz) = some i)
    (hplain : (v.dinode i).type ≠ tDev) (hmax : (v.dinode i).size ≤ 71680)
    (hpresent : ∀ bn < 140, 512 * bn < (v.dinode i).size → v.dref i (place bn) ≠ 0) :
    (readNamed name v).1 = .ok (some (v.contents i)) := by
  have hin := ht.closed rootino ht.root _ i hchild
  obtain ⟨dp, s₁, hget₁, hgot₁⟩ := total_iget (s := v) (i := rootino)
    ⟨⟨0, by decide⟩, Or.inl (hcache _)⟩
  have hb₁ := ht.borrowed.get hgot₁
  have hone : 0 < hold noRef dp dp := by simp [hold]
  obtain ⟨s₂, hlock₂, hb₂, hinode₂, hinum₂⟩ := hb₁.visit ht hone hgot₁.inum_self ht.root
  have hlist := ht.listing ht.root hinode₂ hb₂.block_eq hroot
  have hfind := child_eq hinode₂ hb₂.block_eq hroot (text name dirsiz)
  rw [hchild] at hfind
  obtain ⟨off, hoff, hinum⟩ := Option.map_eq_some_iff.mp hfind.symm
  obtain ⟨ip, s₃, hget₃, hgot₃⟩ := total_iget (hb₂.vacant hcache i)
  have hb₃ := hb₂.get hgot₃
  rw [hold_comm] at hb₃
  have hdp : (s₃.inode dp).inum = rootino := by
    have href : 0 < (s₂.inode dp).ref := by
      rw [hb₂.ref]
      omega
    rw [hgot₃.kept href, hinum₂]
  obtain ⟨s₄, hput₄, hb₄, hinum₄⟩ := iunlockput_run hb₃ ht (hdp.symm ▸ ht.root)
  have hip : 0 < hold noRef ip ip := by simp [hold]
  obtain ⟨s₅, hlock₅, hb₅, hinode₅, -⟩ :=
    hb₄.visit ht hip ((hinum₄ ip).trans hgot₃.inum_self) hin
  have hlook : dirlookup dp name s₂ = (.ok (some (ip, off)), s₃) := by
    rw [dirlookup_some hlist hoff, hinum, Exec.bind_run_ok hget₃, Exec.pure_run]
  have hsize : (s₅.inode ip).size = (v.dinode i).size := by rw [hinode₅]
  have hfull : s₅.Full ip := by
    refine ⟨hsize.trans_le hmax, fun bn hbn hlt => ?_⟩
    rw [hsize] at hlt
    rw [Volume.ref, hinode₅, hb₅.block_eq]
    exact hpresent bn hbn hlt
  have hdev : (s₅.inode ip).type ≠ tDev := by
    rw [hinode₅]
    exact hplain
  have hcount : readCount (s₅.inode ip).size 0 (s₅.inode ip).size = some (s₅.inode ip).size := by
    have hwrap := wrap32_of_lt (show 0 + (s₅.inode ip).size < 4294967296 by omega)
    rw [readCount_eq_some_iff, hwrap, if_neg (by omega)]
    exact ⟨Nat.zero_le _, Nat.zero_le _, rfl⟩
  have hread := readi_spec hfull hdev (show 0 < 4294967296 by decide)
    (show (s₅.inode ip).size < 4294967296 by omega)
  have hbytes : s₅.bytes ip 0 (s₅.inode ip).size = v.contents i := by
    unfold Volume.bytes Volume.byte Volume.contents
    rw [hinode₅, hb₅.block_eq]
    simp only [Nat.zero_add]
  rw [hcount, Option.map_some, hbytes] at hread
  unfold readNamed
  rw [Exec.bind_run_ok hget₁, Exec.bind_run_ok hlock₂, Exec.bind_run_ok hlook]
  simp only
  rw [Exec.bind_run_ok hput₄, Exec.bind_run_ok hlock₅,
    Exec.bind_run_ok (show getInode ip s₅ = (.ok (s₅.inode ip), s₅) from rfl), hread]

end

namespace Mkfs

/-- The name that a file gets, cut to the length of a directory entry. -/
def HostFile.key (f : HostFile) : List UInt8 :=
  (skipUnderscore f.name).take dirsiz

/-- The file gets the name `.` or `..`, which the root directory has already. -/
def HostFile.Shadowed (f : HostFile) : Prop :=
  f.key = [46] ∨ f.key = [46, 46]

instance : DecidablePred HostFile.Shadowed := fun _ =>
  inferInstanceAs (Decidable (_ ∨ _))

/-- The root directory as a file, with the zeros up to its size. -/
def rootFile (files : List HostFile) : List UInt8 :=
  (List.range (rootSize files)).map fun x => (rootBytes files).getD x 0

/-- The kernel finds on the disk what `mkfs` was given, and allocates nothing on the way. -/
structure Agrees (files : List HostFile) (v : Volume) : Prop where
  wellFormed : WellFormed v
  still : ∀ s k i bn, v.Allocated i → s.block = v.block → (s.inode k).toDinode = v.dinode i →
    512 * bn < (v.dinode i).size → bmap k bn s = (.ok (v.dref i (place bn)), s)
  reads : ∀ f ∈ files,
    (readNamed (Chars.ofList (skipUnderscore f.name)) v).1 = .ok (some f.bytes)

section

variable {files : List HostFile} {v : Volume}

theorem text_ofList {cs : List UInt8} (h : 0 ∉ cs) (n : ℕ) :
    text (Chars.ofList cs) n = cs.take n :=
  text_eq_take (fun _ _ _ => rfl) (fun _ => List.getD_eq_default _ _ le_rfl) h

theorem zero_notMem_skipUnderscore {cs : List UInt8} (h : 0 ∉ cs) : 0 ∉ skipUnderscore cs := by
  unfold skipUnderscore
  split
  · exact fun h0 => h (List.mem_cons_of_mem _ h0)
  · exact h

theorem contents_eq {bs : List UInt8} {i : ℕ} {type : ℤ} (h : OnDisk v i type bs)
    (hmax : (v.dinode i).size ≤ 71680) :
    v.contents i = (List.range (v.dinode i).size).map fun x => bs.getD x 0 := by
  apply List.map_congr_left
  intro x hx
  have hlt := List.mem_range.mp hx
  exact h.byte x (by omega)

theorem map_getD_range (bs : List UInt8) :
    ((List.range bs.length).map fun x => bs.getD x 0) = bs := by
  apply List.ext_getElem
  · simp
  · intro x h₁ h₂
    simp [List.getElem?_eq_getElem h₂]

/-- What is read under the name of a file. -/
theorem Mounted.readNamed_eq (h : Mounted files v) (hn : (files.length + 2) % 32 ≠ 0)
    (hnames : ∀ f ∈ files, 0 ∉ f.name) (hdistinct : (files.map HostFile.key).Nodup)
    {f : HostFile} (hf : f ∈ files) :
    (readNamed (Chars.ofList (skipUnderscore f.name)) v).1 =
      .ok (some (if f.Shadowed then rootFile files else f.bytes)) := by
  have htree := h.tree hn
  have hkey {g : HostFile} (hg : g ∈ files) (i : ℕ) : nameOf (skipUnderscore g.name, i) = g.key :=
    text_ofList (zero_notMem_skipUnderscore (hnames g hg)) dirsiz
  have hpresent {i : ℕ} (hi : v.Allocated i) (bn : ℕ) (_ : bn < 140)
      (hlt : 512 * bn < (v.dinode i).size) : v.dref i (place bn) ≠ 0 := (h.present hn hi hlt).2
  have hroot : v.Allocated rootino := (h.allocated rootino).mpr ⟨le_rfl, Nat.le_add_left 1 _⟩
  have hmax := (htree.size rootino hroot h.root.type).1
  by_cases hs : f.Shadowed
  · have hchild : v.child rootino (text (Chars.ofList (skipUnderscore f.name)) dirsiz) =
        some rootino := by
      change v.child rootino (nameOf (skipUnderscore f.name, 0)) = _
      rw [hkey hf]
      rcases hs with hdot | hdot
      · rw [hdot]
        exact h.child_entry (m := 0) (e := ([46], 1)) rfl rfl (fun _ hm => absurd hm (Nat.not_lt_zero _))
      · rw [hdot]
        refine h.child_entry (m := 1) (e := ([46, 46], 1)) rfl rfl fun m' hm e' he => ?_
        obtain rfl : m' = 0 := by omega
        cases he
        decide
    rw [readNamed_run htree h.cache h.root.type hchild (by rw [h.root.type]; decide) hmax
      (hpresent hroot), contents_eq h.root hmax, if_pos hs, h.padded]
    rfl
  · obtain ⟨j, hj⟩ := List.mem_iff_getElem?.mp hf
    have hentry {l : ℕ} {g : HostFile} (hl : files[l]? = some g) :
        (rootEntries files)[l + 2]? = some (skipUnderscore g.name, l + 2) := by
      change (files.mapIdx fun j f => (skipUnderscore f.name, j + 2))[l]? = _
      rw [List.getElem?_mapIdx, hl]
      rfl
    have hchild : v.child rootino (text (Chars.ofList (skipUnderscore f.name)) dirsiz) =
        some (j + 2) := by
      change v.child rootino (nameOf (skipUnderscore f.name, 0)) = _
      rw [hkey hf]
      refine h.child_entry (hentry hj) (hkey hf _) fun m' hm' e' he hname => ?_
      match m', hm', he with
      | 0, _, he =>
          cases he
          exact hs (Or.inl hname.symm)
      | 1, _, he =>
          cases he
          exact hs (Or.inr hname.symm)
      | l + 2, hl, he =>
          have hlt : l < j := by omega
          have hjlen := (List.getElem?_eq_some_iff.mp hj).1
          have hget := List.getElem?_eq_getElem (hlt.trans hjlen)
          rw [hentry hget] at he
          cases he
          rw [hkey (List.mem_of_getElem? hget)] at hname
          refine List.nodup_iff_getElem?_ne_getElem?.mp hdistinct l j hlt (by simpa using hjlen) ?_
          rw [List.getElem?_map, List.getElem?_map, hget, hj, Option.map_some, Option.map_some,
            hname]
    obtain ⟨hdisk, hsize⟩ := h.file j f hj
    have halloc := htree.closed rootino hroot _ _ hchild
    have hsmall : (v.dinode (j + 2)).size ≤ 71680 := by
      rw [hsize]
      exact hdisk.length
    rw [readNamed_run htree h.cache h.root.type hchild (by rw [hdisk.type]; decide) hsmall
      (hpresent halloc), contents_eq hdisk hsmall, if_neg hs, hsize, map_getD_range]

/-- When the kernel and the image that `mkfs` has written agree. -/
theorem mkfs_agrees_iff {img : Image} (hcount : files.length ≤ geometry.ninodes - 2)
    (hnames : ∀ f ∈ files, 0 ∉ f.name) (hdistinct : (files.map HostFile.key).Nodup)
    (hrun : main files Image.empty = (.ok (), img)) :
    Agrees files img.mount ↔
      (files.length + 2) % 32 ≠ 0 ∧ ∀ f ∈ files, f.Shadowed → f.bytes = rootFile files := by
  have h := (Exec.wp_ok (main_spec hcount) hrun).mounted hcount
  constructor
  · intro ha
    have hn := h.wellFormed_iff.mp ha.wellFormed
    refine ⟨hn, fun f hf hs => ?_⟩
    have hread := ha.reads f hf
    rw [h.readNamed_eq hn hnames hdistinct hf, if_pos hs] at hread
    exact (Option.some.inj (Except.ok.inj hread)).symm
  · rintro ⟨hn, hshadow⟩
    refine ⟨h.wellFormed_iff.mpr hn, fun s k i bn hi hblock hinode hbn => ?_, fun f hf => ?_⟩
    · obtain ⟨hlt, hne⟩ := h.present hn hi hbn
      have href : s.ref k (place bn) = img.mount.dref i (place bn) := by
        rw [Volume.ref, hinode, hblock]
        rfl
      rw [← href] at hne ⊢
      exact bmap_present hlt hne
    · rw [h.readNamed_eq hn hnames hdistinct hf]
      by_cases hs : f.Shadowed
      · rw [if_pos hs, hshadow f hf hs]
      · rw [if_neg hs]

end

/-- The file `_cat`, of three bytes. -/
def oneProgram : List HostFile :=
  [⟨[95, 99, 97, 116], [[1, 2, 3]]⟩]

theorem mkfs_agrees_oneProgram : Agrees oneProgram (main oneProgram Image.empty).2.mount := by
  have hrun : (main oneProgram Image.empty).1 = .ok () := by decide +kernel
  have hshadow : ∀ f ∈ oneProgram, ¬f.Shadowed := by decide
  exact (mkfs_agrees_iff (by decide) (by decide) (by decide) (Exec.run_of_fst hrun)).mpr
    ⟨by decide, fun f hf hs => absurd hs (hshadow f hf)⟩

/-- Thirty empty files, whose names are single letters. -/
def thirtyFiles : List HostFile :=
  (List.range 30).map fun j => ⟨[UInt8.ofNat (97 + j)], []⟩

/-- The thirty-two entries of the root directory fill its block, and its size asks for a
second one, which is missing: looking for a name that is not there, the kernel allocates it
and stops. -/
theorem mkfs_agrees_thirtyFiles :
    ∃ img, main thirtyFiles Image.empty = (.ok (), img) ∧
      thirtyFiles.length ≤ geometry.ninodes - 2 ∧ (∀ f ∈ thirtyFiles, 0 ∉ f.name) ∧
      (thirtyFiles.map HostFile.key).Nodup ∧ (∀ f ∈ thirtyFiles, ¬f.Shadowed) ∧
      ¬Agrees thirtyFiles img.mount ∧
      (readNamed (Chars.ofList [33]) img.mount).1 = .error .writeOutsideOfTrans := by
  have hrun : (main thirtyFiles Image.empty).1 = .ok () := by decide +kernel
  refine ⟨_, Exec.run_of_fst hrun, by decide, by decide, by decide +kernel, by decide +kernel, ?_, ?_⟩
  · intro ha
    have hroot : (main thirtyFiles Image.empty).2.mount.Allocated rootino :=
      ⟨by decide, by decide, by decide +kernel⟩
    refine ha.wellFormed.present rootino hroot 1 ?_ ?_
    · decide +kernel
    · decide +kernel
  · decide +kernel

end Mkfs

end Xv6.Fs
