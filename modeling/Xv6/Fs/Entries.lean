import Xv6.Fs.Ownership
import Xv6.Fs.Refs

/-!
# Directories as finite maps

A directory is a file of 16-byte slots, and a slot with a nonzero inode number
maps its name to that number.  `dirlookup` finds the slot of a name, `dirlink`
fills the first slot that is free or appends one, and `unlink` clears the slot that
`dirlookup` has reported.
-/

namespace Xv6.Fs

open Support

namespace Volume

/-- The directory entry at offset `off`. -/
def slot (s : Volume) (k : Fin ninode) (off : ℕ) : Dirent :=
  Dirent.ofBytes (s.bytes k off dirsize)

/-- The name of a slot, as text. -/
def nameAt (s : Volume) (k : Fin ninode) (off : ℕ) : List UInt8 :=
  text (s.slot k off).name dirsiz

/-- The slot at `off` holds the name `t`. -/
def Holds (s : Volume) (k : Fin ninode) (t : List UInt8) (off : ℕ) : Prop :=
  (s.slot k off).inum ≠ 0 ∧ s.nameAt k off = t

instance (s : Volume) (k : Fin ninode) (t : List UInt8) : DecidablePred (s.Holds k t) :=
  fun _ => inferInstanceAs (Decidable (_ ∧ _))

/-- The offset of the slot that holds the name `t`. -/
def find (s : Volume) (k : Fin ninode) (t : List UInt8) : Option ℕ :=
  (offsets (s.inode k).size).find? fun off => s.Holds k t off

/-- The inode number that the directory has for the name `t`, 0 for none. -/
def entry (s : Volume) (k : Fin ninode) (t : List UInt8) : ℕ :=
  match s.find k t with
  | none => 0
  | some off => (s.slot k off).inum

end Volume

/-- Entry `k` of the cache is a directory that can be read. -/
structure Listing (s : Volume) (k : Fin ninode) : Prop where
  type : (s.inode k).type = tDir
  full : s.Full k
  aligned : 16 ∣ (s.inode k).size

/-- Entry `k` of the cache is a directory in use, whose names are all different. -/
structure Directory (s : Volume) (k : Fin ninode) : Prop extends Listing s k where
  held : 0 < (s.inode k).ref
  sole : s.Sole k
  distinct : ∀ off ∈ offsets (s.inode k).size, ∀ off' ∈ offsets (s.inode k).size,
    (s.slot k off).inum ≠ 0 → s.Holds k (s.nameAt k off) off' → off = off'

theorem mem_offsets {size off : ℕ} (h : 16 ∣ size) :
    off ∈ offsets size ↔ 16 ∣ off ∧ off < size := by
  unfold offsets dirsize
  rw [List.mem_map]
  constructor
  · rintro ⟨j, hj, rfl⟩
    have := List.mem_range.mp hj
    omega
  · rintro ⟨⟨j, rfl⟩, hlt⟩
    exact ⟨j, List.mem_range.mpr (by omega), rfl⟩

section

variable {s s' : Volume} {k : Fin ninode} {off : ℕ} {t : List UInt8}

/-! ## Reading the entries -/

theorem readDirent_eq (hd : Listing s k) (hoff : off ∈ offsets (s.inode k).size) (e : Stop) :
    readDirent k off e s = (.ok (s.slot k off), s) := by
  obtain ⟨hdvd, hlt⟩ := (mem_offsets hd.aligned).mp hoff
  have hmax := hd.full.size_le
  have hdev : (s.inode k).type ≠ tDev := by
    rw [hd.type]
    decide
  have hcount : readCount (s.inode k).size off dirsize = some dirsize := by
    rw [readCount_eq_some_iff]
    have hwrap : wrap32 (off + dirsize) = off + dirsize := wrap32_of_lt (by unfold dirsize; omega)
    rw [hwrap]
    have haligned := hd.aligned
    refine ⟨hlt.le, by omega, ?_⟩
    rw [if_neg (by unfold dirsize; omega)]
  have hread := readi_spec hd.full hdev (show off < 4294967296 by omega)
    (show dirsize < 4294967296 by decide)
  rw [hcount] at hread
  unfold readDirent
  rw [Exec.bind_run_ok hread]
  simp only [Option.map_some]
  rw [if_neg (not_not.mpr (s.length_bytes k off dirsize))]
  rfl

theorem namecmp_eq_zero_iff {name : Chars} {de : Dirent} :
    namecmp name de.name = 0 ↔ text de.name dirsiz = text name dirsiz := by
  unfold namecmp
  rw [strncmp_eq_zero_iff, eq_comm]

theorem dirlookupFrom_none (hd : Listing s k) {name : Chars} {offs : List ℕ}
    (hoffs : ∀ off ∈ offs, off ∈ offsets (s.inode k).size)
    (hnone : ∀ off ∈ offs, ¬s.Holds k (text name dirsiz) off) :
    dirlookupFrom k name offs s = (.ok none, s) := by
  induction offs with
  | nil => rfl
  | cons off offs ih =>
      have hrest := ih (fun off' h => hoffs off' (List.mem_cons_of_mem _ h))
        fun off' h => hnone off' (List.mem_cons_of_mem _ h)
      rw [dirlookupFrom, Exec.bind_run_ok (readDirent_eq hd (hoffs off List.mem_cons_self) _)]
      by_cases hused : (s.slot k off).inum = 0
      · rw [if_pos hused, hrest]
      · have hname : namecmp name (s.slot k off).name ≠ 0 := fun h =>
          hnone off List.mem_cons_self ⟨hused, namecmp_eq_zero_iff.mp h⟩
        rw [if_neg hused, if_neg hname, hrest]

theorem dirlookupFrom_some (hd : Listing s k) {name : Chars} {before after : List ℕ}
    (hoffs : ∀ off' ∈ before ++ off :: after, off' ∈ offsets (s.inode k).size)
    (hbefore : ∀ off' ∈ before, ¬s.Holds k (text name dirsiz) off')
    (hoff : s.Holds k (text name dirsiz) off) :
    dirlookupFrom k name (before ++ off :: after) s =
      (iget (s.slot k off).inum >>= fun ip => pure (some (ip, off))) s := by
  induction before with
  | nil =>
      rw [List.nil_append, dirlookupFrom,
        Exec.bind_run_ok (readDirent_eq hd (hoffs off List.mem_cons_self) _), if_neg hoff.1,
        if_pos (namecmp_eq_zero_iff.mpr hoff.2)]
  | cons off' before ih =>
      have hrest := ih (fun x h => hoffs x (List.mem_cons_of_mem _ h))
        fun x h => hbefore x (List.mem_cons_of_mem _ h)
      rw [List.cons_append, dirlookupFrom,
        Exec.bind_run_ok (readDirent_eq hd (hoffs off' List.mem_cons_self) _)]
      by_cases hused : (s.slot k off').inum = 0
      · rw [if_pos hused, hrest]
      · have hname : namecmp name (s.slot k off').name ≠ 0 := fun h =>
          hbefore off' List.mem_cons_self ⟨hused, namecmp_eq_zero_iff.mp h⟩
        rw [if_neg hused, if_neg hname, hrest]

theorem find_eq_none (h : s.find k t = none) :
    ∀ off ∈ offsets (s.inode k).size, ¬s.Holds k t off := by
  intro off hoff
  simpa using List.find?_eq_none.mp h off hoff

/-- A name that is not there. -/
theorem dirlookup_none (hd : Listing s k) {name : Chars}
    (h : s.find k (text name dirsiz) = none) : dirlookup k name s = (.ok none, s) := by
  unfold dirlookup
  rw [Exec.bind_run_ok (show getInode k s = (.ok (s.inode k), s) from rfl),
    if_neg (not_not.mpr hd.type), dirlookupFrom_none hd (fun _ h => h) (find_eq_none h)]

/-- A name that is there. -/
theorem dirlookup_some (hd : Listing s k) {name : Chars}
    (h : s.find k (text name dirsiz) = some off) :
    dirlookup k name s = (iget (s.slot k off).inum >>= fun ip => pure (some (ip, off))) s := by
  unfold Volume.find at h
  obtain ⟨hoff, before, after, hsplit, hbefore⟩ := List.find?_eq_some_iff_append.mp h
  unfold dirlookup
  rw [Exec.bind_run_ok (show getInode k s = (.ok (s.inode k), s) from rfl),
    if_neg (not_not.mpr hd.type), hsplit]
  apply dirlookupFrom_some hd
  · intro off' h'
    rw [hsplit]
    exact h'
  · intro off' h'
    simpa using hbefore off' h'
  · simpa using hoff

/-- The 16 bytes of an entry, read back. -/
def Dirent.stored (de : Dirent) : Dirent :=
  Dirent.ofBytes ((List.range dirsize).map de.bytes)

theorem Dirent.stored_inum {de : Dirent} (h : de.inum < 65536) : de.stored.inum = de.inum := by
  change (UInt8.ofNat de.inum).toNat + 256 * (UInt8.ofNat (de.inum / 256)).toNat = _
  rw [UInt8.toNat_ofNat', UInt8.toNat_ofNat']
  omega

theorem Dirent.text_stored (de : Dirent) : text de.stored.name dirsiz = text de.name dirsiz := by
  apply text_congr
  intro i hi
  change ((List.range dirsize).map de.bytes).getD (i + 2) 0 = de.name i
  have hlt : i + 2 < ((List.range dirsize).map de.bytes).length := by
    simp only [List.length_map, List.length_range]
    unfold dirsiz at hi
    unfold dirsize
    omega
  rw [List.getD_eq_getElem _ _ hlt]
  simp [Dirent.bytes]

theorem newDirent_stored {name : Chars} {inum : ℕ} (h : inum < 65536) :
    (newDirent name inum).stored.inum = inum ∧
      text (newDirent name inum).stored.name dirsiz = text name dirsiz := by
  have hmod : (newDirent name inum).inum = inum := Nat.mod_eq_of_lt h
  constructor
  · rw [Dirent.stored_inum (by rw [hmod]; exact h), hmod]
  · rw [Dirent.text_stored]
    exact text_strncpy name dirsiz

/-! ## Writing an entry -/

/-- The directory after its slot at `off` has been given the entry `de`. -/
structure SlotSet (k : Fin ninode) (off : ℕ) (de : Dirent) (s s' : Volume) : Prop where
  size : (s'.inode k).size = max (s.inode k).size (off + 16)
  self : s'.slot k off = de.stored
  other : ∀ off' ∈ offsets (s.inode k).size, off' ≠ off → s'.slot k off' = s.slot k off'
  held : 0 < (s'.inode k).ref
  type : (s'.inode k).type = tDir
  sole : s'.Sole k
  full : s'.Full k

namespace SlotSet

variable {de : Dirent}

theorem aligned (h : SlotSet k off de s s') (hd : Directory s k) (hdvd : 16 ∣ off) :
    16 ∣ (s'.inode k).size := by
  have haligned := hd.aligned
  rw [h.size]
  omega

theorem holds_self (h : SlotSet k off de s s') :
    s'.Holds k t off ↔ de.stored.inum ≠ 0 ∧ text de.stored.name dirsiz = t := by
  unfold Volume.Holds Volume.nameAt
  rw [h.self]

end SlotSet

/-! ## The map -/

variable {R : Stop → Prop} {A : Finset ℕ} {r m : ℕ}

/-- The inode in entry `k` and its blocks are the same in two states. -/
structure SameFile (k : Fin ninode) (s s' : Volume) : Prop where
  size : s'.size = s.size
  block : s'.block = s.block
  used : s'.used = s.used
  inode : (s'.inode k).toDinode = (s.inode k).toDinode

namespace SameFile

theorem ref_eq (h : SameFile k s s') : s'.ref k = s.ref k := by
  funext a
  unfold Volume.ref
  rw [h.block, h.inode]

end SameFile

end

end Xv6.Fs
