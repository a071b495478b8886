import Xv6.Fs.Mkfs
import Xv6.Fs.Ownership

/-!
# Appending to a file of the image

`iappend` finds and fills in the blocks of a file by code of its own.  To the kernel the
image under construction is a disk whose free blocks are those from `freeblock` on; with
the inode that grows in an entry of the cache, a round of `iappend` is one of `writei`.
-/

namespace Xv6.Fs

open Support

/-- What the log has recorded does not matter for the blocks of a file. -/
theorem Filled.relog {k : Fin ninode} {wr : ℕ → Option UInt8} {T : ℕ → Prop} {s s' : Volume}
    (h : Filled k wr T s s') (l : List ℕ) : Filled k wr T s (s'.setSectors l) :=
  { h with
    same := congrArg (fun t => t.setSectors l) h.same
    sole := ⟨h.sole.injective, h.sole.used, h.sole.zero, h.sole.size⟩ }

namespace Mkfs

/-- The image as a disk of the kernel, with all blocks below `freeblock` in use. -/
def Image.disk (s : Image) : Volume where
  ninodes := geometry.ninodes
  size := geometry.size
  block := s.block
  used b := decide (b < s.freeblock)
  dinode := s.dinode
  inode _ := ⟨Dinode.zero, 0, 0, false, false⟩
  log := ⟨false, [], geometry.nlog⟩
  devsw _ := none

/-- The same with `din` as inode `inum` in entry `k` of the cache. -/
def Image.view (s : Image) (k : Fin ninode) (inum : ℕ) (din : Dinode) : Volume :=
  s.disk.setInode k ⟨din, inum, 1, true, true⟩

/-- There is room left before the log. -/
def Image.Fits (s : Image) : Prop :=
  s.freeblock ≤ geometry.size - geometry.nlog

/-- The blocks that have not been handed out are still zero. -/
structure Image.Clear (s : Image) : Prop where
  low : geometry.usedblocks ≤ s.freeblock
  zero : ∀ b, s.freeblock ≤ b → s.block b = Block.zero

/-- What the loop of `iappend` needs. -/
structure Ready (k : Fin ninode) (inum : ℕ) (s : Image) (din : Dinode) : Prop where
  clear : s.Clear
  sole : (s.view k inum din).Sole k

/-- A part of `iappend` has filled in references at places in `T` and put the bytes of
`wr` into the file. -/
structure Appended (k : Fin ninode) (inum : ℕ) (wr : ℕ → Option UInt8) (T : ℕ → Prop)
    (s : Image) (din : Dinode) (s' : Image) (din' : Dinode) : Prop where
  grows : s.freeblock ≤ s'.freeblock
  counted : s'.usedblocks + s.freeblock = s.usedblocks + s'.freeblock
  dinode : s'.dinode = s.dinode
  freeinode : s'.freeinode = s.freeinode
  clear : s'.Fits → s'.Clear
  filled : s'.Fits → Filled k wr T (s.view k inum din) (s'.view k inum din')

section

variable {k : Fin ninode} {inum : ℕ} {s s' s'' : Image} {din din' din'' : Dinode}
  {wr wr' : ℕ → Option UInt8} {T T' : ℕ → Prop} {a bn : ℕ}

@[simp] theorem view_inode (s : Image) (k : Fin ninode) (inum : ℕ) (din : Dinode) :
    (s.view k inum din).inode k = ⟨din, inum, 1, true, true⟩ :=
  Function.update_self _ _ _

theorem mem_freeBlocks_view (h : s.freeblock < geometry.size - geometry.nlog) :
    s.freeblock ∈ (s.view k inum din).freeBlocks := by
  apply Volume.mem_freeBlocks.mpr
  exact ⟨h, decide_eq_false (lt_irrefl _)⟩

namespace Appended

theorem fits (h : Appended k inum wr T s din s' din') (hf : s'.Fits) : s.Fits :=
  h.grows.trans hf

theorem ready (h : Appended k inum wr T s din s' din') (hf : s'.Fits) : Ready k inum s' din' :=
  ⟨h.clear hf, (h.filled hf).sole⟩

theorem refl (hr : s.Fits → Ready k inum s din) :
    Appended k inum (fun _ => none) (fun _ => False) s din s din where
  grows := le_rfl
  counted := rfl
  dinode := rfl
  freeinode := rfl
  clear hf := (hr hf).clear
  filled hf := Filled.refl (hr hf).sole

theorem mono (h : Appended k inum wr T s din s' din') (hT : ∀ a, T a → T' a) :
    Appended k inum wr T' s din s' din' :=
  { h with filled := fun hf => (h.filled hf).mono hT }

theorem trans (h : Appended k inum wr T s din s' din')
    (h' : Appended k inum wr' T' s' din' s'' din'') :
    Appended k inum (fun off => (wr' off).or (wr off)) (fun a => T a ∨ T' a) s din s'' din'' where
  grows := h.grows.trans h'.grows
  counted := by
    have h₁ := h.counted
    have h₂ := h'.counted
    omega
  dinode := h'.dinode.trans h.dinode
  freeinode := h'.freeinode.trans h.freeinode
  clear := h'.clear
  filled hf := (h.filled (h'.fits hf)).trans (h'.filled hf)

end Appended

/-- The image after `freeblock++` and `usedblocks++`. -/
def Image.next (s : Image) : Image :=
  { s with freeblock := s.freeblock + 1, usedblocks := s.usedblocks + 1 }

/-- The block handed out is one of zeros already, as the kernel would make it. -/
theorem update_fresh (h : s.Clear) : Function.update s.block s.freeblock Block.zero = s.block := by
  rw [← h.zero s.freeblock le_rfl]
  exact Function.update_eq_self _ _

theorem update_used (s : Image) :
    Function.update (fun b => decide (b < s.freeblock)) s.freeblock true =
      fun b => decide (b < s.freeblock + 1) := by
  funext b
  rw [Function.update_apply]
  by_cases hb : b = s.freeblock
  · rw [if_pos hb, hb]
    exact (decide_eq_true (Nat.lt_succ_self _)).symm
  · rw [if_neg hb, decide_eq_decide]
    omega

/-- `din.addrs[a] = xint(freeblock++)` -/
theorem appended_addr (hr : s.Fits → Ready k inum s din) (ha : a ≤ 12) (h0 : din.addrs a = 0) :
    Appended k inum (fun _ => none) (· = a) s din s.next
      { din with addrs := Function.update din.addrs a s.freeblock } := by
  have hle : s.freeblock ≤ s.next.freeblock := Nat.le_succ _
  refine ⟨hle, ?_, rfl, rfl, fun hf => ?_, fun hf => ?_⟩
  · change s.usedblocks + 1 + s.freeblock = s.usedblocks + (s.freeblock + 1)
    omega
  · obtain ⟨hclear, -⟩ := hr (hle.trans hf)
    exact ⟨hclear.low.trans hle, fun b hb => hclear.zero b (hle.trans hb)⟩
  · obtain ⟨hclear, hsole⟩ := hr (hle.trans hf)
    have hnone : (s.view k inum din).ref k a = 0 := by
      rw [Volume.ref, refAt_of_le ha, view_inode]
      exact h0
    have hlink := Filled.linkAddr hsole ha hnone (mem_freeBlocks_view hf)
    have hview : s.next.view k inum { din with addrs := Function.update din.addrs a s.freeblock } =
        ((s.view k inum din).linkAddr k a s.freeblock).setSectors [] := by
      unfold Volume.linkAddr Volume.allocate
      rw [view_inode]
      simp only [Image.view, Image.disk, Volume.setInode, Volume.setSectors, Volume.setBlock,
        Volume.setUsed, Volume.logged, Function.update_idem, update_fresh hclear, update_used]
      rfl
    rw [hview]
    exact hlink.relog []

/-- The blocks of the file have been handed out. -/
theorem Ready.ref_lt (h : Ready k inum s din) (ha : a < 141) :
    (s.view k inum din).ref k a < s.freeblock :=
  of_decide_eq_true (h.sole.used a ha)

theorem Image.Clear.setBlock (h : s.Clear) {c : ℕ} (hc : c < s.freeblock) (d : Block) :
    (s.setBlock c d).Clear := by
  refine ⟨h.low, fun b hb => ?_⟩
  change s.freeblock ≤ b at hb
  exact (Function.update_of_ne (by omega) _ _).trans (h.zero b hb)

/-- `indirect[bn - NDIRECT] = xint(freeblock++)` and the write of the indirect block. -/
theorem appended_word (hr : s.Fits → Ready k inum s din) (h12 : 12 ≤ bn) (hbn : bn < 140)
    (hc : s.Fits → din.addrs 12 ≠ 0) (h0 : (s.block (din.addrs 12)).word (bn - 12) = 0) :
    Appended k inum (fun _ => none) (· = place bn) s din
      (s.next.setBlock (din.addrs 12)
        ((s.block (din.addrs 12)).setWord (bn - 12) s.freeblock)) din := by
  have hle : s.freeblock ≤ s.next.freeblock := Nat.le_succ _
  have hplace : place bn = bn + 1 := if_neg (by omega)
  have hsub : place bn - 13 = bn - 12 := by omega
  have hind : (s.view k inum din).ref k 12 = din.addrs 12 := by
    rw [Volume.ref, refAt_of_le le_rfl, view_inode]
  refine ⟨hle, ?_, rfl, rfl, fun hf => ?_, fun hf => ?_⟩
  · change s.usedblocks + 1 + s.freeblock = s.usedblocks + (s.freeblock + 1)
    omega
  · have hready := hr (hle.trans hf)
    have hlt := hready.ref_lt (show 12 < 141 by omega)
    rw [hind] at hlt
    have hclear := hready.clear.setBlock hlt
      ((s.block (din.addrs 12)).setWord (bn - 12) s.freeblock)
    exact ⟨hclear.low.trans hle, fun b hb => hclear.zero b (hle.trans hb)⟩
  · have hready := hr (hle.trans hf)
    have hnone : (s.view k inum din).ref k (place bn) = 0 := by
      rw [Volume.ref, refAt_of_gt (by omega), view_inode, if_neg (hc (hle.trans hf)), hsub]
      exact h0
    have hlink := Filled.linkWord hready.sole (show 12 < place bn by omega) (place_lt hbn)
      (by rw [view_inode]; exact hc (hle.trans hf)) hnone (mem_freeBlocks_view hf)
    rw [view_inode, hsub] at hlink
    have hview : (s.next.setBlock (din.addrs 12)
        ((s.block (din.addrs 12)).setWord (bn - 12) s.freeblock)).view k inum din =
        ((s.view k inum din).linkWord (din.addrs 12) (bn - 12) s.freeblock).setSectors [] := by
      unfold Volume.linkWord Volume.allocate
      simp only [Image.view, Image.disk, Volume.setInode, Volume.setSectors, Volume.setBlock,
        Volume.setUsed, Volume.logged, update_fresh hready.clear, update_used]
      rfl
    rw [hview]
    exact hlink.relog []

/-- The copying of `n` bytes to a block that the file has. -/
theorem appended_store (hr : s.Fits → Ready k inum s din) {b start n : ℕ} (hbn : bn < 140)
    (hb : s.Fits → b = (s.view k inum din).ref k (place bn) ∧ b ≠ 0) (hn : start + n ≤ 512)
    (src : Chars) :
    Appended k inum (span src (512 * bn + start) n) (fun _ => False) s din
      (s.setBlock b (overwrite (s.block b) src start n)) din := by
  refine ⟨le_rfl, rfl, rfl, rfl, fun hf => ?_, fun hf => ?_⟩
  · obtain ⟨rfl, -⟩ := hb hf
    exact (hr hf).clear.setBlock ((hr hf).ref_lt (place_lt hbn)) _
  · obtain ⟨heq, hne⟩ := hb hf
    rw [heq] at hne ⊢
    exact (Filled.store (hr hf).sole hbn hne hn src).relog []

/-- The indirect block is there after the first step. -/
theorem appendIndirect_spec (hr : s.Fits → Ready k inum s din) :
    Exec.wlp (appendIndirect din) (fun din' s' =>
      Appended k inum (fun _ => none) (· = 12) s din s' din' ∧
        (s'.Fits → din'.addrs 12 ≠ 0)) s := by
  unfold appendIndirect
  by_cases h0 : din.addrs ndirect = 0
  · rw [if_pos h0]
    unfold nextBlock
    simp only [Exec.wp_bind, Exec.wp_gets, Exec.wp_modify, Exec.wp_pure]
    have happ := appended_addr hr le_rfl h0
    refine ⟨happ, fun hf => ?_⟩
    have hlow := (hr (happ.fits hf)).clear.low
    intro hzero
    have hfresh : s.freeblock = 0 := by
      rw [← hzero]
      exact (Function.update_self ndirect s.freeblock din.addrs).symm
    rw [hfresh] at hlow
    exact absurd hlow (by decide)
  · rw [if_neg h0]
    exact Exec.wp_pure.mpr ⟨(Appended.refl hr).mono fun _ h => h.elim, fun _ => h0⟩

/-- What `appendBlock` returns is the address of the block. -/
theorem appendBlock_spec (hr : s.Fits → Ready k inum s din) (hbn : bn < 140) :
    Exec.wlp (appendBlock din bn) (fun r s' =>
      Appended k inum (fun _ => none) (Touches bn) s din s' r.1 ∧
        (s'.Fits → r.2 = (s'.view k inum r.1).ref k (place bn) ∧ r.2 ≠ 0)) s := by
  unfold appendBlock
  by_cases hdirect : bn < ndirect
  · have hplace : place bn = bn := if_pos hdirect
    have hle : bn ≤ 12 := by
      unfold ndirect at hdirect
      omega
    rw [if_pos hdirect]
    by_cases h0 : din.addrs bn = 0
    · rw [if_pos h0]
      unfold nextBlock
      simp only [Exec.wp_bind, Exec.wp_gets, Exec.wp_modify, Exec.wp_pure]
      have happ := appended_addr hr hle h0
      refine ⟨happ.mono fun a ha => Or.inl (ha.trans hplace.symm), fun hf => ?_⟩
      have hlow := (hr (happ.fits hf)).clear.low
      refine ⟨?_, ?_⟩
      · rw [hplace, Volume.ref, refAt_of_le hle, view_inode]
        exact (Function.update_self bn s.freeblock din.addrs).symm
      · intro hzero
        rw [hzero] at hlow
        exact absurd hlow (by decide)
    · rw [if_neg h0]
      apply Exec.wp_pure.mpr
      refine ⟨(Appended.refl hr).mono fun _ h => h.elim, fun _ => ⟨?_, h0⟩⟩
      rw [hplace, Volume.ref, refAt_of_le hle, view_inode]
  · have h12 : 12 ≤ bn := not_lt.mp hdirect
    have hplace : place bn = bn + 1 := if_neg hdirect
    have hsub : place bn - 13 = bn - ndirect := by
      unfold ndirect
      omega
    have href {t : Image} {d : Dinode} (hc : d.addrs 12 ≠ 0) :
        (t.view k inum d).ref k (place bn) = (t.block (d.addrs 12)).word (bn - ndirect) := by
      rw [Volume.ref, refAt_of_gt (by omega), view_inode, if_neg hc, hsub]
      rfl
    rw [if_neg hdirect]
    apply Exec.wlp_seq (appendIndirect_spec hr)
    rintro din₁ s₁ ⟨hfirst, hc⟩
    apply Exec.wp_bind.mpr
    apply Exec.wp_gets.mpr
    by_cases h0 : (s₁.block (din₁.addrs ndirect)).word (bn - ndirect) = 0
    · rw [if_pos h0]
      unfold nextBlock wsect
      simp only [Exec.wp_bind, Exec.wp_gets, Exec.wp_modify, Exec.wp_pure]
      have hword := appended_word (fun hf => hfirst.ready hf) h12 hbn hc h0
      have happ := hfirst.trans hword
      refine ⟨(happ.mono ?_), fun hf => ?_⟩
      · rintro a (ha | ha)
        · exact Or.inr ⟨h12, ha⟩
        · exact Or.inl ha
      · have hf₁ := hword.fits hf
        have hlow := (hfirst.clear hf₁).low
        have hsize : s₁.freeblock + 1 ≤ 25035 := hf
        refine ⟨?_, ?_⟩
        · rw [href (hc hf₁)]
          change _ = (Function.update s₁.block (din₁.addrs 12) _ (din₁.addrs 12)).word _
          rw [Function.update_self, Block.word_setWord_self _ (by omega) (by omega)]
        · intro hzero
          rw [hzero] at hlow
          exact absurd hlow (by decide)
    · rw [if_neg h0]
      apply Exec.wp_pure.mpr
      refine ⟨hfirst.mono fun a ha => Or.inr ⟨h12, ha⟩, fun hf => ⟨(href (hc hf)).symm, h0⟩⟩

/-- The loop of `iappend` puts all bytes into the file, at its end. -/
theorem iappendFrom_spec {rounds off : ℕ} {p : List UInt8} (hr : s.Fits → Ready k inum s din)
    (hoff : s.Fits → off ≤ 71680) (hlen : p.length ≤ rounds) :
    Exec.wlp (iappendFrom rounds din off p) (fun r s' =>
      r.2 = off + p.length ∧ (s'.Fits → off + p.length ≤ 71680) ∧
        Appended k inum (span (Chars.ofList p) off p.length) (Reaches off p.length)
          s din s' r.1) s := by
  induction rounds generalizing s din off p with
  | zero =>
      obtain rfl : p = [] := List.length_eq_zero_iff.mp (by omega)
      rw [iappendFrom, List.length_nil, span_zero]
      exact Exec.wp_pure.mpr ⟨rfl, hoff, (Appended.refl hr).mono fun _ h => h.elim⟩
  | succ rounds ih =>
      rw [iappendFrom]
      by_cases hp : p = []
      · rw [if_pos hp, hp, List.length_nil, span_zero]
        exact Exec.wp_pure.mpr ⟨rfl, hoff, (Appended.refl hr).mono fun _ h => h.elim⟩
      · rw [if_neg hp]
        have hpos : 0 < p.length := List.length_pos_iff.mpr hp
        simp only
        by_cases hbn : off / 512 < maxfile
        · have hbn' : off / 512 < 140 := hbn
          rw [if_neg (not_le.mpr hbn)]
          obtain ⟨n, hn⟩ : ∃ n, n = min p.length ((off / 512 + 1) * 512 - off) := ⟨_, rfl⟩
          have hstart : off - off / 512 * 512 = off % 512 := by omega
          have hpart : 0 < n ∧ n ≤ p.length ∧ off % 512 + n ≤ 512 := by omega
          have hend : 512 * (off / 512) + off % 512 = off := Nat.div_add_mod off 512
          have hrest : (p.drop n).length = p.length - n := List.length_drop
          have hshift : Chars.ofList (p.drop n) = fun i => Chars.ofList p (n + i) := by
            funext i
            simp [Chars.ofList]
          rw [← hn, hstart]
          apply Exec.wlp_seq (appendBlock_spec hr hbn')
          rintro ⟨din₁, b⟩ s₁ ⟨hfind, hb⟩
          unfold wsect
          apply Exec.wp_bind.mpr
          apply Exec.wp_gets.mpr
          apply Exec.wp_bind.mpr
          apply Exec.wp_modify.mpr
          have hstore := appended_store (fun hf => hfind.ready hf) hbn' hb hpart.2.2
            (Chars.ofList p)
          rw [hend] at hstore
          apply Exec.wlp_mono (ih (fun hf => hstore.ready hf) (fun _ => by omega) (by omega))
          rintro r s' ⟨hr', hmax, happ⟩
          rw [hrest, hshift] at happ
          rw [hrest] at hr' hmax
          refine ⟨by omega, fun hf => by have := hmax hf; omega, ?_⟩
          have hspan : ∀ i, (span (fun j => Chars.ofList p (n + j)) (off + n) (p.length - n) i).or
              (span (Chars.ofList p) off n i) = span (Chars.ofList p) off p.length i := by
            intro i
            rw [span_add, Nat.add_sub_cancel' hpart.2.1]
          have hplaces : ∀ a, (Touches (off / 512) a ∨ False) ∨ Reaches (off + n) (p.length - n) a →
              Reaches off p.length a := by
            rintro a ((ha | ha) | ha)
            · exact Reaches.of_touches hpos hbn' ha
            · exact ha.elim
            · exact ha.mono (by omega) (by omega)
          have hall := ((hfind.trans hstore).trans happ).mono hplaces
          simp only [Option.or_none, hspan] at hall
          exact hall
        · rw [if_pos (not_lt.mp hbn)]
          exact Exec.wlp_throw

end

/-- Inode `i` of the image has the given type and contents. -/
structure Stores (s : Image) (i : ℕ) (type : ℤ) (bs : List UInt8) : Prop where
  type : (s.dinode i).type = type
  nlink : (s.dinode i).nlink = 1
  size : (s.dinode i).size = bs.length
  byte : ∀ x < 71680, fileByte (s.dinode i).addrs s.block x = bs.getD x 0

/-- The image is one that the kernel could have written. -/
structure Image.Sound (s : Image) : Prop where
  clear : s.Clear
  owned : Owned s.disk

section

variable {s : Image} {i : ℕ} {type : ℤ} {bs p : List UInt8}

theorem Image.Sound.view (h : s.Sound) (k : Fin ninode) (inum : ℕ) (din : Dinode) :
    Owned (s.view k inum din) :=
  ⟨h.owned.size, h.owned.first, h.owned.once, h.owned.used, h.owned.inside, h.owned.sizes,
    h.owned.full⟩

theorem owned_of_view {k : Fin ninode} {inum : ℕ} {din : Dinode} (h : Owned (s.view k inum din)) :
    Owned s.disk :=
  ⟨h.size, h.first, h.once, h.used, h.inside, h.sizes, h.full⟩

theorem locked_view (hi : s.disk.Allocated i) (k : Fin ninode) :
    Locked (s.view k i (s.dinode i)) k := by
  refine ⟨?_, ?_, ?_, ?_, ?_⟩ <;> rw [view_inode]
  · exact Nat.one_pos
  · rfl
  · exact hi

/-- The last step of `iappend` stores the inode with its new size. -/
theorem spliced_view {k : Fin ninode} {s₁ : Image} {din : Dinode} {src : Chars} {n : ℕ}
    (hs : s.Sound) (hi : s.disk.Allocated i)
    (hp : (s.view k i (s.dinode i)).Plain k) (hdinode : s₁.dinode = s.dinode)
    (hfill : Filled k (span src (s.dinode i).size n) (Reaches (s.dinode i).size n)
      (s.view k i (s.dinode i)) (s₁.view k i din)) :
    Spliced k (s.dinode i).size n (s.view k i (s.dinode i)) (s₁.view k i din)
      ((s₁.setDinode i { din with size := (s.dinode i).size + n }).view k i
        { din with size := (s.dinode i).size + n }) := by
  have hself := hfill.inode_self
  have haddrs : din = { s.dinode i with addrs := din.addrs } := by
    simpa only [view_inode] using congrArg Inode.toDinode hself
  refine ⟨rfl, rfl, rfl, rfl, rfl, rfl, ?_, fun j hj => ?_, ?_⟩
  · rw [view_inode, view_inode, view_inode, grown_eq le_rfl, max_eq_right (Nat.le_add_right _ _),
      haddrs]
  · exact (Function.update_of_ne hj _ _).trans (Function.update_of_ne hj _ _).symm
  · rw [view_inode, view_inode]
    change Function.update s₁.dinode i _ = _
    rw [hdinode]
    by_cases hn : 0 < n
    · rw [if_pos ⟨hn, by change (s.dinode i).size < _; omega⟩]
      rfl
    · obtain rfl : n = 0 := by omega
      have hkept := (hs.view k i (s.dinode i)).addrs_kept (locked_view hi k) hp hfill (by omega)
      rw [view_inode, view_inode] at hkept
      rw [if_neg (by omega), Nat.add_zero, haddrs, hkept]
      exact Function.update_eq_self i s.dinode

/-- The effect of a write at the end of inode `i`. -/
structure Grown (i : ℕ) (type : ℤ) (bs : List UInt8) (s s' : Image) : Prop where
  owned : Owned s'.disk
  stores : Stores s' i type bs
  kept : ∀ j ≠ i, s.disk.Allocated j →
    ∀ x < 71680, fileByte (s'.dinode j).addrs s'.block x = fileByte (s.dinode j).addrs s.block x

theorem grown_of_spliced {k : Fin ninode} {s₁ s' : Image} {din din' : Dinode} (hs : s.Sound)
    (hi : s.disk.Allocated i) (hp : (s.view k i (s.dinode i)).Plain k)
    (hst : Stores s i type bs) (hmax : bs.length + p.length ≤ 71680)
    (hfill : Filled k (span (Chars.ofList p) bs.length p.length) (Reaches bs.length p.length)
      (s.view k i (s.dinode i)) (s₁.view k i din))
    (hend : Spliced k bs.length p.length (s.view k i (s.dinode i)) (s₁.view k i din)
      (s'.view k i din')) (hdin : s'.dinode i = din') : Grown i type (bs ++ p) s s' := by
  have hown := hs.view k i (s.dinode i)
  have hlock := locked_view hi k
  have hsize : ((s.view k i (s.dinode i)).inode k).size = bs.length := by
    rw [view_inode]
    exact hst.size
  have hself : din' = { s.dinode i with addrs := din.addrs, size := bs.length + p.length } := by
    have h := congrArg Inode.toDinode hend.self
    simp only [view_inode] at h
    rw [h, hst.size, grown_eq le_rfl, max_eq_right (Nat.le_add_right _ _)]
  refine ⟨owned_of_view (hown.after hlock hp hfill hend hsize.ge hmax), ?_, ?_⟩
  · refine ⟨?_, ?_, ?_, fun x hx => ?_⟩
    · rw [hdin, hself]
      exact hst.type
    · rw [hdin, hself]
      exact hst.nlink
    · rw [hdin, hself, List.length_append]
    · have hbyte : fileByte (s'.dinode i).addrs s'.block x = (s₁.view k i din).byte k x := by
        rw [← hend.byte_eq, Volume.byte, view_inode, hdin]
        rfl
      have hold : (s.view k i (s.dinode i)).byte k x = bs.getD x 0 := by
        rw [Volume.byte, view_inode]
        exact hst.byte x hx
      have hpresent := hown.present_after hlock hp hfill hsize.ge (show x / 512 < 140 by omega)
      rw [hsize] at hpresent
      rw [hbyte]
      by_cases hne : (s₁.view k i din).ref k (place (x / 512)) = 0
      · have hlarge : bs.length + p.length ≤ x := by
          by_contra hlt
          exact hpresent.mpr (by omega) hne
        rw [Volume.byte_of_missing hne, List.getD_eq_default _ _ (by
          rw [List.length_append]
          exact hlarge)]
      · rw [hfill.bytes x hx hne, hold]
        by_cases hin : bs.length ≤ x ∧ x < bs.length + p.length
        · rw [span_of_mem hin, Option.getD_some, List.getD_append_right _ _ _ _ hin.1]
          rfl
        · rw [span_of_not hin, Option.getD_none]
          by_cases hlow : x < bs.length
          · rw [List.getD_append _ _ _ _ hlow]
          · rw [List.getD_eq_default _ _ (by omega), List.getD_eq_default _ _ (by
              rw [List.length_append]
              omega)]
  · intro j hj hjalloc x hx
    have hne : j ≠ ((s.view k i (s.dinode i)).inode k).inum := by
      rw [view_inode]
      exact hj
    exact hown.fileByte_kept hlock hfill hend hjalloc hne hx

/-- The effect of `iappend` on inode `i` and on all others. -/
structure Extended (i : ℕ) (type : ℤ) (bs : List UInt8) (s s' : Image) : Prop where
  counted : s'.usedblocks + s.freeblock = s.usedblocks + s'.freeblock
  freeinode : s'.freeinode = s.freeinode
  grows : s.freeblock ≤ s'.freeblock
  other : ∀ j ≠ i, s'.dinode j = s.dinode j
  clear : s'.Fits → s'.Clear
  grown : s'.Fits → Grown i type bs s s'

/-- `iappend` is a write of the kernel at the end of the file. -/
theorem iappend_spec (hs : s.Fits → s.Sound) (hst : s.Fits → Stores s i type bs)
    (htype : type = tFile ∨ type = tDir) (hi : 1 ≤ i ∧ i < geometry.ninodes) :
    Exec.wlp (iappend i p) (fun _ s' => Extended i type (bs ++ p) s s') s := by
  obtain ⟨k⟩ : Nonempty (Fin ninode) := ⟨0⟩
  have halloc (hf : s.Fits) : s.disk.Allocated i := by
    refine ⟨hi.1, hi.2, ?_⟩
    change (s.dinode i).type ≠ 0
    rw [(hst hf).type]
    rcases htype with rfl | rfl <;> decide
  have hplain (hf : s.Fits) : (s.view k i (s.dinode i)).Plain k := by
    unfold Volume.Plain
    rw [view_inode]
    change (s.dinode i).type = tFile ∨ (s.dinode i).type = tDir
    rw [(hst hf).type]
    exact htype
  have hready (hf : s.Fits) : Ready k i s (s.dinode i) :=
    ⟨(hs hf).clear, ((hs hf).view k i (s.dinode i)).sole (locked_view (halloc hf) k)⟩
  have hsize (hf : s.Fits) : (s.dinode i).size ≤ 71680 := (hs hf).owned.sizes i (halloc hf)
  unfold iappend winode
  apply Exec.wp_bind.mpr
  apply Exec.wp_gets.mpr
  apply Exec.wlp_seq (iappendFrom_spec hready hsize le_rfl)
  rintro ⟨din, off⟩ s₁ ⟨hoff, hmax, happ⟩
  obtain rfl : off = (s.dinode i).size + p.length := hoff
  apply Exec.wp_modify.mpr
  have hdin : (s₁.setDinode i { din with size := (s.dinode i).size + p.length }).dinode i =
      { din with size := (s.dinode i).size + p.length } := Function.update_self _ _ _
  refine ⟨happ.counted, happ.freeinode, happ.grows, fun j hj => ?_, fun hf => ?_, fun hf => ?_⟩
  · change Function.update s₁.dinode i _ j = _
    rw [happ.dinode, Function.update_of_ne hj]
  · exact ⟨(happ.clear hf).low, (happ.clear hf).zero⟩
  · have hfits := happ.fits hf
    have hfill := happ.filled hf
    have hend := spliced_view (hs hfits) (halloc hfits) (hplain hfits) happ.dinode hfill
    have hle := hmax hf
    simp only [(hst hfits).size] at hfill hend hle hdin ⊢
    exact grown_of_spliced (hs hfits) (halloc hfits) (hplain hfits) (hst hfits) hle hfill hend hdin

end

end Mkfs

end Xv6.Fs
