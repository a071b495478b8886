import Xv6.Vm.Image

/-!
# The segments of a program

`exec` goes through the program headers of the file: it allocates memory up to the end
of each loadable segment and reads the bytes of the segment from the file.  The image of
the program is zero-filled memory onto which the segments are copied in this order.

The headers are whatever the file holds.  `loaduvm` panics if a segment does not start at
a page boundary or if it comes to an address that has no page table, and it stores into
whatever page an entry refers to.  The image is right if it stores into pages of the program
only, and `exec` then panics exactly if `loaduvm` has to.
-/

namespace Xv6

namespace Vm

open Support

variable {L : Link} {s s₀ : Memory} {plain : Multiset ℕ} {w₀ : ℕ → ℕ → ℕ} {d i : ℕ}
  {f : ExecFile} {elf : Elfhdr} {ph : Proghdr}

/-- The bytes of the program after the first `i` program headers. -/
def ExecFile.image (f : ExecFile) (elf : Elfhdr) : ℕ → ℕ → UInt8
  | 0 => fun _ => 0
  | i + 1 =>
      match f.proghdr (wrap32 (elf.phoff + 32 * i)) with
      | none => f.image elf i
      | some ph =>
          if ph.type = 1 then f.loaded ph.vaddr ph.off ph.filesz (f.image elf i)
          else f.image elf i

/-- There is a page table for every page that `loaduvm` looks up, and the segments that it is
called for start at page boundaries. -/
def ExecFile.Placed (f : ExecFile) (s : Memory) : Prop :=
  ∀ elf, f.elfhdr = some elf → elf.magic = elfMagic → ¬f.Breaks elf s

theorem image_of_skipped (hph : f.proghdr (wrap32 (elf.phoff + 32 * i)) = some ph)
    (htype : ph.type ≠ 1) : f.image elf (i + 1) = f.image elf i := by
  rw [ExecFile.image, hph]
  exact if_neg htype

theorem image_of_loaded (hph : f.proghdr (wrap32 (elf.phoff + 32 * i)) = some ph)
    (htype : ph.type = 1) :
    f.image elf (i + 1) = f.loaded ph.vaddr ph.off ph.filesz (f.image elf i) := by
  rw [ExecFile.image, hph]
  exact if_pos htype

/-- What `loaduvm` stores goes to pages of the program. -/
theorem ExecFile.StoresInside.loadable (h : f.StoresInside elf s₀) (hloads : f.Loads elf s₀ i ph)
    (hwalked : f.Walked (pagesOf (f.reached elf (i + 1))) ph) :
    Loadable f (pagesOf (f.reached elf (i + 1))) ph.vaddr ph.off ph.filesz := by
  refine ⟨hwalked.tables, fun u hu hin => h i ph hloads hwalked.aligned u hu hin fun w hw => ?_⟩
  exact hwalked.tables w (by omega) (Or.inr (by omega))

/-- Nothing is loaded above the pages that the program has reached. -/
theorem ExecFile.StoresInside.image_above (h : f.StoresInside elf s₀) (hi : i ≤ elf.phnum)
    (hpass : ∀ j < i, f.Passes elf j) (hgrants : s₀.Grants (requests (pagesOf (f.reached elf i))))
    {a : ℕ} (ha : pagesOf (f.reached elf i) ≤ a / pgsize) : f.image elf i a = 0 := by
  induction i with
  | zero => rfl
  | succ i ih =>
      obtain ⟨ph, hph, hload⟩ := hpass i (Nat.lt_succ_self i)
      have hbefore : ∀ j < i, f.Passes elf j := fun j hj => hpass j (by omega)
      have hpages : pagesOf (f.reached elf i) ≤ pagesOf (f.reached elf (i + 1)) :=
        pagesOf_mono (f.reached_mono elf (Nat.le_succ i))
      have hlow := ih (by omega) hbefore (hgrants.mono (requests_mono hpages)) (hpages.trans ha)
      by_cases htype : ph.type = 1
      · obtain ⟨hcheck, hwalked, hfit⟩ := hload htype
        have hloads : f.Loads elf s₀ i ph := ⟨⟨by omega, hbefore, hph, htype⟩, hcheck, hgrants⟩
        have hloadable := h.loadable hloads hwalked
        rw [image_of_loaded hph htype]
        unfold ExecFile.loaded
        rw [if_neg]
        · exact hlow
        · rintro ⟨hle, hhigh⟩
          have hcov := hloadable.covered (a - ph.vaddr) (by omega) (by omega)
          rw [Nat.add_sub_cancel' hle] at hcov
          omega
      · rw [image_of_skipped hph htype]
        exact hlow

/-- The program is loaded, or `exec` gives up, or `loaduvm` panics. -/
theorem loadSegments_built {k : ℕ} (htables : f.GetsTables elf s₀) (hin : f.StoresInside elf s₀)
    (hk : i + k = elf.phnum) (hu : Underway L s₀ plain 0 d f elf i s)
    (h : Built L w₀ plain d (pagesOf (f.reached elf i)) (f.image elf i) s) :
    Exec.wp (loadSegments L d f k (wrap32 (elf.phoff + 32 * i)) (f.reached elf i))
      (fun r s' => (r = none → Failed L w₀ plain d s' ∧ f.Stops elf s₀) ∧
        ∀ sz, r = some sz → sz = f.reached elf elf.phnum ∧
          Underway L s₀ plain 0 d f elf elf.phnum s' ∧
          Built L w₀ plain d (pagesOf sz) (f.image elf elf.phnum) s')
      (fun _ _ => f.Breaks elf s₀) s := by
  refine Exec.wp_mono (loadSegments_rule
    (I := fun i s => Built L w₀ plain d (pagesOf (f.reached elf i)) (f.image elf i) s)
    (J := fun i s => Built L w₀ plain d (pagesOf (f.reached elf (i + 1))) (f.image elf i) s)
    (Q := Failed L w₀ plain d) (A := fun _ => False) (E := fun _ => True) htables hin.storesLow
    ?_ (fun _ _ _ _ h => h.failed) ?_ ?_ hk hu h) ?_ ?_
  · intro i ph s hph htype h
    rw [reached_of_skipped hph htype, image_of_skipped hph htype]
    exact h
  · intro i ph s hcomes hu h
    refine Exec.wp_mono (allocuvm_built h hu.size_lt fun a ha =>
      hin.image_above hcomes.lt.le hu.passed hu.supplied.asked.granted ha) ?_ ?_
    · rintro r s' (hhole | ⟨hzero, hres⟩) hmapped
      · rw [hhole] at hmapped
        cases hmapped
      · refine ⟨hzero, fun hne hr => ?_⟩
        rw [← hr]
        exact (hres hne).2.2
    · intro _ s' hhole hmapped
      rw [hhole] at hmapped
      cases hmapped
  · intro i ph s hloads howns hsupplied h
    by_cases hwalked : f.Walked (pagesOf (f.reached elf (i + 1))) ph
    · refine Exec.wp_mono (loaduvm_built h (pagesOf_le hloads.reached_lt.le) hwalked.aligned
        (f.off_lt hloads.header) (hin.loadable hloads hwalked)) ?_ fun _ _ _ => trivial
      rintro ok s' ⟨htrue, hfalse⟩
      refine ⟨hfalse, fun hok => ?_⟩
      rw [image_of_loaded hloads.header hloads.loadable]
      exact (htrue hok).2
    · refine Exec.wp_mono (loaduvm_supplied (I := fun _ => True) howns hsupplied
        (f.off_lt hloads.header) (hin.storesLow i ph hloads)
        (fun _ _ _ _ _ _ _ _ _ _ _ _ _ => trivial) trivial) ?_ fun _ _ _ => trivial
      exact fun _ _ hs => absurd hs.2.1 hwalked
  · rintro r s' ⟨hnone, hsome⟩
    refine ⟨fun hr => ?_, fun sz hr => ?_⟩
    · obtain ⟨hfailed, -, hstop⟩ := hnone hr
      exact ⟨hfailed, hstop⟩
    · obtain ⟨rfl, hu, h⟩ := hsome sz hr
      exact ⟨rfl, hu, h⟩
  · rintro _ _ ⟨-, hf | ⟨-, hbreaks⟩⟩
    · exact hf.elim
    · exact hbreaks

end Vm

end Xv6
