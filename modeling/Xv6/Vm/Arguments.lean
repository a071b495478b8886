import Xv6.Vm.ExecOutcome

/-!
# The arguments of a new program

When `exec` returns 0, the stack of the new program holds a call of `main`: a return
address, the number of arguments and a pointer to the array of pointers to the arguments,
which are strings on the same page.  The strings are pushed downwards, and below the page
of the stack is one that `copyout` has no access to, so none of them can have left it.

This holds if `exec` keeps within the new program.  When there is no page for the table of
the stack, `allocuvm` does not notice, and `copyout` writes the arguments to wherever the
first word of the old program points.
-/

namespace Xv6

namespace Vm

open Support

variable {L : Link} {plain rest : Multiset ℕ} {f : ExecFile} {elf : Elfhdr}
  {path : List UInt8} {argv : List (List UInt8)} {c c' : ℕ → UInt8} {a sp sp' : ℕ}
  {addrs : List ℕ}

/-! ## Words and strings in memory -/

/-- The word at the address `a`. -/
def wordAt (byte : ℕ → UInt8) (a : ℕ) : ℕ :=
  ofBytes ((List.range 4).map fun b => byte (a + b))

/-- The string `cs` at the address `a`, with the byte 0 behind it. -/
def StringAt (byte : ℕ → UInt8) (a : ℕ) (cs : List UInt8) : Prop :=
  ∀ i < cs.length + 1, byte (a + i) = (cs ++ [0]).getD i 0

theorem ofBytes_toBytes {n : ℕ} (hn : n < 4294967296) : ofBytes (toBytes 4 (n : ℤ)) = n := by
  have hwrap : uint32 (n : ℤ) = n := by
    unfold uint32
    omega
  unfold toBytes
  rw [hwrap, show List.range 4 = [0, 1, 2, 3] from rfl]
  simp only [List.map_cons, List.map_nil, ofBytes, List.foldr_cons, List.foldr_nil,
    UInt8.toNat_ofNat']
  omega

/-- Words laid out one after the other are found at multiples of four. -/
theorem flatMap_toBytes_getD (ws : List ℕ) {i b : ℕ} (hi : i < ws.length) (hb : b < 4) :
    (ws.flatMap fun w : ℕ => toBytes 4 (w : ℤ)).getD (4 * i + b) 0 =
      (toBytes 4 (ws.getD i 0 : ℤ)).getD b 0 := by
  have hlen : ∀ v : ℤ, (toBytes 4 v).length = 4 := by
    intro v
    simp [toBytes]
  induction ws generalizing i with
  | nil => simp at hi
  | cons w ws ih =>
      rw [List.flatMap_cons]
      cases i with
      | zero =>
          rw [Nat.mul_zero, Nat.zero_add, List.getD_append _ _ _ _ (by rw [hlen]; exact hb)]
          rfl
      | succ i =>
          rw [List.getD_append_right _ _ _ _ (by rw [hlen]; omega), hlen,
            show 4 * (i + 1) + b - 4 = 4 * i + b by omega, ih (by simpa using hi)]
          rfl

theorem wordAt_written {va i : ℕ} {ws : List ℕ} (hi : i < ws.length)
    (hsmall : ws.getD i 0 < 4294967296) :
    wordAt (written va (ws.flatMap fun w : ℕ => toBytes 4 (w : ℤ)) c) (va + 4 * i) =
      ws.getD i 0 := by
  have hlen : (ws.flatMap fun w : ℕ => toBytes 4 (w : ℤ)).length = 4 * ws.length := by
    rw [List.length_flatMap]
    simp [toBytes, Nat.mul_comm]
  have hbytes : ((List.range 4).map fun b =>
      written va (ws.flatMap fun w : ℕ => toBytes 4 (w : ℤ)) c (va + 4 * i + b)) =
      toBytes 4 (ws.getD i 0 : ℤ) := by
    refine List.ext_getElem (by simp [toBytes]) fun b hb hb' => ?_
    have hb4 : b < 4 := by simpa using hb
    rw [List.getElem_map, List.getElem_range]
    unfold written
    rw [if_pos (by omega), show va + 4 * i + b - va = 4 * i + b by omega,
      flatMap_toBytes_getD ws hi hb4, List.getD_eq_getElem _ _ hb']
  unfold wordAt
  rw [hbytes, ofBytes_toBytes hsmall]

theorem StringAt.congr {cs : List UInt8} (h : StringAt c a cs)
    (hsame : ∀ x, a ≤ x → x < a + cs.length + 1 → c' x = c x) : StringAt c' a cs := by
  intro i hi
  rw [hsame (a + i) (by omega) (by omega)]
  exact h i hi

theorem stringAt_written (a : ℕ) (cs : List UInt8) (c : ℕ → UInt8) :
    StringAt (written a (cs ++ [0]) c) a cs := by
  intro i hi
  unfold written
  rw [List.length_append, List.length_singleton, if_pos (by omega), Nat.add_sub_cancel_left]

/-! ## The strings on the stack -/

theorem Pushes.length (h : Pushes c sp argv addrs sp' c') : addrs.length = argv.length := by
  induction h with
  | nil => rfl
  | cons _ _ ih => rw [List.length_cons, List.length_cons, ih]

theorem Pushes.pointer (h : Pushes c sp argv addrs sp' c') :
    argv.foldl (fun sp arg => pushed sp (arg.length + 1)) sp = sp' := by
  induction h with
  | nil => rfl
  | cons _ _ ih => exact ih

theorem Pushes.aligned (h : Pushes c sp argv addrs sp' c') (hsp : sp % 4 = 0) : sp' % 4 = 0 := by
  induction h with
  | nil => exact hsp
  | cons _ _ ih =>
      refine ih ?_
      unfold pushed
      omega

/-- Every argument is in its place in the end, since the later ones go below it. -/
theorem Pushes.string (h : Pushes c sp argv addrs sp' c') {i : ℕ} (hi : i < argv.length) :
    StringAt c' (addrs.getD i 0) (argv.getD i []) ∧ sp' ≤ addrs.getD i 0 ∧
      addrs.getD i 0 + (argv.getD i []).length + 1 ≤ sp := by
  induction h generalizing i with
  | nil => exact absurd hi (Nat.not_lt_zero i)
  | @cons c c' sp sp' arg argv addrs hbelow hrest ih =>
      cases i with
      | zero =>
          rw [List.getD_cons_zero, List.getD_cons_zero]
          refine ⟨?_, hrest.le, by omega⟩
          refine (stringAt_written (pushed sp (arg.length + 1)) arg c).congr fun x hx _ => ?_
          exact hrest.unchanged (Or.inr hx)
      | succ i =>
          obtain ⟨hstring, hlow, hhigh⟩ := ih (Nat.lt_of_succ_lt_succ hi)
          rw [List.getD_cons_succ, List.getD_cons_succ]
          exact ⟨hstring, hlow, by omega⟩

/-- Each argument ends below the ones before it. -/
theorem Pushes.apart (h : Pushes c sp argv addrs sp' c') {i j : ℕ} (hij : i < j)
    (hj : j < argv.length) : addrs.getD j 0 + (argv.getD j []).length + 1 ≤ addrs.getD i 0 := by
  induction h generalizing i j with
  | nil => exact absurd hj (Nat.not_lt_zero j)
  | cons _ hrest ih =>
      obtain ⟨j, rfl⟩ := Nat.exists_eq_succ_of_ne_zero (Nat.ne_of_gt (Nat.zero_lt_of_lt hij))
      have hj' := Nat.lt_of_succ_lt_succ hj
      rw [List.getD_cons_succ, List.getD_cons_succ]
      cases i with
      | zero =>
          rw [List.getD_cons_zero]
          exact (hrest.string hj').2.2
      | succ i =>
          rw [List.getD_cons_succ]
          exact ih (Nat.lt_of_succ_lt_succ hij) hj'

/-! ## What `main` is called with -/

/-- The pointer number `i` in the array that the third word at `esp` points to. -/
def argAt (byte : ℕ → UInt8) (esp i : ℕ) : ℕ :=
  wordAt byte (wordAt byte (esp + 8) + 4 * i)

/-- A call of `main` with the arguments `argv`, in the bytes from `base` to `top`. -/
structure Passed (byte : ℕ → UInt8) (base top esp : ℕ) (argv : List (List UInt8)) : Prop where
  aligned : esp % 4 = 0
  base_le : base ≤ esp
  retaddr : wordAt byte esp = 4294967295
  argc : wordAt byte (esp + 4) = argv.length
  /-- The array does not overlap the three words, -/
  vector : esp + 12 ≤ wordAt byte (esp + 8)
  null : argAt byte esp argv.length = 0
  strings : ∀ i < argv.length, StringAt byte (argAt byte esp i) (argv.getD i [])
  /-- nor the strings, -/
  above : ∀ i < argv.length, wordAt byte (esp + 8) + 4 * (argv.length + 1) ≤ argAt byte esp i
  /-- which do not overlap each other. -/
  apart : ∀ j < argv.length, ∀ i < j,
    argAt byte esp j + (argv.getD j []).length + 1 ≤ argAt byte esp i
  vector_le : wordAt byte (esp + 8) + 4 * (argv.length + 1) ≤ top
  strings_le : ∀ i < argv.length, argAt byte esp i + (argv.getD i []).length + 1 ≤ top

/-- The words of `ustack`. -/
def stackWords (sp : ℕ) (ptrs : List ℕ) : List ℕ :=
  [4294967295, ptrs.length, wrap32 (sp + 4294967296 - (ptrs.length + 1) * 4)] ++ ptrs ++ [0]

theorem ustack_eq (sp : ℕ) (ptrs : List ℕ) :
    ustack sp ptrs = (stackWords sp ptrs).flatMap fun w : ℕ => toBytes 4 (w : ℤ) :=
  rfl

theorem stackWords_call (sp : ℕ) (ptrs : List ℕ) : (stackWords sp ptrs).getD 0 0 = 4294967295 ∧
    (stackWords sp ptrs).getD 1 0 = ptrs.length ∧
    (stackWords sp ptrs).getD 2 0 = wrap32 (sp + 4294967296 - (ptrs.length + 1) * 4) := by
  unfold stackWords
  simp only [List.cons_append, List.getD_cons_zero, List.getD_cons_succ, and_self]

theorem stackWords_getD (sp : ℕ) (ptrs : List ℕ) (i : ℕ) :
    (stackWords sp ptrs).getD (i + 3) 0 = ptrs.getD i 0 := by
  unfold stackWords
  rw [List.append_assoc, List.getD_append_right _ _ _ _ (by simp)]
  simp only [List.length_cons, List.length_nil, Nat.reduceAdd, Nat.add_sub_cancel]
  rcases Nat.lt_or_ge i ptrs.length with hlt | hge
  · rw [List.getD_append _ _ _ _ hlt]
  · rw [List.getD_append_right _ _ _ _ hge, List.getD_eq_default _ _ hge]
    cases i - ptrs.length with
    | zero => rfl
    | succ _ => rfl

theorem Pushes.passed {base top esp : ℕ} (h : Pushes c top argv addrs sp c')
    (htop : top % 4 = 0) (hlt : top < 4294967296) (hbase : base ≤ esp)
    (hesp : esp + (ustack sp addrs).length = sp) :
    Passed (written esp (ustack sp addrs) c') base top esp argv := by
  have hle := h.le
  have hsp := h.aligned htop
  have hlen := h.length
  have hbytes := ustack_length sp addrs
  have hwords : (stackWords sp addrs).length = addrs.length + 4 := by
    simp [stackWords]
  generalize hmem : written esp (ustack sp addrs) c' = mem
  have hword : ∀ i < addrs.length + 4, (stackWords sp addrs).getD i 0 < 4294967296 →
      wordAt mem (esp + 4 * i) = (stackWords sp addrs).getD i 0 := by
    intro i hi hsmall
    rw [← hmem, ustack_eq]
    exact wordAt_written (by omega) hsmall
  have hsame : ∀ a, sp ≤ a → mem a = c' a := by
    intro a ha
    rw [← hmem]
    unfold written
    rw [if_neg (by omega)]
  have hvec : wrap32 (sp + 4294967296 - (addrs.length + 1) * 4) = esp + 12 := by
    unfold wrap32
    omega
  obtain ⟨hfirst, hsecond, hthird⟩ := stackWords_call sp addrs
  rw [hvec] at hthird
  have hvector : wordAt mem (esp + 8) = esp + 12 := by
    rw [← hthird]
    exact hword 2 (by omega) (by omega)
  have hptr : ∀ i < argv.length, argAt mem esp i = addrs.getD i 0 := by
    intro i hi
    have hstring := h.string hi
    have hget := stackWords_getD sp addrs i
    unfold argAt
    rw [hvector, show esp + 12 + 4 * i = esp + 4 * (i + 3) by omega,
      hword (i + 3) (by omega) (by omega), hget]
  refine ⟨by omega, hbase, ?_, ?_, by omega, ?_, ?_, ?_, ?_, by omega, ?_⟩
  · rw [← hfirst, ← hword 0 (by omega) (by omega), Nat.mul_zero, Nat.add_zero]
  · rw [← hlen, ← hsecond, ← hword 1 (by omega) (by omega)]
  · have hget := stackWords_getD sp addrs argv.length
    rw [List.getD_eq_default _ _ hlen.le] at hget
    unfold argAt
    rw [hvector, show esp + 12 + 4 * argv.length = esp + 4 * (argv.length + 3) by omega,
      hword _ (by omega) (by omega), hget]
  · intro i hi
    obtain ⟨hstring, hlow, -⟩ := h.string hi
    rw [hptr i hi]
    exact hstring.congr fun x hx _ => hsame x (by omega)
  · intro i hi
    obtain ⟨-, hlow, -⟩ := h.string hi
    rw [hptr i hi, hvector]
    omega
  · intro j hj i hi
    rw [hptr j hj, hptr i (hi.trans hj)]
    exact h.apart hi hj
  · intro i hi
    rw [hptr i hi]
    exact (h.string hi).2.2

theorem wordAt_congr (hsame : ∀ b < 4, c' (a + b) = c (a + b)) : wordAt c' a = wordAt c a := by
  unfold wordAt
  congr 1
  refine List.map_congr_left fun b hb => ?_
  exact hsame b (List.mem_range.mp hb)

theorem Passed.congr {base top esp : ℕ} (h : Passed c base top esp argv)
    (hsame : ∀ a < top, c' a = c a) : Passed c' base top esp argv := by
  have hvec := h.vector
  have hle := h.vector_le
  have hlow : ∀ a, a + 4 ≤ top → wordAt c' a = wordAt c a := fun a ha =>
    wordAt_congr fun b _ => hsame _ (by omega)
  have hthird := hlow (esp + 8) (by omega)
  have hptr : ∀ i ≤ argv.length, argAt c' esp i = argAt c esp i := by
    intro i hi
    unfold argAt
    rw [hthird]
    exact hlow _ (by omega)
  refine ⟨h.aligned, h.base_le, ?_, ?_, by rw [hthird]; exact hvec, ?_, fun i hi => ?_,
    fun i hi => ?_, fun j hj i hi => ?_, by rw [hthird]; exact hle, fun i hi => ?_⟩
  · rw [hlow esp (by omega)]
    exact h.retaddr
  · rw [hlow (esp + 4) (by omega)]
    exact h.argc
  · rw [hptr _ le_rfl]
    exact h.null
  · have hin := h.strings_le i hi
    rw [hptr i hi.le]
    exact (h.strings i hi).congr fun x _ hx => hsame x (by omega)
  · rw [hthird, hptr i hi.le]
    exact h.above i hi
  · rw [hptr j hj.le, hptr i (hi.trans hj).le]
    exact h.apart j hj i hi
  · rw [hptr i hi.le]
    exact h.strings_le i hi

/-! ## Calls of `exec` -/

/-- What the arguments are passed to: the page of the stack is mapped, it holds the
arguments, and below it the program is as it was loaded. -/
structure Arguments (f : ExecFile) (elf : Elfhdr) (argv : List (List UInt8)) (word : ℕ → ℕ → ℕ)
    (d sz esp : ℕ) : Prop where
  mapped : Accessible word d (sz / pgsize - 1)
  passed : Passed (userByte word d) (sz - pgsize) sz esp argv
  below : ∀ a < sz - pgsize, userByte word d a = f.image elf elf.phnum a

theorem LaidOut.arguments {w₀ : ℕ → ℕ → ℕ} {d top : ℕ} {s s' : Memory}
    (h : LaidOut L w₀ plain d (f.reached elf elf.phnum) (f.image elf elf.phnum) argv top s)
    (hsame : ∀ n ∈ footprint s.word d, s'.word n = s.word n) :
    Arguments f elf argv s'.word d top (stackPointer top argv) := by
  obtain ⟨addrs, sp, esp, c', hpush, hle, hbase, hesp, hlaid⟩ := h.stack
  have htop := h.top_eq
  have hlt := h.top_lt
  have hlen := ustack_length sp addrs
  have haddrs := hpush.length
  have hpages : pagesOf (f.reached elf elf.phnum) + 2 ≤ kernbasePage := by
    unfold kernbase kernbasePage pgsize at *
    omega
  have hptr : stackPointer top argv = esp := by
    simp only [stackPointer, hpush.pointer, wrap32]
    unfold kernbase at hlt
    omega
  have hstack : top / pgsize - 1 = pagesOf (f.reached elf elf.phnum) + 1 := by
    rw [htop]
    unfold pgsize
    omega
  have hbelow : top - pgsize = (pagesOf (f.reached elf elf.phnum) + 1) * pgsize := by
    rw [htop]
    unfold pgsize
    omega
  have hbytes : ∀ a < top, userByte s'.word d a = written esp (ustack sp addrs) c' a := by
    intro a ha
    rw [htop] at ha
    have hu : a / pgsize < pagesOf (f.reached elf elf.phnum) + 2 :=
      (Nat.div_lt_iff_lt_mul (by decide)).mpr ha
    rw [userByte_of_footprint (by omega) (hlaid.present hu) hsame]
    exact hlaid.bytes a ha
  rw [hptr]
  refine ⟨?_, ?_, fun a ha => ?_⟩
  · have hmapped := hlaid.accessible (Nat.lt_succ_self _) (Nat.succ_ne_self _)
    unfold Accessible at hmapped ⊢
    rw [hstack, pteAt_of_footprint (by omega) hsame]
    exact hmapped
  · rw [hbelow]
    have htop4 : top % 4 = 0 := by
      rw [htop]
      unfold pgsize
      omega
    have hsmall : top < 4294967296 := by
      unfold kernbase at hlt
      omega
    exact (hpush.passed htop4 hsmall hbase hesp).congr hbytes
  · rw [hbytes a (by omega), written, if_neg (by omega)]
    exact hpush.unchanged (Or.inl (by omega))

/-- When `exec` returns 0, the arguments are passed. -/
theorem Caller.exec_arguments {c : Caller} (h : Owns L c.mem plain (c.pgdir ::ₘ rest))
    (hexec : Contained f argv c.mem) :
    Exec.wlp (Caller.exec L (some f) path argv) (fun ok c' => ok = true →
      ∃ elf, f.elfhdr = some elf ∧ Arguments f elf argv c'.mem.word c'.pgdir c'.sz c'.esp) c := by
  have h₀ : Owns L c.mem plain (0 + c.pgdir ::ₘ rest) := by
    rw [zero_add]
    exact h
  refine Caller.exec_of_image (E := fun _ _ => True) (Exec.wp_mono (execImage_laid h₀ hexec) ?_
    fun _ _ _ => trivial)
  rintro r s ⟨-, -, hsome⟩
  refine ⟨by simp, fun d top hr => ?_⟩
  obtain ⟨-, elf, helf, hlaid⟩ := hsome d top hr
  obtain ⟨_, _, _, _, -, -, -, -, hstack⟩ := hlaid.stack
  have howns := Owns.unshelve h₀ hstack.owns hstack.frame
  have hswap : (d ::ₘ 0) + c.pgdir ::ₘ rest = c.pgdir ::ₘ d ::ₘ rest := by
    simp only [← Multiset.singleton_add]
    abel
  rw [hswap] at howns
  refine Exec.wp_mono (freevm_apart howns) ?_ fun _ _ _ => trivial
  intro _ s' hkeep _
  exact ⟨elf, helf, hlaid.arguments hkeep⟩

/-- In every state of a run in which `exec` gets its page tables, when a call of `exec` that keeps
within the new program returns 0, the arguments are on the stack of the new program, and nothing
below the stack has been overwritten. -/
theorem exec_passes_arguments {k₀ k : Kernel} {ops : List Op} {p : Slot} {fails : List Bool}
    {eip esp ref : ℕ} {name : List UInt8} {c' : Caller} (hboot : Booted L k₀)
    (hrun : Run (MappedStep L) (fun _ => True) k₀ ops k)
    (hp : (k.task p).state ≠ .unused ∧ (k.task p).state ≠ .zombie)
    (hexec : Contained f argv (k.withFails fails).mem)
    (hret : Caller.exec L (some f) path argv ((k.withFails fails).caller p eip esp name ref) =
      (.ok true, c')) :
    ∃ elf, f.elfhdr = some elf ∧ Arguments f elf argv c'.mem.word c'.pgdir c'.sz c'.esp := by
  have howns := ((sound_of_mapped_run hboot hrun).live hp.1).owns.withFails fails
  have hspec : Exec.wlp (Caller.exec L (some f) path argv) _
      ((k.withFails fails).caller p eip esp name ref) := Caller.exec_arguments howns hexec
  exact Exec.wp_ok hspec hret rfl

theorem exec_passes_arguments_dataFile : ∃ k p c', Booted smallLink k ∧
    ((k.task p).state ≠ .unused ∧ (k.task p).state ≠ .zombie) ∧
    Caller.exec smallLink (some dataFile) [122] [[104, 105]]
      ((k.withFails []).caller p 0 0 [] 1) = (.ok true, c') ∧
    ∃ elf, dataFile.elfhdr = some elf ∧
      Arguments dataFile elf [[104, 105]] c'.mem.word c'.pgdir c'.sz c'.esp := by
  obtain ⟨k, p, c', hboot, halive, hcontained, hret⟩ := exists_exec_dataFile
  exact ⟨k, p, c', hboot, halive, hret,
    exec_passes_arguments hboot (.nil trivial) halive hcontained hret⟩

/-- After boot and a store by the program to its first page, an `exec` returns 0 although the
page of the stack is not mapped. -/
theorem exec_loses_arguments : ∃ k₀ k p w fails c', Booted smallLink k₀ ∧
    Run (MappedStep smallLink) (fun _ => True) k₀ [.store p 0 0 w] k ∧
    ((k.task p).state ≠ .unused ∧ (k.task p).state ≠ .zombie) ∧
    Caller.exec smallLink (some hugeFile) [122] [twinArg]
      ((k.withFails fails).caller p 0 0 [] 1) = (.ok true, c') ∧
    ¬∃ elf, hugeFile.elfhdr = some elf ∧
      Arguments hugeFile elf [twinArg] c'.mem.word c'.pgdir c'.sz c'.esp := by
  obtain ⟨k₀, k, p, w, e, n, t, j, ns, hboot, hstep, hsound, hprimed⟩ := exists_primed
  have himage := can_execImage (hsound.live hprimed.alive.1).owns (Multiset.mem_cons_self _ _)
    hprimed.at0 hprimed.pte hprimed.word hprimed.free hprimed.room
  obtain ⟨cs, r, s, hrun, rfl, howns, hbare, -⟩ := himage
  have hcall : Exec.total (Caller.exec smallLink (some hugeFile) [122] [twinArg])
      (fun ok c' => ok = true ∧ c'.sz = 4198400 ∧ ¬Present (c'.mem.word c'.pgdir 1))
      ((k.withFails (cs ++ [])).caller p 0 0 [] 1) := by
    refine Caller.exec_of_image (E := fun _ _ => False) ?_
    refine Exec.wp_of_run (hrun []) ⟨by simp, ?_⟩
    rintro _ _ ⟨⟩
    refine Exec.wp_mono (freevm_spec (howns.withFails [])) ?_ fun _ _ hf => hf
    rintro - s' ⟨-, hkeep⟩
    refine ⟨rfl, rfl, ?_⟩
    change ¬Present (s'.word e 1)
    rw [hkeep e (Multiset.mem_cons_self e _)]
    exact hbare
  obtain ⟨ok, c', hret, rfl, hsz, hmissing⟩ := Exec.wp_total hcall
  refine ⟨k₀, k, p, w, cs ++ [], c', hboot, .snoc (.nil trivial) (hstep.mapped fun hexec => hexec)
    trivial, hprimed.alive, hret, ?_⟩
  rintro ⟨elf, -, hargs⟩
  have htable : 1024 / npentries = 1 := by
    simp [npentries]
  have hmapped := hargs.mapped.1
  rw [hsz, show 4198400 / pgsize - 1 = 1024 by decide, pteAt, htable, if_neg hmissing] at hmapped
  exact absurd hmapped (by decide)

end Vm

end Xv6
