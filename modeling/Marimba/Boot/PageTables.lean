import Marimba.Foundations.X86
import Marimba.Memory.IdentityRange

/-!
# The first page tables

`set_up_page_tables` of `arch/x86_64/boot.asm`, in 32-bit code before paging is on: a table of each
of the upper three levels, in which the first gigabyte is mapped to itself by 512 huge pages. The
loop keeps its counter in `ecx`, and `mul` takes `edx` with it.

The entries have 64 bits, of which the code stores the lower half: the upper half is what the boot
loader cleared (`.bss`). `bootMachine` is the memory in the words of the page-table model, with
`p4_table` as the root, as `enable_paging` sets it.

`boot_translation` says what comes of it. In the words of `IdentityMap`, the assembly builds the
same tables as `PT_init` and `PT_page_table_init` do later in C, so that the switch to the kernel's
own tables moves nothing of what the kernel has been running on.
-/

namespace Marimba

namespace Boot

open X86

/-- The labels of the code. -/
inductive Label where
  | setUpPageTables
  | mapP2Table
  deriving DecidableEq

section Code

variable (p4Table : BitVec 32)

/-- `p3_table`, the page behind `p4_table`. -/
abbrev p3Table : BitVec 32 := p4Table + 0x1000#32

/-- `p2_table`, the page behind `p3_table`. -/
abbrev p2Table : BitVec 32 := p4Table + 0x2000#32

/-- The loop `.map_p2_table` with the end of the function. -/
def mapP2Table : List (Instr 32 Label) :=
  [.movImm .ax 0x200000, .mul .cx, .orImm .ax 0b10000011,
    .store ⟨none, some (.cx, 8), p2Table p4Table⟩ .ax, .inc .cx, .cmp .cx 512, .jne .mapP2Table,
    .nop, .ret]

/-- `set_up_page_tables` up to its loop. -/
def linkTables : List (Instr 32 Label) :=
  [.movImm .ax (p3Table p4Table), .orImm .ax 0b11, .store ⟨none, none, p4Table⟩ .ax,
    .movImm .ax (p2Table p4Table), .orImm .ax 0b11, .store ⟨none, none, p3Table p4Table⟩ .ax,
    .movImm .cx 0]

/-- The code from each label on. -/
def code : Label → List (Instr 32 Label)
  | .setUpPageTables => linkTables p4Table ++ mapP2Table p4Table
  | .mapP2Table => mapP2Table p4Table

end Code

/-- The tables, in the words of the page-table model: an entry is two words of the 32-bit code. -/
def bootMachine (k : Machine) (s : State 32) (p4Table : BitVec 32) : Machine :=
  { k with
    mem := fun a ↦ (s.mem (BitVec.ofNat 32 a)).toNat +
      2 ^ 32 * (s.mem (BitVec.ofNat 32 (a + 4))).toNat
    cr3 := p4Table.toNat }

/-- An address in one of the three tables. -/
def InTables (p4Table a : BitVec 32) : Prop :=
  p4Table.toNat ≤ a.toNat ∧ a.toNat < p4Table.toNat + 3 * pageSize

instance (p4Table a : BitVec 32) : Decidable (InTables p4Table a) :=
  inferInstanceAs (Decidable (_ ∧ _))

/-! ### What the code stores -/

/-- The entry for a huge page. -/
def hugeEntry (n : ℕ) : BitVec 32 := BitVec.ofNat 32 (n * 0x200000) ||| 0b10000011#32

/-- The address of an entry of the second-level table. -/
def p2Entry (p4Table : BitVec 32) (n : ℕ) : BitVec 32 := p2Table p4Table + BitVec.ofNat 32 (8 * n)

/-- The memory after the first `n` passes of the loop. -/
def filled (p4Table : BitVec 32) (m : BitVec 32 → BitVec 32) : ℕ → BitVec 32 → BitVec 32
  | 0 => m
  | n + 1 => Function.update (filled p4Table m n) (p2Entry p4Table n) (hugeEntry n)

/-- The memory after the tables have been linked. -/
def linked (p4Table : BitVec 32) (m : BitVec 32 → BitVec 32) : BitVec 32 → BitVec 32 :=
  Function.update (Function.update m p4Table (p3Table p4Table ||| 0b11#32)) (p3Table p4Table)
    (p2Table p4Table ||| 0b11#32)

/-- The state at the head of the loop, before pass `n`. -/
structure AtLoop (p4Table : BitVec 32) (s₀ : State 32) (n : ℕ) (s : State 32) : Prop where
  counter : s.gpr .cx = BitVec.ofNat 32 n
  mem : s.mem = filled p4Table (linked p4Table s₀.mem) n
  gpr : ∀ r, r ≠ .ax → r ≠ .cx → r ≠ .dx → s.gpr r = s₀.gpr r

variable {p4Table : BitVec 32} {s₀ s : State 32} {n : ℕ}

/-- The straight part of a pass. -/
def pass (p4Table : BitVec 32) : List (Instr 32 Label) :=
  [.movImm .ax 0x200000, .mul .cx, .orImm .ax 0b10000011,
    .store ⟨none, some (.cx, 8), p2Table p4Table⟩ .ax, .inc .cx, .cmp .cx 512]

theorem mapP2Table_eq :
    mapP2Table p4Table = pass p4Table ++ [.jne .mapP2Table, .nop, .ret] := rfl

theorem index_eq (n : ℕ) :
    BitVec.ofNat 32 n * BitVec.ofNat 32 8 + p2Table p4Table = p2Entry p4Table n := by
  rw [p2Entry, BitVec.add_comm, Nat.mul_comm, BitVec.ofNat_mul]

/-- **One pass** enters one huge page. -/
theorem AtLoop.pass (h : AtLoop p4Table s₀ n s) (hn : n < 512) :
    AtLoop p4Table s₀ (n + 1) (exec (fun _ ↦ id) (pass p4Table) s) ∧
      (exec (fun _ ↦ id) (Boot.pass p4Table) s).zf = decide (n + 1 = 512) := by
  have hcx : (s.gpr .cx).toNat = n := by
    rw [h.counter, BitVec.toNat_ofNat]
    omega
  have hnext : s.gpr .cx + 1#32 = BitVec.ofNat 32 (n + 1) := by rw [h.counter, BitVec.ofNat_add]
  refine ⟨⟨?_, ?_, fun r hax hcx hdx ↦ ?_⟩, ?_⟩
  · simp [Boot.pass, Instr.exec, hnext]
  · simp [Boot.pass, Instr.exec, State.ea, h.counter, h.mem]
    rw [index_eq, Nat.mod_eq_of_lt (by omega), filled, hugeEntry, Nat.mul_comm]
  · simp [Boot.pass, Instr.exec, hax, hcx, hdx, h.gpr r]
  · simp [Boot.pass, Instr.exec, State.setZf_zf, hnext]
    rw [Bool.eq_iff_iff, beq_iff_eq, decide_eq_true_iff, ← BitVec.toNat_inj, BitVec.toNat_ofNat,
      BitVec.toNat_ofNat]
    omega

/-! ### What the tables hold -/

/-- Flags in the bits below an address are added to it. -/
theorem toNat_or_flags {x : BitVec 32} {b : ℕ} (hx : x.toNat % pageSize = 0) (hb : b < pageSize) :
    (x ||| BitVec.ofNat 32 b).toNat = x.toNat + b := by
  obtain ⟨q, hq⟩ := Nat.dvd_of_mod_eq_zero hx
  have hlt : b < 2 ^ 12 := hb
  rw [BitVec.toNat_or, BitVec.toNat_ofNat, Nat.mod_eq_of_lt (by omega), hq]
  exact (Nat.two_pow_add_eq_or_of_lt hlt q).symm

theorem pteSetAddr_eq {f : ℕ} (hf : f % pageSize = 0) : pteSetAddr f = f + 3 := by
  simp only [pteSetAddr, setBit, if_true, pageSize] at *
  omega

/-- The entries that the loop stores are those of the identity map. -/
theorem hugeEntry_toNat (hn : n < pageTableNumEnts) : (hugeEntry n).toNat = identityEntry n := by
  have hnat : (BitVec.ofNat 32 (n * 0x200000)).toNat = n * 0x200000 := by
    rw [BitVec.toNat_ofNat]
    simp only [pageTableNumEnts] at hn
    omega
  have hal : n * 0x200000 % pageSize = 0 := by
    simp only [pageSize]
    omega
  rw [hugeEntry, toNat_or_flags (hnat.symm ▸ hal) (by decide), hnat, identityEntry,
    pteSetAddr_eq hal]
  simp only [setBit, if_true]
  omega

/-- Where the linker puts the tables: `.bss` is aligned, not at address zero, and fits. -/
structure Placed (p4Table : BitVec 32) : Prop where
  aligned : p4Table.toNat % pageSize = 0
  pos : 0 < p4Table.toNat
  fits : p4Table.toNat + 3 * pageSize ≤ 2 ^ 32

section Placed

variable (hp : Placed p4Table)

include hp

theorem Placed.p3Table_toNat : (p3Table p4Table).toNat = p4Table.toNat + 0x1000 := by
  have := hp.fits
  rw [BitVec.toNat_add, BitVec.toNat_ofNat]
  simp only [pageSize] at this
  omega

theorem Placed.p2Table_toNat : (p2Table p4Table).toNat = p4Table.toNat + 0x2000 := by
  have := hp.fits
  rw [BitVec.toNat_add, BitVec.toNat_ofNat]
  simp only [pageSize] at this
  omega

theorem Placed.p2Entry_toNat (hn : n < 512) :
    (p2Entry p4Table n).toNat = p4Table.toNat + 0x2000 + 8 * n := by
  have := hp.fits
  rw [p2Entry, BitVec.toNat_add, hp.p2Table_toNat, BitVec.toNat_ofNat]
  simp only [pageSize] at this
  omega

theorem Placed.filled_mem (m : BitVec 32 → BitVec 32) (hn : n ≤ 512) :
    (∀ i < n, filled p4Table m n (p2Entry p4Table i) = hugeEntry i) ∧
      ∀ a, (∀ i < n, a ≠ p2Entry p4Table i) → filled p4Table m n a = m a := by
  induction n with
  | zero => exact ⟨fun i hi ↦ absurd hi (Nat.not_lt_zero i), fun _ _ ↦ rfl⟩
  | succ n ih =>
    obtain ⟨hset, hother⟩ := ih (by omega)
    refine ⟨fun i hi ↦ ?_, fun a ha ↦ ?_⟩
    · rw [filled]
      rcases (Nat.le_of_lt_succ hi).lt_or_eq with hlt | rfl
      · rw [Function.update_of_ne, hset i hlt]
        intro he
        have := congrArg BitVec.toNat he
        rw [hp.p2Entry_toNat (by omega), hp.p2Entry_toNat (by omega)] at this
        omega
      · exact Function.update_self ..
    · rw [filled, Function.update_of_ne (ha n n.lt_succ_self)]
      exact hother a fun i hi ↦ ha i (Nat.lt_succ_of_lt hi)

/-- **The tables after the code**, word by word: the rest of them is as the loader cleared it. -/
theorem Placed.word_eq {m : BitVec 32 → BitVec 32} (hzero : ∀ a, InTables p4Table a → m a = 0)
    {a : ℕ} (hle : p4Table.toNat ≤ a) (hlt : a < p4Table.toNat + 3 * pageSize) :
    filled p4Table (linked p4Table m) 512 (BitVec.ofNat 32 a) =
      if a = p4Table.toNat then p3Table p4Table ||| 0b11#32
      else if a = p4Table.toNat + 0x1000 then p2Table p4Table ||| 0b11#32
      else if p4Table.toNat + 0x2000 ≤ a ∧ (a - p4Table.toNat) % 8 = 0 then
        hugeEntry ((a - (p4Table.toNat + 0x2000)) / 8)
      else 0 := by
  have hfits := hp.fits
  simp only [pageSize] at hfits hlt
  have hnat : (BitVec.ofNat 32 a).toNat = a := by
    rw [BitVec.toNat_ofNat]
    omega
  have hne {b : BitVec 32} (hb : a ≠ b.toNat) : BitVec.ofNat 32 a ≠ b := fun he ↦
    hb (by rw [← hnat, he])
  obtain ⟨hset, hother⟩ := hp.filled_mem (linked p4Table m) le_rfl
  by_cases hsecond : p4Table.toNat + 0x2000 ≤ a ∧ (a - p4Table.toNat) % 8 = 0
  · obtain ⟨i, hi, rfl⟩ : ∃ i < 512, a = p4Table.toNat + 0x2000 + 8 * i :=
      ⟨(a - (p4Table.toNat + 0x2000)) / 8, by omega, by omega⟩
    have hentry : BitVec.ofNat 32 (p4Table.toNat + 0x2000 + 8 * i) = p2Entry p4Table i := by
      rw [← BitVec.toNat_inj, hnat, hp.p2Entry_toNat hi]
    rw [hentry, hset i hi, if_neg (by omega), if_neg (by omega), if_pos hsecond]
    congr 1
    omega
  · rw [hother _ fun i hi ↦ hne (by rw [hp.p2Entry_toNat hi]; omega), if_neg hsecond, linked]
    by_cases hthird : a = p4Table.toNat + 0x1000
    · have hentry : BitVec.ofNat 32 a = p3Table p4Table := by
        rw [← BitVec.toNat_inj, hnat, hp.p3Table_toNat, hthird]
      rw [hentry, Function.update_self, if_neg (by omega), if_pos hthird]
    · rw [Function.update_of_ne (hne (by rw [hp.p3Table_toNat]; exact hthird)), if_neg hthird]
      by_cases hroot : a = p4Table.toNat
      · rw [hroot, BitVec.ofNat_toNat, BitVec.setWidth_eq, Function.update_self, if_pos rfl]
      · rw [Function.update_of_ne (hne hroot), if_neg hroot]
        exact hzero _ ⟨hnat.symm ▸ hle, by rw [hnat]; simp only [pageSize]; omega⟩

/-- The entries, of which the upper halves are zero. -/
theorem Placed.entry_eq {k : Machine} (hzero : ∀ a, InTables p4Table a → s₀.mem a = 0)
    (hmem : s.mem = filled p4Table (linked p4Table s₀.mem) 512) {a : ℕ}
    (hle : p4Table.toNat ≤ a) (hlt : a < p4Table.toNat + 3 * pageSize) (hal : a % 8 = 0) :
    (bootMachine k s p4Table).mem a =
      if a = p4Table.toNat then pteSetAddr (p4Table.toNat + 0x1000)
      else if a = p4Table.toNat + 0x1000 then pteSetAddr (p4Table.toNat + 0x2000)
      else if p4Table.toNat + 0x2000 ≤ a then
        identityEntry ((a - (p4Table.toNat + 0x2000)) / 8)
      else 0 := by
  have haligned := hp.aligned
  have h₃ := hp.p3Table_toNat
  have h₂ := hp.p2Table_toNat
  simp only [pageSize] at hlt haligned
  show (s.mem _).toNat + 2 ^ 32 * (s.mem _).toNat = _
  rw [hmem, hp.word_eq hzero (a := a + 4) (by omega) (by simp only [pageSize]; omega),
    if_neg (by omega), if_neg (by omega), if_neg (by omega), hp.word_eq hzero hle hlt]
  show _ + 2 ^ 32 * 0 = _
  rw [Nat.mul_zero, Nat.add_zero]
  have hflags {x : BitVec 32} (hx : x.toNat % pageSize = 0) :
      (x ||| 0b11#32).toNat = pteSetAddr x.toNat := by
    rw [toNat_or_flags hx (by decide), pteSetAddr_eq hx]
  split
  · rw [hflags (by rw [h₃]; simp only [pageSize]; omega), h₃]
  · split
    · rw [hflags (by rw [h₂]; simp only [pageSize]; omega), h₂]
    · by_cases hsecond : p4Table.toNat + 0x2000 ≤ a
      · rw [if_pos ⟨hsecond, by omega⟩, if_pos hsecond,
          hugeEntry_toNat (by simp only [pageTableNumEnts]; omega)]
      · rw [if_neg (fun h ↦ hsecond h.1), if_neg hsecond]
        rfl

/-- Nothing else is written. -/
theorem Placed.filled_of_not_inTables {m : BitVec 32 → BitVec 32} {a : BitVec 32}
    (ha : ¬InTables p4Table a) : filled p4Table (linked p4Table m) 512 a = m a := by
  have hne {b : BitVec 32} (hb : InTables p4Table b) : a ≠ b := fun he ↦ ha (he ▸ hb)
  rw [(hp.filled_mem _ le_rfl).2 a fun i hi ↦ hne ?_, linked, Function.update_of_ne (hne ?_),
    Function.update_of_ne (hne ?_)]
  · simp only [InTables, pageSize]
    omega
  · simp only [InTables, hp.p3Table_toNat, pageSize]
    omega
  · simp only [InTables, hp.p2Entry_toNat hi, pageSize]
    omega

/-- **The identity map of the boot code** is that of the kernel, at other addresses. -/
theorem Placed.identityMap {k : Machine} (hzero : ∀ a, InTables p4Table a → s₀.mem a = 0)
    (hmem : s.mem = filled p4Table (linked p4Table s₀.mem) 512) :
    IdentityMap (p4Table.toNat + 0x1000) (p4Table.toNat + 0x2000) [] (bootMachine k s p4Table) ∧
      ∀ i < pageTableNumEnts, i ≠ 0 →
        (bootMachine k s p4Table).mem (p4Table.toNat + 8 * i) = 0 := by
  have haligned := hp.aligned
  have hfits := hp.fits
  have hend : mmapPhysicalPagesEnd = 2 ^ 40 := rfl
  simp only [pageSize] at hfits haligned
  have hentry {a : ℕ} := hp.entry_eq (k := k) hzero hmem (a := a)
  simp only [pageTableNumEnts, pageSize] at hentry ⊢
  refine ⟨⟨⟨⟨by simp only [pageSize]; omega, by omega⟩, by omega⟩,
    ⟨⟨by simp only [pageSize]; omega, by omega⟩, by omega⟩, List.not_mem_nil, List.not_mem_nil,
    ?_, fun i hi ↦ ?_, fun i hi ↦ ?_⟩, fun i hi hne ↦ ?_⟩
  · exact (hentry le_rfl (by omega) (by omega)).trans (if_pos rfl)
  · simp only [pageTableNumEnts] at hi
    rw [hentry (by omega) (by omega) (by omega), if_neg (by omega)]
    by_cases hzero : i = 0
    · rw [if_pos (by omega), if_pos hzero]
    · rw [if_neg (by omega), if_neg (by omega), if_neg hzero]
  · simp only [pageTableNumEnts] at hi
    rw [hentry (by omega) (by omega) (by omega), if_neg (by omega), if_neg (by omega),
      if_pos (by omega)]
    congr 1
    omega
  · rw [hentry (by omega) (by omega) (by omega), if_neg (by omega), if_neg (by omega),
      if_neg (by omega)]

end Placed

/-! ### The run -/

/-- **The loop** enters 512 huge pages, then the function returns. -/
theorem reaches_mapP2Table (h : AtLoop p4Table s₀ 0 s) :
    ∃ s', Reaches (code p4Table) (fun _ ↦ id) (code p4Table .mapP2Table, s) ([], s'.popSys .ip) ∧
      AtLoop p4Table s₀ 512 s' := by
  have hpass (s : State 32) : Reaches (code p4Table) (fun _ ↦ id) (code p4Table .mapP2Table, s)
      ([.jne .mapP2Table, .nop, .ret], exec (fun _ ↦ id) (pass p4Table) s) := by
    rw [code, mapP2Table_eq]
    exact Reaches.block (pass p4Table) (by simp [pass, Instr.Straight]) s
  have hloop : ∃ s', Reaches (code p4Table) (fun _ ↦ id) (code p4Table .mapP2Table, s)
      (code p4Table .mapP2Table, s') ∧ AtLoop p4Table s₀ 511 s' := by
    refine Reaches.loop (AtLoop p4Table s₀) 511 (fun n hn s hs ↦ ?_) h
    obtain ⟨hs', hzf⟩ := hs.pass (by omega)
    exact ⟨_, (hpass s).trans (.jne_taken (hzf.trans (decide_eq_false (by omega)))), hs'⟩
  obtain ⟨s₁, hrun, h₁⟩ := hloop
  obtain ⟨h₂, hzf⟩ := h₁.pass (by omega)
  refine ⟨_, (hrun.trans (hpass s₁)).trans ((Reaches.jne_not_taken hzf).trans ?_), h₂⟩
  exact (Reaches.single rfl).trans (Reaches.single rfl)

theorem reaches_setUpPageTables (p4Table : BitVec 32) (s₀ : State 32) :
    ∃ s', Reaches (code p4Table) (fun _ ↦ id) (code p4Table .setUpPageTables, s₀)
      ([], s'.popSys .ip) ∧ AtLoop p4Table s₀ 512 s' := by
  have hlink : Reaches (code p4Table) (fun _ ↦ id) (code p4Table .setUpPageTables, s₀)
      (code p4Table .mapP2Table, exec (fun _ ↦ id) (linkTables p4Table) s₀) :=
    Reaches.block (linkTables p4Table) (by simp [linkTables, Instr.Straight]) s₀
  have h₀ : AtLoop p4Table s₀ 0 (exec (fun _ ↦ id) (linkTables p4Table) s₀) := by
    refine ⟨?_, ?_, fun r hax hcx hdx ↦ ?_⟩
    · simp [linkTables, Instr.exec]
    · simp [linkTables, Instr.exec, State.ea, filled, linked]
    · simp [linkTables, Instr.exec, hax, hcx]
  obtain ⟨s', hrun, h⟩ := reaches_mapP2Table h₀
  exact ⟨s', hlink.trans hrun, h⟩

/-- **The first page tables.** From every state, with the tables where the linker puts them, as the
loader cleared them, and apart from the stack, `set_up_page_tables` returns. It has used only `eax`,
`ecx` and `edx` — the boot loader's `edi` and `esi` are kept for `kmain` — and written only the
tables. With them the processor translates every address of the first gigabyte to itself and no
other, so that every address of the first gigabyte is also what the kernel's own tables make of it,
in every later state of them. -/
theorem boot_translation (hp : Placed p4Table) (hzero : ∀ a, InTables p4Table a → s.mem a = 0)
    (hstack : ¬InTables p4Table (s.gpr .sp)) (k : Machine) :
    ∃ s', Reaches (code p4Table) (fun _ ↦ id) (code p4Table .setUpPageTables, s) ([], s') ∧
      s'.sys .ip = s.mem (s.gpr .sp) ∧ s'.gpr .sp = s.gpr .sp + 4 ∧
      (∀ r, r ≠ .ax → r ≠ .cx → r ≠ .dx → r ≠ .sp → s'.gpr r = s.gpr r) ∧
      (∀ a, ¬InTables p4Table a → s'.mem a = s.mem a) ∧
      (∀ v < 2 ^ 48, hwTranslate (bootMachine k s' p4Table) v =
        if v < identityEnd then some v else none) ∧
      ∀ {identityP3 identityP2 : ℕ} {frames free held : List ℕ} {k' : Machine},
        Paging identityP3 identityP2 frames k' free held → ∀ v < identityEnd,
          hwTranslate k' v = hwTranslate (bootMachine k s' p4Table) v := by
  obtain ⟨s', hrun, h⟩ := reaches_setUpPageTables p4Table s
  obtain ⟨hid, hroot⟩ := hp.identityMap (k := k) hzero h.mem
  have hkept {a : BitVec 32} (ha : ¬InTables p4Table a) : s'.mem a = s.mem a := by
    rw [h.mem, hp.filled_of_not_inTables ha]
  have hsp : s'.gpr .sp = s.gpr .sp := h.gpr .sp (by decide) (by decide) (by decide)
  have hfirst {v : ℕ} (hv : v < identityEnd) : hwTranslate (bootMachine k s' p4Table) v = some v :=
    hid.hwTranslate_eq hv
  refine ⟨_, hrun, ?_, ?_, fun r hax hcx hdx hsp ↦ ?_, fun a ha ↦ hkept ha, fun v hv ↦ ?_,
    fun hpaging v hv ↦ (hpaging.identity.hwTranslate_eq hv).trans (hfirst hv).symm⟩
  · show s'.mem (s'.gpr .sp) = _
    rw [hsp, hkept hstack]
  · show s'.gpr .sp + 4 = _
    rw [hsp]
  · exact (Function.update_of_ne hsp ..).trans (h.gpr r hax hcx hdx)
  · split
    · next hlt => exact hfirst hlt
    · next hge =>
      by_cases hlow : v < 2 ^ 39
      · exact hid.hwTranslate_eq_none (not_lt.1 hge) hlow
      · -- the root has no other entry
        have hindex : hwIndex v 0 < pageTableNumEnts ∧ hwIndex v 0 ≠ 0 := by
          simp only [hwIndex, pageTableNumEnts]
          omega
        have hentry : (bootMachine k (s'.popSys .ip) p4Table).mem
            ((bootMachine k (s'.popSys .ip) p4Table).cr3 + 8 * hwIndex v 0) = 0 :=
          hroot _ hindex.1 hindex.2
        rw [hwTranslate, hwLeaf, hentry]
        rfl

/-- A machine after the loader, with the stack above the tables. -/
def loaded : State 32 := ⟨fun r ↦ if r = .sp then 0x110000 else 0, fun _ ↦ 0, fun _ ↦ 0⟩

/-- The text screen is where it was. -/
theorem boot_translation_loaded :
    ∃ s', Reaches (code 0x104000) (fun _ ↦ id) (code 0x104000 .setUpPageTables, loaded) ([], s') ∧
      hwTranslate (bootMachine (poolOfPages 8) s' 0x104000) 0xb8000 = some 0xb8000 := by
  have hp : Placed 0x104000 := ⟨by decide, by decide, by decide⟩
  have hzero : ∀ a, InTables 0x104000 a → loaded.mem a = 0 := fun _ _ ↦ rfl
  obtain ⟨s', hrun, -, -, -, -, htranslate, -⟩ :=
    boot_translation hp hzero (by decide) (poolOfPages 8)
  exact ⟨s', hrun, htranslate 0xb8000 (by decide)⟩

end Boot

end Marimba
