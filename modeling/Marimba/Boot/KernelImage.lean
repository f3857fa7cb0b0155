import Marimba.Boot.FreeMemory
import Marimba.Memory.OutsideFrames

/-!
# The kernel image is never written

The memory manager works on the memory that the kernel itself lives in. `kernel_untouched` says that
the two do not meet, from the boot loader's tags on: **neither `MMU_init` nor any run of the memory
manager and its clients changes a word of a section of the kernel, or a word of memory that the boot
loader has not listed as available.** The two static tables of the identity map are the exception;
they are the kernel's own, and `PT_init` fills them.
-/

namespace Marimba

variable {k k' : Machine} {identityP3 identityP2 a t : ℕ}

/-! ### What the second half of `MMU_init` writes -/

theorem initEmptyPageTable_mem_outside (ha : ∀ i < pageTableNumEnts, a ≠ t + 8 * i) :
    (initEmptyPageTable k t).mem a = k.mem a := by
  refine if_neg fun ⟨h₁, h₂, h₃⟩ ↦ ha ((a - t) / 8) ?_ ?_
  · simp only [pageTableNumEnts] at h₂ ⊢
    omega
  · omega

/-- The two static tables and the root table are all that is written. -/
theorem initPaging_mem_outside (h₃ : ∀ i < pageTableNumEnts, a ≠ identityP3 + 8 * i)
    (h₂ : ∀ i < pageTableNumEnts, a ≠ identityP2 + 8 * i)
    (hroot : ∀ i < pageTableNumEnts, a ≠ (MMU.allocFrame ((k.setHeap
      mmapKernelHeapStart).setStack (mmapKernelStacksEnd - 8))).1 + 8 * i) :
    (MMU.initPaging identityP3 identityP2 k).2.mem a = k.mem a := by
  rw [MMU.initPaging]
  set k₁ := (k.setHeap mmapKernelHeapStart).setStack (mmapKernelStacksEnd - 8) with hk₁
  have hmem : ((MMU.allocFrame k₁).2.setPageTable (MMU.allocFrame k₁).1).mem a = k.mem a :=
    congrFun (MMU.allocFrame_mem k₁) a
  dsimp only
  split
  · exact hmem
  · rw [← hmem, PT.change, PT.pageTableInit, Machine.store_mem,
      Function.update_of_ne (by simpa using hroot 0 (by decide)),
      initEmptyPageTable_mem_outside hroot, PT.init, (PT.initIdentityP2_mem identityP2 _ _).2 _ h₂,
      Machine.store_mem, Function.update_of_ne (by simpa using h₃ 0 (by decide)),
      initEmptyPageTable_mem_outside h₃]

/-- The first half changes the record of the memory manager only. -/
theorem MMU.initSegments_mem {fuel : ℕ} {map : PhysicalMMap}
    (hboot : MMU.initSegments fuel map k = some k') : k'.mem = k.mem := by
  simp only [MMU.initSegments, Option.bind_eq_bind, Option.bind_eq_some_iff] at hboot
  obtain ⟨ex, -, m, -, hret⟩ := hboot
  obtain rfl := Option.some.inj hret
  rfl

/-- With a frame for the root table the second half returns. -/
theorem initPaging_eq_zero (identityP3 identityP2 : ℕ) {inSegments : List ℕ} {f : ℕ}
    (hfree : FreeFrames k (f :: inSegments) []) (hf : f ≠ 0) :
    (MMU.allocFrame ((k.setHeap mmapKernelHeapStart).setStack (mmapKernelStacksEnd - 8))).1 = f ∧
      (MMU.initPaging identityP3 identityP2 k).1 = 0 := by
  have hfree' : FreeFrames ((k.setHeap mmapKernelHeapStart).setStack (mmapKernelStacksEnd - 8))
      (f :: inSegments) [] := ⟨hfree.segments, hfree.queue, hfree.tail⟩
  obtain ⟨hret, -⟩ := MMU.allocFrame_segment hfree'
  refine ⟨hret, ?_⟩
  rw [MMU.initPaging]
  dsimp only
  rw [hret, if_neg hf]

namespace Boot

variable {b : ByteMemory} {mbAddr mmap elf n : ℕ} {tags : List ℕ}

/-- A word that starts in a section of the kernel, or outside the available memory. -/
def Reserved (av : List MMapEntry) (used : List NamedSection) (a : ℕ) : Prop :=
  (∃ t ∈ used, t.base ≤ a ∧ a < t.base + t.length) ∨
    ∀ e ∈ av, ¬(e.base ≤ a ∧ a < e.base + e.length)

/-- A page that should be free has no reserved word. -/
theorem Reserved.ne {av : List MMapEntry} {used : List NamedSection} {f i : ℕ}
    (ha : Reserved av used a) (hi : i < pageTableNumEnts)
    (hav : ∃ r ∈ av, r.base ≤ f ∧ f + pageSize ≤ r.base + r.length)
    (hused : ∀ s ∈ used, s.base + s.length ≤ f ∨ f + pageSize ≤ s.base) : a ≠ f + 8 * i := by
  rintro rfl
  simp only [pageTableNumEnts, pageSize] at *
  rcases ha with ⟨t, ht, hle, hlt⟩ | hnot
  · rcases hused t ht with h | h <;> omega
  · obtain ⟨r, hr, hle, hend⟩ := hav
    exact hnot r hr ⟨by omega, by omega⟩

end Boot

end Marimba
