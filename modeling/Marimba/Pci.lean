import Marimba.LinkedList
import Marimba.Foundations.ByteMemory
import Marimba.Foundations.Search

/-!
# Enumerating the PCI devices (`drivers/pci.c`)

A function of a device is addressed by bus, slot and number, packed into one word together with an
offset into its configuration space (`pciReadConfig_eq`). `PCI_enum` goes through all slots of all
buses, and in each slot through the functions from 0 on; it links a `struct PCIDevice` into
`pci_dev_list` for each that answers.

**Two bounds end the loop over the functions**: it goes over four of the eight that there can be,
and it stops at the first one that is absent. So the list has the first functions of a slot up to
the first gap (`found`, `pciEnum_listed`). `enumerated_iff` says for which configuration spaces
these are all functions there are.
-/

namespace Marimba

namespace Pci

open Links

/-! ### Data -/

/-- `struct PCIDevId`; `classCode` is the field `class`. -/
structure PciDevId where
  vendorId : ℕ
  deviceId : ℕ
  classCode : UInt8
  subClass : UInt8
  deriving DecidableEq

/-- `struct PCIConfigHeader`. -/
structure PciConfigHeader where
  vendorId : ℕ
  deviceId : ℕ
  command : ℕ
  status : ℕ
  rev : UInt8
  progIf : UInt8
  subClass : UInt8
  classCode : UInt8
  cacheLineSize : UInt8
  latencyTimer : UInt8
  headerType : UInt8
  bist : UInt8
  deriving DecidableEq

/-- `struct PCIDevice`, outside of its list header. -/
structure PciDevice where
  id : PciDevId
  bus : ℕ
  slot : ℕ
  func : ℕ
  hdr : PciConfigHeader
  deriving DecidableEq

/-- The packed structure that stands in memory at 0. -/
def PciConfigHeader.ofMemory (m : ByteMemory) : PciConfigHeader :=
  ⟨m.half 0, m.half 2, m.half 4, m.half 6, m.byte 8, m.byte 9, m.byte 10, m.byte 11, m.byte 12,
    m.byte 13, m.byte 14, m.byte 15⟩

/-- The configuration spaces of the functions, by bus, slot and number. One that is absent reads as
ones. -/
abbrev ConfigSpace : Type := ℕ → ℕ → ℕ → ByteMemory

/-- The headers on the list of devices. -/
inductive PciNode where
  | list
  | dev (a : ℕ)
  deriving DecidableEq, Repr

/-- `pci_state`, what reading a `struct PCIDevice` at a node gives, and the number of calls of
`kmalloc` so far. -/
structure PciState where
  links : Links PciNode
  device : PciNode → PciDevice
  calls : ℕ

/-- The static initial value of `pci_state`. -/
def PciState.init (device : PciNode → PciDevice) : PciState :=
  ⟨⟨fun _ ↦ .list, fun _ ↦ .list⟩, device, 0⟩

/-! ### The code -/

/-- What `inl(PCI_CONFIG_DATA)` gives after `outl(PCI_CONFIG_ADDR, address)`: the host bridge takes
the address apart. -/
def configData (cfg : ConfigSpace) (address : ℕ) : ℕ :=
  (cfg (address / 2 ^ 16 % 2 ^ 8) (address / 2 ^ 11 % 2 ^ 5) (address / 2 ^ 8 % 2 ^ 3)).word
    (address % 2 ^ 8 / 4 * 4)

/-- `pci_read_config`. No shift loses a bit of its operand. -/
def pciReadConfig (cfg : ConfigSpace) (bus slot func offset : ℕ) : ℕ :=
  configData cfg
    ((bus <<< 16) ||| (slot <<< 11) ||| (func <<< 8) ||| (offset &&& 0xfc) ||| 0x80000000)

/-- `pci_read_config_vendor`. -/
def pciReadConfigVendor (cfg : ConfigSpace) (bus slot func : ℕ) : ℕ :=
  pciReadConfig cfg bus slot func 0 &&& 0xffff

/-- `pci_read_config_header`, into a structure at 0. -/
def pciReadConfigHeader (cfg : ConfigSpace) (hdr : ByteMemory) (bus slot func : ℕ) : ByteMemory :=
  (List.range 4).foldl
    (fun hdr offset ↦ hdr.storeWord (4 * offset) (pciReadConfig cfg bus slot func (offset * 4))) hdr

/-- `LL_enqueue` of the device at `new`, filled in as given. -/
def PciState.enqueueDevice (s : PciState) (new : ℕ) (d : PciDevice) : PciState :=
  ⟨LL.enqueue s.links .list (.dev new), Function.update s.device (.dev new) d, s.calls + 1⟩

/-- The loop of `pci_enum_device`, of `n` functions from `func` on. `kmalloc` gives the result of
each call. -/
def pciEnumFuncs (cfg : ConfigSpace) (kmalloc : ℕ → Option ℕ) (bus slot : ℕ) :
    (n func : ℕ) → ByteMemory → PciState → ℤ × PciState
  | 0, _, _, s => (1, s)
  | n + 1, func, hdr, s =>
    let mem := pciReadConfigHeader cfg hdr bus slot func
    let hdr := PciConfigHeader.ofMemory mem
    if hdr.vendorId = 0xffff then (1, s)
    else
      match kmalloc s.calls with
      | none => (-1, { s with calls := s.calls + 1 })
      | some new =>
        let id := ⟨hdr.vendorId, hdr.deviceId, hdr.classCode, hdr.subClass⟩
        pciEnumFuncs cfg kmalloc bus slot n (func + 1) mem
          (s.enqueueDevice new ⟨id, bus, slot, func, hdr⟩)

/-- `pci_enum_device`; `hdr` is what stands in its local variable before. -/
def pciEnumDevice (cfg : ConfigSpace) (kmalloc : ℕ → Option ℕ) (hdr : ByteMemory) (bus slot : ℕ)
    (s : PciState) : ℤ × PciState :=
  if pciReadConfigVendor cfg bus slot 0 = 0xffff then (0, s)
  else pciEnumFuncs cfg kmalloc bus slot 4 0 hdr s

/-- `PCI_enum`. -/
def pciEnum (cfg : ConfigSpace) (kmalloc : ℕ → Option ℕ) (hdr : ℕ → ℕ → ByteMemory)
    (s : PciState) : PciState :=
  (List.range 256).foldl (fun s bus ↦
    (List.range 32).foldl (fun s slot ↦
      (pciEnumDevice cfg kmalloc (hdr bus slot) bus slot s).2) s) s

/-- A device is one of those a driver is for. -/
def matchesDriver (id : PciDevId) (d : PciDevice) : Bool :=
  d.id.classCode = id.classCode ∧ d.id.subClass = id.subClass

/-- `PCI_register` of a driver with this `id` calls its `probe` on these devices. -/
def PciProbes (s : PciState) (id : PciDevId) (probed : List PciNode) : Prop :=
  ∃ nodes, LL.Iterates s.links .list nodes ∧
    probed = nodes.filter fun curr ↦ matchesDriver id (s.device curr)

/-! ### What there is -/

/-- A function answers. -/
def Present (cfg : ConfigSpace) (bus slot func : ℕ) : Prop := (cfg bus slot func).half 0 ≠ 0xffff

instance (cfg : ConfigSpace) (bus slot func : ℕ) : Decidable (Present cfg bus slot func) :=
  inferInstanceAs (Decidable (_ ≠ _))

/-- The device of a function: its header and its id are the first bytes of the configuration
space. -/
def deviceAt (cfg : ConfigSpace) (bus slot func : ℕ) : PciDevice :=
  let hdr := PciConfigHeader.ofMemory (cfg bus slot func)
  ⟨⟨hdr.vendorId, hdr.deviceId, hdr.classCode, hdr.subClass⟩, bus, slot, func, hdr⟩

/-- The devices of these functions of each slot, in increasing order. -/
def devices (cfg : ConfigSpace) (funcs : ℕ → ℕ → List ℕ) : List PciDevice :=
  (List.range 256).flatMap fun bus ↦
    (List.range 32).flatMap fun slot ↦ (funcs bus slot).map (deviceAt cfg bus slot)

/-- The functions of a slot that are present. -/
def present (cfg : ConfigSpace) (bus slot : ℕ) : List ℕ :=
  (List.range 8).filter fun func ↦ Present cfg bus slot func

/-- The functions of a slot that `pci_enum_device` finds. -/
def found (cfg : ConfigSpace) (bus slot : ℕ) : List ℕ :=
  (List.range 4).takeWhile fun func ↦ Present cfg bus slot func

/-- The devices are on the list, each once and in order, and every driver is probed with those of
its class. -/
structure Enumerated (cfg : ConfigSpace) (s : PciState) : Prop where
  listed : ∃ nodes, LL.Iterates s.links .list nodes ∧
    nodes.map s.device = devices cfg (present cfg)
  probed : ∀ id, ∃ nodes, PciProbes s id nodes ∧
    nodes.map s.device = (devices cfg (present cfg)).filter (matchesDriver id)

/-! ### Reading the configuration space -/

section Read

variable {cfg : ConfigSpace} {hdr m m' : ByteMemory} {bus slot func offset : ℕ}

/-- The parts of an address do not overlap. -/
theorem configAddress_eq (hbus : bus < 256) (hslot : slot < 32) (hfunc : func < 8) {o : ℕ}
    (ho : o < 256) :
    (bus <<< 16) ||| (slot <<< 11) ||| (func <<< 8) ||| o ||| 0x80000000 =
      2 ^ 31 + bus * 2 ^ 16 + slot * 2 ^ 11 + func * 2 ^ 8 + o := by
  have hslot' : slot <<< 11 < 2 ^ 16 := by
    rw [Nat.shiftLeft_eq]
    omega
  have h₁ : (bus <<< 16) ||| (slot <<< 11) = (bus * 2 ^ 5 + slot) <<< 11 := by
    rw [← Nat.shiftLeft_add_eq_or_of_lt hslot', Nat.shiftLeft_eq, Nat.shiftLeft_eq,
      Nat.shiftLeft_eq]
    omega
  have hfunc' : func <<< 8 < 2 ^ 11 := by
    rw [Nat.shiftLeft_eq]
    omega
  have h₂ : (bus * 2 ^ 5 + slot) <<< 11 ||| (func <<< 8) =
      (bus * 2 ^ 8 + slot * 2 ^ 3 + func) <<< 8 := by
    rw [← Nat.shiftLeft_add_eq_or_of_lt hfunc', Nat.shiftLeft_eq, Nat.shiftLeft_eq,
      Nat.shiftLeft_eq]
    omega
  have hlow : (bus * 2 ^ 8 + slot * 2 ^ 3 + func) <<< 8 + o < 2 ^ 31 := by
    rw [Nat.shiftLeft_eq]
    omega
  have htop : 0x80000000 = 1 <<< 31 := rfl
  rw [h₁, h₂, ← Nat.shiftLeft_add_eq_or_of_lt (show o < 2 ^ 8 from ho), Nat.or_comm, htop,
    ← Nat.shiftLeft_add_eq_or_of_lt hlow, Nat.shiftLeft_eq, Nat.shiftLeft_eq]
  omega

/-- **`pci_read_config`** reads four bytes of the configuration space of the function. -/
theorem pciReadConfig_eq (cfg : ConfigSpace) (hbus : bus < 256) (hslot : slot < 32)
    (hfunc : func < 8) (hoffset : offset < 64) :
    pciReadConfig cfg bus slot func (offset * 4) = (cfg bus slot func).word (offset * 4) := by
  have hmask : ∀ o < 64, (o * 4) &&& 0xfc = o * 4 := by decide
  rw [pciReadConfig, hmask offset hoffset, configAddress_eq hbus hslot hfunc (by omega)]
  have hbus' : (2 ^ 31 + bus * 2 ^ 16 + slot * 2 ^ 11 + func * 2 ^ 8 + offset * 4) / 2 ^ 16 %
      2 ^ 8 = bus := by omega
  have hslot' : (2 ^ 31 + bus * 2 ^ 16 + slot * 2 ^ 11 + func * 2 ^ 8 + offset * 4) / 2 ^ 11 %
      2 ^ 5 = slot := by omega
  have hfunc' : (2 ^ 31 + bus * 2 ^ 16 + slot * 2 ^ 11 + func * 2 ^ 8 + offset * 4) / 2 ^ 8 %
      2 ^ 3 = func := by omega
  have hoffset' : (2 ^ 31 + bus * 2 ^ 16 + slot * 2 ^ 11 + func * 2 ^ 8 + offset * 4) % 2 ^ 8 /
      4 * 4 = offset * 4 := by omega
  rw [configData, hbus', hslot', hfunc', hoffset']

theorem pciReadConfigVendor_eq (hbus : bus < 256) (hslot : slot < 32) (hfunc : func < 8) :
    pciReadConfigVendor cfg bus slot func = (cfg bus slot func).half 0 := by
  have hhalf := (cfg bus slot func).half_lt 0
  have hread := pciReadConfig_eq cfg hbus hslot hfunc (show 0 < 64 by decide)
  rw [Nat.zero_mul] at hread
  rw [pciReadConfigVendor, hread, show 0xffff = 2 ^ 16 - 1 from rfl,
    Nat.and_two_pow_sub_one_eq_mod, ByteMemory.word]
  omega

/-- The header is the first sixteen bytes. -/
theorem ofMemory_congr (h : ∀ a < 16, m.byte a = m'.byte a) :
    PciConfigHeader.ofMemory m = PciConfigHeader.ofMemory m' := by
  simp (disch := decide) only [PciConfigHeader.ofMemory, ByteMemory.half, h]

/-- **`pci_read_config_header`** puts the header together word by word. -/
theorem pciReadConfigHeader_eq (cfg : ConfigSpace) (hdr : ByteMemory) (hbus : bus < 256)
    (hslot : slot < 32) (hfunc : func < 8) :
    PciConfigHeader.ofMemory (pciReadConfigHeader cfg hdr bus slot func) =
      PciConfigHeader.ofMemory (cfg bus slot func) := by
  -- after `n` words the first `4 * n` bytes are there
  have hloop : ∀ n ≤ 4, ∀ a < 4 * n, ((List.range n).foldl (fun hdr offset ↦
      hdr.storeWord (4 * offset) (pciReadConfig cfg bus slot func (offset * 4))) hdr).byte a =
        (cfg bus slot func).byte a := by
    intro n
    induction n with
    | zero => exact fun _ a ha ↦ absurd ha (Nat.not_lt_zero a)
    | succ n ih =>
      intro hn a ha
      rw [List.range_succ, List.foldl_append, List.foldl_cons, List.foldl_nil,
        pciReadConfig_eq cfg hbus hslot hfunc (by omega), ByteMemory.storeWord_word_byte]
      split
      · congr 1
        omega
      · exact ih (by omega) a (by omega)
  exact ofMemory_congr fun a ha ↦ hloop 4 le_rfl a ha

end Read

/-! ### The loops -/

section Enum

variable {cfg : ConfigSpace} {addr : ℕ → ℕ} {hdr : ℕ → ℕ → ByteMemory} {s : PciState}
  {ds : List PciDevice} {bus slot : ℕ}

/-- The nodes of the first `n` devices, when `kmalloc` returns the addresses `addr`. -/
def nodesOf (addr : ℕ → ℕ) (n : ℕ) : List PciNode := (List.range n).map fun k ↦ .dev (addr k)

/-- The list is that of the devices `ds`, in the blocks that `kmalloc` has returned so far. -/
structure Listed (addr : ℕ → ℕ) (s : PciState) (ds : List PciDevice) : Prop where
  ring : IsRing s.links .list (nodesOf addr ds.length)
  device : (nodesOf addr ds.length).map s.device = ds
  calls : s.calls = ds.length

theorem not_mem_nodesOf (haddr : Function.Injective addr) (n : ℕ) :
    PciNode.dev (addr n) ∉ .list :: nodesOf addr n := by
  rw [List.mem_cons, not_or]
  refine ⟨by simp, fun hmem ↦ ?_⟩
  obtain ⟨k, hk, heq⟩ := List.mem_map.1 hmem
  obtain rfl := haddr (PciNode.dev.inj heq)
  exact Nat.lt_irrefl k (List.mem_range.1 hk)

theorem listed_init (addr : ℕ → ℕ) (device : PciNode → PciDevice) :
    Listed addr (.init device) [] :=
  ⟨⟨⟨rfl, List.nodup_singleton _⟩, rfl⟩, rfl, rfl⟩

/-- **One more device.** -/
theorem Listed.enqueueDevice (h : Listed addr s ds) (haddr : Function.Injective addr)
    (d : PciDevice) : Listed addr (s.enqueueDevice (addr s.calls) d) (ds ++ [d]) := by
  have hnew : PciNode.dev (addr s.calls) ∉ .list :: nodesOf addr ds.length :=
    h.calls ▸ not_mem_nodesOf haddr s.calls
  have hnodes : nodesOf addr (ds ++ [d]).length =
      nodesOf addr ds.length ++ [.dev (addr s.calls)] := by
    rw [List.length_append, List.length_singleton, nodesOf, List.range_succ, List.map_append,
      h.calls]
    rfl
  refine ⟨hnodes ▸ LL.ring_enqueue h.ring hnew, ?_, ?_⟩
  · have hold : (nodesOf addr ds.length).map (s.enqueueDevice (addr s.calls) d).device =
        (nodesOf addr ds.length).map s.device := List.map_congr_left fun x hx ↦
      Function.update_of_ne (ne_of_mem_of_not_mem (List.mem_cons_of_mem _ hx) hnew) ..
    have hself : (s.enqueueDevice (addr s.calls) d).device (.dev (addr s.calls)) = d :=
      Function.update_self ..
    rw [hnodes, List.map_append, hold, h.device, List.map_singleton, hself]
  · rw [List.length_append, List.length_singleton, ← h.calls]
    rfl

/-- The loop over the functions of a slot, by induction on the number of functions left. -/
theorem pciEnumFuncs_listed (h : Listed addr s ds) (haddr : Function.Injective addr)
    (hbus : bus < 256) (hslot : slot < 32) {n func : ℕ} (hfunc : func + n ≤ 8) (m : ByteMemory) :
    Listed addr (pciEnumFuncs cfg (fun k ↦ some (addr k)) bus slot n func m s).2
      (ds ++ ((List.range' func n).takeWhile fun func ↦ Present cfg bus slot func).map
        (deviceAt cfg bus slot)) := by
  induction n generalizing func m s ds with
  | zero => simpa [pciEnumFuncs] using h
  | succ n ih =>
    have hhdr := pciReadConfigHeader_eq cfg m hbus hslot (show func < 8 by omega)
    rw [pciEnumFuncs, List.range'_succ, List.takeWhile_cons]
    simp only [hhdr]
    by_cases hp : Present cfg bus slot func
    · have hvendor : (PciConfigHeader.ofMemory (cfg bus slot func)).vendorId ≠ 0xffff := hp
      rw [if_neg hvendor, if_pos (decide_eq_true hp), List.map_cons, List.append_cons]
      exact ih (h.enqueueDevice haddr (deviceAt cfg bus slot func)) (by omega) _
    · have hvendor : (PciConfigHeader.ofMemory (cfg bus slot func)).vendorId = 0xffff :=
        not_not.1 hp
      rw [if_pos hvendor, if_neg (by simpa using hp), List.map_nil, List.append_nil]
      exact h

/-- One slot. -/
theorem pciEnumDevice_listed (h : Listed addr s ds) (haddr : Function.Injective addr)
    (hbus : bus < 256) (hslot : slot < 32) (m : ByteMemory) :
    Listed addr (pciEnumDevice cfg (fun k ↦ some (addr k)) m bus slot s).2
      (ds ++ (found cfg bus slot).map (deviceAt cfg bus slot)) := by
  rw [pciEnumDevice, pciReadConfigVendor_eq hbus hslot (by decide)]
  split
  · next hvendor =>
    have hnil : found cfg bus slot = [] := by
      have hp : ¬Present cfg bus slot 0 := not_not.2 hvendor
      simp [found, List.range_succ, hp]
    rw [hnil, List.map_nil, List.append_nil]
    exact h
  · rw [found, List.range_eq_range']
    exact pciEnumFuncs_listed h haddr hbus hslot (by decide) m

/-- A loop that appends to the list for each of its numbers appends all that these give. -/
theorem listed_foldl {n : ℕ} {step : PciState → ℕ → PciState} {f : ℕ → List PciDevice}
    (h : Listed addr s ds)
    (hstep : ∀ k < n, ∀ s ds, Listed addr s ds → Listed addr (step s k) (ds ++ f k)) :
    Listed addr ((List.range n).foldl step s) (ds ++ (List.range n).flatMap f) := by
  induction n with
  | zero => simpa using h
  | succ n ih =>
    rw [List.range_succ, List.foldl_append, List.flatMap_append, ← List.append_assoc,
      List.flatMap_singleton]
    exact hstep n (Nat.lt_succ_self n) _ _ (ih fun k hk ↦ hstep k (Nat.lt_succ_of_lt hk))

/-- **What `PCI_enum` finds**: in each slot the first functions up to a gap, at most four. -/
theorem pciEnum_listed (haddr : Function.Injective addr) (device : PciNode → PciDevice) :
    Listed addr (pciEnum cfg (fun k ↦ some (addr k)) hdr (.init device))
      (devices cfg (found cfg)) := by
  rw [pciEnum, devices, ← List.nil_append (List.flatMap _ _)]
  refine listed_foldl (listed_init addr device) fun bus hbus s ds h ↦ ?_
  refine listed_foldl h fun slot hslot s ds h ↦ ?_
  exact pciEnumDevice_listed h haddr hbus hslot _

end Enum

/-! ### When nothing is missed -/

section Missed

variable {cfg : ConfigSpace} {addr : ℕ → ℕ} {s : PciState} {ds : List PciDevice}

/-- What iterating over the list gives. -/
theorem Listed.iterates (h : Listed addr s ds) :
    LL.Iterates s.links .list (nodesOf addr ds.length) := LL.iterates_of_queue h.ring.1

/-- The list and the probes are right when the devices are those that there are. -/
theorem Listed.complete_iff (h : Listed addr s ds) :
    Enumerated cfg s ↔ ds = devices cfg (present cfg) := by
  constructor
  · rintro ⟨⟨nodes, hnodes, hmap⟩, -⟩
    rw [← hmap, hnodes.unique h.iterates, h.device]
  · rintro rfl
    refine ⟨⟨_, h.iterates, h.device⟩, fun id ↦ ⟨_, ⟨_, h.iterates, rfl⟩, ?_⟩⟩
    have hdevice := congrArg (List.filter (matchesDriver id)) h.device
    rwa [List.filter_map] at hdevice

/-- The devices of two choices of functions are the same when the functions are. -/
theorem devices_eq_iff {f g : ℕ → ℕ → List ℕ} :
    devices cfg f = devices cfg g ↔ ∀ bus < 256, ∀ slot < 32, f bus slot = g bus slot := by
  have hslot : ∀ (f : ℕ → ℕ → List ℕ) (bus slot : ℕ),
      ∀ d ∈ (f bus slot).map (deviceAt cfg bus slot), d.slot = slot ∧ d.bus = bus := by
    intro f bus slot d hd
    obtain ⟨func, -, rfl⟩ := List.mem_map.1 hd
    exact ⟨rfl, rfl⟩
  have hbus : ∀ (f : ℕ → ℕ → List ℕ) (bus : ℕ), ∀ d ∈ (List.range 32).flatMap fun slot ↦
      (f bus slot).map (deviceAt cfg bus slot), d.bus = bus := by
    intro f bus d hd
    obtain ⟨slot, -, hd⟩ := List.mem_flatMap.1 hd
    exact (hslot f bus slot d hd).2
  have hfunc : ∀ bus slot : ℕ, Function.Injective (deviceAt cfg bus slot) :=
    fun bus slot func func' h ↦ congrArg PciDevice.func h
  rw [devices, devices, flatMap_eq_flatMap_iff List.nodup_range (fun bus _ ↦ hbus f bus)
    fun bus _ ↦ hbus g bus]
  simp only [List.mem_range]
  refine forall_congr' fun bus ↦ imp_congr_right fun _ ↦ ?_
  rw [flatMap_eq_flatMap_iff List.nodup_range (fun slot _ d hd ↦ (hslot f bus slot d hd).1)
    fun slot _ d hd ↦ (hslot g bus slot d hd).1]
  simp only [List.mem_range]
  exact forall_congr' fun slot ↦ imp_congr_right fun _ ↦ List.map_inj_right (hfunc bus slot)

/-- The functions found in a slot are those present. -/
theorem found_eq_present_iff {bus slot : ℕ} :
    found cfg bus slot = present cfg bus slot ↔
      ∀ func < 8, Present cfg bus slot func →
        func < 4 ∧ ∀ lower < func, Present cfg bus slot lower := by
  rw [found, present, takeWhile_range_eq_filter_iff (by decide)]
  simp only [decide_eq_true_iff]

/-- **When `PCI_enum` misses nothing**: in every slot the functions that are present are the first
ones, four at most. Allocations succeed and return distinct blocks. -/
theorem enumerated_iff (haddr : Function.Injective addr) (device : PciNode → PciDevice)
    (hdr : ℕ → ℕ → ByteMemory) (cfg : ConfigSpace) :
    Enumerated cfg (pciEnum cfg (fun k ↦ some (addr k)) hdr (.init device)) ↔
      ∀ bus < 256, ∀ slot < 32, ∀ func < 8, Present cfg bus slot func →
        func < 4 ∧ ∀ lower < func, Present cfg bus slot lower := by
  rw [(pciEnum_listed haddr device).complete_iff, devices_eq_iff]
  exact forall_congr' fun bus ↦ imp_congr_right fun _ ↦ forall_congr' fun slot ↦
    imp_congr_right fun _ ↦ found_eq_present_iff

/-- A configuration space that answers at these functions of slot 0 on bus 0, as all zeros. -/
def oneSlot (funcs : List ℕ) : ConfigSpace := fun bus slot func ↦
  ⟨fun _ ↦ if bus = 0 ∧ slot = 0 ∧ func ∈ funcs then 0 else 0xff, [], []⟩

theorem present_oneSlot {funcs : List ℕ} {bus slot func : ℕ} :
    Present (oneSlot funcs) bus slot func ↔ bus = 0 ∧ slot = 0 ∧ func ∈ funcs := by
  rw [Present, ByteMemory.half, oneSlot]
  split
  · next h => exact iff_of_true (by decide) h
  · next h => exact iff_of_false (by decide) h

/-- What stands in memory before the enumeration. -/
def noDevice : PciDevice := deviceAt (oneSlot []) 0 0 0

theorem enumerated_iff_twoFunctions :
    Enumerated (oneSlot [0, 1]) (pciEnum (oneSlot [0, 1]) (fun k ↦ some k)
      (fun _ _ ↦ oneSlot [] 0 0 0) (.init fun _ ↦ noDevice)) := by
  refine (enumerated_iff Function.injective_id _ _ _).2 fun bus _ slot _ func _ h ↦ ?_
  obtain ⟨rfl, rfl, hfunc⟩ := present_oneSlot.1 h
  simp only [List.mem_cons, List.not_mem_nil, or_false] at hfunc
  refine ⟨by omega, fun lower hlower ↦ present_oneSlot.2 ⟨rfl, rfl, ?_⟩⟩
  simp only [List.mem_cons, List.not_mem_nil, or_false]
  omega

/-- A device whose functions 0 and 2 are present: the second one is not enumerated. -/
theorem function_behind_gap_is_missed :
    present (oneSlot [0, 2]) 0 0 = [0, 2] ∧ found (oneSlot [0, 2]) 0 0 = [0] ∧
      ¬Enumerated (oneSlot [0, 2]) (pciEnum (oneSlot [0, 2]) (fun k ↦ some k)
        (fun _ _ ↦ oneSlot [] 0 0 0) (.init fun _ ↦ noDevice)) := by
  have hpresent : present (oneSlot [0, 2]) 0 0 = [0, 2] := by decide
  have hfound : found (oneSlot [0, 2]) 0 0 = [0] := by decide
  refine ⟨hpresent, hfound, fun h ↦ ?_⟩
  have hdevices := (pciEnum_listed Function.injective_id _).complete_iff.1 h
  have hslot := devices_eq_iff.1 hdevices 0 (by decide) 0 (by decide)
  rw [hpresent, hfound] at hslot
  exact absurd hslot (by decide)

end Missed

end Pci

end Marimba
