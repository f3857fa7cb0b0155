import Marimba.Ata.Driver

/-!
# The read protocol of the ATA driver

The request queue and the wait queue of the driver are two FIFO queues that must stay aligned, and
the device must have the address of the right request. The invariant `AtaInv` says how they are
aligned at each moment of the protocol, as a `Stage`:

```
quiet → busy → raised → woken → dequeuing → waiting → reading → starting → issuing
  ↑       ↑                                                         │          │
  └───────┼─────────────────────────────────────────────────────────┘          │
          └────────────────────────────────────────────────────────────────────┘
```

Up to `raised` the processes with a request are exactly the blocked ones, in the same order. From
`woken` on one of them, the `cur`rent one, is not blocked any more but still to be served, and from
`dequeuing` on it runs and does not yield, so that no other process can come in.

**Safety** (`AtaInv.outstanding_le_one`, `AtaInv.wakes_eq`, `AtaInv.results_eq`): at most one
command is outstanding, the completions wake the callers in the order of their calls, and the
results are the right ones in the same order. **Progress** (`AtaInv.exists_serve`): from every
reachable state the calls made so far can be served to the end, with no further help than the
scheduler, the device and the processes going on.
-/

namespace Marimba

open Links

namespace Ata

/-! ### The address in the registers -/

/-- **The eight writes of `ata_write_lba` leave the address in the registers**, all 48 bits of
it. -/
theorem latched_outbs_writeLba (d : Device) {lba : ℕ} (h : lba < 2 ^ 48) (n : ℕ) :
    (d.outbs (writeLba lba n)).latched = lba := by
  have hbyte : ∀ x : ℕ, x &&& 0xff = x % 2 ^ 8 := fun x ↦ Nat.and_two_pow_sub_one_eq_mod x 8
  have hregs : (d.outbs (writeLba lba n)).latched =
      lba % 2 ^ 8 + lba / 2 ^ 8 % 2 ^ 8 * 2 ^ 8 + lba / 2 ^ 16 % 2 ^ 8 * 2 ^ 16 +
        lba / 2 ^ 24 % 2 ^ 8 * 2 ^ 24 + lba / 2 ^ 32 % 2 ^ 8 * 2 ^ 32 +
        lba / 2 ^ 40 % 2 ^ 8 * 2 ^ 40 := by
    simp only [Device.outbs, writeLba, List.foldl_cons, List.foldl_nil, Device.outb,
      Device.latched, hbyte, Nat.shiftRight_eq_div_pow, Nat.pow_zero, Nat.div_one]
    simp [Function.update]
  rw [hregs]
  norm_num at h ⊢
  omega

theorem latched_congr {d d' : Device} (h : d.regs = d'.regs) : d.latched = d'.latched := by
  rw [Device.latched, Device.latched, h]

theorem outbs_append (d : Device) (xs ys : List Out) :
    d.outbs (xs ++ ys) = (d.outbs xs).outbs ys := by
  rw [Device.outbs, List.foldl_append]
  rfl

/-! ### The invariant -/

/-- The words of a sector. -/
def sector (disk : ℕ → ℕ → ℕ) (lba : ℕ) : List ℕ := (List.range sectorWords).map (disk lba)

/-- The result a call should have. -/
def answer (disk : ℕ → ℕ → ℕ) (c : ℕ × ℕ) : Result := ⟨c.1, 0, sector disk c.2⟩

theorem length_sector (disk : ℕ → ℕ → ℕ) (lba : ℕ) : (sector disk lba).length = sectorWords := by
  rw [sector, List.length_map, List.length_range]

/-- The device has nothing to do. -/
def Device.Idle (d : Device) : Prop := d.pending = [] ∧ d.transfer = none ∧ d.irq = false

/-- Writing its registers leaves an idle device idle. -/
theorem Device.Idle.outbs {d : Device} (hd : d.Idle) (outs : List Out) : (d.outbs outs).Idle := by
  induction outs generalizing d with
  | nil => exact hd
  | cons o outs ih => exact ih (d := d.outb o) hd

/-- The device delivers the words of a sector from the `i`-th on. -/
def Device.Delivers (d : Device) (lba i : ℕ) : Prop :=
  d.pending = [] ∧ d.transfer = some (lba, i) ∧ d.irq = false

/-- The call of a process. -/
def System.callOf (s : System) (p : ℕ) : ℕ × ℕ := (p, s.lba p)

/-- **The stages of the protocol**, with the process that is woken and not served yet, and the
request queue. -/
inductive Stage (disk : ℕ → ℕ → ℕ) (s : System) (v : SchedView) : Option ℕ → List ℕ → Prop
  /-- No request. -/
  | quiet (hw : v.waits blockedQueue = []) (hd : s.dev.Idle) : Stage disk s v none []
  /-- The command of the first request is issued. -/
  | busy {h : ℕ} {rest : List ℕ} (hw : v.waits blockedQueue = h :: rest)
      (hp : s.dev.pending = [s.lba h]) (ht : s.dev.transfer = none) (hi : s.dev.irq = false) :
      Stage disk s v none (h :: rest)
  /-- It is completed, and its interrupt not taken yet. -/
  | raised {h : ℕ} {rest : List ℕ} (hw : v.waits blockedQueue = h :: rest)
      (hp : s.dev.pending = []) (ht : s.dev.transfer = some (s.lba h, 0))
      (hi : s.dev.irq = true) : Stage disk s v none (h :: rest)
  /-- The first process is woken. -/
  | woken {h : ℕ} (hpc : s.pcs h = .blocked) (hd : s.dev.Delivers (s.lba h) 0)
      (hr : h ∈ v.ready ∨ v.Runs h) : Stage disk s v (some h) (h :: v.waits blockedQueue)
  /-- It runs and has seen DRQ. -/
  | dequeuing {h : ℕ} (hpc : s.pcs h = .dequeuing) (hd : s.dev.Delivers (s.lba h) 0)
      (hr : v.Runs h) : Stage disk s v (some h) (h :: v.waits blockedQueue)
  /-- Its request is taken off the queue. -/
  | waiting {h : ℕ} (hpc : s.pcs h = .waiting) (hd : s.dev.Delivers (s.lba h) 0)
      (hr : v.Runs h) : Stage disk s v (some h) (v.waits blockedQueue)
  /-- It reads the words of its sector. -/
  | reading {h n : ℕ} (hpc : s.pcs h = .reading ((sector disk (s.lba h)).take n))
      (hn : n ≤ sectorWords)
      (hd : if n < sectorWords then s.dev.Delivers (s.lba h) n else s.dev.Idle)
      (hr : v.Runs h) : Stage disk s v (some h) (v.waits blockedQueue)
  /-- It has read them all. -/
  | starting {h : ℕ} (hpc : s.pcs h = .starting (sector disk (s.lba h))) (hd : s.dev.Idle)
      (hr : v.Runs h) : Stage disk s v (some h) (v.waits blockedQueue)
  /-- It writes the address of the next request to the device. -/
  | issuing {h n : ℕ} {rest : List ℕ} {written outs : List Out} {d : Device}
      (hpc : s.pcs h = .issuing outs (sector disk (s.lba h))) (hd : s.dev.Idle) (hr : v.Runs h)
      (hw : v.waits blockedQueue = n :: rest) (ho : writeLba (s.lba n) 1 = written ++ outs)
      (hregs : s.dev.regs = (d.outbs written).regs) :
      Stage disk s v (some h) (v.waits blockedQueue)

/-- **The invariant of the protocol.** The calls are those served, the current one and those of the
blocked processes, in this order. -/
structure AtaInv (disk : ℕ → ℕ → ℕ) (s : System) (v : SchedView) (served : List (ℕ × ℕ))
    (cur : Option ℕ) (queue : List ℕ) : Prop where
  views : s.sched.Views v
  ring : IsRing s.reqs .requests (queue.map .req)
  stage : Stage disk s v cur queue
  calls : s.calls = served ++ (cur.toList ++ v.waits blockedQueue).map s.callOf
  results : s.results = served.map (answer disk)
  wakes : s.wakes = (served.map Prod.fst ++ cur.toList).map fun p ↦ some (.proc p)
  lbas : ∀ p ∈ cur.toList ++ v.waits blockedQueue, s.lba p < 2 ^ 48
  inCall : ∀ p, s.pcs p ≠ .user ↔ p ∈ cur.toList ++ v.waits blockedQueue
  asleep : ∀ p ∈ v.waits blockedQueue, s.pcs p = .blocked

variable {disk : ℕ → ℕ → ℕ} {s s' : System} {v v' : SchedView} {served : List (ℕ × ℕ)}
  {cur : Option ℕ} {queue : List ℕ} {p h : ℕ}

theorem ataInv_boot (disk : ℕ → ℕ → ℕ) : AtaInv disk .boot .boot [] none [] := by
  refine ⟨Sched.views_boot, ⟨⟨rfl, by simp⟩, rfl⟩, .quiet rfl ⟨rfl, rfl, rfl⟩, rfl, rfl, rfl, ?_,
    ?_,
    ?_⟩ <;> simp [SchedView.boot, System.boot]

namespace Stage

/-- The current process is ready, or runs. -/
theorem ready_or_runs (hs : Stage disk s v (some h) queue) : h ∈ v.ready ∨ v.Runs h := by
  cases hs with
  | woken _ _ hr => exact hr
  | dequeuing _ _ hr => exact Or.inr hr
  | waiting _ _ hr => exact Or.inr hr
  | reading _ _ _ hr => exact Or.inr hr
  | starting _ _ hr => exact Or.inr hr
  | issuing _ _ hr => exact Or.inr hr

/-- While there is a current process, no command is pending and no interrupt raised. -/
theorem dev_of_cur (hs : Stage disk s v (some h) queue) :
    s.dev.pending = [] ∧ s.dev.irq = false := by
  cases hs with
  | woken _ hd => exact ⟨hd.1, hd.2.2⟩
  | dequeuing _ hd => exact ⟨hd.1, hd.2.2⟩
  | waiting _ hd => exact ⟨hd.1, hd.2.2⟩
  | reading _ _ hd => split at hd <;> exact ⟨hd.1, hd.2.2⟩
  | starting _ hd => exact ⟨hd.1, hd.2.2⟩
  | issuing _ hd => exact ⟨hd.1, hd.2.2⟩

/-- Without a current process the queue is that of the blocked processes, and the device has the
command of the first one. -/
theorem dev_of_none (hs : Stage disk s v none queue) :
    queue = v.waits blockedQueue ∧
      (s.dev.irq = false → s.dev.pending = (queue.head?.map s.lba).toList) ∧
      (s.dev.irq = true → s.dev.pending = [] ∧ queue ≠ []) := by
  cases hs with
  | quiet hw hd => exact ⟨hw.symm, fun _ ↦ hd.1, fun hi ↦ absurd (hd.2.2.symm.trans hi) (by simp)⟩
  | busy hw hp _ hi' =>
    exact ⟨hw.symm, fun _ ↦ hp, fun hi ↦ absurd (hi'.symm.trans hi) (by simp)⟩
  | raised hw hp _ hi' =>
    exact ⟨hw.symm, fun hi ↦ absurd (hi'.symm.trans hi) (by simp), fun _ ↦ ⟨hp, by simp⟩⟩

/-- The interrupt is raised only while no process is current. -/
theorem cur_eq_none (hs : Stage disk s v cur queue) (hi : s.dev.irq = true) : cur = none := by
  rcases cur with - | h
  · rfl
  · rw [hs.dev_of_cur.2] at hi
    cases hi

/-- A stage only depends on the blocked processes and on the current one being ready or running. The
running process does not leave the code behind the wake-up. -/
theorem congr (hs : Stage disk s v cur queue) (hpcs : s'.pcs = s.pcs) (hdev : s'.dev = s.dev)
    (hlba : s'.lba = s.lba) (hwaits : v'.waits blockedQueue = v.waits blockedQueue)
    (hready : ∀ h, cur = some h → s.pcs h = .blocked → h ∈ v.ready ∨ v.Runs h →
      h ∈ v'.ready ∨ v'.Runs h)
    (hruns : ∀ h, cur = some h → s.pcs h ≠ .blocked → v.Runs h → v'.Runs h) :
    Stage disk s' v' cur queue := by
  cases hs with
  | quiet hw hd => exact .quiet (hwaits.trans hw) (hdev ▸ hd)
  | busy hw hp ht hi =>
    exact .busy (hwaits.trans hw) (by rw [hdev, hlba, hp]) (by rw [hdev, ht]) (by rw [hdev, hi])
  | raised hw hp ht hi =>
    exact .raised (hwaits.trans hw) (by rw [hdev, hp]) (by rw [hdev, hlba, ht]) (by rw [hdev, hi])
  | woken hpc hd hr =>
    rw [← hwaits]
    exact .woken (by rw [hpcs, hpc]) (by rwa [hdev, hlba]) (hready _ rfl hpc hr)
  | dequeuing hpc hd hr =>
    rw [← hwaits]
    exact .dequeuing (by rw [hpcs, hpc]) (by rwa [hdev, hlba]) (hruns _ rfl (by simp [hpc]) hr)
  | waiting hpc hd hr =>
    rw [← hwaits]
    exact .waiting (by rw [hpcs, hpc]) (by rwa [hdev, hlba]) (hruns _ rfl (by simp [hpc]) hr)
  | reading hpc hn hd hr =>
    rw [← hwaits]
    exact .reading (by rw [hpcs, hlba, hpc]) hn (by rwa [hdev, hlba])
      (hruns _ rfl (by simp [hpc]) hr)
  | starting hpc hd hr =>
    rw [← hwaits]
    exact .starting (by rw [hpcs, hlba, hpc]) (by rwa [hdev]) (hruns _ rfl (by simp [hpc]) hr)
  | issuing hpc hd hr hw ho hregs =>
    rw [← hwaits]
    exact .issuing (by rw [hpcs, hlba, hpc]) (by rwa [hdev]) (hruns _ rfl (by simp [hpc]) hr)
      (hwaits.trans hw) (by rw [hlba, ho]) (by rw [hdev, hregs])

end Stage

namespace AtaInv

/-- The current process is not blocked. -/
theorem cur_notMem (hinv : AtaInv disk s v served (some h) queue) : h ∉ v.waits blockedQueue := by
  rcases hinv.stage.ready_or_runs with hr | hr
  · exact fun hm ↦ hinv.views.notMem_ready hm hr
  · exact hinv.views.notMem_waits hr

/-- A running process that is in `ata_read_block` is the current one. -/
theorem cur_eq_of_runs (hinv : AtaInv disk s v served cur queue) (hr : v.Runs p)
    (hpc : s.pcs p ≠ .user) : cur = some p := by
  have hmem := (hinv.inCall p).1 hpc
  rcases List.mem_append.1 hmem with hc | hw
  · exact Option.mem_toList.1 hc
  · exact absurd hw (hinv.views.notMem_waits hr)

theorem running_eq_some_iff (hinv : AtaInv disk s v served cur queue) :
    s.running = some p ↔ v.Runs p := hinv.views.running_eq_some_iff

/-! ### Steps of the scheduler -/

/-- A step of the scheduler that keeps the blocked processes, and the current one if it runs past
the wake-up. -/
theorem setSched (hinv : AtaInv disk s v served cur queue) {sched : Sched} (hviews : sched.Views v')
    (hwaits : v'.waits blockedQueue = v.waits blockedQueue)
    (hready : ∀ h, cur = some h → s.pcs h = .blocked → h ∈ v.ready ∨ v.Runs h →
      h ∈ v'.ready ∨ v'.Runs h)
    (hruns : ∀ h, cur = some h → s.pcs h ≠ .blocked → v.Runs h → v'.Runs h) :
    AtaInv disk { s with sched := sched } v' served cur queue := by
  refine ⟨hviews, hinv.ring, hinv.stage.congr rfl rfl rfl hwaits hready hruns, ?_, hinv.results,
    hinv.wakes, ?_, ?_, ?_⟩
  · rw [hwaits]
    exact hinv.calls
  · rw [hwaits]
    exact hinv.lbas
  · rw [hwaits]
    exact hinv.inCall
  · rw [hwaits]
    exact hinv.asleep

/-- A process is created. -/
theorem create (hinv : AtaInv disk s v served cur queue) (hm : v.mode = .user)
    (hp : p ∉ s.sched.live) :
    AtaInv disk { s with sched := s.sched.createProcess p } (v.create p) served cur queue := by
  refine hinv.setSched (hinv.views.createProcess hm hp) rfl (fun h _ _ hr ↦ ?_) fun _ _ _ hr ↦ hr
  exact hr.imp_left fun hm ↦ List.mem_append_left [p] hm

/-- The main process checks for ready processes. -/
theorem runCheck (hinv : AtaInv disk s v served cur queue) (hm : v.mode = .user)
    (hc : v.curr = none) :
    AtaInv disk { s with sched := s.sched.runCheck } v.runCheck served cur queue := by
  have hnot : ∀ h, ¬v.Runs h := fun h hr ↦ Option.some_ne_none h (hr.2.symm.trans hc)
  have hready : v.runCheck.ready = v.ready := by
    rw [SchedView.runCheck]
    split <;> rfl
  have hwaits : v.runCheck.waits = v.waits := by
    rw [SchedView.runCheck]
    split <;> rfl
  refine hinv.setSched (hinv.views.runCheck hm hc) (by rw [hwaits]) (fun h _ _ hr ↦ ?_)
    fun h _ _ hr ↦ absurd hr (hnot h)
  rw [hready]
  exact Or.inl (hr.resolve_right (hnot h))

/-- In terms of the abstract scheduler: who may yield. -/
theorem mayYield_iff (hinv : AtaInv disk s v served cur queue) :
    s.mayYield = true ↔ (∃ p, v.Runs p ∧ s.pcs p = .user) ∨ v.mode ≠ .user := by
  rw [System.mayYield, hinv.views.mayYield_iff]
  simp only [decide_eq_true_eq]

/-- The running context yields: the current process stays ready, or runs next. -/
theorem yield (hinv : AtaInv disk s v served cur queue) (hy : s.mayYield = true) :
    AtaInv disk { s with sched := s.sched.yieldTrap.2 } v.yield served cur queue := by
  have hnot : ∀ h, cur = some h → s.pcs h ≠ .user → ¬v.Runs h := by
    intro h hc hpc hr
    rcases hinv.mayYield_iff.1 hy with ⟨p, hp, hu⟩ | hm
    · obtain rfl : p = h := Option.some.inj (hp.2.symm.trans hr.2)
      exact hpc hu
    · exact hm hr.1
  have huser : ∀ h, cur = some h → s.pcs h ≠ .user := fun h hc ↦
    (hinv.inCall h).2 (by simp [hc])
  refine hinv.setSched (hinv.views.yield (hinv.views.canYield hy)) rfl (fun h hc hb hr ↦ ?_)
    fun h hc _ hr ↦ absurd hr (hnot h hc (huser h hc))
  have hmem : h ∈ v.requeued := by
    have hr' := hr.resolve_right (hnot h hc (huser h hc))
    rw [SchedView.requeued]
    split
    · exact List.mem_append_left _ hr'
    · exact hr'
  show h ∈ v.requeued.tail ∨ SchedMode.user = .user ∧ v.requeued.head? = some h
  rcases hreq : v.requeued with - | ⟨x, rs⟩
  · rw [hreq] at hmem
    cases hmem
  · rw [hreq] at hmem
    rcases List.mem_cons.1 hmem with rfl | hm
    · exact Or.inr ⟨rfl, rfl⟩
    · exact Or.inl hm

/-! ### The device -/

/-- Only a stage with a command issued has a command to complete. -/
theorem complete (hinv : AtaInv disk s v served cur queue) (hp : s.dev.pending ≠ []) :
    AtaInv disk { s with dev := s.dev.complete } v served cur queue := by
  refine ⟨hinv.views, hinv.ring, ?_, hinv.calls, hinv.results, hinv.wakes, hinv.lbas, hinv.inCall,
    hinv.asleep⟩
  rcases cur with - | c
  · cases hinv.stage with
    | @busy h rest hw hpend ht hi =>
      have hcomplete : s.dev.complete =
          { s.dev with pending := [], transfer := some (s.lba h, 0), irq := true } := by
        rw [Device.complete, hpend]
      refine .raised hw ?_ ?_ ?_ <;> rw [hcomplete]
    | quiet _ hd => exact absurd hd.1 hp
    | raised _ hpend => exact absurd hpend hp
  · exact absurd hinv.stage.dev_of_cur.1 hp

/-- **The interrupt wakes the process whose command it completes.** -/
theorem isr (hinv : AtaInv disk s v served cur queue) (hi : s.dev.irq = true) :
    ∃ s' h rest, s.isr = some s' ∧ s'.calls = s.calls ∧ v.waits blockedQueue = h :: rest ∧
      AtaInv disk s' (v.unblockHead blockedQueue) served (some h) queue := by
  obtain rfl := hinv.stage.cur_eq_none hi
  cases hinv.stage with
  | @raised h rest hw hp ht hi' =>
    have hdrq : s.dev.drq = true := by
      rw [Device.drq, ht]
      rfl
    obtain ⟨sched, hsched, hviews⟩ := hinv.views.unblockHead blockedQueue
    have hview : v.unblockHead blockedQueue = ⟨v.curr, v.ready ++ [h],
        Function.update v.waits blockedQueue rest, v.mode⟩ := by
      rw [SchedView.unblockHead, hw]
    have hisr : s.isr = some { s with
        sched := sched
        dev := { s.dev with irq := false }
        wakes := s.wakes ++ [some (.proc h)] } := by
      simp only [System.isr, hdrq, if_true, hsched, Option.map_some, hinv.views.head_wait hw]
    have hlist : (some h).toList ++ (v.unblockHead blockedQueue).waits blockedQueue =
        none.toList ++ v.waits blockedQueue := by
      rw [hview, hw]
      simp
    refine ⟨_, h, rest, hisr, rfl, hw, hviews, hinv.ring, ?_, ?_, hinv.results, ?_, ?_, ?_, ?_⟩
    · have hq : h :: rest = h :: (v.unblockHead blockedQueue).waits blockedQueue := by
        rw [hview]
        simp
      rw [hq]
      refine .woken (hinv.asleep h (by simp [hw])) ⟨hp, ht, rfl⟩ (Or.inl ?_)
      rw [hview]
      simp
    · rw [hlist]
      exact hinv.calls
    · show s.wakes ++ [some (.proc h)] = _
      rw [hinv.wakes]
      simp
    · rw [hlist]
      exact hinv.lbas
    · rw [hlist]
      exact hinv.inCall
    · intro p hp
      refine hinv.asleep p ?_
      rw [hview] at hp
      rw [hw]
      exact List.mem_cons_of_mem h (by simpa using hp)
  | quiet _ hd => rw [hd.2.2] at hi; cases hi
  | busy _ _ _ hi' => rw [hi'] at hi; cases hi

/-! ### The driver -/

theorem empty_requests_iff (hinv : AtaInv disk s v served cur queue) :
    LL.empty s.reqs .requests = true ↔ queue = [] := by
  rw [LL.empty_iff hinv.ring.1, List.map_eq_nil_iff]

theorem head_requests (hinv : AtaInv disk s v served cur queue) :
    LL.head s.reqs .requests = queue.head?.map .req := by
  rw [LL.head]
  rcases queue with - | ⟨n, rest⟩
  · exact if_pos (hinv.empty_requests_iff.2 rfl)
  · rw [if_neg fun he ↦ List.cons_ne_nil n rest (hinv.empty_requests_iff.1 he), hinv.ring.1.1.1]
    rfl

/-- The requests in the queue are of processes in a call. -/
theorem mem_of_mem_queue (hinv : AtaInv disk s v served cur queue) (hp : p ∈ queue) :
    p ∈ cur.toList ++ v.waits blockedQueue := by
  cases hinv.stage with
  | quiet => cases hp
  | busy hw => rw [hw]; simpa using hp
  | raised hw => rw [hw]; simpa using hp
  | woken => simpa using hp
  | dequeuing => simpa using hp
  | waiting => exact List.mem_append_right _ hp
  | reading => exact List.mem_append_right _ hp
  | starting => exact List.mem_append_right _ hp
  | issuing => exact List.mem_append_right _ hp

/-- **A call** queues its request behind the others and blocks its process behind the others; with
no other request it issues its own command. -/
theorem readBlock (hinv : AtaInv disk s v served cur queue) (hr : v.Runs p) (hpc : s.pcs p = .user)
    {lba : ℕ} (hlba : lba < 2 ^ 48) :
    AtaInv disk (s.readBlock p lba) (v.blockOn p blockedQueue) served cur (queue ++ [p]) := by
  have hout : p ∉ cur.toList ++ v.waits blockedQueue := fun hm ↦ (hinv.inCall p).2 hm hpc
  have hne : ∀ x ∈ cur.toList ++ v.waits blockedQueue, x ≠ p := fun x hx he ↦ hout (he ▸ hx)
  have hlbas : ∀ x ∈ cur.toList ++ v.waits blockedQueue,
      (s.readBlock p lba).lba x = s.lba x := fun x hx ↦ Function.update_of_ne (hne x hx) ..
  have hself : (s.readBlock p lba).lba p = lba := Function.update_self ..
  have hwaits : (v.blockOn p blockedQueue).waits blockedQueue =
      v.waits blockedQueue ++ [p] := by
    simp [SchedView.blockOn]
  have hdev : queue ≠ [] → (s.readBlock p lba).dev = s.dev := fun hq ↦
    if_neg fun he ↦ hq (hinv.empty_requests_iff.1 he)
  have hactive : ∀ h, cur = some h → s.pcs h ≠ .blocked → ¬v.Runs h := by
    intro h hc hb hrun
    obtain rfl : h = p := Option.some.inj (hrun.2.symm.trans hr.2)
    exact hout (by simp [hc])
  refine ⟨hinv.views.blockOn hr blockedQueue, ?_, ?_, ?_, hinv.results, hinv.wakes, ?_, ?_, ?_⟩
  · rw [List.map_append]
    refine LL.ring_enqueue hinv.ring fun hm ↦ hout (hinv.mem_of_mem_queue ?_)
    simpa using hm
  · cases hinv.stage with
    | quiet hw hd =>
      have hissue : (s.readBlock p lba).dev = (s.dev.outbs (writeLba lba 1)).readPioExt :=
        if_pos (hinv.empty_requests_iff.2 rfl)
      obtain ⟨hpend, htrans, hirq⟩ := hd.outbs (writeLba lba 1)
      refine .busy (by rw [hwaits, hw]; rfl) ?_ ?_ ?_ <;> rw [hissue]
      · rw [hself, Device.readPioExt, latched_outbs_writeLba s.dev hlba, hpend]
        rfl
      · exact htrans
      · exact hirq
    | @busy h rest hw hp ht hi =>
      have hh := hlbas h (by simp [hw])
      have hdev := hdev (List.cons_ne_nil h rest)
      exact .busy (by rw [hwaits, hw]; rfl) (by rw [hdev, hh, hp]) (by rw [hdev, ht])
        (by rw [hdev, hi])
    | @raised h rest hw hp ht hi =>
      have hh := hlbas h (by simp [hw])
      have hdev := hdev (List.cons_ne_nil h rest)
      exact .raised (by rw [hwaits, hw]; rfl) (by rw [hdev, hp]) (by rw [hdev, hh, ht])
        (by rw [hdev, hi])
    | @woken h hb hd hrun =>
      have hh := hlbas h (by simp)
      have hdev := hdev (List.cons_ne_nil h _)
      have hhp : h ≠ p := hne h (by simp)
      rw [List.cons_append, ← hwaits]
      refine .woken ((Function.update_of_ne hhp ..).trans hb) (by rwa [hdev, hh]) (Or.inl ?_)
      exact hrun.resolve_right fun hrun ↦ hhp (Option.some.inj (hrun.2.symm.trans hr.2))
    | dequeuing hb _ hrun => exact absurd hrun (hactive _ rfl (by simp [hb]))
    | waiting hb _ hrun => exact absurd hrun (hactive _ rfl (by simp [hb]))
    | reading hb _ _ hrun => exact absurd hrun (hactive _ rfl (by simp [hb]))
    | starting hb _ hrun => exact absurd hrun (hactive _ rfl (by simp [hb]))
    | issuing hb _ hrun => exact absurd hrun (hactive _ rfl (by simp [hb]))
  · have hcalls : (cur.toList ++ v.waits blockedQueue).map (s.readBlock p lba).callOf =
        (cur.toList ++ v.waits blockedQueue).map s.callOf :=
      List.map_congr_left fun x hx ↦ by rw [System.callOf, System.callOf, hlbas x hx]
    have hcall : (s.readBlock p lba).callOf p = (p, lba) := by rw [System.callOf, hself]
    show s.calls ++ [(p, lba)] = _
    rw [hwaits, ← List.append_assoc, List.map_append, hcalls, List.map_singleton, hcall,
      ← List.append_assoc, ← hinv.calls]
  · rw [hwaits, ← List.append_assoc]
    intro x hx
    rcases List.mem_append.1 hx with hx | hx
    · rw [hlbas x hx]
      exact hinv.lbas x hx
    · rw [List.mem_singleton.1 hx, hself]
      exact hlba
  · intro x
    rw [hwaits, ← List.append_assoc, List.mem_append, List.mem_singleton]
    show Function.update s.pcs p .blocked x ≠ .user ↔ _
    rcases eq_or_ne x p with rfl | hx
    · simp
    · rw [Function.update_of_ne hx, or_iff_left hx]
      exact hinv.inCall x
  · intro x hx
    show Function.update s.pcs p .blocked x = .blocked
    rw [hwaits] at hx
    rcases eq_or_ne x p with rfl | hxp
    · simp
    · rw [Function.update_of_ne hxp]
      refine hinv.asleep x ?_
      simpa [hxp] using hx

/-- The current process goes on in `ata_read_block`. -/
theorem goOn (hinv : AtaInv disk s v served (some h) queue) {pc : AtaPc} (hpc : pc ≠ .user)
    {reqs : Links ReqNode} {dev : Device} {queue' : List ℕ}
    (hring : IsRing reqs .requests (queue'.map .req))
    (hstage : Stage disk { s.setPc h pc with reqs := reqs, dev := dev } v (some h) queue') :
    AtaInv disk { s.setPc h pc with reqs := reqs, dev := dev } v served (some h) queue' := by
  refine ⟨hinv.views, hring, hstage, hinv.calls, hinv.results, hinv.wakes, hinv.lbas, ?_, ?_⟩
  · intro x
    show Function.update s.pcs h pc x ≠ .user ↔ _
    rcases eq_or_ne x h with rfl | hx
    · simp [hpc]
    · rw [Function.update_of_ne hx]
      exact hinv.inCall x
  · intro x hx
    show Function.update s.pcs h pc x = .blocked
    have hne : x ≠ h := fun he ↦ hinv.cur_notMem (he ▸ hx)
    rw [Function.update_of_ne hne]
    exact hinv.asleep x hx

/-- The current process returns from `ata_read_block`. -/
theorem finish (hinv : AtaInv disk s v served (some h) queue) {dev : Device}
    (hstage : Stage disk { s.finish h 0 (sector disk (s.lba h)) with dev := dev } v none queue) :
    AtaInv disk { s.finish h 0 (sector disk (s.lba h)) with dev := dev } v
      (served ++ [s.callOf h]) none queue := by
  refine ⟨hinv.views, hinv.ring, hstage, ?_, ?_, ?_, fun x hx ↦ hinv.lbas x ?_, ?_, ?_⟩
  · show s.calls = (served ++ [s.callOf h]) ++ (v.waits blockedQueue).map s.callOf
    rw [hinv.calls, List.append_assoc]
    rfl
  · show s.results ++ [answer disk (s.callOf h)] = _
    rw [hinv.results, List.map_append]
    rfl
  · show s.wakes = _
    rw [hinv.wakes]
    simp [System.callOf]
  · exact List.mem_append_right _ hx
  · intro x
    show Function.update s.pcs h .user x ≠ .user ↔ x ∈ v.waits blockedQueue
    rcases eq_or_ne x h with rfl | hx
    · simp [hinv.cur_notMem]
    · rw [Function.update_of_ne hx, hinv.inCall x]
      simp [hx]
  · intro x hx
    show Function.update s.pcs h .user x = .blocked
    have hne : x ≠ h := fun he ↦ hinv.cur_notMem (he ▸ hx)
    rw [Function.update_of_ne hne]
    exact hinv.asleep x hx

end AtaInv

/-- How much of `ata_read_block` is left after the wake-up, in accesses. -/
def work : AtaPc → ℕ
  | .user => 0
  | .issuing outs _ => outs.length + 1
  | .starting _ => 10
  | .reading buff => 11 + (sectorWords - buff.length)
  | .waiting => 12 + sectorWords
  | .dequeuing => 13 + sectorWords
  | .blocked => 14 + sectorWords

namespace AtaInv

/-- The invariant after an access, with less left to do or with the call served. -/
def Advanced (disk : ℕ → ℕ → ℕ) (s : System) (v : SchedView) (served : List (ℕ × ℕ)) (h : ℕ)
    (s' : System) : Prop :=
  ∃ queue', (AtaInv disk s' v served (some h) queue' ∧ work (s'.pcs h) < work (s.pcs h)) ∨
    AtaInv disk s' v (served ++ [s.callOf h]) none queue'

/-- One access that stays in the call. -/
theorem advanced (hinv : AtaInv disk s v served (some h) queue) {pc : AtaPc} (hpc : pc ≠ .user)
    {reqs : Links ReqNode} {dev : Device} {queue' : List ℕ} (hless : work pc < work (s.pcs h))
    (hring : IsRing reqs .requests (queue'.map .req))
    (hstage : Stage disk { s.setPc h pc with reqs := reqs, dev := dev } v (some h) queue') :
    Advanced disk s v served h { s.setPc h pc with reqs := reqs, dev := dev } := by
  refine ⟨queue', Or.inl ⟨hinv.goOn hpc hring hstage, ?_⟩⟩
  show work (Function.update s.pcs h pc h) < _
  rwa [Function.update_self]

/-- One word is read, or the loop of `ata_read` ends. -/
theorem advance_reading (hinv : AtaInv disk s v served (some h) (v.waits blockedQueue)) {n : ℕ}
    (hpc : s.pcs h = .reading ((sector disk (s.lba h)).take n)) (hn : n ≤ sectorWords)
    (hd : if n < sectorWords then s.dev.Delivers (s.lba h) n else s.dev.Idle) (hr : v.Runs h) :
    Advanced disk s v served h (s.advance disk h (s.pcs h)) := by
  have hself : ∀ pc : AtaPc, (s.setPc h pc).pcs h = pc := fun pc ↦ Function.update_self ..
  have hlen : ((sector disk (s.lba h)).take n).length = n := by
    rw [List.length_take, length_sector, Nat.min_eq_left hn]
  rcases hn.lt_or_eq with hlt | rfl
  · rw [if_pos hlt] at hd
    have hword : (sector disk (s.lba h)).take (n + 1) =
        (sector disk (s.lba h)).take n ++ [disk (s.lba h) n] := by
      rw [List.take_add_one, List.getElem?_eq_getElem (by rwa [length_sector])]
      simp [sector]
    have hinw : s.dev.inw disk = (disk (s.lba h) n, { s.dev with
        transfer := if n + 1 = sectorWords then none else some (s.lba h, n + 1) }) := by
      rw [Device.inw, hd.2.1]
    have hnext : s.advance disk h (s.pcs h) =
        { s.setPc h (.reading ((sector disk (s.lba h)).take (n + 1))) with
          dev := (s.dev.inw disk).2 } := by
      rw [hpc, hword]
      simp only [System.advance, hlen, if_pos hlt, hinw]
    rw [hnext, hinw]
    refine hinv.advanced (by simp) ?_ hinv.ring (.reading (n := n + 1) (hself _) hlt ?_ hr)
    · rw [hpc]
      simp only [work, hlen, List.length_take, length_sector, Nat.min_eq_left hlt]
      omega
    · split
      · next hmore => exact ⟨hd.1, if_neg hmore.ne, hd.2.2⟩
      · next hlast => exact ⟨hd.1, if_pos (by omega), hd.2.2⟩
  · rw [if_neg (lt_irrefl _)] at hd
    have hall : (sector disk (s.lba h)).take sectorWords = sector disk (s.lba h) :=
      List.take_of_length_le (length_sector disk _).le
    have hnext : s.advance disk h (s.pcs h) = s.setPc h (.starting (sector disk (s.lba h))) := by
      have hfull : ¬(sector disk (s.lba h)).length < sectorWords := by
        rw [length_sector]
        exact lt_irrefl sectorWords
      rw [hpc, hall, System.advance, if_neg hfull]
    rw [hnext]
    refine hinv.advanced (by simp) ?_ hinv.ring (.starting (hself _) hd hr)
    rw [hpc, hall]
    simp [work, length_sector]

/-- The call is over when no request is left; else the next address is to be written. -/
theorem advance_starting (hinv : AtaInv disk s v served (some h) (v.waits blockedQueue))
    (hpc : s.pcs h = .starting (sector disk (s.lba h))) (hd : s.dev.Idle) (hr : v.Runs h) :
    Advanced disk s v served h (s.advance disk h (s.pcs h)) := by
  have hself : ∀ pc : AtaPc, (s.setPc h pc).pcs h = pc := fun pc ↦ Function.update_self ..
  have hhead := hinv.head_requests
  rcases hw : v.waits blockedQueue with - | ⟨n, rest⟩
  · have hnext : s.advance disk h (s.pcs h) = s.finish h 0 (sector disk (s.lba h)) := by
      rw [hpc, System.advance, hhead, hw]
      rfl
    rw [hnext]
    refine ⟨v.waits blockedQueue, Or.inr (hinv.finish ?_)⟩
    rw [hw]
    exact .quiet hw hd
  · have hnext : s.advance disk h (s.pcs h) =
        s.setPc h (.issuing (writeLba (s.lba n) 1) (sector disk (s.lba h))) := by
      rw [hpc, System.advance, hhead, hw]
      rfl
    rw [hnext]
    refine hinv.advanced (by simp) ?_ hinv.ring ?_
    · rw [hpc]
      simp [work, writeLba]
    · have ho : writeLba (s.lba n) 1 = [] ++ writeLba (s.lba n) 1 := rfl
      exact .issuing (hself _) hd hr hw ho (show s.dev.regs = (s.dev.outbs []).regs from rfl)

/-- A byte of the address is written, or the command, which is that of the next request. -/
theorem advance_issuing (hinv : AtaInv disk s v served (some h) (v.waits blockedQueue)) {n : ℕ}
    {rest : List ℕ} {written outs : List Out} {d : Device}
    (hpc : s.pcs h = .issuing outs (sector disk (s.lba h))) (hd : s.dev.Idle) (hr : v.Runs h)
    (hw : v.waits blockedQueue = n :: rest) (ho : writeLba (s.lba n) 1 = written ++ outs)
    (hregs : s.dev.regs = (d.outbs written).regs) :
    Advanced disk s v served h (s.advance disk h (s.pcs h)) := by
  have hself : ∀ pc : AtaPc, (s.setPc h pc).pcs h = pc := fun pc ↦ Function.update_self ..
  rcases outs with - | ⟨o, outs⟩
  · have hnext : s.advance disk h (s.pcs h) =
        { s.finish h 0 (sector disk (s.lba h)) with dev := s.dev.readPioExt } := by
      rw [hpc]
      rfl
    have hlba : s.dev.latched = s.lba n := by
      rw [latched_congr hregs, ← List.append_nil written, ← ho]
      exact latched_outbs_writeLba d (hinv.lbas n (by simp [hw])) 1
    rw [hnext]
    refine ⟨v.waits blockedQueue, Or.inr (hinv.finish ?_)⟩
    have hstage : Stage disk { s.finish h 0 (sector disk (s.lba h)) with
        dev := s.dev.readPioExt } v none (n :: rest) := by
      refine .busy hw ?_ hd.2.1 hd.2.2
      show s.dev.pending ++ [s.dev.latched] = [s.lba n]
      rw [hd.1, hlba]
      rfl
    rwa [← hw] at hstage
  · have hnext : s.advance disk h (s.pcs h) =
        { s.setPc h (.issuing outs (sector disk (s.lba h))) with dev := s.dev.outb o } := by
      rw [hpc]
      rfl
    rw [hnext]
    refine hinv.advanced (by simp) ?_ hinv.ring ?_
    · rw [hpc]
      simp [work]
    · have ho' : writeLba (s.lba n) 1 = (written ++ [o]) ++ outs := by
        rw [List.append_assoc]
        exact ho
      refine .issuing (hself _) (hd.outbs [o]) hr hw ho' (d := d) ?_
      rw [outbs_append]
      show Function.update s.dev.regs o.reg (o.value, (s.dev.regs o.reg).1) = _
      rw [hregs]
      rfl

/-- **One access of the driver**: the current process goes on with less left to do, or it returns
with the right result. -/
theorem advance (hinv : AtaInv disk s v served (some h) queue) (hr : v.Runs h) :
    Advanced disk s v served h (s.advance disk h (s.pcs h)) := by
  have hself : ∀ pc : AtaPc, (s.setPc h pc).pcs h = pc := fun pc ↦ Function.update_self ..
  have hdrq : ∀ {lba i : ℕ}, s.dev.Delivers lba i → s.dev.drq = true := fun hd ↦ by
    rw [Device.drq, hd.2.1]
    rfl
  cases hinv.stage with
  | woken hpc hd =>
    have hnext : s.advance disk h (s.pcs h) = s.setPc h .dequeuing := by
      rw [hpc]
      exact if_pos (hdrq hd)
    rw [hnext]
    exact hinv.advanced (by simp) (by rw [hpc]; decide) hinv.ring (.dequeuing (hself _) hd hr)
  | dequeuing hpc hd =>
    have hnext : s.advance disk h (s.pcs h) =
        { s.setPc h .waiting with reqs := (LL.dequeue .null s.reqs .requests).2 } := by
      rw [hpc]
      rfl
    rw [hnext, LL.dequeue_cons hinv.ring.1]
    exact hinv.advanced (by simp) (by rw [hpc]; decide) (LL.ring_del hinv.ring)
      (.waiting (hself _) hd hr)
  | waiting hpc hd =>
    have hnext : s.advance disk h (s.pcs h) = s.setPc h (.reading []) := by
      rw [hpc]
      exact if_pos (hdrq hd)
    rw [hnext]
    exact hinv.advanced (by simp) (by rw [hpc]; decide) hinv.ring
      (.reading (n := 0) (hself _) (Nat.zero_le _) (by rwa [if_pos (by decide)]) hr)
  | reading hpc hn hd => exact hinv.advance_reading hpc hn hd hr
  | starting hpc hd => exact hinv.advance_starting hpc hd hr
  | issuing hpc hd _ hw ho hregs => exact hinv.advance_issuing hpc hd hr hw ho hregs

end AtaInv

/-! ### Runs -/

/-- The invariant for some abstract state. -/
def Sound (disk : ℕ → ℕ → ℕ) (s : System) : Prop :=
  ∃ v served cur queue, AtaInv disk s v served cur queue

theorem sound_boot (disk : ℕ → ℕ → ℕ) : Sound disk .boot :=
  ⟨.boot, [], none, [], ataInv_boot disk⟩

/-- The driver's code after the wake-up makes no calls. -/
theorem System.advance_keeps (disk : ℕ → ℕ → ℕ) (s : System) (p : ℕ) (pc : AtaPc) :
    (s.advance disk p pc).calls = s.calls ∧ (s.advance disk p pc).lba = s.lba := by
  cases pc with
  | user => exact ⟨rfl, rfl⟩
  | blocked =>
    rw [System.advance]
    split <;> exact ⟨rfl, rfl⟩
  | dequeuing => exact ⟨rfl, rfl⟩
  | waiting =>
    rw [System.advance]
    split <;> exact ⟨rfl, rfl⟩
  | reading buff =>
    rw [System.advance]
    split <;> exact ⟨rfl, rfl⟩
  | starting buff =>
    rw [System.advance]
    split <;> exact ⟨rfl, rfl⟩
  | issuing outs buff =>
    rcases outs with - | ⟨o, outs⟩ <;> exact ⟨rfl, rfl⟩

/-- **Every step keeps the invariant.** -/
theorem sound_step {e : AtaEvent} {u : Unit} (hs : Sound disk s)
    (hstep : s.step disk e = some (u, s')) : Sound disk s' := by
  obtain ⟨v, served, cur, queue, hinv⟩ := hs
  cases e with
  | create p =>
    obtain ⟨⟨hpc, -, hp⟩, rfl⟩ := System.step_create.1 hstep
    exact ⟨_, _, _, _, hinv.create (hinv.views.pc_eq_user_iff.1 hpc) hp⟩
  | call lba =>
    obtain ⟨p, hrun, ⟨hpc, hlba⟩, rfl⟩ := System.step_call.1 hstep
    exact ⟨_, _, _, _, hinv.readBlock (hinv.running_eq_some_iff.1 hrun) hpc hlba⟩
  | advance =>
    obtain ⟨p, hrun, hpc, rfl⟩ := System.step_advance.1 hstep
    have hr := hinv.running_eq_some_iff.1 hrun
    obtain rfl := hinv.cur_eq_of_runs hr hpc
    obtain ⟨queue', ⟨h, -⟩ | h⟩ := hinv.advance hr
    · exact ⟨_, _, _, _, h⟩
    · exact ⟨_, _, _, _, h⟩
  | yield =>
    obtain ⟨hy, rfl⟩ := System.step_yield.1 hstep
    exact ⟨_, _, _, _, hinv.yield hy⟩
  | runCheck =>
    obtain ⟨⟨hpc, hcurr⟩, rfl⟩ := System.step_runCheck.1 hstep
    rw [hinv.views.currProc_eq, SchedView.node_eq_main] at hcurr
    exact ⟨_, _, _, _, hinv.runCheck (hinv.views.pc_eq_user_iff.1 hpc) hcurr⟩
  | complete =>
    obtain ⟨hp, rfl⟩ := System.step_complete.1 hstep
    exact ⟨_, _, _, _, hinv.complete hp⟩
  | interrupt =>
    obtain ⟨⟨hi, -⟩, hisr⟩ := System.step_interrupt.1 hstep
    obtain ⟨s₁, h, rest, hisr₁, -, -, hinv'⟩ := hinv.isr hi
    obtain rfl : s₁ = s' := Option.some.inj (hisr₁.symm.trans hisr)
    exact ⟨_, _, _, _, hinv'⟩

/-- **Every run from boot keeps the invariant.** -/
theorem sound_of_runTrace {es : List AtaEvent} {out : List Unit}
    (hrun : runTrace (System.step disk) .boot es = some (out, s)) : Sound disk s :=
  invariant_of_runTrace (fun _ _ _ _ hs hstep ↦ sound_step hs hstep) (sound_boot disk) hrun

namespace AtaInv

/-! ### Safety -/

/-- **At most one command is outstanding.** -/
theorem outstanding_le_one (hinv : AtaInv disk s v served cur queue) :
    s.dev.outstanding ≤ 1 := by
  rw [Device.outstanding]
  rcases cur with - | h
  · cases hinv.stage with
    | quiet _ hd => simp [hd.1, hd.2.1]
    | busy _ hp ht => simp [hp, ht]
    | raised _ hp ht => simp [hp, ht]
  · rw [hinv.stage.dev_of_cur.1, List.length_nil, Nat.zero_add]
    exact Option.length_toList_le

/-- **The wake-ups find the processes of the calls, in the order of the calls.** -/
theorem wakes_eq (hinv : AtaInv disk s v served cur queue) :
    s.wakes = (s.calls.take s.wakes.length).map fun c ↦ some (.proc c.1) := by
  have hcalls : s.calls = (served ++ cur.toList.map s.callOf) ++
      (v.waits blockedQueue).map s.callOf := by
    rw [hinv.calls, List.map_append, List.append_assoc]
  have hlen : s.wakes.length = (served ++ cur.toList.map s.callOf).length := by
    rw [hinv.wakes]
    simp
  rw [hlen, hcalls, List.take_left, hinv.wakes, List.map_append, List.map_append, List.map_map,
    List.map_map]
  rfl

/-- **The results are those of the calls, in the order of the calls.** -/
theorem results_eq (hinv : AtaInv disk s v served cur queue) :
    s.results = (s.calls.take s.results.length).map (answer disk) := by
  have hlen : s.results.length = served.length := by
    rw [hinv.results, List.length_map]
  rw [hlen, hinv.calls, List.take_left, hinv.results]

/-! ### Progress -/

/-- The current process, once it runs, goes through to its result: by induction on what is left. -/
theorem leads_served (hinv : AtaInv disk s v served (some h) queue) (hr : v.Runs h) :
    ∃ s' queue', Leads (System.step disk) s s' ∧ s'.calls = s.calls ∧
      AtaInv disk s' v (served ++ [s.callOf h]) none queue' := by
  induction hw : work (s.pcs h) using Nat.strong_induction_on generalizing s queue with
  | _ w ih =>
    have hpc : s.pcs h ≠ .user := (hinv.inCall h).2 (by simp)
    have hstep : s.step disk .advance = some ((), s.advance disk h (s.pcs h)) :=
      System.step_advance.2 ⟨h, hinv.running_eq_some_iff.2 hr, hpc, rfl⟩
    have hkeep : (s.advance disk h (s.pcs h)).calls = s.calls ∧
        (s.advance disk h (s.pcs h)).lba = s.lba := System.advance_keeps disk s h (s.pcs h)
    obtain ⟨queue', ⟨hinv', hless⟩ | hdone⟩ := hinv.advance hr
    · obtain ⟨s', queue'', hleads, hcalls, hdone⟩ := ih _ (hw ▸ hless) hinv' rfl
      refine ⟨s', queue'', .head hstep hleads, hcalls.trans hkeep.1, ?_⟩
      rwa [System.callOf, hkeep.2] at hdone
    · exact ⟨_, queue', .single hstep, hkeep.1, hdone⟩

/-- While the current process is ready, the running context gives way, at the latest after the main
process has looked at the ready queue. -/
theorem leads_mayYield (hinv : AtaInv disk s v served (some h) queue) (hr : h ∈ v.ready) :
    ∃ s' v', Leads (System.step disk) s s' ∧ s'.calls = s.calls ∧ s'.lba = s.lba ∧
      v'.ready = v.ready ∧ s'.mayYield = true ∧ AtaInv disk s' v' served (some h) queue := by
  rcases ne_or_eq v.mode .user with hm | hm
  · exact ⟨s, v, .refl _ s, rfl, rfl, rfl, hinv.mayYield_iff.2 (Or.inr hm), hinv⟩
  rcases hc : v.curr with - | p
  · have hmain : s.sched.pc = .user ∧ s.sched.currProc = .main :=
      ⟨hinv.views.pc_eq_user_iff.2 hm, by rw [hinv.views.currProc_eq, SchedView.node_eq_main, hc]⟩
    have hstep : s.step disk .runCheck = some ((), { s with sched := s.sched.runCheck }) :=
      System.step_runCheck.2 ⟨hmain, rfl⟩
    have hview : v.runCheck = ⟨v.curr, v.ready, v.waits, .running⟩ :=
      if_neg (List.ne_nil_of_mem hr)
    have hinv' := hinv.runCheck hm hc
    rw [hview] at hinv'
    exact ⟨_, ⟨v.curr, v.ready, v.waits, .running⟩, .single hstep, rfl, rfl, rfl,
      hinv'.mayYield_iff.2 (Or.inr (by simp)), hinv'⟩
  · have hne : h ≠ p := hinv.views.ne_of_mem_ready ⟨hm, hc⟩ hr
    have hpc : s.pcs p = .user := by
      by_contra hpc
      exact hne (Option.some.inj (hinv.cur_eq_of_runs ⟨hm, hc⟩ hpc))
    exact ⟨s, v, .refl _ s, rfl, rfl, rfl, hinv.mayYield_iff.2 (Or.inl ⟨p, ⟨hm, hc⟩, hpc⟩), hinv⟩

/-- **A ready process gets to run**: by induction on the processes ahead of it. -/
theorem leads_runs (hinv : AtaInv disk s v served (some h) queue) {pre post : List ℕ}
    (hr : v.ready = pre ++ h :: post) :
    ∃ s' v', Leads (System.step disk) s s' ∧ s'.calls = s.calls ∧ s'.lba = s.lba ∧ v'.Runs h ∧
      AtaInv disk s' v' served (some h) queue := by
  induction pre generalizing s v post with
  | nil =>
    obtain ⟨s₁, v₁, hleads, hcalls, hlba, hready, hy, hinv₁⟩ := hinv.leads_mayYield (by simp [hr])
    have hstep : s₁.step disk .yield = some ((), { s₁ with sched := s₁.sched.yieldTrap.2 }) :=
      System.step_yield.2 ⟨hy, rfl⟩
    have hhead : v₁.requeued.head? = some h := by
      rw [SchedView.requeued]
      split <;> simp [hready, hr]
    exact ⟨_, _, hleads.trans (.single hstep), hcalls, hlba, ⟨rfl, hhead⟩, hinv₁.yield hy⟩
  | cons x pre ih =>
    obtain ⟨s₁, v₁, hleads, hcalls, hlba, hready, hy, hinv₁⟩ := hinv.leads_mayYield (by simp [hr])
    have hstep : s₁.step disk .yield = some ((), { s₁ with sched := s₁.sched.yieldTrap.2 }) :=
      System.step_yield.2 ⟨hy, rfl⟩
    have htail : ∃ post', v₁.requeued.tail = pre ++ h :: post' := by
      rw [SchedView.requeued]
      split
      · next p _ _ => exact ⟨post ++ [p], by simp [hready, hr]⟩
      · exact ⟨post, by simp [hready, hr]⟩
    obtain ⟨post', hpost⟩ := htail
    obtain ⟨s₂, v₂, hleads₂, hcalls₂, hlba₂, hruns, hinv₂⟩ := ih (hinv₁.yield hy) hpost
    exact ⟨s₂, v₂, hleads.trans (.head hstep hleads₂), hcalls₂.trans hcalls, hlba₂.trans hlba,
      hruns, hinv₂⟩

/-- The device completes the command of the first request, and its interrupt makes that the current
one. -/
theorem leads_woken (hinv : AtaInv disk s v served none queue) (hq : queue ≠ []) :
    ∃ s' v' h, Leads (System.step disk) s s' ∧ s'.calls = s.calls ∧
      AtaInv disk s' v' served (some h) queue := by
  have hirq := hinv.views.irqSemaphore_eq
  cases hinv.stage with
  | quiet => exact absurd rfl hq
  | busy hw hp ht hi =>
    have hpend : s.dev.pending ≠ [] := by simp [hp]
    have hstep : s.step disk .complete = some ((), { s with dev := s.dev.complete }) :=
      System.step_complete.2 ⟨hpend, rfl⟩
    have hraise : s.dev.complete.irq = true := by
      rw [Device.complete, hp]
    obtain ⟨s', h, rest, hisr, hcalls, -, hinv'⟩ := (hinv.complete hpend).isr hraise
    have hint : ({ s with dev := s.dev.complete } : System).step disk .interrupt =
        some ((), s') := System.step_interrupt.2 ⟨⟨hraise, hirq⟩, hisr⟩
    exact ⟨s', _, h, .head hstep (.single hint), hcalls, hinv'⟩
  | raised hw hp ht hi =>
    obtain ⟨s', h, rest, hisr, hcalls, -, hinv'⟩ := hinv.isr hi
    have hint : s.step disk .interrupt = some ((), s') :=
      System.step_interrupt.2 ⟨⟨hi, hirq⟩, hisr⟩
    exact ⟨s', _, h, .single hint, hcalls, hinv'⟩

/-- The current process is served. -/
theorem leads_next (hinv : AtaInv disk s v served (some h) queue) :
    ∃ s' v' queue', Leads (System.step disk) s s' ∧ s'.calls = s.calls ∧
      AtaInv disk s' v' (served ++ [s.callOf h]) none queue' := by
  rcases hinv.stage.ready_or_runs with hr | hr
  · obtain ⟨pre, post, hready⟩ := List.append_of_mem hr
    obtain ⟨s₁, v₁, hleads, hcalls, hlba, hruns, hinv₁⟩ := hinv.leads_runs hready
    obtain ⟨s₂, queue', hleads₂, hcalls₂, hinv₂⟩ := hinv₁.leads_served hruns
    rw [System.callOf, hlba] at hinv₂
    exact ⟨s₂, v₁, queue', hleads.trans hleads₂, hcalls₂.trans hcalls, hinv₂⟩
  · obtain ⟨s₁, queue', hleads, hcalls, hinv₁⟩ := hinv.leads_served hr
    exact ⟨s₁, v, queue', hleads, hcalls, hinv₁⟩

/-- **All calls made so far can be served**, by induction on the number of those that are not. -/
theorem exists_serve (hinv : AtaInv disk s v served cur queue) :
    ∃ s', Leads (System.step disk) s s' ∧ s'.calls = s.calls ∧
      s'.results = s.calls.map (answer disk) := by
  induction hn : s.calls.length - served.length using Nat.strong_induction_on generalizing
    s v served cur queue with
  | _ n ih =>
    -- one call is served, and the rest by the induction hypothesis
    have hserve : ∀ {s₁ v₁ h queue₁}, AtaInv disk s₁ v₁ served (some h) queue₁ →
        Leads (System.step disk) s s₁ → s₁.calls = s.calls →
        ∃ s', Leads (System.step disk) s s' ∧ s'.calls = s.calls ∧
          s'.results = s.calls.map (answer disk) := by
      intro s₁ v₁ h queue₁ hinv₁ hleads hcalls
      obtain ⟨s₂, v₂, queue₂, hleads₂, hcalls₂, hinv₂⟩ := hinv₁.leads_next
      have hlen : served.length < s.calls.length := by
        rw [← hcalls, hinv₁.calls]
        simp
      have hcalls₂ := hcalls₂.trans hcalls
      obtain ⟨s', hleads', hcalls', hresults⟩ := ih _ (by
        rw [hcalls₂, List.length_append, List.length_singleton]
        omega) hinv₂ rfl
      exact ⟨s', hleads.trans (hleads₂.trans hleads'), hcalls'.trans hcalls₂,
        hcalls₂ ▸ hresults⟩
    rcases cur with - | h
    · rcases queue with - | ⟨x, queue⟩
      · refine ⟨s, .refl _ s, rfl, ?_⟩
        have hw : v.waits blockedQueue = [] := by
          cases hinv.stage with
          | quiet hw => exact hw
        rw [hinv.results, hinv.calls, hw]
        simp
      · obtain ⟨s₁, v₁, h, hleads, hcalls, hinv₁⟩ := hinv.leads_woken (List.cons_ne_nil x queue)
        exact hserve hinv₁ hleads hcalls
    · exact hserve hinv (.refl _ s) rfl

end AtaInv

/-- **The ATA read protocol.** In every run of the system, at every moment: at most one command is
outstanding; the completions so far have woken the processes of the first calls, in order; the calls
that have returned are the first ones, each with 0 and the words of the sector it asked for; and the
calls made so far can all return, so no process is left blocked. -/
theorem ata_read_protocol (disk : ℕ → ℕ → ℕ) {es : List AtaEvent} {out : List Unit} {s : System}
    (hrun : runTrace (System.step disk) .boot es = some (out, s)) :
    s.dev.outstanding ≤ 1 ∧
      s.wakes = (s.calls.take s.wakes.length).map (fun c ↦ some (.proc c.1)) ∧
      s.results = (s.calls.take s.results.length).map (answer disk) ∧
      ∃ s', Leads (System.step disk) s s' ∧ s'.calls = s.calls ∧
        s'.results = s.calls.map (answer disk) := by
  obtain ⟨v, served, cur, queue, hinv⟩ := sound_of_runTrace hrun
  exact ⟨hinv.outstanding_le_one, hinv.wakes_eq, hinv.results_eq, hinv.exists_serve⟩

/-- Two readers: the completion of the first call is taken before its process has even yielded, and
the second call comes in before the first one has gone on. -/
def twoReaders : List AtaEvent :=
  [.create 0, .create 1, .runCheck, .yield, .call 5, .complete, .interrupt, .yield, .call 7, .yield,
    .advance, .advance]

theorem ata_read_protocol_twoReaders :
    ∃ out s, runTrace (System.step fun lba i ↦ lba + i) .boot twoReaders = some (out, s) ∧
      s.wakes = [some (.proc 0)] ∧
      ∃ s', Leads (System.step fun lba i ↦ lba + i) s s' ∧
        s'.results = [(0, 5), (1, 7)].map (answer fun lba i ↦ lba + i) := by
  have hdone : (runTrace (System.step fun lba i ↦ lba + i) .boot twoReaders).map
      (fun r ↦ (r.2.calls, r.2.wakes)) = some ([(0, 5), (1, 7)], [some (.proc 0)]) := by
    decide +kernel
  obtain ⟨⟨out, s⟩, hrun, heq⟩ := Option.map_eq_some_iff.1 hdone
  obtain ⟨hcalls, hwakes⟩ := Prod.mk.inj heq
  obtain ⟨-, -, -, s', hleads, -, hresults⟩ := ata_read_protocol (fun lba i ↦ lba + i) hrun
  exact ⟨out, s, hrun, hwakes, s', hleads, hresults.trans (by rw [hcalls])⟩

end Ata

end Marimba
