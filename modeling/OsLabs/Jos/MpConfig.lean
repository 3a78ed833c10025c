import OsLabs.Core.CStrings
import OsLabs.Jos.Boot
import OsLabs.Jos.Memmove

/-!
# Discovery of the processors

`mp_init` (`kern/mpconfig.c`) finds the processors in a table of the BIOS: a
header, and behind it as many entries as the header counts, in two sizes.  The
length of the table is a field of its own.  A processor entry takes the next
slot of `cpus`; `cpunum` selects a slot by the APIC id.
-/

namespace OsLabs.Jos

/-! ## Records -/

/-- The bytes of a record, by their distance from its start. -/
abbrev Record := ℕ → BitVec 8

/-- The record at an address. -/
def recordAt (bytes : Bytes) (base : Word) : Record := fun k => bytes (base + BitVec.ofNat 32 k)

namespace Record

def half (r : Record) (k : ℕ) : BitVec 16 := (r (k + 1) ++ r k : BitVec (8 + 8))

def word (r : Record) (k : ℕ) : Word := (r.half (k + 2) ++ r.half k : BitVec (16 + 16))

/-- `memcmp` finds no difference from the text. -/
def BeginsWith (r : Record) (s : String) : Prop := (List.range s.length).map r = text s

instance (r : Record) (s : String) : Decidable (r.BeginsWith s) :=
  inferInstanceAs (Decidable (_ = _))

def sum (addr : Record) (len : ℕ) : BitVec 8 := (List.range len).foldl (fun s i => s + addr i) 0

end Record

namespace Mp

/-! `struct mp`, of 16 bytes. -/

def physaddr (mp : Record) : Word := mp.word 4
def type (mp : Record) : BitVec 8 := mp 11
def imcrp (mp : Record) : BitVec 8 := mp 12
def sizeofMp : ℕ := 16

end Mp

namespace Mpconf

/-! `struct mpconf`: the header of the table. -/

def length (conf : Record) : ℕ := (conf.half 4).toNat
def version (conf : Record) : BitVec 8 := conf 6
def entry (conf : Record) : ℕ := (conf.half 34).toNat
def lapicaddr (conf : Record) : Word := conf.word 36
def xlength (conf : Record) : ℕ := (conf.half 40).toNat
def xchecksum (conf : Record) : BitVec 8 := conf 42

/-- Where the entries begin. -/
def entries : ℕ := 44

end Mpconf

namespace Mpproc

/-! `struct mpproc`: the entry of a processor, at place `p` of the table. -/

def apicid (conf : Record) (p : ℕ) : BitVec 8 := conf (p + 1)
def flags (conf : Record) (p : ℕ) : BitVec 8 := conf (p + 3)
def sizeofMpproc : ℕ := 20

/-- `flags & MPPROC_BOOT`: this is the bootstrap processor. -/
def IsBoot (conf : Record) (p : ℕ) : Prop := flags conf p &&& 0x02 ≠ 0

instance (conf : Record) (p : ℕ) : Decidable (IsBoot conf p) :=
  inferInstanceAs (Decidable (_ ≠ _))

end Mpproc

/-! ## The table -/

/-- `KADDR`: where the kernel has mapped a physical address. -/
def kaddr (npages : ℕ) (pa : Word) : Option Word :=
  if pgnum pa < npages then some (pa + kernBase) else none

/-- The loop of `mpsearch1`.  `stop` is `count` structures further, so that the comparison fails
when none is left. -/
def mpsearchLoop (bytes : Bytes) (stop : Word) : ℕ → Word → Option Word
  | 0, _ => none
  | count + 1, mp =>
      if mp < stop then
        if (recordAt bytes mp).BeginsWith "_MP_" ∧ (recordAt bytes mp).sum Mp.sizeofMp = 0 then
          some mp
        else mpsearchLoop bytes stop count (mp + BitVec.ofNat 32 Mp.sizeofMp)
      else none

/-- An MP structure in the `len` bytes at a physical address; `KADDR` may panic. -/
def mpsearch1 (npages : ℕ) (bytes : Bytes) (a : Word) (len : ℕ) : Option (Option Word) := do
  let mp ← kaddr npages a
  let stop ← kaddr npages (a + BitVec.ofNat 32 len)
  return mpsearchLoop bytes stop (len / Mp.sizeofMp) mp

def mpsearch (npages : ℕ) (bytes : Bytes) : Option (Option Word) := do
  let bda ← kaddr npages (0x40 <<< 4)
  let ebda := (recordAt bytes bda).half 0x0E
  let mp ←
    if ebda ≠ 0 then mpsearch1 npages bytes (ebda.setWidth 32 <<< 4) 1024
    else
      let p := ((recordAt bytes bda).half 0x13).setWidth 32 * 1024
      mpsearch1 npages bytes (p - 1024) 1024
  match mp with
  | some mp => return some mp
  | none => mpsearch1 npages bytes 0xF0000 0x10000

/-- A table that `mpconfig` accepts, with the MP structure that led to it, and the places that
were read of the table and of its extension. -/
structure Accepted where
  mp : Word
  conf : Word
  reads : List ℕ
  xreads : List ℕ

/-- `mpconfig`; the outer `none` is a panic of `KADDR`. -/
def mpconfig (npages : ℕ) (bytes : Bytes) : Option (Option Accepted) := do
  match ← mpsearch npages bytes with
  | none => return none
  | some mp =>
    if Mp.physaddr (recordAt bytes mp) = 0 ∨ Mp.type (recordAt bytes mp) ≠ 0 then return none
    else
      let conf ← kaddr npages (Mp.physaddr (recordAt bytes mp))
      let table := recordAt bytes conf
      if ¬ table.BeginsWith "PCMP" then return none
      else if table.sum (Mpconf.length table) ≠ 0 then return none
      else if Mpconf.version table ≠ 1 ∧ Mpconf.version table ≠ 4 then return none
      else if Record.sum (fun i => table (Mpconf.length table + i)) (Mpconf.xlength table) ≠
          Mpconf.xchecksum table then
        return none
      else
        return some {
          mp, conf
          -- the signature, `length`, the sum, `version`, `xlength` and `xchecksum`
          reads := List.range' 0 4 ++ List.range' 4 2 ++ List.range (Mpconf.length table) ++
            [6] ++ List.range' 40 2 ++ [42]
          xreads := List.range' (Mpconf.length table) (Mpconf.xlength table) }

/-! ## `mp_init` -/

namespace Smp

/-- The fields of a `struct CpuInfo` that `mp_init` sets. -/
structure CpuInfo where
  cpuId : BitVec 8
  cpuStatus : CpuStatus

/-- What `mp_init` leaves behind, and two logs: the APIC id of each processor that was given a
slot, with the slot, and the places of the table that were read.  A place that is read again
stands in the log once. -/
structure State where
  cpus : Vector CpuInfo ncpuMax
  /-- the slot that the pointer points to -/
  bootcpu : ℕ
  ismp : Bool
  ncpu : ℕ
  lapicaddr : Word
  /-- whether the IMCR was switched to symmetric I/O -/
  imcr : Bool
  created : List (BitVec 8 × ℕ)
  reads : List ℕ
  xreads : List ℕ

/-- The globals as the boot loader leaves them, with `bootcpu` set. -/
def State.zero : State :=
  ⟨Vector.replicate ncpuMax ⟨0, .unused⟩, 0, false, 0, 0, false, [], [], []⟩

def State.read (s : State) (places : List ℕ) : State := { s with reads := s.reads ++ places }

/-- `MPPROC`. -/
def IsProc (conf : Record) (p : ℕ) : Prop := conf p = 0

/-- `MPBUS`, `MPIOAPIC`, `MPIOINTR` and `MPLINTR`. -/
def IsDevice (conf : Record) (p : ℕ) : Prop :=
  conf p = 1 ∨ conf p = 2 ∨ conf p = 3 ∨ conf p = 4

instance (conf : Record) (p : ℕ) : Decidable (IsProc conf p) :=
  inferInstanceAs (Decidable (_ = _))

instance (conf : Record) (p : ℕ) : Decidable (IsDevice conf p) :=
  inferInstanceAs (Decidable (_ ∨ _))

/-- The case `MPPROC`. -/
def State.addProc (s : State) (conf : Record) (p : ℕ) : State :=
  let s := s.read [p + 3]
  let s := if Mpproc.IsBoot conf p then { s with bootcpu := s.ncpu } else s
  if h : s.ncpu < ncpuMax then
    { s with
      cpus := s.cpus.set s.ncpu { s.cpus[s.ncpu] with cpuId := BitVec.ofNat 8 s.ncpu }
      created := s.created ++ [(Mpproc.apicid conf p, s.ncpu)]
      ncpu := s.ncpu + 1 }
  -- the message names the processor
  else s.read [p + 1]

/-- The loop over the entries, `left` of them from place `p` on. -/
def entryLoop (conf : Record) : ℕ → ℕ → State → State
  | 0, _, s => s
  | left + 1, p, s =>
      let s := s.read [p]
      if IsProc conf p then entryLoop conf left (p + Mpproc.sizeofMpproc) (s.addProc conf p)
      else if IsDevice conf p then entryLoop conf left (p + 8) s
      else { s with ismp := false }

/-- `bootcpu->cpu_status = CPU_STARTED`; no result where the pointer is past the array. -/
def State.startBoot (s : State) : Option State :=
  if h : s.bootcpu < ncpuMax then
    some { s with
      cpus := s.cpus.set s.bootcpu { s.cpus[s.bootcpu] with cpuStatus := .started } }
  else none

/-- An accepted table sets `ismp` and `lapicaddr`, and its entries are counted. -/
def startState (bytes : Bytes) (table : Accepted) : State :=
  { State.zero with
    ismp := true, lapicaddr := Mpconf.lapicaddr (recordAt bytes table.conf)
    reads := table.reads ++ List.range' 36 4 ++ List.range' 34 2, xreads := table.xreads }

/-- What follows on the acceptance of a table. -/
def initWith (bytes : Bytes) (table : Accepted) : Option State := do
  let conf := recordAt bytes table.conf
  let s ← (entryLoop conf (Mpconf.entry conf) Mpconf.entries (startState bytes table)).startBoot
  if s.ismp then return { s with imcr := Mp.imcrp (recordAt bytes table.mp) ≠ 0 }
  else return { s with ncpu := 1, lapicaddr := 0 }

def mpInit (npages : ℕ) (bytes : Bytes) : Option State := do
  match ← mpconfig npages bytes with
  | none => return State.zero
  | some table => initWith bytes table

/-! ## `cpunum` -/

/-- `cpunum`, by the ID register of the local APIC where that is mapped. -/
def cpunum (id : Option Word) : ℕ :=
  match id with
  | some id => (id >>> 24).toNat
  | none => 0

/-- What `cpunum` returns on the processor with an APIC id: the ID register has it in the top
byte, and `lapic_init` maps the local APIC unless its address is 0. -/
def State.cpunumOn (s : State) (apicid : BitVec 8) : ℕ :=
  cpunum (if s.lapicaddr = 0 then none else some (apicid ++ (0 : BitVec 24) : BitVec (8 + 24)))

/-- The processors among the first `ncpu`, which the kernel starts. -/
def State.enabled (s : State) : List (BitVec 8 × ℕ) := s.created.filter fun c => c.2 < s.ncpu

/-- Every processor has a slot of its own, and no read leaves the table. -/
structure OwnSlots (conf : Record) (s : State) : Prop where
  ncpu_le : s.ncpu ≤ ncpuMax
  bootcpu_lt : s.bootcpu < ncpuMax
  reads : ∀ k ∈ s.reads, k < Mpconf.length conf
  xreads : ∀ k ∈ s.xreads, k < Mpconf.length conf + Mpconf.xlength conf
  own : ∀ c ∈ s.enabled, s.cpunumOn c.1 = c.2 ∧
    ∃ h : c.2 < ncpuMax, s.cpus[c.2].cpuId = BitVec.ofNat 8 c.2
  distinct : (s.enabled.map fun c => s.cpunumOn c.1).Nodup

/-! ## The entries that are visited -/

/-- The places of the entries that the loop visits, `left` of them at most, from `p` on: it goes on
behind an entry of a known type. -/
def walk (conf : Record) : ℕ → ℕ → List ℕ
  | 0, _ => []
  | left + 1, p =>
      p :: if IsProc conf p then walk conf left (p + Mpproc.sizeofMpproc)
        else if IsDevice conf p then walk conf left (p + 8) else []

def visited (conf : Record) : List ℕ := walk conf (Mpconf.entry conf) Mpconf.entries

/-- The processor entries among some places. -/
def procs (conf : Record) (places : List ℕ) : List ℕ := places.filter (IsProc conf)

/-- The processor entries of the table. -/
def processors (conf : Record) : List ℕ := procs conf (visited conf)

/-- The last byte that is read of an entry. -/
def lastRead (conf : Record) (p : ℕ) : ℕ := if IsProc conf p then p + 3 else p

/-- One round of the loop. -/
def State.visit (conf : Record) (s : State) (p : ℕ) : State :=
  if IsProc conf p then (s.read [p]).addProc conf p
  else { s.read [p] with ismp := s.ismp && decide (IsDevice conf p) }

section Rounds

variable {conf : Record} {s start : State} {p left : ℕ} {places : List ℕ}

theorem entryLoop_eq_foldl :
    entryLoop conf left p s = (walk conf left p).foldl (State.visit conf) s := by
  induction left generalizing p s with
  | zero => rfl
  | succ left ih =>
    rw [entryLoop, walk, List.foldl_cons, State.visit]
    by_cases hproc : IsProc conf p
    · rw [if_pos hproc, if_pos hproc, if_pos hproc]
      exact ih
    · rw [if_neg hproc, if_neg hproc, if_neg hproc]
      by_cases hdevice : IsDevice conf p
      · rw [if_pos hdevice, if_pos hdevice, decide_eq_true hdevice, Bool.and_true]
        exact ih
      · rw [if_neg hdevice, if_neg hdevice, decide_eq_false hdevice, Bool.and_false]
        rfl

theorem procs_concat (conf : Record) (places : List ℕ) (p : ℕ) :
    procs conf (places ++ [p]) = procs conf places ++ if IsProc conf p then [p] else [] := by
  rw [procs, List.filter_append, List.filter_singleton]
  by_cases hproc : IsProc conf p
  · rw [decide_eq_true hproc, if_pos hproc]
    rfl
  · rw [decide_eq_false hproc, if_neg hproc]
    rfl

theorem addProc_room (hroom : s.ncpu < ncpuMax) : s.addProc conf p =
    { s.read [p + 3] with
      bootcpu := if Mpproc.IsBoot conf p then s.ncpu else s.bootcpu
      cpus := s.cpus.set s.ncpu { s.cpus[s.ncpu] with cpuId := BitVec.ofNat 8 s.ncpu }
      created := s.created ++ [(Mpproc.apicid conf p, s.ncpu)]
      ncpu := s.ncpu + 1 } := by
  rw [State.addProc]
  by_cases hboot : Mpproc.IsBoot conf p
  · rw [if_pos hboot, if_pos hboot]
    exact dif_pos hroom
  · rw [if_neg hboot, if_neg hboot]
    exact dif_pos hroom

theorem addProc_full (hfull : ¬ s.ncpu < ncpuMax) : s.addProc conf p =
    { (s.read [p + 3]).read [p + 1] with
      bootcpu := if Mpproc.IsBoot conf p then s.ncpu else s.bootcpu } := by
  rw [State.addProc]
  by_cases hboot : Mpproc.IsBoot conf p
  · rw [if_pos hboot, if_pos hboot]
    exact dif_neg hfull
  · rw [if_neg hboot, if_neg hboot]
    exact dif_neg hfull

/-- What the loop has found at some places, from a state without processors. -/
structure Found (conf : Record) (start : State) (places : List ℕ) (s : State) : Prop where
  ncpu : s.ncpu = min (procs conf places).length ncpuMax
  created : s.created =
    (((procs conf places).take ncpuMax).map (Mpproc.apicid conf)).zipIdx
  bootcpu : s.bootcpu < ncpuMax ↔
    ∀ p ∈ (procs conf places).drop ncpuMax, ¬ Mpproc.IsBoot conf p
  ismp : s.ismp = true ↔ ∀ p ∈ places, IsProc conf p ∨ IsDevice conf p
  reads : ∀ n, (∀ k ∈ s.reads, k < n) ↔
    (∀ k ∈ start.reads, k < n) ∧ ∀ p ∈ places, lastRead conf p < n
  xreads : s.xreads = start.xreads
  lapicaddr : s.lapicaddr = start.lapicaddr
  cpuId : ∀ k (h : k < ncpuMax), k < s.ncpu → s.cpus[k].cpuId = BitVec.ofNat 8 k

theorem Found.skip (hfound : Found conf start places s) (hproc : ¬ IsProc conf p) :
    Found conf start (places ++ [p]) (s.visit conf p) := by
  have hprocs : procs conf (places ++ [p]) = procs conf places := by
    rw [procs_concat, if_neg hproc, List.append_nil]
  rw [State.visit, if_neg hproc]
  constructor
  · rw [hprocs]
    exact hfound.ncpu
  · rw [hprocs]
    exact hfound.created
  · rw [hprocs]
    exact hfound.bootcpu
  · rw [List.forall_mem_append, List.forall_mem_singleton, ← hfound.ismp, Bool.and_eq_true,
      decide_eq_true_eq, or_iff_right hproc]
  · intro n
    rw [List.forall_mem_append, List.forall_mem_singleton, ← and_assoc, ← hfound.reads, lastRead,
      if_neg hproc]
    exact List.forall_mem_append.trans (and_congr_right fun _ => List.forall_mem_singleton)
  · exact hfound.xreads
  · exact hfound.lapicaddr
  · exact hfound.cpuId

theorem procs_concat_proc (hproc : IsProc conf p) :
    procs conf (places ++ [p]) = procs conf places ++ [p] := by
  rw [procs_concat, if_pos hproc]

theorem Found.ismp_proc (hfound : Found conf start places s) (hproc : IsProc conf p) :
    s.ismp = true ↔ ∀ q ∈ places ++ [p], IsProc conf q ∨ IsDevice conf q := by
  rw [List.forall_mem_append, List.forall_mem_singleton, ← hfound.ismp]
  exact (and_iff_left (Or.inl hproc)).symm

theorem Found.reads_proc (hfound : Found conf start places s) (hproc : IsProc conf p) (n : ℕ)
    {m : List ℕ} (hle : ∀ q ∈ m, q ≤ p + 3) (hmem : p + 3 ∈ m) :
    (∀ k ∈ s.reads ++ m, k < n) ↔
      (∀ k ∈ start.reads, k < n) ∧ ∀ q ∈ places ++ [p], lastRead conf q < n := by
  rw [List.forall_mem_append, List.forall_mem_append, List.forall_mem_singleton, ← and_assoc,
    ← hfound.reads, lastRead, if_pos hproc]
  exact and_congr_right fun _ =>
    ⟨fun hall => hall _ hmem, fun hlt q hq => (hle q hq).trans_lt hlt⟩

/-- A processor that is given the next slot. -/
theorem Found.room (hfound : Found conf start places s) (hproc : IsProc conf p)
    (hroom : s.ncpu < ncpuMax) : Found conf start (places ++ [p]) (s.visit conf p) := by
  have hncpu := hfound.ncpu
  have hlength : (procs conf places).length < ncpuMax := by
    rw [hncpu] at hroom
    exact (min_lt_iff.mp hroom).resolve_right (lt_irrefl _)
  rw [min_eq_left hlength.le] at hncpu
  have hall : (procs conf places ++ [p]).length ≤ ncpuMax := by
    rwa [List.length_append]
  rw [State.visit, if_pos hproc, @addProc_room conf (s.read [p]) p hroom]
  constructor
  · rw [procs_concat_proc hproc, min_eq_left hall, List.length_append, ← hncpu]
    rfl
  · rw [procs_concat_proc hproc, List.take_of_length_le hall, List.map_append, List.zipIdx_append,
      List.length_map, Nat.zero_add, ← hncpu]
    change s.created ++ _ = _
    rw [hfound.created, List.take_of_length_le hlength.le]
    rfl
  · rw [procs_concat_proc hproc, List.drop_eq_nil_of_le hall]
    refine iff_of_true ?_ (List.forall_mem_nil _)
    have hbootcpu : s.bootcpu < ncpuMax := by
      rw [hfound.bootcpu, List.drop_eq_nil_of_le hlength.le]
      exact List.forall_mem_nil _
    change (if Mpproc.IsBoot conf p then s.ncpu else s.bootcpu) < ncpuMax
    by_cases hboot : Mpproc.IsBoot conf p
    · rwa [if_pos hboot]
    · rwa [if_neg hboot]
  · exact hfound.ismp_proc hproc
  · intro n
    rw [← hfound.reads_proc hproc n (m := [p, p + 3]) (by simp) (by simp)]
    change (∀ k ∈ s.reads ++ [p] ++ [p + 3], k < n) ↔ _
    rw [List.append_assoc]
    rfl
  · exact hfound.xreads
  · exact hfound.lapicaddr
  · intro k hk hlt
    change (s.cpus.set s.ncpu _ hroom)[k].cpuId = _
    by_cases hself : s.ncpu = k
    · subst hself
      rw [Vector.getElem_set_self]
      rfl
    · rw [Vector.getElem_set_ne _ _ hself]
      exact hfound.cpuId k hk ((Nat.lt_succ_iff_lt_or_eq.mp hlt).resolve_right (Ne.symm hself))

/-- A processor that is disabled; as the bootstrap processor it moves the pointer past the
slots. -/
theorem Found.full (hfound : Found conf start places s) (hproc : IsProc conf p)
    (hroom : ¬ s.ncpu < ncpuMax) : Found conf start (places ++ [p]) (s.visit conf p) := by
  have hncpu := hfound.ncpu
  have hfull : ncpuMax ≤ (procs conf places).length := by
    by_contra hlt
    rw [hncpu, min_eq_left (Nat.le_of_not_le hlt)] at hroom
    exact hroom (Nat.lt_of_not_le hlt)
  rw [min_eq_right hfull] at hncpu
  rw [State.visit, if_pos hproc, @addProc_full conf (s.read [p]) p hroom]
  constructor
  · rw [procs_concat_proc hproc, List.length_append,
      min_eq_right (hfull.trans (Nat.le_add_right _ _))]
    exact hncpu
  · rw [procs_concat_proc hproc, List.take_append_of_le_length hfull]
    exact hfound.created
  · rw [procs_concat_proc hproc, List.drop_append_of_le_length hfull, List.forall_mem_append,
      List.forall_mem_singleton, ← hfound.bootcpu]
    change (if Mpproc.IsBoot conf p then s.ncpu else s.bootcpu) < ncpuMax ↔ _
    by_cases hboot : Mpproc.IsBoot conf p
    · rw [if_pos hboot]
      exact iff_of_false hroom fun h => h.2 hboot
    · rw [if_neg hboot]
      exact (and_iff_left hboot).symm
  · exact hfound.ismp_proc hproc
  · intro n
    rw [← hfound.reads_proc hproc n (m := [p, p + 3, p + 1]) (by simp) (by simp)]
    change (∀ k ∈ s.reads ++ [p] ++ [p + 3] ++ [p + 1], k < n) ↔ _
    rw [List.append_assoc, List.append_assoc]
    rfl
  · exact hfound.xreads
  · exact hfound.lapicaddr
  · exact hfound.cpuId

theorem found_of_walk (hstart : Found conf start [] start) (places : List ℕ) :
    Found conf start places (places.foldl (State.visit conf) start) := by
  induction places using List.reverseRecOn with
  | nil => exact hstart
  | append_singleton places p ih =>
    rw [List.foldl_append]
    by_cases hproc : IsProc conf p
    · by_cases hroom : (places.foldl (State.visit conf) start).ncpu < ncpuMax
      · exact ih.room hproc hroom
      · exact ih.full hproc hroom
    · exact ih.skip hproc

end Rounds

/-! ## Behind the loop -/

/-- What a table must be like.  The last case is about the entries that get a slot: their APIC ids
count up from 0. -/
structure Orderly (conf : Record) : Prop where
  header : 43 ≤ Mpconf.length conf
  entries : ∀ p ∈ visited conf, lastRead conf p < Mpconf.length conf
  boot : ∀ p ∈ (processors conf).drop ncpuMax, ¬ Mpproc.IsBoot conf p
  ids : (∃ p ∈ visited conf, ¬ (IsProc conf p ∨ IsDevice conf p)) ∨
    Mpconf.lapicaddr conf = 0 ∧ (processors conf).length ≤ 1 ∨
    Mpconf.lapicaddr conf ≠ 0 ∧ ∀ i p, ((processors conf).take ncpuMax)[i]? = some p →
      (Mpproc.apicid conf p).toNat = i

section Slots

variable {conf : Record} {s start : State} {a : BitVec 8} {k : ℕ}

theorem cpunumOn_eq_zero (hlapic : s.lapicaddr = 0) (a : BitVec 8) : s.cpunumOn a = 0 := by
  rw [State.cpunumOn, if_pos hlapic]
  rfl

theorem cpunumOn_eq_toNat (hlapic : s.lapicaddr ≠ 0) (a : BitVec 8) :
    s.cpunumOn a = a.toNat := by
  rw [State.cpunumOn, if_neg hlapic, cpunum, BitVec.toNat_ushiftRight, BitVec.toNat_append]
  simp [Nat.shiftLeft_shiftRight]

theorem Found.mem_created (hfound : Found conf start (visited conf) s) :
    (a, k) ∈ s.created ↔
      ∃ p, ((processors conf).take ncpuMax)[k]? = some p ∧ Mpproc.apicid conf p = a := by
  rw [hfound.created, List.mk_mem_zipIdx_iff_getElem?, List.getElem?_map, Option.map_eq_some_iff]
  rfl

theorem Found.lt_ncpu (hfound : Found conf start (visited conf) s) (hmem : (a, k) ∈ s.created) :
    k < s.ncpu := by
  obtain ⟨p, hp, -⟩ := hfound.mem_created.mp hmem
  have hlt := (List.getElem?_eq_some_iff.mp hp).1
  rw [List.length_take, min_comm] at hlt
  rw [hfound.ncpu]
  exact hlt

theorem Found.ncpu_le (hfound : Found conf start (visited conf) s) : s.ncpu ≤ ncpuMax :=
  hfound.ncpu.trans_le (min_le_right _ _)

/-- Where every processor selects its slot, the slots are distinct. -/
theorem Found.distinct (hfound : Found conf start (visited conf) s) {t : State}
    (hcreated : t.created = s.created) (hown : ∀ c ∈ t.enabled, t.cpunumOn c.1 = c.2) :
    (t.enabled.map fun c => t.cpunumOn c.1).Nodup := by
  have hslots : (t.created.map Prod.snd).Nodup := by
    rw [hcreated, hfound.created, List.zipIdx_map_snd]
    exact List.nodup_range'
  have hselected : (t.enabled.map fun c => t.cpunumOn c.1) = t.enabled.map Prod.snd :=
    List.map_congr_left hown
  rw [hselected]
  exact hslots.sublist (List.filter_sublist.map _)

/-- The slots that the processors select, where all of them are started. -/
theorem Found.own_iff (hfound : Found conf start (visited conf) s) :
    (∀ c ∈ s.created, s.cpunumOn c.1 = c.2) ↔
      s.lapicaddr = 0 ∧ (processors conf).length ≤ 1 ∨
      s.lapicaddr ≠ 0 ∧ ∀ i p, ((processors conf).take ncpuMax)[i]? = some p →
        (Mpproc.apicid conf p).toNat = i := by
  by_cases hlapic : s.lapicaddr = 0
  · have hother : ¬ (s.lapicaddr ≠ 0 ∧ ∀ i p, ((processors conf).take ncpuMax)[i]? = some p →
        (Mpproc.apicid conf p).toNat = i) := fun h => h.1 hlapic
    rw [or_iff_left hother, and_iff_right hlapic]
    constructor
    · intro hown
      by_contra hmany
      have hlt : 1 < ((processors conf).take ncpuMax).length := by
        rw [List.length_take]
        exact lt_min (by decide) (Nat.lt_of_not_le hmany)
      have hmem := hfound.mem_created.mpr ⟨_, List.getElem?_eq_getElem hlt, rfl⟩
      have hone := hown _ hmem
      rw [cpunumOn_eq_zero hlapic] at hone
      exact absurd hone Nat.zero_ne_one
    · rintro hone ⟨a, k⟩ hmem
      have hlt := hfound.lt_ncpu hmem
      rw [hfound.ncpu] at hlt
      have hzero : k < 1 := hlt.trans_le ((min_le_left _ _).trans hone)
      rw [cpunumOn_eq_zero hlapic, Nat.lt_one_iff.mp hzero]
  · have hother : ¬ (s.lapicaddr = 0 ∧ (processors conf).length ≤ 1) := fun h => hlapic h.1
    rw [or_iff_right hother, and_iff_right hlapic]
    constructor
    · intro hown i p hp
      have hself := hown _ (hfound.mem_created.mpr ⟨p, hp, rfl⟩)
      rwa [cpunumOn_eq_toNat hlapic] at hself
    · rintro hids ⟨a, k⟩ hmem
      obtain ⟨p, hp, rfl⟩ := hfound.mem_created.mp hmem
      rw [cpunumOn_eq_toNat hlapic]
      exact hids k p hp

/-- What the start of the bootstrap processor and the end of `mp_init` leave as it is. -/
structure Finished (s t : State) : Prop where
  bootcpu : t.bootcpu = s.bootcpu
  created : t.created = s.created
  reads : t.reads = s.reads
  xreads : t.xreads = s.xreads
  cpuId : ∀ k (h : k < ncpuMax), t.cpus[k].cpuId = s.cpus[k].cpuId

theorem startBoot_none (hboot : ¬ s.bootcpu < ncpuMax) : s.startBoot = none := dif_neg hboot

theorem startBoot_some (hboot : s.bootcpu < ncpuMax) :
    ∃ t, s.startBoot = some t ∧ Finished s t ∧ t.ncpu = s.ncpu ∧ t.ismp = s.ismp ∧
      t.lapicaddr = s.lapicaddr := by
  refine ⟨_, dif_pos hboot, ⟨rfl, rfl, rfl, rfl, fun k hk => ?_⟩, rfl, rfl, rfl⟩
  by_cases hself : s.bootcpu = k
  · subst hself
    rw [Vector.getElem_set_self]
  · rw [Vector.getElem_set_ne _ _ hself]

/-- With the boot processor in its place, only the reads and the selected slots count. -/
theorem Found.ownSlots_iff (hfound : Found conf start (visited conf) s)
    (hboot : s.bootcpu < ncpuMax) {t : State} (hfinished : Finished s t) (hncpu : t.ncpu ≤ ncpuMax)
    (hxreads : ∀ k ∈ start.xreads, k < Mpconf.length conf + Mpconf.xlength conf) :
    OwnSlots conf t ↔
      (∀ k ∈ s.reads, k < Mpconf.length conf) ∧ ∀ c ∈ t.enabled, t.cpunumOn c.1 = c.2 := by
  constructor
  · intro hslots
    exact ⟨hfinished.reads ▸ hslots.reads, fun c hc => (hslots.own c hc).1⟩
  · rintro ⟨hreads, hown⟩
    constructor
    · exact hncpu
    · rwa [hfinished.bootcpu]
    · rwa [hfinished.reads]
    · rwa [hfinished.xreads, hfound.xreads]
    · rintro ⟨a, k⟩ hc
      have hmem : (a, k) ∈ s.created := hfinished.created ▸ (List.mem_filter.mp hc).1
      have hlt := hfound.lt_ncpu hmem
      have hslot : k < ncpuMax := hlt.trans_le hfound.ncpu_le
      exact ⟨hown _ hc, hslot, (hfinished.cpuId k hslot).trans (hfound.cpuId k hslot hlt)⟩
    · exact hfound.distinct hfinished.created hown

/-- All entries are of known types. -/
theorem Found.ownSlots_known (hfound : Found conf start (visited conf) s)
    (hboot : s.bootcpu < ncpuMax) {t : State} (hfinished : Finished s t) (hncpu : t.ncpu = s.ncpu)
    (hlapic : t.lapicaddr = s.lapicaddr)
    (hxreads : ∀ k ∈ start.xreads, k < Mpconf.length conf + Mpconf.xlength conf) :
    OwnSlots conf t ↔ (∀ k ∈ s.reads, k < Mpconf.length conf) ∧
      (s.lapicaddr = 0 ∧ (processors conf).length ≤ 1 ∨
      s.lapicaddr ≠ 0 ∧ ∀ i p, ((processors conf).take ncpuMax)[i]? = some p →
        (Mpproc.apicid conf p).toNat = i) := by
  have henabled : t.enabled = s.created := by
    rw [State.enabled, hfinished.created, hncpu, List.filter_eq_self]
    rintro ⟨a, k⟩ hc
    exact decide_eq_true (hfound.lt_ncpu hc)
  have hselected (a : BitVec 8) : t.cpunumOn a = s.cpunumOn a := by
    rw [State.cpunumOn, State.cpunumOn, hlapic]
  rw [hfound.ownSlots_iff hboot hfinished (hncpu.trans_le hfound.ncpu_le) hxreads, henabled,
    ← hfound.own_iff]
  simp only [hselected]

/-- An entry of another type: one processor is left, without a local APIC. -/
theorem Found.ownSlots_unknown (hfound : Found conf start (visited conf) s)
    (hboot : s.bootcpu < ncpuMax) {t : State} (hfinished : Finished s t) (hncpu : t.ncpu = 1)
    (hlapic : t.lapicaddr = 0)
    (hxreads : ∀ k ∈ start.xreads, k < Mpconf.length conf + Mpconf.xlength conf) :
    OwnSlots conf t ↔ ∀ k ∈ s.reads, k < Mpconf.length conf := by
  have hown : ∀ c ∈ t.enabled, t.cpunumOn c.1 = c.2 := by
    intro c hc
    have hlt := of_decide_eq_true (List.mem_filter.mp hc).2
    rw [hncpu, Nat.lt_one_iff] at hlt
    rw [cpunumOn_eq_zero hlapic, hlt]
  rw [hfound.ownSlots_iff hboot hfinished (hncpu.trans_le (by decide)) hxreads]
  exact and_iff_left hown

end Slots

/-! ## The whole -/

section Whole

variable {npages : ℕ} {bytes : Bytes} {table : Accepted}

theorem reads_of_accepted (haccepts : mpconfig npages bytes = some (some table)) :
    table.reads = List.range' 0 4 ++ List.range' 4 2 ++
      List.range (Mpconf.length (recordAt bytes table.conf)) ++ [6] ++ List.range' 40 2 ++ [42] ∧
    table.xreads = List.range' (Mpconf.length (recordAt bytes table.conf))
      (Mpconf.xlength (recordAt bytes table.conf)) := by
  rw [mpconfig, Option.bind_eq_bind, Option.bind_eq_some_iff] at haccepts
  obtain ⟨mp, -, haccepts⟩ := haccepts
  cases mp with
  | none => cases haccepts
  | some mp =>
    simp only [Option.bind_eq_bind] at haccepts
    split at haccepts
    · cases haccepts
    · obtain ⟨conf, -, haccepts⟩ := Option.bind_eq_some_iff.mp haccepts
      split at haccepts
      · cases haccepts
      · split at haccepts
        · cases haccepts
        · split at haccepts
          · cases haccepts
          · split at haccepts
            · cases haccepts
            · cases haccepts
              exact ⟨rfl, rfl⟩

/-- The header ends with `xchecksum`, which is the last field that is read of it. -/
theorem startState_reads (haccepts : mpconfig npages bytes = some (some table)) :
    (∀ k ∈ (startState bytes table).reads, k < Mpconf.length (recordAt bytes table.conf)) ↔
      43 ≤ Mpconf.length (recordAt bytes table.conf) := by
  have hreads := (reads_of_accepted haccepts).1
  constructor
  · intro hall
    refine hall 42 ?_
    rw [startState, hreads]
    simp
  · intro hle k hk
    rw [startState, hreads] at hk
    simp only [List.mem_append, List.mem_range'_1, List.mem_range, List.mem_singleton] at hk
    omega

theorem startState_xreads (haccepts : mpconfig npages bytes = some (some table)) :
    ∀ k ∈ (startState bytes table).xreads, k < Mpconf.length (recordAt bytes table.conf) +
      Mpconf.xlength (recordAt bytes table.conf) := by
  intro k hk
  rw [startState, (reads_of_accepted haccepts).2, List.mem_range'_1] at hk
  exact hk.2

theorem found_start (conf : Record) (bytes : Bytes) (table : Accepted) :
    Found conf (startState bytes table) [] (startState bytes table) where
  ncpu := rfl
  created := rfl
  bootcpu := iff_of_true (by decide : 0 < ncpuMax) (List.forall_mem_nil _)
  ismp := iff_of_true rfl (List.forall_mem_nil _)
  reads _ := (and_iff_left (List.forall_mem_nil _)).symm
  xreads := rfl
  lapicaddr := rfl
  cpuId k _ hlt := (Nat.not_lt_zero k hlt).elim

/-- `mp_init` gives every processor of an accepted table a slot of its own exactly where the table
is orderly. -/
theorem mp_init_own_slots_iff (haccepts : mpconfig npages bytes = some (some table)) :
    (∃ s, mpInit npages bytes = some s ∧ OwnSlots (recordAt bytes table.conf) s) ↔
      Orderly (recordAt bytes table.conf) := by
  have hinit : mpInit npages bytes = initWith bytes table := by
    rw [mpInit, haccepts]
    rfl
  rw [hinit, initWith, entryLoop_eq_foldl, Option.bind_eq_bind]
  have hxreads := startState_xreads haccepts
  have hheader := startState_reads haccepts
  have haddr : (startState bytes table).lapicaddr = Mpconf.lapicaddr (recordAt bytes table.conf) :=
    rfl
  generalize recordAt bytes table.conf = conf at hxreads hheader haddr ⊢
  have hfound := found_of_walk (found_start conf bytes table) (visited conf)
  change (∃ s, Option.bind (State.startBoot ((visited conf).foldl (State.visit conf)
    (startState bytes table))) _ = some s ∧ _) ↔ _
  generalize (visited conf).foldl (State.visit conf) (startState bytes table) = loop at hfound ⊢
  have hreads := hfound.reads (Mpconf.length conf)
  rw [hheader] at hreads
  by_cases hboot : loop.bootcpu < ncpuMax
  · obtain ⟨t, hstart, hfinished, hncpu, hismp, hlapic⟩ := startBoot_some hboot
    rw [hstart, Option.bind_some]
    have hfields (n : ℕ) (addr : Word) (imcr : Bool) :
        Finished loop { t with ncpu := n, lapicaddr := addr, imcr := imcr } :=
      ⟨hfinished.bootcpu, hfinished.created, hfinished.reads, hfinished.xreads, hfinished.cpuId⟩
    by_cases hknown : t.ismp = true
    · have hall := hfound.ismp.mp (hismp ▸ hknown)
      have hnone : ¬ ∃ p ∈ visited conf, ¬ (IsProc conf p ∨ IsDevice conf p) :=
        fun ⟨p, hp, hother⟩ => hother (hall p hp)
      have hslots := hfound.ownSlots_known hboot
        (hfields t.ncpu t.lapicaddr (Mp.imcrp (recordAt bytes table.mp) ≠ 0)) hncpu hlapic hxreads
      rw [hfound.lapicaddr, haddr, hreads] at hslots
      rw [if_pos hknown]
      constructor
      · rintro ⟨s, hs, hown⟩
        cases hs
        obtain ⟨⟨hlength, hentries⟩, hids⟩ := hslots.mp hown
        exact ⟨hlength, hentries, hfound.bootcpu.mp hboot, Or.inr hids⟩
      · intro horderly
        exact ⟨_, rfl, hslots.mpr ⟨⟨horderly.header, horderly.entries⟩,
          horderly.ids.resolve_left hnone⟩⟩
    · have hexists : ∃ p ∈ visited conf, ¬ (IsProc conf p ∨ IsDevice conf p) := by
        by_contra hnone
        push Not at hnone
        exact hknown (hismp.trans (hfound.ismp.mpr hnone))
      have hslots := hfound.ownSlots_unknown hboot (hfields 1 0 t.imcr) rfl rfl hxreads
      rw [hreads] at hslots
      rw [if_neg hknown]
      constructor
      · rintro ⟨s, hs, hown⟩
        cases hs
        obtain ⟨hlength, hentries⟩ := hslots.mp hown
        exact ⟨hlength, hentries, hfound.bootcpu.mp hboot, Or.inl hexists⟩
      · intro horderly
        exact ⟨_, rfl, hslots.mpr ⟨horderly.header, horderly.entries⟩⟩
  · rw [startBoot_none hboot]
    constructor
    · rintro ⟨s, hs, -⟩
      cases hs
    · exact fun horderly => (hboot (hfound.bootcpu.mpr horderly.boot)).elim

end Whole

/-! ## Two processors -/

/-- The entry of a processor. -/
def procEntry (apicid flags : BitVec 8) : List (BitVec 8) :=
  [0, apicid, 0x14, flags] ++ List.replicate 16 0

/-- The start of the extended BIOS data area of a machine with two processors: the MP structure
and, behind it, the table.  The first processor has the APIC id 0. -/
def twoCpuArea (apicid : BitVec 8) : List (BitVec 8) :=
  text "_MP_" ++ [0x10, 0xFC, 0x09, 0x00, 1, 4, 139, 0, 0, 0, 0, 0] ++
    (text "PCMP" ++ [84, 0, 4, 102 - apicid] ++ text "BOCHSCPU0.1         " ++
      List.replicate 6 0 ++ [2, 0] ++ [0x00, 0x00, 0xE0, 0xFE] ++ List.replicate 4 0 ++
      procEntry 0 3 ++ procEntry apicid 1)

/-- The BIOS data area names the segment of the extended one. -/
def twoCpuBios (apicid : BitVec 8) : Bytes := fun va =>
  if va = 0xF000040E then 0xC0
  else if va = 0xF000040F then 0x9F
  else ((twoCpuArea apicid)[(va - 0xF009FC00).toNat]?).getD 0

/-- The table of such a machine. -/
def twoCpuConf (apicid : BitVec 8) : Record := recordAt (twoCpuBios apicid) 0xF009FC10

theorem twoCpuBios_accepted {apicid : BitVec 8} (h : apicid = 1 ∨ apicid = 2) :
    ∃ table, mpconfig 0x8000 (twoCpuBios apicid) = some (some table) ∧
      recordAt (twoCpuBios apicid) table.conf = twoCpuConf apicid := by
  have hconf : (mpconfig 0x8000 (twoCpuBios apicid)).map (Option.map Accepted.conf) =
      some (some 0xF009FC10) := by
    rcases h with rfl | rfl
    · decide +kernel
    · decide +kernel
  obtain ⟨accepted, haccepts, hmap⟩ := Option.map_eq_some_iff.mp hconf
  obtain ⟨table, rfl, htable⟩ := Option.map_eq_some_iff.mp hmap
  exact ⟨table, haccepts, by rw [htable, twoCpuConf]⟩

/-- With the APIC ids 0 and 1, each processor selects its slot. -/
theorem mp_init_own_slots_two_cpus :
    ∃ table, mpconfig 0x8000 (twoCpuBios 1) = some (some table) ∧
      ∃ s, mpInit 0x8000 (twoCpuBios 1) = some s ∧
        OwnSlots (recordAt (twoCpuBios 1) table.conf) s := by
  obtain ⟨table, haccepts, hconf⟩ := twoCpuBios_accepted (Or.inl rfl)
  refine ⟨table, haccepts, (mp_init_own_slots_iff haccepts).mpr ?_⟩
  rw [hconf]
  have hprocessors : processors (twoCpuConf 1) = [44, 64] := by decide +kernel
  constructor
  · decide +kernel
  · decide +kernel
  · decide +kernel
  · refine Or.inr (Or.inr ⟨by decide +kernel, ?_⟩)
    rw [hprocessors]
    intro i p hp
    rcases i with _ | _ | i
    · cases hp
      decide +kernel
    · cases hp
      decide +kernel
    · cases hp

/-- With the APIC ids 0 and 2, the second processor selects a slot that nothing was written to. -/
theorem skipped_apic_id_without_slot :
    ∃ table, mpconfig 0x8000 (twoCpuBios 2) = some (some table) ∧
      ¬ ∃ s, mpInit 0x8000 (twoCpuBios 2) = some s ∧
        OwnSlots (recordAt (twoCpuBios 2) table.conf) s := by
  obtain ⟨table, haccepts, -⟩ := twoCpuBios_accepted (Or.inr rfl)
  refine ⟨table, haccepts, ?_⟩
  rintro ⟨s, hs, hslots⟩
  have hfound : (mpInit 0x8000 (twoCpuBios 2)).map (fun s => (s.enabled, s.lapicaddr)) =
      some ([(0, 0), (2, 1)], 0xFEE00000) := by
    decide +kernel
  rw [hs] at hfound
  obtain ⟨henabled, hlapic⟩ := Prod.mk.inj (Option.some.inj hfound)
  have hown := (hslots.own (2, 1) (henabled ▸ by simp)).1
  rw [cpunumOn_eq_toNat (by rw [hlapic]; decide)] at hown
  exact absurd hown (by decide)

end Smp

end OsLabs.Jos
