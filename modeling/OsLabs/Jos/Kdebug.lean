import OsLabs.Jos.Printfmt
import OsLabs.Jos.StabSearch

/-!
# `kern/kdebug.c`

`debuginfo_eip` of the Lab 5 and the Lab 7 kernel.  The two differ where the
line number is taken from the last search, and Lab 7 also looks at the stabs
of the current user program.  A run that reads what cannot be read, or that
panics, has no result.
-/

namespace OsLabs.Jos

/-! ## Reading the tables -/

def Memory.half (memory : Memory) (a : Word) : Option (BitVec 16) := do
  let low ← memory a
  let high ← memory (a + 1)
  return high ++ low

def Memory.word (memory : Memory) (a : Word) : Option Word := do
  let byte0 ← memory a
  let byte1 ← memory (a + 1)
  let byte2 ← memory (a + 2)
  let byte3 ← memory (a + 3)
  return (byte3 ++ byte2 ++ byte1 ++ byte0 : BitVec (8 + 8 + 8 + 8))

/-- The address of `stabs[i]`. -/
def stabAddr (stabs : Word) (i : ℤ) : Word := stabs + BitVec.ofInt 32 (12 * i)

/-- The table that starts at `stabs`. -/
def Memory.stabs (memory : Memory) (stabs : Word) : Stabs where
  nStrx := fun i => memory.word (stabAddr stabs i)
  nType := fun i => memory (stabAddr stabs i + 4)
  nDesc := fun i => memory.half (stabAddr stabs i + 6)
  nValue := fun i => memory.word (stabAddr stabs i + 8)

/-- `stabs`, `stab_end`, `stabstr` and `stabstr_end`; also `struct UserStabData`. -/
structure StabData where
  stabs : Word
  stabEnd : Word
  stabstr : Word
  stabstrEnd : Word

/-- `stab_end - stabs`; undefined unless whole entries lie between the pointers. -/
def StabData.count (data : StabData) : Option ℤ :=
  let bytes := (data.stabEnd - data.stabs).toInt
  if bytes % 12 = 0 then some (bytes / 12) else none

/-- The bounds check of an index into the string table. -/
def StabData.name (data : StabData) (strx : Word) : Option CharPtr :=
  if strx < data.stabstrEnd - data.stabstr then some (.mem (data.stabstr + strx)) else none

/-- `stabstr_end > stabstr && stabstr_end[-1] == 0`. -/
def stringsValid (memory : Memory) (data : StabData) : Option Bool :=
  if data.stabstrEnd ≤ data.stabstr then some false
  else (memory (data.stabstrEnd - 1)).map fun last => last = 0

/-- `p - q` -/
def CharPtr.distance : CharPtr → CharPtr → Word
  | .mem p, .mem q => p - q
  | .const _ p, .const _ q => BitVec.ofNat 32 p - BitVec.ofNat 32 q
  | _, _ => 0

/-- `strfind`, within `fuel` bytes. -/
def strfind (memory : Memory) (c : BitVec 8) : ℕ → CharPtr → Option CharPtr
  | 0, _ => none
  | fuel + 1, s => do
      let byte ← s.fetch memory
      if byte = 0 then return s
      else if byte = c then return s
      else strfind memory c fuel s.next

/-- There are no more bytes than this; a string without an end is read for ever. -/
def addresses : ℕ := 2 ^ 32

structure Eipdebuginfo where
  eipFile : CharPtr
  eipLine : Word
  eipFnName : CharPtr
  eipFnNamelen : Word
  eipFnAddr : Word
  eipFnNarg : Word

def Eipdebuginfo.unknown (addr : Word) : Eipdebuginfo where
  eipFile := .const (text "<unknown>") 0
  eipLine := 0
  eipFnName := .const (text "<unknown>") 0
  eipFnNamelen := 9
  eipFnAddr := addr
  eipFnNarg := 0

/-- The two versions of the function. -/
inductive Lab
  | five
  | seven
  deriving DecidableEq

/-! ## The search for the line -/

/-- The local variables before the last search. -/
structure Scope where
  lfile : ℤ
  lfun : ℤ
  rfun : ℤ
  lline : ℤ
  rline : ℤ
  addr : Word

section Lookup

variable (memory : Memory) (data : StabData)

/-- The search for the function, within the file. -/
def findFunction (lfile rfile : ℤ) (addr : Word) (info : Eipdebuginfo) :
    Option (Scope × Eipdebuginfo) := do
  let stabs := memory.stabs data.stabs
  let (lfun, rfun) ← stabBinsearch stabs nFun lfile rfile addr
  if lfun ≤ rfun then
    let strx ← stabs.nStrx lfun
    let value ← stabs.nValue lfun
    return (⟨lfile, lfun, rfun, lfun, rfun, addr - value⟩,
      { info with eipFnName := (data.name strx).getD info.eipFnName, eipFnAddr := value })
  else
    return (⟨lfile, lfun, rfun, lfile, rfile, addr⟩, { info with eipFnAddr := addr })

/-- `strfind(info->eip_fn_name, ':') - info->eip_fn_name` -/
def nameLength (info : Eipdebuginfo) : Option Eipdebuginfo := do
  let colon ← strfind memory 0x3a addresses info.eipFnName
  return { info with eipFnNamelen := colon.distance info.eipFnName }

/-- The last entry that names a file, among the `count` entries from `lfile` on. -/
def fileEntry (stabs : Stabs) (lfile : ℤ) : ℕ → Option (Option ℤ)
  | 0 => some none
  | k + 1 => do
      let type ← stabs.nType (lfile + k)
      if type = nSol then return some (lfile + k)
      else if type = nSo then
        let value ← stabs.nValue (lfile + k)
        if value = 0 then fileEntry stabs lfile k else return some (lfile + k)
      else fileEntry stabs lfile k

/-- How many of the `count` entries from `lline` on are parameters, up to the first that is not. -/
def countParams (stabs : Stabs) (lline : ℤ) : ℕ → Option Word
  | 0 => some 0
  | k + 1 => do
      if (← stabs.nType lline) = nPsym then
        let rest ← countParams stabs (lline + 1) k
        return rest + 1
      else return 0

/-- The name of the file, when the scan has found an entry. -/
def storeFile (entry : Option ℤ) (info : Eipdebuginfo) : Option Eipdebuginfo :=
  match entry with
  | none => some info
  | some i => ((memory.stabs data.stabs).nStrx i).map fun strx =>
      { info with eipFile := (data.name strx).getD info.eipFile }

/-- What follows when the line number is stored: the file name and the number of parameters. -/
def fileAndParams (scope : Scope) (lline : ℤ) (info : Eipdebuginfo) :
    Option (ℤ × Eipdebuginfo) := do
  let stabs := memory.stabs data.stabs
  let entry ← fileEntry stabs scope.lfile (lline - scope.lfile + 1).toNat
  let info ← storeFile memory data entry info
  let narg ← countParams stabs (scope.lfun + 1) (scope.rfun - (scope.lfun + 1)).toNat
  return (0, { info with eipFnNarg := narg })

/-- The search for the line number, within the scope. -/
def lineNumber (lab : Lab) (scope : Scope) (info : Eipdebuginfo) : Option (ℤ × Eipdebuginfo) := do
  let stabs := memory.stabs data.stabs
  match lab with
  | .five =>
      let strx ← stabs.nStrx scope.lfile
      let info := { info with eipFile := .mem (data.stabstr + strx) }
      let (lline, rline) ← stabBinsearch stabs nSline scope.lline scope.rline scope.addr
      if rline < lline then return (-1, info)
      else
        let desc ← stabs.nDesc rline
        fileAndParams memory data scope lline { info with eipLine := desc.setWidth 32 }
  | .seven =>
      let (lline, _) ← stabBinsearch stabs nSline scope.lline scope.rline scope.addr
      let desc ← stabs.nDesc lline
      fileAndParams memory data scope lline { info with eipLine := desc.setWidth 32 }

/-- The part of `debuginfo_eip` that uses the tables: the file, then the function, then the line. -/
def searchStabs (lab : Lab) (addr : Word) (info : Eipdebuginfo) : Option (ℤ × Eipdebuginfo) := do
  if ← stringsValid memory data then
    let count ← data.count
    let (lfile, rfile) ← stabBinsearch (memory.stabs data.stabs) nSo 0 (count - 1) addr
    if lfile = 0 then return (-1, info)
    else
      let (scope, info) ← findFunction memory data lfile rfile addr info
      let info ← nameLength memory info
      lineNumber memory data lab scope info
  else return (-1, info)

end Lookup

/-! ## `debuginfo_eip` -/

/-- `USTABDATA` -/
def ustabdata : Word := 0x200000

def sizeofStab : Word := 12

def sizeofUserStabData : Word := 16

def readStabData (memory : Memory) (a : Word) : Option StabData := do
  let stabs ← memory.word a
  let stabEnd ← memory.word (a + 4)
  let stabstr ← memory.word (a + 8)
  let stabstrEnd ← memory.word (a + 12)
  return ⟨stabs, stabEnd, stabstr, stabstrEnd⟩

/-- `debuginfo_eip`, with the tables of the kernel at `kernel` and `curenv` using the directory
`pgdir`. -/
def debuginfoEip (lab : Lab) (σ : Phys) (pgdir : ℕ) (memory : Memory) (kernel : StabData)
    (addr : Word) : Option (ℤ × Eipdebuginfo) := do
  let info := Eipdebuginfo.unknown addr
  if ulim ≤ addr then searchStabs memory kernel lab addr info
  else
    match lab with
    | .five => none
    | .seven =>
        if (← userMemCheck σ pgdir ustabdata sizeofUserStabData pteU).isSome then
          return (-1, info)
        else
          let data ← readStabData memory ustabdata
          if (← userMemCheck σ pgdir data.stabs sizeofStab pteU).isSome then return (-1, info)
          else if (← userMemCheck σ pgdir data.stabstr (data.stabstrEnd - data.stabstr)
              pteU).isSome then
            return (-1, info)
          else searchStabs memory data lab addr info

/-! ## Names -/

section Names

variable {memory : Memory} {c : BitVec 8}

/-- A string with an end that can be read is searched to an end. -/
theorem strfind_isSome {count fuel : ℕ} {s : CharPtr} (hfuel : count < fuel)
    (hreads : ∀ i ≤ count, ((CharPtr.next^[i] s).fetch memory).isSome)
    (hend : (CharPtr.next^[count] s).fetch memory = some 0) :
    (strfind memory c fuel s).isSome := by
  induction count generalizing fuel s with
  | zero =>
    obtain ⟨fuel, rfl⟩ := Nat.exists_eq_succ_of_ne_zero hfuel.ne'
    have hnul : s.fetch memory = some 0 := hend
    rw [strfind, hnul]
    rfl
  | succ count ih =>
    obtain ⟨fuel, rfl⟩ := Nat.exists_eq_succ_of_ne_zero (Nat.ne_zero_of_lt hfuel)
    obtain ⟨byte, hbyte⟩ := Option.isSome_iff_exists.mp (hreads 0 (Nat.zero_le _))
    have hfirst : s.fetch memory = some byte := hbyte
    have hrest := ih (s := s.next) (Nat.lt_of_succ_lt_succ hfuel)
      (fun i hi => hreads (i + 1) (Nat.succ_le_succ hi)) hend
    rw [strfind, hfirst, Option.bind_eq_bind, Option.bind_some]
    split
    · rfl
    · split
      · rfl
      · exact hrest

theorem next_iterate_mem (a : Word) (i : ℕ) :
    CharPtr.next^[i] (.mem a) = .mem (a + BitVec.ofNat 32 i) := by
  induction i generalizing a with
  | zero => simp
  | succ i ih =>
    rw [Function.iterate_succ_apply, CharPtr.next, ih]
    congr 1
    rw [BitVec.ofNat_add]
    bv_omega

theorem next_iterate_const (text : List (BitVec 8)) (index i : ℕ) :
    CharPtr.next^[i] (.const text index) = .const text (index + i) := by
  induction i generalizing index with
  | zero => rfl
  | succ i ih =>
    rw [Function.iterate_succ_apply, CharPtr.next, ih]
    congr 1
    omega

/-- The constant name. -/
theorem strfind_unknown : (strfind memory c addresses (.const (text "<unknown>") 0)).isSome := by
  refine @strfind_isSome _ _ 9 _ _ (by norm_num [addresses]) (fun i hi => ?_) ?_
  · rw [next_iterate_const]
    interval_cases i <;> rfl
  · rw [next_iterate_const]
    rfl

end Names

section Strings

variable {memory : Memory} {data : StabData}

/-- What the validity check of the string table has seen. -/
theorem stringsValid_eq_true (hvalid : stringsValid memory data = some true) :
    data.stabstr < data.stabstrEnd ∧ memory (data.stabstrEnd - 1) = some 0 := by
  rw [stringsValid] at hvalid
  split at hvalid
  case isTrue hle => cases hvalid
  case isFalse hlt =>
    obtain ⟨last, hlast, hnul⟩ := Option.map_eq_some_iff.mp hvalid
    rw [decide_eq_true_eq] at hnul
    exact ⟨BitVec.not_le.mp hlt, hlast.trans (congrArg some hnul)⟩

/-- The check of a string table that can be read has a result. -/
theorem stringsValid_readable
    (hstrings : ∀ i : ℕ, i < (data.stabstrEnd - data.stabstr).toNat →
      (memory (data.stabstr + BitVec.ofNat 32 i)).isSome) :
    stringsValid memory data = some true ∨ stringsValid memory data = some false := by
  by_cases hle : data.stabstrEnd ≤ data.stabstr
  · exact Or.inr (if_pos hle)
  · have hlt := BitVec.not_le.mp hle
    have hread := hstrings ((data.stabstrEnd - data.stabstr).toNat - 1) (by bv_omega)
    rw [show data.stabstr + BitVec.ofNat 32 ((data.stabstrEnd - data.stabstr).toNat - 1) =
      data.stabstrEnd - 1 by bv_omega] at hread
    obtain ⟨last, hlast⟩ := Option.isSome_iff_exists.mp hread
    rw [stringsValid, if_neg hle, hlast, Option.map_some]
    cases decide (last = 0) with
    | true => exact Or.inl rfl
    | false => exact Or.inr rfl

/-- The name is the constant or one of the string table. -/
def FnNamed (data : StabData) (info : Eipdebuginfo) : Prop :=
  info.eipFnName = .const (text "<unknown>") 0 ∨ ∃ strx, data.name strx = some info.eipFnName

theorem findFunction_named {lfile rfile : ℤ} {addr : Word} {info info' : Eipdebuginfo}
    {scope : Scope} (hnamed : FnNamed data info)
    (hrun : findFunction memory data lfile rfile addr info = some (scope, info')) :
    FnNamed data info' := by
  obtain ⟨⟨lfun, rfun⟩, -, hrun⟩ := Option.bind_eq_some_iff.mp hrun
  dsimp only at hrun
  split at hrun
  · obtain ⟨strx, -, hrun⟩ := Option.bind_eq_some_iff.mp hrun
    obtain ⟨value, -, hrun⟩ := Option.bind_eq_some_iff.mp hrun
    cases hrun
    rw [FnNamed]
    cases hname : data.name strx with
    | none => exact hnamed
    | some name => exact Or.inr ⟨strx, hname⟩
  · cases hrun
    exact hnamed

/-- The length of a name of the string table is found within the table. -/
theorem nameLength_some (hvalid : stringsValid memory data = some true)
    (hstrings : ∀ i : ℕ, i < (data.stabstrEnd - data.stabstr).toNat →
      (memory (data.stabstr + BitVec.ofNat 32 i)).isSome)
    {info : Eipdebuginfo} (hnamed : FnNamed data info) :
    ∃ namelen, nameLength memory info = some { info with eipFnNamelen := namelen } := by
  suffices hfound : (strfind memory 0x3a addresses info.eipFnName).isSome by
    obtain ⟨colon, hcolon⟩ := Option.isSome_iff_exists.mp hfound
    exact ⟨_, by rw [nameLength, hcolon]; rfl⟩
  obtain ⟨hlt, hnul⟩ := stringsValid_eq_true hvalid
  rcases hnamed with hname | ⟨strx, hname⟩
  · rw [hname]
    exact strfind_unknown
  · rw [StabData.name] at hname
    split at hname
    case isFalse => cases hname
    case isTrue hstrx =>
      obtain ⟨count, hcount⟩ : ∃ count,
          count = (data.stabstrEnd - data.stabstr).toNat - 1 - strx.toNat := ⟨_, rfl⟩
      have hbound := (data.stabstrEnd - data.stabstr).isLt
      have hless := BitVec.lt_def.mp hstrx
      rw [← Option.some.inj hname]
      refine @strfind_isSome _ _ count _ _ (by rw [addresses]; omega) (fun i hi => ?_) ?_
      · rw [next_iterate_mem]
        have hread := hstrings (strx.toNat + i) (by omega)
        rwa [BitVec.ofNat_add, BitVec.ofNat_toNat, BitVec.setWidth_eq, ← BitVec.add_assoc] at hread
      · have hplace : data.stabstr + strx + BitVec.ofNat 32 count = data.stabstrEnd - 1 := by
          bv_omega
        rw [next_iterate_mem, CharPtr.fetch, hplace, hnul]

end Strings

/-! ## The scans -/

/-- All fields of entry `i` can be read. -/
structure Stabs.Readable (stabs : Stabs) (i : ℤ) : Prop where
  strx : (stabs.nStrx i).isSome
  type : (stabs.nType i).isSome
  desc : (stabs.nDesc i).isSome
  value : (stabs.nValue i).isSome

section Scans

variable {stabs : Stabs} {memory : Memory} {data : StabData} {scope : Scope} {lline : ℤ}
  {info info' : Eipdebuginfo}

theorem fileEntry_some {lfile : ℤ} {k : ℕ}
    (hreads : ∀ i, lfile ≤ i → i < lfile + k → stabs.Readable i) :
    ∃ entry, fileEntry stabs lfile k = some entry ∧
      ∀ i, entry = some i → lfile ≤ i ∧ i < lfile + k := by
  induction k with
  | zero => exact ⟨none, rfl, nofun⟩
  | succ k ih =>
    obtain ⟨entry, hentry, hbounds⟩ := ih fun i hlow hhigh => hreads i hlow (by omega)
    have hhere := hreads (lfile + k) (by omega) (by omega)
    obtain ⟨type, htype⟩ := Option.isSome_iff_exists.mp hhere.type
    obtain ⟨value, hvalue⟩ := Option.isSome_iff_exists.mp hhere.value
    have hlast : ∀ i, some (lfile + (k : ℤ)) = some i → lfile ≤ i ∧ i < lfile + (k + 1 : ℕ) := by
      rintro i ⟨⟩
      omega
    have hwiden : ∀ i, entry = some i → lfile ≤ i ∧ i < lfile + (k + 1 : ℕ) := fun i hi => by
      have hbound := hbounds i hi
      omega
    rw [fileEntry, htype, Option.bind_eq_bind, Option.bind_some]
    split
    · exact ⟨_, rfl, hlast⟩
    · split
      · rw [hvalue, Option.bind_eq_bind, Option.bind_some]
        split
        · exact ⟨entry, hentry, hwiden⟩
        · exact ⟨_, rfl, hlast⟩
      · exact ⟨entry, hentry, hwiden⟩

theorem countParams_some {k : ℕ} (hreads : ∀ i, lline ≤ i → i < lline + k → stabs.Readable i) :
    ∃ narg, countParams stabs lline k = some narg := by
  induction k generalizing lline with
  | zero => exact ⟨0, rfl⟩
  | succ k ih =>
    obtain ⟨rest, hrest⟩ := @ih (lline + 1) fun i hlow hhigh => hreads i (by omega) (by omega)
    obtain ⟨type, htype⟩ := Option.isSome_iff_exists.mp (hreads lline le_rfl (by omega)).type
    rw [countParams, htype, Option.bind_eq_bind, Option.bind_some]
    split
    · exact ⟨rest + 1, by rw [hrest]; rfl⟩
    · exact ⟨0, rfl⟩

/-- The last step returns 0 and leaves the line number. -/
theorem fileAndParams_ret {ret : ℤ}
    (hrun : fileAndParams memory data scope lline info = some (ret, info')) :
    ret = 0 ∧ info'.eipLine = info.eipLine := by
  rw [fileAndParams] at hrun
  obtain ⟨entry, -, hrun⟩ := Option.bind_eq_some_iff.mp hrun
  obtain ⟨mid, hmid, hrun⟩ := Option.bind_eq_some_iff.mp hrun
  obtain ⟨narg, -, hrun⟩ := Option.bind_eq_some_iff.mp hrun
  cases hrun
  refine ⟨rfl, ?_⟩
  cases entry with
  | none =>
    cases hmid
    rfl
  | some i =>
    obtain ⟨strx, -, rfl⟩ := Option.map_eq_some_iff.mp hmid
    rfl

/-- The last step returns when it can read the entries it scans. -/
theorem fileAndParams_some
    (hfile : ∀ i, scope.lfile ≤ i → i ≤ lline → (memory.stabs data.stabs).Readable i)
    (hparams : ∀ i, scope.lfun < i → i < scope.rfun → (memory.stabs data.stabs).Readable i) :
    ∃ info', fileAndParams memory data scope lline info = some (0, info') := by
  obtain ⟨entry, hentry, hbounds⟩ :=
    @fileEntry_some (memory.stabs data.stabs) scope.lfile (lline - scope.lfile + 1).toNat
      fun i hlow hhigh => hfile i hlow (by omega)
  obtain ⟨narg, hnarg⟩ :=
    @countParams_some (memory.stabs data.stabs) (scope.lfun + 1)
      (scope.rfun - (scope.lfun + 1)).toNat fun i hlow hhigh => hparams i (by omega) (by omega)
  obtain ⟨mid, hmid⟩ : ∃ mid, storeFile memory data entry info = some mid := by
    cases entry with
    | none => exact ⟨info, rfl⟩
    | some i =>
      have hi := hbounds i rfl
      obtain ⟨strx, hstrx⟩ := Option.isSome_iff_exists.mp (hfile i hi.1 (by omega)).strx
      exact ⟨_, by rw [storeFile, hstrx]; rfl⟩
  refine ⟨{ mid with eipFnNarg := narg }, ?_⟩
  simp only [fileAndParams, hentry, hmid, hnarg, Option.bind_eq_bind, Option.bind_some]
  rfl

end Scans

end OsLabs.Jos
