import OsLabs.Jos.LineNumbers
import OsLabs.Jos.StabBounds
import OsLabs.Jos.UserCheck
import OsLabs.Jos.UserMemory

/-!
# Stabs of user programs

For a user address `debuginfo_eip` follows four pointers that the program
chose.  It checks the structure that holds them, the first entry of the table
and the string table.  Here the memory that it may read is what these checks
have looked at: a run that reads anything else has no result.
-/

namespace OsLabs.Jos

/-! ## What the checks cover -/

/-- The addresses of the pages that a check of `len` bytes from `va` on looks at. -/
def Checked (va len a : Word) : Prop :=
  roundDown va ≤ a ∧ a < roundUp (va + len)

instance (va len a : Word) : Decidable (Checked va len a) :=
  inferInstanceAs (Decidable (_ ∧ _))

/-- The pointers that the user program has stored. -/
def userStabData (mem : UserMemory) : StabData where
  stabs := mem.readWord ustabdata
  stabEnd := mem.readWord (ustabdata + 4)
  stabstr := mem.readWord (ustabdata + 8)
  stabstrEnd := mem.readWord (ustabdata + 12)

/-- An address below `ULIM` that one of the three checks of `debuginfo_eip` covers. -/
def Covered (data : StabData) (a : Word) : Prop :=
  a < ulim ∧ (Checked ustabdata sizeofUserStabData a ∨ Checked data.stabs sizeofStab a ∨
    Checked data.stabstr (data.stabstrEnd - data.stabstr) a)

instance (data : StabData) (a : Word) : Decidable (Covered data a) :=
  inferInstanceAs (Decidable (_ ∧ _))

/-- The bytes of the address space, where a check covers them. -/
def validated (mem : UserMemory) : Memory := fun a =>
  if Covered (userStabData mem) a then some (mem a) else none

/-- `debuginfo_eip` returns, and all that it has read was covered. -/
def ReadsValidated (σ : Phys) (pgdir : ℕ) (mem : UserMemory) (kernel : StabData) (addr : Word) :
    Prop :=
  ∃ result, debuginfoEip .seven σ pgdir (validated mem) kernel addr = some result

/-- Entry `i` of the table of the user program. -/
def userStab (mem : UserMemory) (i : ℤ) : Stab where
  nStrx := mem.readWord (stabAddr (userStabData mem).stabs i)
  nType := mem (stabAddr (userStabData mem).stabs i + 4)
  nDesc := mem (stabAddr (userStabData mem).stabs i + 6 + 1) ++
    mem (stabAddr (userStabData mem).stabs i + 6)
  nValue := mem.readWord (stabAddr (userStabData mem).stabs i + 8)

/-- The first entry of the table is a file above the address; the search for the file then leaves
the index before it. -/
def BeginsAbove (mem : UserMemory) (addr : Word) : Prop :=
  (userStab mem 0).nType = nSo ∧ addr < (userStab mem 0).nValue

/-- All entries of the table are covered, and the three before it if the searches get there. -/
def TableCovered (mem : UserMemory) (addr : Word) : Prop :=
  ∃ count, (userStabData mem).count = some count ∧
    ∀ i, (0 ≤ i ∨ BeginsAbove mem addr ∧ -3 ≤ i) → i < count → ∀ k < 12,
      Covered (userStabData mem) (stabAddr (userStabData mem).stabs i + BitVec.ofNat 32 k)

section Reading

variable {mem : UserMemory} {a : Word}

theorem validated_covered (hcovered : Covered (userStabData mem) a) :
    validated mem a = some (mem a) :=
  if_pos hcovered

/-- A covered word. -/
theorem word_validated (hcovered : ∀ k < 4, Covered (userStabData mem) (a + BitVec.ofNat 32 k)) :
    (validated mem).word a = some (mem.readWord a) := by
  have h0 : validated mem a = some (mem a) := by
    have hzero := validated_covered (hcovered 0 (by decide))
    rwa [show a + BitVec.ofNat 32 0 = a from BitVec.add_zero a] at hzero
  have h1 : validated mem (a + 1) = some (mem (a + 1)) := validated_covered (hcovered 1 (by decide))
  have h2 : validated mem (a + 2) = some (mem (a + 2)) := validated_covered (hcovered 2 (by decide))
  have h3 : validated mem (a + 3) = some (mem (a + 3)) := validated_covered (hcovered 3 (by decide))
  simp only [Memory.word, h0, h1, h2, h3, Option.bind_eq_bind, Option.bind_some]
  rfl

/-- A covered table is read as it is. -/
theorem readsAll_validated {low last : ℤ}
    (hcovered : ∀ i, low ≤ i → i ≤ last → ∀ k < 12,
      Covered (userStabData mem) (stabAddr (userStabData mem).stabs i + BitVec.ofNat 32 k)) :
    ReadsAll ((validated mem).stabs (userStabData mem).stabs) (userStab mem) low last where
  type := fun i hlow hhigh => validated_covered (hcovered i hlow hhigh 4 (by decide))
  value := fun i hlow hhigh => word_validated fun k hk => by
    have hbyte := hcovered i hlow hhigh (8 + k) (by omega)
    rwa [BitVec.ofNat_add, ← BitVec.add_assoc] at hbyte
  strx := fun i hlow hhigh => word_validated fun k hk => hcovered i hlow hhigh k (by omega)
  desc := fun i hlow hhigh => by
    have hbyte0 := validated_covered (hcovered i hlow hhigh 6 (by decide))
    have hbyte1 := validated_covered (hcovered i hlow hhigh 7 (by decide))
    have hseven : stabAddr (userStabData mem).stabs i + BitVec.ofNat 32 7 =
        stabAddr (userStabData mem).stabs i + 6 + 1 := by
      rw [BitVec.add_assoc]
      rfl
    rw [hseven] at hbyte1
    have hbyte0' : validated mem (stabAddr (userStabData mem).stabs i + 6) =
      some (mem (stabAddr (userStabData mem).stabs i + 6)) := hbyte0
    rw [Memory.stabs]
    simp only [Memory.half, hbyte0', hbyte1, Option.bind_eq_bind, Option.bind_some]
    rfl

end Reading

/-! ## Searches over a covered table -/

section Searches

variable {memory : Memory} {data : StabData} {stab : ℤ → Stab} {low last lfile rfile : ℤ}
  {addr : Word} {info : Eipdebuginfo}

/-- The search for the line stays within a table that can be read. -/
theorem lineNumber_some {scope : Scope} (hreads : ReadsAll (memory.stabs data.stabs) stab low last)
    (hfile : low ≤ scope.lfile) (hlfun : low ≤ scope.lfun) (hrfun : scope.rfun ≤ last)
    (hlline : low ≤ scope.lline) (hrange : scope.lline ≤ scope.rline) (hrline : scope.rline ≤ last)
    (hbefore : low < scope.lline ∨ (stab scope.lline).nType ≠ nSline) :
    ∃ result, lineNumber memory data .seven scope info = some result := by
  obtain ⟨lline, rline, hresult, hbounds⟩ :=
    stabBinsearch_bounds nSline (hreads.restrict hlline hrline).toReads scope.addr
  have hwithin : low ≤ lline ∧ lline ≤ last := by
    rcases hbounds with ⟨rfl, -⟩ | ⟨hge, hle, hhigh, hfirst⟩
    · exact ⟨hlline, hrange.trans hrline⟩
    · refine ⟨?_, by omega⟩
      rcases hbefore with hlt | htype
      · omega
      · exact hlline.trans (hfirst htype)
  obtain ⟨info', hrest⟩ := @fileAndParams_some memory data scope lline
    { info with eipLine := (stab lline).nDesc.setWidth 32 }
    (fun i hi hile => hreads.readable (hfile.trans hi) (hile.trans hwithin.2))
    (fun i hi hilt => hreads.readable (hlfun.trans hi.le) (hilt.le.trans hrfun))
  refine ⟨(0, info'), ?_⟩
  rw [lineNumber]
  simp only [hresult, hreads.desc lline hwithin.1 hwithin.2, Option.bind_eq_bind, Option.bind_some]
  exact hrest

/-- The search for the function hands on bounds within the table. -/
structure ScopeWithin (stab : ℤ → Stab) (lfile rfile : ℤ) (scope : Scope) : Prop where
  file : scope.lfile = lfile
  lfun : lfile - 1 ≤ scope.lfun
  rfun : scope.rfun ≤ rfile
  lline : scope.lline = scope.lfun ∨ scope.lline = lfile
  range : scope.lline ≤ scope.rline
  rline : scope.rline ≤ rfile
  not_before : (stab lfile).nType = nSo → lfile ≤ scope.lfun

theorem findFunction_some (hreads : ReadsAll (memory.stabs data.stabs) stab low last)
    (hlow : low ≤ lfile) (hrange : lfile ≤ rfile) (hlast : rfile ≤ last)
    (hbefore : low < lfile ∨ (stab lfile).nType = nSo) (info : Eipdebuginfo) :
    ∃ scope info', findFunction memory data lfile rfile addr info = some (scope, info') ∧
      ScopeWithin stab lfile rfile scope := by
  have hfile := (hreads.restrict hlow hlast).toReads
  have hsoFun : (stab lfile).nType = nSo → (stab lfile).nType ≠ nFun := fun h => by
    rw [h]
    decide
  obtain ⟨lfun, rfun, hresult, hbounds⟩ := stabBinsearch_bounds nFun hfile addr
  rcases hbounds with ⟨rfl, rfl⟩ | ⟨hge, hle, hhigh, hfirst⟩
  · refine ⟨⟨lfun, lfun, lfun - 1, lfun, rfile, addr⟩, { info with eipFnAddr := addr }, ?_,
      rfl, by dsimp only; omega, by dsimp only; omega, Or.inl rfl, hrange, le_rfl,
      fun _ => le_rfl⟩
    rw [findFunction]
    simp only [hresult, Option.bind_eq_bind, Option.bind_some,
      if_neg (show ¬ lfun ≤ lfun - 1 by omega)]
    rfl
  · have hwithin : low ≤ lfun := by
      rcases hbefore with hlt | hso
      · omega
      · exact hlow.trans (hfirst (hsoFun hso))
    have hupto : lfun ≤ last := hle.trans (hhigh.trans hlast)
    refine ⟨⟨lfile, lfun, rfun, lfun, rfun, addr - (stab lfun).nValue⟩,
      { info with
        eipFnName := (data.name (stab lfun).nStrx).getD info.eipFnName
        eipFnAddr := (stab lfun).nValue }, ?_,
      rfl, hge, hhigh, Or.inl rfl, hle, hhigh, fun hso => hfirst (hsoFun hso)⟩
    rw [findFunction]
    simp only [hresult, Option.bind_eq_bind, Option.bind_some, if_pos hle,
      hreads.strx lfun hwithin hupto, hreads.value lfun hwithin hupto]
    rfl

/-- A search over a table that can be read returns; three entries before the table are read only
when the table begins with a file above the address. -/
theorem searchStabs_some {count : ℤ} (hcount : data.count = some count)
    (hreads : ReadsAll (memory.stabs data.stabs) stab low (count - 1)) (hlow : low ≤ 0)
    (hbefore : low ≤ -3 ∨ ((stab 0).nType = nSo → (stab 0).nValue ≤ addr))
    (haddr : addr < ulim) (hvalid : stringsValid memory data = some true)
    (hstrings : ∀ i : ℕ, i < (data.stabstrEnd - data.stabstr).toNat →
      (memory (data.stabstr + BitVec.ofNat 32 i)).isSome) (hnamed : FnNamed data info) :
    ∃ result, searchStabs memory data .seven addr info = some result := by
  have htable := (hreads.restrict hlow le_rfl).toReads
  obtain ⟨lfile, rfile, hresult, hbounds⟩ := stabBinsearch_bounds nSo htable addr
  by_cases hzero : lfile = 0
  · refine ⟨(-1, info), ?_⟩
    rw [searchStabs]
    simp only [hvalid, hcount, hresult, hzero, Option.bind_eq_bind, Option.bind_some, if_pos]
    rfl
  obtain ⟨hge, hle, hhigh, -⟩ := hbounds.resolve_left fun h => hzero h.1
  -- the index from which everything that follows can be read
  have hfile : low + 2 ≤ lfile ∨ low < lfile ∧ (stab lfile).nType = nSo := by
    rcases hbefore with hthree | hfirst
    · exact Or.inl (by omega)
    · rcases stabBinsearch_left htable hfirst hresult with hsame | hentry | hfar
      · exact absurd hsame hzero
      · have hfrom := hentry.1
        exact Or.inr ⟨by omega, hentry.2.2⟩
      · have hulim : addr.toNat < 4018143232 := haddr
        rw [Far] at hfar
        exact Or.inl (by omega)
  obtain ⟨scope, info', hfunction, hscope⟩ :=
    @findFunction_some memory data stab low (count - 1) lfile rfile addr hreads (by omega) hle hhigh
      (hfile.imp (fun h => by omega) And.right) info
  obtain ⟨namelen, hname⟩ := nameLength_some hvalid hstrings (findFunction_named hnamed hfunction)
  obtain ⟨rfl, hlfun, hrfun, hlline, hrange, hrline, hso⟩ := hscope
  obtain ⟨result, hline⟩ := @lineNumber_some memory data stab low (count - 1)
    { info' with eipFnNamelen := namelen } scope hreads (by omega) (by omega)
    (hrfun.trans hhigh) (by omega) hrange (hrline.trans hhigh) (by
      rcases hfile with hroom | ⟨hlt, htype⟩
      · exact Or.inl (by omega)
      · have hge := hso htype
        exact Or.inl (by omega))
  refine ⟨result, ?_⟩
  rw [searchStabs]
  simp only [hvalid, hcount, hresult, hfunction, hname, Option.bind_eq_bind, Option.bind_some,
    if_pos, if_neg hzero]
  exact hline

end Searches

/-! ## `debuginfo_eip` for a user address -/

/-- When all that the searches may reach is covered: the string table does not reach the last page
of the address space, where the check of its end wraps around, and the table is covered. -/
structure TablesCovered (mem : UserMemory) (addr : Word) : Prop where
  strings : (userStabData mem).stabstr < (userStabData mem).stabstrEnd →
    (userStabData mem).stabstrEnd ≤ 0xfffff000
  table : stringsValid (validated mem) (userStabData mem) = some true → TableCovered mem addr

section User

variable {σ : Phys} {pgdir : ℕ} {mem : UserMemory} {kernel : StabData} {addr : Word}

/-- The check has a result in every well-formed address space. -/
theorem userMemCheck_some (htables : TablesIn σ pgdir) (va len perm : Word) :
    ∃ result, userMemCheck σ pgdir va len perm = some result := by
  have hbound := va.isLt
  rw [userMemCheck_pages σ pgdir perm rfl]
  rcases userMemCheckFrom_pages perm va htables (va.toNat / 4096)
    ((va.toNat + len.toNat + 4095) % 2 ^ 32 / 4096 - va.toNat / 4096) (by omega) with
    ⟨hrun, -⟩ | ⟨q, -, -, -, -, hrun⟩
  · exact ⟨_, hrun⟩
  · exact ⟨_, hrun⟩

/-- The structure is covered by its own check. -/
theorem covered_ustabdata {k : ℕ} (hk : k < 16) :
    Covered (userStabData mem) (ustabdata + BitVec.ofNat 32 k) := by
  have hulim : ustabdata + BitVec.ofNat 32 k < ulim := by
    interval_cases k <;> decide
  have hchecked : Checked ustabdata sizeofUserStabData (ustabdata + BitVec.ofNat 32 k) := by
    interval_cases k <;> decide
  exact ⟨hulim, Or.inl hchecked⟩

theorem readStabData_validated :
    readStabData (validated mem) ustabdata = some (userStabData mem) := by
  have hfield (field : ℕ) (hfield : field + 4 ≤ 16) :
      (validated mem).word (ustabdata + BitVec.ofNat 32 field) =
        some (mem.readWord (ustabdata + BitVec.ofNat 32 field)) :=
    word_validated fun k hk => by
      have hbyte := @covered_ustabdata mem (field + k) (by omega)
      rwa [BitVec.ofNat_add, ← BitVec.add_assoc] at hbyte
  have h0 : (validated mem).word ustabdata = some (mem.readWord ustabdata) := by
    have hzero := hfield 0 (by decide)
    rwa [show ustabdata + BitVec.ofNat 32 0 = ustabdata from BitVec.add_zero ustabdata] at hzero
  have h4 : (validated mem).word (ustabdata + 4) = some (mem.readWord (ustabdata + 4)) :=
    hfield 4 (by decide)
  have h8 : (validated mem).word (ustabdata + 8) = some (mem.readWord (ustabdata + 8)) :=
    hfield 8 (by decide)
  have h12 : (validated mem).word (ustabdata + 12) = some (mem.readWord (ustabdata + 12)) :=
    hfield 12 (by decide)
  simp only [readStabData, h0, h4, h8, h12, Option.bind_eq_bind, Option.bind_some]
  rfl

/-- A string table whose check succeeds and does not wrap around is covered. -/
theorem covered_strings (htables : TablesIn σ pgdir)
    (hlt : (userStabData mem).stabstr < (userStabData mem).stabstrEnd)
    (hend : (userStabData mem).stabstrEnd ≤ 0xfffff000)
    (hcheck : userMemCheck σ pgdir (userStabData mem).stabstr
      ((userStabData mem).stabstrEnd - (userStabData mem).stabstr) pteU = some none) {i : ℕ}
    (hi : i < ((userStabData mem).stabstrEnd - (userStabData mem).stabstr).toNat) :
    Covered (userStabData mem) ((userStabData mem).stabstr + BitVec.ofNat 32 i) := by
  generalize userStabData mem = data at *
  have hbound := data.stabstrEnd.isLt
  rw [BitVec.lt_def] at hlt
  have hend' : data.stabstrEnd.toNat ≤ 2 ^ 32 - 4096 := hend
  have hlen : (data.stabstrEnd - data.stabstr).toNat = data.stabstrEnd.toNat - data.stabstr.toNat :=
    BitVec.toNat_sub_of_le (BitVec.le_def.mpr hlt.le)
  rw [hlen] at hi
  have haddr : (data.stabstr + BitVec.ofNat 32 i).toNat = data.stabstr.toNat + i := by
    rw [BitVec.toNat_add, BitVec.toNat_ofNat]
    omega
  have hexact : CheckExact σ pgdir data.stabstr (data.stabstrEnd - data.stabstr) pteU :=
    userMemCheck_exact htables (by omega) (by omega)
  rcases hexact with ⟨-, hall⟩ | ⟨fault, hfault, -⟩
  · obtain ⟨hulim, -⟩ := hall (data.stabstr.toNat + i) ⟨Nat.le_add_right _ _, by omega⟩
    refine ⟨by rw [BitVec.lt_def, haddr]; exact hulim, Or.inr (Or.inr ⟨?_, ?_⟩)⟩
    · rw [BitVec.le_def, toNat_roundDown, haddr]
      omega
    · rw [BitVec.lt_def, toNat_roundUp_end, haddr]
      omega
  · rw [hcheck] at hfault
    cases hfault

end User

/-! ## One page at `USTABDATA` -/

/-- Directory 1 and page table 2 map page 3 at `USTABDATA` for the user. -/
def ustabSpace : Phys where
  npages := 16
  pages := fun _ => ⟨none, 0⟩
  pageFreeList := none
  mem := fun page index =>
    if page = 1 ∧ index = 0 then page2pa 2 ||| pteP ||| pteU ||| pteW
    else if page = 2 ∧ index = 512 then page2pa 3 ||| pteU ||| pteW ||| pteP
    else 0
  mmuBits := fun _ _ => 0

theorem ustabSpace_tables : TablesIn ustabSpace 1 := by
  intro d hpresent
  by_cases hd : d = 0
  · rw [hd]
    decide
  · refine absurd ?_ hpresent
    simp [Phys.load, ustabSpace, hd]

/-- A page of zeros but for the structure: a table from `stabs` to `stabEnd`, and the empty
string behind the structure. -/
def ustabMemory (stabs stabEnd : Word) : UserMemory :=
  UserMemory.storeBytes (fun _ => 0) ustabdata
    ([stabs, stabEnd, 0x200010, 0x200011].flatMap wordBytes)

end OsLabs.Jos
